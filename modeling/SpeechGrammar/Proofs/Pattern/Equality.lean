import SpeechGrammar.Proofs.Pattern.Compiled
import SpeechGrammar.Proofs.Regex.CharMap

set_option autoImplicit false

/-!
# What equal patterns have in common

Patterns are compared by their sources. The source of a compiled rule determines the expression,
whatever rule and mode it comes from, but it does not say whether case counts. So equal patterns
accept the same texts if they are compiled alike in this respect, and else the same texts up to
case (`isMatch_of_beq`).
-/

namespace SpeechGrammar

open Text Regex

theorem Pattern.beq_eq_true_iff {p q : Pattern} : (p == q) = true ↔ p.source = q.source :=
  beq_iff_eq (a := p.source)

/-! ## Compiled patterns -/

/-- What the compiler can give: the empty pattern, or a source with the expression that it is read
as. -/
inductive Pattern.IsCompiled (options : CompileOptions) : Pattern → Prop
  | empty : IsCompiled options .empty
  | regex {source : List Char} {expression : Regex} (hne : source ≠ [])
      (hsource : ofSource? source = some expression) :
      IsCompiled options (.regex source expression options.caseInsensitive)

theorem Pattern.isCompiled_of_ofSource {source : List Char} (hne : source ≠ [])
    {options : CompileOptions} {p : Pattern} (h : Pattern.ofSource source options = .ok p) :
    p.IsCompiled options := by
  cases hsource : ofSource? source with
  | none =>
      rw [Pattern.ofSource, hsource] at h
      cases h
  | some expression =>
      have hcases := ofSource_cases options hsource
      rw [h] at hcases
      simp only [Except.ok.injEq, reduceCtorEq, or_false] at hcases
      rw [hcases]
      exact .regex hne hsource

theorem isCompiled_of_compileRule {rule? : Option Rule} {mode : Option Mode}
    {options : CompileOptions} {p : Pattern} (h : compileRule rule? mode options = .ok p) :
    p.IsCompiled options := by
  cases rule? with
  | none =>
      cases h
      exact .empty
  | some rule =>
      obtain ⟨fragment, -, hfragment⟩ := bind_eq_ok.1 h
      rw [Pattern.ofFragment] at hfragment
      split_ifs at hfragment
      · cases hfragment
        exact .empty
      · exact Pattern.isCompiled_of_ofSource (List.cons_ne_nil _ _) hfragment

/-- Equal compiled patterns are empty both, or they have the same expression. -/
theorem Pattern.IsCompiled.cases_of_beq {p q : Pattern} {options options' : CompileOptions}
    (hp : p.IsCompiled options) (hq : q.IsCompiled options') (heq : (p == q) = true) :
    (p = .empty ∧ q = .empty) ∨ ∃ source expression,
      p = .regex source expression options.caseInsensitive ∧
        q = .regex source expression options'.caseInsensitive := by
  rw [Pattern.beq_eq_true_iff] at heq
  -- Only the empty pattern has the empty source, and a source is read in one way.
  cases hp with
  | empty =>
      cases hq with
      | empty => exact .inl ⟨rfl, rfl⟩
      | regex hne _ => exact absurd (String.ofList_eq_empty_iff.1 heq.symm) hne
  | regex hne hsource =>
      cases hq with
      | empty => exact absurd (String.ofList_eq_empty_iff.1 heq) hne
      | regex _ hsource' =>
          obtain rfl := String.ofList_injective heq
          obtain rfl := Option.some.inj (hsource.symm.trans hsource')
          exact .inr ⟨_, _, rfl, rfl⟩

/-- Without regard to case an expression accepts the texts that differ only in case from one that
it accepts with regard to case. -/
theorem isMatch_ignoreCase_iff (source : List Char) (expression : Regex) (text : List Char) :
    (Pattern.regex source expression true).isMatch text = true ↔
      ∃ other, other.map foldCase = text.map foldCase ∧
        (Pattern.regex source expression false).isMatch other = true :=
  isMatch_mapChars_iff expression text

/-- Equal patterns, of whatever rules and modes, are empty together. They accept the same texts if
both are compiled with regard to case or both without. If only one is compiled without, it accepts
the texts that have the same simple case folding, character by character, as one that the other
accepts. -/
theorem isMatch_of_beq {rule? rule?' : Option Rule} {mode mode' : Option Mode}
    {options options' : CompileOptions} {p q : Pattern}
    (hp : compileRule rule? mode options = .ok p)
    (hq : compileRule rule?' mode' options' = .ok q) (heq : (p == q) = true) :
    p.isEmpty = q.isEmpty ∧
      (options.caseInsensitive = options'.caseInsensitive →
        ∀ text, p.isMatch text = q.isMatch text) ∧
      (options.caseInsensitive = false → options'.caseInsensitive = true → ∀ text,
        q.isMatch text = true ↔
          ∃ other, other.map foldCase = text.map foldCase ∧ p.isMatch other = true) := by
  obtain ⟨rfl, rfl⟩ | ⟨source, expression, rfl, rfl⟩ :=
    (isCompiled_of_compileRule hp).cases_of_beq (isCompiled_of_compileRule hq) heq
  · exact ⟨rfl, fun _ _ => rfl, fun _ _ text => by simp [Pattern.isMatch]⟩
  · refine ⟨rfl, fun hsame text => by rw [hsame], fun hoff hon text => ?_⟩
    rw [hoff, hon]
    exact isMatch_ignoreCase_iff source expression text

/-- A single word. -/
def refusalRule : Rule := { id := "no", body := [.token "no"] }

/-- The same word as raw text in an item, with a tag behind it. -/
def taggedRefusalRule : Rule :=
  { id := "tagged", body := [.element (.item none) [.literal " no "], .tag "cancel"] }

/-- The expression that the patterns of both rules write. -/
def refusalExpression : Regex := .concat [.atStart, .char ' ', .char 'n', .char 'o', .atEnd]

/-- The pattern of both rules. -/
def refusalPattern (ignoreCase : Bool) : Pattern :=
  .regex "^ no$".toList refusalExpression ignoreCase

theorem simplify_refusalExpression :
    refusalExpression.simplify caseVariants = .concat [.atStart, .literal [' '],
      .oneOf [(78, 78), (110, 110)], .oneOf [(79, 79), (111, 111)], .atEnd] := by
  have hspace : caseVariants ' ' = [' '] := by decide +kernel
  have hn : caseVariants 'n' = ['n', 'N'] := by decide +kernel
  have ho : caseVariants 'o' = ['o', 'O'] := by decide +kernel
  simp only [refusalExpression, simplify, simplifyAll, hspace, hn, ho, List.map_cons, List.map_nil,
    classOf_single]
  rw [classOf_pair (by decide), classOf_pair (by decide)]
  rfl

theorem compileRule_eq_refusalPattern {rule : Rule} {mode : Option Mode} (options : CompileOptions)
    (hfragment : rule.fragment (.ofMode mode) = .ok " no".toList) :
    compileRule (some rule) mode options = .ok (refusalPattern options.caseInsensitive) := by
  refine compileRule_eq_ok_of_options hfragment (by decide) rfl (by decide +kernel) ?_
  cases options.caseInsensitive with
  | false => decide +kernel
  | true =>
      show (refusalExpression.simplify caseVariants).automatonSize ≤ maxAutomatonSize
      rw [simplify_refusalExpression]
      decide +kernel

theorem compileRule_refusalRule (options : CompileOptions) :
    compileRule (some refusalRule) none options = .ok (refusalPattern options.caseInsensitive) :=
  compileRule_eq_refusalPattern options (by decide +kernel)

theorem compileRule_taggedRefusalRule (options : CompileOptions) :
    compileRule (some taggedRefusalRule) (some .voice) options =
      .ok (refusalPattern options.caseInsensitive) :=
  compileRule_eq_refusalPattern options (by decide +kernel)

/-- Two rules in two modes, the first compiled with regard to case and the second without. -/
theorem isMatch_of_beq_refusalRule :
    compileRule (some refusalRule) none {} = .ok (refusalPattern false) ∧
      compileRule (some taggedRefusalRule) (some .voice) { caseInsensitive := true } =
        .ok (refusalPattern true) ∧
      (refusalPattern false == refusalPattern true) = true ∧
      (refusalPattern false).isMatch " no".toList = true ∧
      (refusalPattern true).isMatch " No".toList = true := by
  have hp := compileRule_refusalRule {}
  have hq := compileRule_taggedRefusalRule { caseInsensitive := true }
  have heq : (refusalPattern false == refusalPattern true) = true := by decide +kernel
  have hno : (refusalPattern false).isMatch " no".toList = true := by decide +kernel
  obtain ⟨-, -, hignore⟩ := isMatch_of_beq hp hq heq
  have hfolded : " no".toList.map foldCase = " No".toList.map foldCase := by decide +kernel
  exact ⟨hp, hq, heq, hno, (hignore rfl rfl " No".toList).2 ⟨" no".toList, hfolded, hno⟩⟩

/-- So patterns may be equal and yet differ in what they accept: the source does not say whether
case counts. -/
theorem isMatch_of_beq_ne :
    ((refusalPattern false == refusalPattern true) = true ∧
      (refusalPattern false).isMatch " NO".toList = false ∧
      (refusalPattern true).isMatch " NO".toList = true) ∧
    ¬ ∀ (rule? rule?' : Option Rule) (mode mode' : Option Mode)
      (options options' : CompileOptions) (p q : Pattern),
      compileRule rule? mode options = .ok p → compileRule rule?' mode' options' = .ok q →
        (p == q) = true → ∀ text, p.isMatch text = q.isMatch text := by
  have hcase : (refusalPattern false == refusalPattern true) = true := by decide +kernel
  have hoff : (refusalPattern false).isMatch " NO".toList = false := by decide +kernel
  have hon : (refusalPattern true).isMatch " NO".toList = true := by decide +kernel
  refine ⟨⟨hcase, hoff, hon⟩, fun hall => ?_⟩
  have hsame := hall _ _ _ _ _ _ _ _ (compileRule_refusalRule {})
    (compileRule_refusalRule { caseInsensitive := true }) hcase " NO".toList
  exact absurd (hoff.symm.trans (hsame.trans hon)) (by decide)

end SpeechGrammar
