import SpeechGrammar.Proofs.Pattern.Equality

set_option autoImplicit false

/-!
# Patterns without regard to case

Whether case counts is seen in how a pattern is matched, and in nothing else that a rule is compiled
into (`source_eq_of_compileRule`). Without regard to case an expression still matches what it
matches with regard to case, whatever it is made of: the characters are folded on both sides, and
the class without members has none after folding either. So ignoring case only widens what a rule
accepts, and only by texts that differ from an accepted one in case (`compileRule_ignoreCase`).
-/

namespace SpeechGrammar

open Text Regex

/-- The source of the pattern of a rule does not depend on the options. -/
theorem source_eq_of_compileRule {rule? : Option Rule} {mode : Option Mode}
    {options options' : CompileOptions} {p q : Pattern}
    (hp : compileRule rule? mode options = .ok p) (hq : compileRule rule? mode options' = .ok q) :
    p.source = q.source := by
  cases rule? with
  | none =>
      cases hp
      cases hq
      rfl
  | some rule =>
      obtain ⟨fragment, hfragment, hp'⟩ := bind_eq_ok.1 hp
      by_cases hempty : fragment = []
      · obtain ⟨_, hsame, hq'⟩ := bind_eq_ok.1 hq
        rw [hfragment] at hsame
        cases hsame
        rw [hempty] at hp' hq'
        cases hp'
        cases hq'
        rfl
      · rw [source_of_compileRule hfragment hempty hp, source_of_compileRule hfragment hempty hq]

/-- Ignoring case keeps the source of a pattern, and whether it is the empty one. It keeps every
text that is accepted with regard to case, utterances among them, and adds those that have the same
simple case folding, character by character, as an accepted one. -/
theorem compileRule_ignoreCase {rule? : Option Rule} {mode : Option Mode} {p q : Pattern}
    (hp : compileRule rule? mode { caseInsensitive := false } = .ok p)
    (hq : compileRule rule? mode { caseInsensitive := true } = .ok q) :
    p.source = q.source ∧ p.isEmpty = q.isEmpty ∧
      (∀ utterance : String, p.isMatch (canonicalize (.ofMode mode) utterance).toList = true →
        q.isMatch (canonicalize (.ofMode mode) utterance).toList = true) ∧
      ∀ text, q.isMatch text = true ↔
        ∃ other, other.map foldCase = text.map foldCase ∧ p.isMatch other = true := by
  have hsource := source_eq_of_compileRule hp hq
  have hwider : p.isEmpty = q.isEmpty ∧ ∀ text, q.isMatch text = true ↔
      ∃ other, other.map foldCase = text.map foldCase ∧ p.isMatch other = true := by
    obtain ⟨rfl, rfl⟩ | ⟨source, expression, rfl, rfl⟩ :=
      (isCompiled_of_compileRule hp).cases_of_beq (isCompiled_of_compileRule hq)
        (Pattern.beq_eq_true_iff.2 hsource)
    · exact ⟨rfl, fun text => by simp [Pattern.isMatch]⟩
    · exact ⟨rfl, fun text => isMatch_ignoreCase_iff source expression text⟩
  obtain ⟨hempty, hmatch⟩ := hwider
  exact ⟨hsource, hempty, fun utterance h => (hmatch _).2 ⟨_, rfl, h⟩, hmatch⟩

/-- A choice without alternatives that may be left out, and a word outside ASCII. -/
def bornRule : Rule :=
  { id := "born", body := [.element (.item (some ⟨0, some 1⟩)) [.element .oneOf []], .token "né"] }

/-- What the rule is written as, without the marks at the ends. -/
def bornFragment : List Char := "(?:[^\\x00-\\x\x7b10FFFF\x7d])? né".toList

/-- The expression that the patterns of the rule write. -/
def bornExpression : Regex :=
  .concat [.atStart, .repeated (.group .never) 0 (some 1), .char ' ', .char 'n', .char 'é', .atEnd]

/-- The pattern of the rule. -/
def bornPattern (ignoreCase : Bool) : Pattern :=
  .regex ('^' :: (bornFragment ++ ['$'])) bornExpression ignoreCase

theorem simplify_bornExpression :
    bornExpression.simplify caseVariants = .concat [.atStart, .repeated (.oneOf []) 0 (some 1),
      .literal [' '], .oneOf [(78, 78), (110, 110)], .oneOf [(201, 201), (233, 233)], .atEnd] := by
  have hspace : caseVariants ' ' = [' '] := by decide +kernel
  have hn : caseVariants 'n' = ['n', 'N'] := by decide +kernel
  have he : caseVariants 'é' = ['é', 'É'] := by decide +kernel
  simp only [bornExpression, simplify, simplifyAll, hspace, hn, he, List.map_cons, List.map_nil,
    classOf_single]
  rw [classOf_pair (by decide), classOf_pair (by decide)]
  rfl

theorem compileRule_bornRule (options : CompileOptions) :
    compileRule (some bornRule) none options = .ok (bornPattern options.caseInsensitive) := by
  have hfragment : bornRule.fragment (.ofMode none) = .ok bornFragment := by decide +kernel
  have hparsed : ofSource? ('^' :: (bornFragment ++ ['$'])) = some bornExpression := rfl
  refine compileRule_eq_ok_of_options hfragment (by decide) hparsed (by decide +kernel) ?_
  cases options.caseInsensitive with
  | false => decide +kernel
  | true =>
      show (bornExpression.simplify caseVariants).automatonSize ≤ maxAutomatonSize
      rw [simplify_bornExpression]
      decide +kernel

theorem compileRule_ignoreCase_bornRule :
    compileRule (some bornRule) none { caseInsensitive := false } = .ok (bornPattern false) ∧
      compileRule (some bornRule) none { caseInsensitive := true } = .ok (bornPattern true) ∧
      (bornPattern false).isMatch " né".toList = true ∧
      (bornPattern true).isMatch " né".toList = true ∧
      (bornPattern false).isMatch " NÉ".toList = false ∧
      (bornPattern true).isMatch " NÉ".toList = true := by
  have hp := compileRule_bornRule { caseInsensitive := false }
  have hq := compileRule_bornRule { caseInsensitive := true }
  have hborn : (bornPattern false).isMatch " né".toList = true := by decide +kernel
  have hfolded : " né".toList.map foldCase = " NÉ".toList.map foldCase := by decide +kernel
  obtain ⟨-, -, hwider, hmatch⟩ := compileRule_ignoreCase hp hq
  exact ⟨hp, hq, hborn, hwider "né" hborn, by decide +kernel,
    (hmatch " NÉ".toList).2 ⟨" né".toList, hfolded, hborn⟩⟩

end SpeechGrammar
