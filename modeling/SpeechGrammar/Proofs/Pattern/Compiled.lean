import SpeechGrammar.Pattern.Match
import SpeechGrammar.Proofs.Pattern.Fragment

set_option autoImplicit false

/-!
# What a compiled rule accepts

A rule is compiled into the empty pattern exactly when it offers neither a word nor a choice.
Every other pattern accepts exactly the utterances whose words are in the language of the rule;
of keys, only what they read together counts. `compileRule_cases` says this of the compiler,
with all that it can answer.
-/

namespace SpeechGrammar

open Text Regex

/-- A list of words is accepted by a language: it is in it or, between adjacent words, reads
together like one that is. -/
def Separator.Accepts : Separator → Language Word → List Word → Prop
  | .space, L, ws => ws ∈ L
  | .adjacent, L, ws => ∃ vs ∈ L, vs.flatten = ws.flatten

theorem Separator.accepts_iff_written {sep : Separator} {L : Language Word} {ws : List Word}
    (hL : ∀ vs ∈ L, ∀ w ∈ vs, IsWord w) (hws : ∀ w ∈ ws, IsWord w) :
    sep.Accepts L ws ↔ ∃ vs ∈ L, sep.written vs = sep.written ws := by
  cases sep with
  | adjacent => simp [Accepts, written, lead, List.flatMap_id']
  | space =>
      -- With a space before each word the written form determines the words.
      constructor
      · intro h
        exact ⟨ws, h, rfl⟩
      · rintro ⟨vs, hvs, hwritten⟩
        have hvws : vs = ws := by
          rw [← words_flatMap_space (hL vs hvs), ← words_flatMap_space hws]
          exact congrArg words hwritten
        rw [← hvws]
        exact hvs

theorem isMatch_anchored_iff {text : List Char} (parts : List Regex) :
    (concatOf (.atStart :: (parts ++ [.atEnd]))).isMatch text = true ↔
      SpansAll text parts 0 text.length := by
  rw [isMatch_iff_spans]
  simp only [spans_concatOf, SpansAll, Spans, spansAll_append]
  constructor
  · rintro ⟨_, _, ⟨_, ⟨rfl, rfl⟩, _, hparts, _, ⟨rfl, rfl⟩, rfl⟩, -⟩
    exact hparts
  · intro h
    exact ⟨0, _, ⟨0, ⟨rfl, rfl⟩, _, h, _, ⟨rfl, rfl⟩, rfl⟩, Nat.le_refl _⟩

/-- A source that is an expression is refused for its size only. -/
theorem ofSource_cases {source : List Char} {expression : Regex} (options : CompileOptions)
    (h : ofSource? source = some expression) :
    Pattern.ofSource source options =
        .ok (.regex source expression options.caseInsensitive) ∨
      Pattern.ofSource source options = .error (.pattern .tooDeep) ∨
      Pattern.ofSource source options = .error (.pattern .tooLarge) := by
  rw [Pattern.ofSource, h]
  dsimp only
  split_ifs <;> simp

/-- What a pattern does with the canonical form of a text, if its rule denotes a language. -/
structure Pattern.Accepts (pattern : Pattern) (sep : Separator) (L : Language Word) : Prop where
  isEmpty : pattern.isEmpty = false
  isMatch_iff : ∀ cs, pattern.isMatch (canonicalChars sep cs) = true ↔ sep.Accepts L (words cs)

/-- The pattern of a fragment that is not empty accepts what the fragment denotes, unless the
pattern is too large. -/
theorem ofFragment_cases {sep : Separator} {source : List Char} {L : Language Word}
    (h : Denotes sep source L) (hne : source ≠ []) {options : CompileOptions}
    (hcase : options.caseInsensitive = false) :
    (∃ pattern, Pattern.ofFragment source options = .ok pattern ∧ pattern.Accepts sep L) ∨
      Pattern.ofFragment source options = .error (.pattern .tooDeep) ∨
      Pattern.ofFragment source options = .error (.pattern .tooLarge) := by
  obtain ⟨parts, hreads, hspans⟩ := h.reads
  have hsource : Pattern.ofFragment source options =
      Pattern.ofSource ('^' :: (source ++ ['$'])) options := by
    simp [Pattern.ofFragment, hne]
  rw [hsource]
  -- The anchored expression matches a text if its parts span the whole of it, and these span
  -- what the language writes.
  refine (ofSource_cases options (ofSource?_anchored hreads)).imp_left fun hok => ?_
  refine ⟨_, hok, rfl, fun cs => ?_⟩
  rw [hcase, Pattern.isMatch, isMatch_anchored_iff, hspans,
    Separator.accepts_iff_written h.isWord fun _ hw => isWord_of_mem_words hw]
  simp only [Writes, standsAt_whole]
  rfl

/-- A rule without references is compiled, unless its pattern is too large: into the empty
pattern if the rule offers nothing, else into a pattern for its language. -/
theorem compileRule_cases {rule : Rule} (href : rule.hasReferences = false)
    (hordered : RepeatsOrdered rule.body) (mode : Option Mode) {options : CompileOptions}
    (hcase : options.caseInsensitive = false) (refs : String → Language Word) :
    (¬ HasContent rule.body ∧ compileRule (some rule) mode options = .ok .empty) ∨
      (HasContent rule.body ∧ ∃ pattern, compileRule (some rule) mode options = .ok pattern ∧
        pattern.Accepts (.ofMode mode) (sequenceLanguage refs rule.body)) ∨
      compileRule (some rule) mode options = .error (.pattern .tooDeep) ∨
      compileRule (some rule) mode options = .error (.pattern .tooLarge) := by
  have hnone : references rule.body = [] := by simpa [Rule.hasReferences] using href
  obtain ⟨source, hsource⟩ :=
    exists_sequenceFragment (.ofMode mode) rule.body (references_eq_nil_iff.1 hnone)
  have hcontent := sequenceFragment_ne_nil_iff rule.body hsource
  have hcompile : compileRule (some rule) mode options = Pattern.ofFragment source options := by
    simp [compileRule, Rule.fragment, hsource, Except.bind]
  rw [hcompile]
  -- The source is empty exactly if the rule offers nothing.
  by_cases hnil : source = []
  · refine .inl ⟨fun h => hcontent.2 h hnil, ?_⟩
    rw [hnil]
    rfl
  · refine .inr ((ofFragment_cases ?_ hnil hcase).imp_left fun h => ⟨hcontent.1 hnil, h⟩)
    exact denotes_sequenceFragment refs rule.body hordered hsource

/-- A fragment that writes a small expression is the source of a pattern. -/
theorem compileRule_eq_ok_of_options {rule : Rule} {mode : Option Mode} {options : CompileOptions}
    {source : List Char} {expression : Regex}
    (hfragment : rule.fragment (.ofMode mode) = .ok source) (hne : source ≠ [])
    (hsource : ofSource? ('^' :: (source ++ ['$'])) = some expression)
    (hdepth : expression.depth ≤ maxDepth)
    (hsize : (expression.simplify
      (if options.caseInsensitive then caseVariants else fun c => [c])).automatonSize ≤
        maxAutomatonSize) :
    compileRule (some rule) mode options =
      .ok (.regex ('^' :: (source ++ ['$'])) expression options.caseInsensitive) := by
  simp [compileRule, hfragment, Except.bind, Pattern.ofFragment, hne, Pattern.ofSource, hsource,
    Nat.not_lt.2 hdepth, Nat.not_lt.2 hsize]

theorem compileRule_eq_ok {rule : Rule} {mode : Option Mode} {source : List Char}
    {expression : Regex} (hfragment : rule.fragment (.ofMode mode) = .ok source)
    (hne : source ≠ []) (hsource : ofSource? ('^' :: (source ++ ['$'])) = some expression)
    (hdepth : expression.depth ≤ maxDepth)
    (hsize : (expression.simplify fun c => [c]).automatonSize ≤ maxAutomatonSize) :
    compileRule (some rule) mode {} =
      .ok (.regex ('^' :: (source ++ ['$'])) expression false) :=
  compileRule_eq_ok_of_options hfragment hne hsource hdepth hsize

/-- The source of a pattern is the fragment of the rule between the two ends of the text. -/
theorem source_of_compileRule {rule : Rule} {mode : Option Mode} {options : CompileOptions}
    {fragment : List Char} {pattern : Pattern}
    (hfragment : rule.fragment (.ofMode mode) = .ok fragment) (hne : fragment ≠ [])
    (h : compileRule (some rule) mode options = .ok pattern) :
    pattern.source = String.ofList ('^' :: (fragment ++ ['$'])) := by
  simp only [compileRule, hfragment, Except.bind, Pattern.ofFragment, List.isEmpty_iff, hne,
    if_false, Pattern.ofSource] at h
  split at h
  · cases h
  · split_ifs at h <;>
      · cases h
        rfl

/-- The class of one character is the literal of that character. -/
theorem classOf_single (n : Nat) : Simplified.classOf [(n, n)] = .literal [Char.ofNat n] := by
  simp [Simplified.classOf, Simplified.joinRanges]

/-- The class of two characters has them in order, as two ranges if they are apart. -/
theorem classOf_pair {m n : Nat} (h : Simplified.nextPoint m < n) :
    Simplified.classOf [(n, n), (m, m)] = .oneOf [(m, m), (n, n)] := by
  have hlt : m < n := by
    unfold Simplified.nextPoint at h
    split at h <;> omega
  have hsort : [(n, n), (m, m)].mergeSort (fun r s => r.1 ≤ s.1) = [(m, m), (n, n)] := by
    simp [List.mergeSort, Nat.not_le.2 hlt]
  rw [Simplified.classOf, hsort]
  simp [Simplified.joinRanges, Nat.not_le.2 h]

/-- The two kinds of pattern that a rule can have. -/
theorem pattern_of_compileRule {rule : Rule} (href : rule.hasReferences = false)
    (hordered : RepeatsOrdered rule.body) {mode : Option Mode} {options : CompileOptions}
    (hcase : options.caseInsensitive = false) {pattern : Pattern}
    (hpattern : compileRule (some rule) mode options = .ok pattern)
    (refs : String → Language Word) :
    (¬ HasContent rule.body ∧ pattern = .empty) ∨
      (HasContent rule.body ∧
        pattern.Accepts (.ofMode mode) (sequenceLanguage refs rule.body)) := by
  have hcases := compileRule_cases href hordered mode hcase refs
  rw [hpattern] at hcases
  rcases hcases with ⟨hcontent, hempty⟩ | ⟨hcontent, _, haccepts, hL⟩ | herror | herror
  · cases hempty
    exact .inl ⟨hcontent, rfl⟩
  · cases haccepts
    exact .inr ⟨hcontent, hL⟩
  · cases herror
  · cases herror

theorem isMatch_of_compileRule_iff {rule : Rule} (href : rule.hasReferences = false)
    (hordered : RepeatsOrdered rule.body) {mode : Option Mode} {options : CompileOptions}
    (hcase : options.caseInsensitive = false) {pattern : Pattern}
    (hpattern : compileRule (some rule) mode options = .ok pattern)
    (refs : String → Language Word) (cs : List Char) :
    pattern.isMatch (canonicalChars (.ofMode mode) cs) = true ↔
      HasContent rule.body ∧
        (Separator.ofMode mode).Accepts (sequenceLanguage refs rule.body) (words cs) := by
  rcases pattern_of_compileRule href hordered hcase hpattern refs with
    ⟨hcontent, rfl⟩ | ⟨hcontent, hL⟩
  · simp [Pattern.isMatch, hcontent]
  · simp [hL.isMatch_iff, hcontent]

/-- Without references the compiler gives a pattern, unless that is too large. The pattern is
empty exactly if the rule offers neither a word nor a choice; any other accepts exactly the
utterances whose words the language of the rule accepts. What references would stand for does
not matter. -/
theorem compileRule_isMatch_iff {rule : Rule} (href : rule.hasReferences = false)
    (hordered : RepeatsOrdered rule.body) (mode : Option Mode) {options : CompileOptions}
    (hcase : options.caseInsensitive = false) (refs : String → Language Word) :
    (∀ e, compileRule (some rule) mode options = .error e →
        e = .pattern .tooDeep ∨ e = .pattern .tooLarge) ∧
      ∀ pattern, compileRule (some rule) mode options = .ok pattern →
        (pattern.isEmpty = true ↔ ¬ HasContent rule.body) ∧
        (pattern.isEmpty = false → ∀ utterance : String,
          pattern.isMatch (canonicalize (.ofMode mode) utterance).toList = true ↔
            (Separator.ofMode mode).Accepts (sequenceLanguage refs rule.body)
              (words utterance.toList)) := by
  constructor
  · intro e he
    have hcases := compileRule_cases href hordered mode hcase refs
    simp only [he, reduceCtorEq, false_and, and_false, exists_false, false_or] at hcases
    simpa using hcases
  · intro pattern hpattern
    rcases pattern_of_compileRule href hordered hcase hpattern refs with
      ⟨hcontent, rfl⟩ | ⟨hcontent, hL⟩
    · simp [Pattern.isEmpty, hcontent]
    · refine ⟨by simp [hL.isEmpty, hcontent], fun _ utterance => ?_⟩
      rw [canonicalize, String.toList_ofList]
      exact hL.isMatch_iff utterance.toList

/-- A dot in a word, a phrase, and a choice between a repetition, a tag and two words. -/
def dottedRule : Rule :=
  { id := "dotted"
    body := [.literal "a.b \"c  d\"",
      .element .oneOf [.element (.item (some ⟨2, none⟩)) [.token "x"], .tag "t", .literal "y z"]] }

/-- The expression that the pattern of the rule writes. -/
def dottedExpression : Regex :=
  .concat [.atStart, .char ' ', .char 'a', .char '.', .char 'b', .char ' ', .char 'c', .char ' ',
    .char 'd', .group (.choice [.repeated (.group (.concat [.char ' ', .char 'x'])) 2 none,
      .concat [.char ' ', .char 'y', .char ' ', .char 'z']]), .atEnd]

theorem compileRule_dottedRule :
    compileRule (some dottedRule) none {} =
      .ok (.regex "^ a\\.b c d(?:(?: x)\x7b2,\x7d| y z)$".toList dottedExpression false) := by
  have hfragment : dottedRule.fragment (.ofMode none) =
      .ok " a\\.b c d(?:(?: x)\x7b2,\x7d| y z)".toList := by
    decide +kernel
  have hsimple : dottedExpression.simplify (fun c => [c]) =
      .concat [.atStart, .literal " a.b c d".toList,
        .choice [.repeated (.literal " x".toList) 2 none, .literal " y z".toList], .atEnd] := by
    simp only [dottedExpression, simplify, simplifyAll, List.map_cons, List.map_nil,
      classOf_single]
    rfl
  have hsize : (dottedExpression.simplify (fun c => [c])).automatonSize ≤ maxAutomatonSize := by
    rw [hsimple]
    decide +kernel
  have hdepth : dottedExpression.depth ≤ maxDepth := by decide +kernel
  exact compileRule_eq_ok hfragment (by decide) rfl hdepth hsize

theorem compileRule_isMatch_iff_dottedRule :
    dottedRule.hasReferences = false ∧ RepeatsOrdered dottedRule.body ∧
      ∃ pattern, compileRule (some dottedRule) none {} = .ok pattern ∧
        pattern.isEmpty = false ∧ ∀ utterance : String,
          pattern.isMatch (canonicalize .space utterance).toList = true ↔
            words utterance.toList ∈ sequenceLanguage (fun _ => 0) dottedRule.body := by
  have href : dottedRule.hasReferences = false := by decide
  have hordered : RepeatsOrdered dottedRule.body := by
    simp [RepeatsOrdered, dottedRule, walkAll, Node.walk, Node.IsOrdered, Repeat.isOrdered]
  obtain ⟨-, hcorrect⟩ := compileRule_isMatch_iff href hordered none rfl (fun _ => 0)
  obtain ⟨-, haccepts⟩ := hcorrect _ compileRule_dottedRule
  exact ⟨href, hordered, _, compileRule_dottedRule, rfl, haccepts rfl⟩

end SpeechGrammar
