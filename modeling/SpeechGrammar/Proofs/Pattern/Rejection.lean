import SpeechGrammar.Pattern.Basic
import SpeechGrammar.Proofs.Pattern.Reference

set_option autoImplicit false

/-!
# Which rules the compiler rejects

The compiler gives up at the first reference that a walk of the rule comes to, wherever it stands
and whatever stands around it. Without a reference there is a fragment, and only the pattern that
it writes can be objected to. `compileRule_rejects` says this for every mode and all options.
-/

namespace SpeechGrammar

/-! ## Fragments -/

/-- The first reference of a list of nodes is the first that a walk visits. -/
theorem head?_references (ns : List Node) :
    (references ns).head? = (walkAll ns).findSome? Node.uri? := List.head?_filterMap ..

/-- A sequence has no fragment for one reason only: the first of its references. -/
theorem sequenceFragment_eq_error_iff {sep : Separator} {ns : List Node} {e : Error} :
    sequenceFragment sep ns = .error e ↔
      ∃ uri, (walkAll ns).findSome? Node.uri? = some uri ∧ e = .uninlinedReference uri := by
  rw [← map_eq_error (f := fun _ => ()), sequenceFragment_outcome, ← head?_references]
  cases references ns with
  | nil => simp [visitAll]
  | cons uri uris => simp [visitAll, Except.bind, eq_comm]

/-- A rule has a reference exactly if a walk visits one. -/
theorem hasReferences_eq_true_iff {rule : Rule} :
    rule.hasReferences = true ↔ ∃ uri, (walkAll rule.body).findSome? Node.uri? = some uri := by
  rw [Rule.hasReferences, ← head?_references]
  cases references rule.body with
  | nil => simp
  | cons uri uris => simp

/-! ## Patterns -/

/-- Nothing but the pattern of a fragment can be objected to. -/
theorem Pattern.ofFragment_eq_error {fragment : List Char} {options : CompileOptions} {e : Error}
    (h : Pattern.ofFragment fragment options = .error e) : ∃ fault, e = .pattern fault := by
  rw [Pattern.ofFragment, Pattern.ofSource] at h
  split at h
  · cases h
  · split at h
    · cases h
      exact ⟨_, rfl⟩
    · dsimp only at h
      split_ifs at h <;> cases h <;> exact ⟨_, rfl⟩

/-- The compiler fails at the first reference or, if there is none, at the pattern of the
fragment. -/
theorem compileRule_eq_error_iff {rule : Rule} {mode : Option Mode} {options : CompileOptions}
    {e : Error} :
    compileRule (some rule) mode options = .error e ↔
      (∃ uri, (walkAll rule.body).findSome? Node.uri? = some uri ∧ e = .uninlinedReference uri) ∨
        ∃ fragment, rule.fragment (.ofMode mode) = .ok fragment ∧
          Pattern.ofFragment fragment options = .error e := by
  rw [compileRule, bind_eq_error, Rule.fragment, sequenceFragment_eq_error_iff]

/-- The compiler objects to nothing but the pattern of a rule without references. -/
theorem compileRule_eq_error {rule? : Option Rule}
    (hnone : ∀ rule ∈ rule?, references rule.body = []) {mode : Option Mode}
    {options : CompileOptions} {e : Error} (h : compileRule rule? mode options = .error e) :
    ∃ fault, e = .pattern fault := by
  cases rule? with
  | none => cases h
  | some rule =>
      rcases compileRule_eq_error_iff.1 h with ⟨uri, huri, -⟩ | ⟨fragment, -, hfragment⟩
      · rw [← head?_references, hnone rule rfl] at huri
        cases huri
      · exact Pattern.ofFragment_eq_error hfragment

/-- The compiler fails with a reference exactly if the rule has one, and reports the first that a
walk of the rule visits. All else that it objects to, in a rule without references, is the
pattern. -/
theorem compileRule_rejects (rule : Rule) (mode : Option Mode) (options : CompileOptions) :
    (∀ uri, compileRule (some rule) mode options = .error (.uninlinedReference uri) ↔
        (walkAll rule.body).findSome? Node.uri? = some uri) ∧
      ((∃ uri, compileRule (some rule) mode options = .error (.uninlinedReference uri)) ↔
        rule.hasReferences = true) ∧
      (rule.hasReferences = false → ∀ e, compileRule (some rule) mode options = .error e →
        ∃ fault, e = .pattern fault) := by
  have hfirst : ∀ uri, compileRule (some rule) mode options = .error (.uninlinedReference uri) ↔
      (walkAll rule.body).findSome? Node.uri? = some uri := by
    intro uri
    rw [compileRule_eq_error_iff]
    constructor
    · rintro (⟨uri', huri', heq⟩ | ⟨fragment, -, hfragment⟩)
      · cases heq
        exact huri'
      · -- The pattern of a fragment never fails with a reference.
        obtain ⟨fault, hfault⟩ := Pattern.ofFragment_eq_error hfragment
        cases hfault
    · intro huri
      exact .inl ⟨uri, huri, rfl⟩
  refine ⟨hfirst, ?_, fun hnone e he => ?_⟩
  · simp only [hfirst, hasReferences_eq_true_iff]
  · refine compileRule_eq_error (fun rule' hrule' => ?_) he
    cases hrule'
    simpa [Rule.hasReferences] using hnone

/-- A reference in a choice, next to a tag and below an item that need not occur, comes before
the one that stands at the top. -/
def buriedRule : Rule :=
  { id := "buried"
    body := [.literal "  ",
      .element (.item (some ⟨0, some 1⟩)) [.element .oneOf
        [.tag "t", .element (.foreign "note" []) [.ruleRef "drink"]]],
      .ruleRef "#size"] }

/-- A repetition whose bounds are the wrong way round is no expression. -/
def backwardsRule : Rule :=
  { id := "backwards", body := [.element (.item (some ⟨2, some 1⟩)) [.token "a"]] }

theorem compileRule_rejects_buriedRule :
    compileRule (some buriedRule) none {} = .error (.uninlinedReference "drink") ∧
      buriedRule.hasReferences = true ∧
      backwardsRule.hasReferences = false ∧
      compileRule (some backwardsRule) none {} = .error (.pattern .malformed) ∧
      ∃ fault, Error.pattern .malformed = .pattern fault := by
  have hbackwards : compileRule (some backwardsRule) none {} = .error (.pattern .malformed) := by
    rfl
  obtain ⟨hfirst, hsome, -⟩ := compileRule_rejects buriedRule none {}
  obtain ⟨-, -, hpattern⟩ := compileRule_rejects backwardsRule none {}
  have hdrink := (hfirst "drink").2 rfl
  exact ⟨hdrink, hsome.1 ⟨"drink", hdrink⟩, rfl, hbackwards, hpattern rfl _ hbackwards⟩

end SpeechGrammar
