import SpeechGrammar.Proofs.Grammar.TextPass
import SpeechGrammar.Proofs.Pattern.Reference

set_option autoImplicit false

/-!
# Fragments of rewritten text

Normalizing and tokenizing put other text in the place of text. In a sequence that makes no
difference to the fragment, however many nodes take the place of one. A choice counts its
alternatives, so there raw text has to be replaced by exactly one node: it must not be blank to be
normalized, and has to be a single token to be tokenized (`compileRule_textPass`). Whether there is
a fragment at all is not changed by either pass.
-/

namespace SpeechGrammar

open Text Regex

variable {sep : Separator} {refs : String → Except Error (List Char)} {P : Node → Prop}

/-! ## Text -/

theorem Node.IsText.fragmentOver_eq {n : Node} (h : n.IsText) :
    n.fragmentOver sep refs = .ok (escape (sep.written n.textWords)) := by
  cases n with
  | literal text => rw [Node.fragmentOver, literalFragment_eq]; rfl
  | token text => rw [Node.fragmentOver, wordFragment_eq]; rfl
  | ruleRef _ | tag _ | element _ _ => cases h

theorem Node.IsText.ne_tag {n : Node} (h : n.IsText) : ∀ c, n ≠ .tag c := by
  rintro c rfl
  cases h

/-- Text in sequence is matched word by word, whatever the pieces are. -/
theorem sequenceFragmentOver_text {ks : List Node} (h : ∀ k ∈ ks, k.IsText) :
    sequenceFragmentOver sep refs ks =
      .ok (escape (sep.written (ks.flatMap Node.textWords))) := by
  induction ks with
  | nil => rfl
  | cons k ks ih =>
      rw [List.forall_mem_cons] at h
      have happend : sep.written (k.textWords ++ ks.flatMap Node.textWords) =
          sep.written k.textWords ++ sep.written (ks.flatMap Node.textWords) :=
        List.flatMap_append
      rw [sequenceFragmentOver, h.1.fragmentOver_eq, ih h.2, List.flatMap_cons, happend,
        escape_append]
      rfl

/-- Other text with the same words has the same fragment in a sequence, and in a choice if it is
one node. -/
theorem SameFragments.text {n : Node} {ks : List Node} (hn : n.IsText)
    (h : (∀ k ∈ ks, k.IsText) ∧ ks.flatMap Node.textWords = n.textWords)
    (hone : P n → ∃ k, ks = [k]) : SameFragments sep refs P ks [n] := by
  obtain ⟨hks, hwords⟩ := h
  refine .of_fragmentOver_eq hn.ne_tag ?_ fun hP => ?_
  · rw [sequenceFragmentOver_text hks, hwords, hn.fragmentOver_eq]
  · obtain ⟨k, rfl⟩ := hone hP
    have hk : k.IsText := hks k (List.mem_singleton_self k)
    rw [alternativeFragmentsOver_singleton hk.ne_tag, sequenceFragmentOver_singleton]

/-! ## The passes -/

/-- Raw text has exactly one token. -/
def Node.IsOneToken : Node → Prop
  | .literal text => ∃ token, splitTokens text = [token]
  | _ => True

/-- Raw text is not blank. -/
def Node.IsNotBlank : Node → Prop
  | .literal text => Text.normalize text ≠ ""
  | _ => True

mutual

theorem sameFragments_tokenize : ∀ n : Node, (∀ m ∈ n.walk, m.Offers Node.IsOneToken) →
    SameFragments sep refs Node.IsOneToken n.tokenize [n]
  | .literal text, _ => by
      refine .text trivial (Node.IsText.tokenize (n := .literal text) trivial) ?_
      rintro ⟨token, htoken⟩
      exact ⟨.token token, by rw [Node.tokenize, htoken, List.map_singleton]⟩
  | .token _, _ => .refl _
  | .ruleRef _, _ => .refl _
  | .tag _, _ => .refl _
  | .element _ children, h => by
      obtain ⟨hoffers, hchildren⟩ := forall_mem_walk_element.1 h
      exact (sameFragments_tokenizeNodes children hchildren).element hoffers

/-- Tokenizing keeps the fragments, where a choice offers no raw text but single tokens. -/
theorem sameFragments_tokenizeNodes : ∀ ns : List Node, ChoicesOffer Node.IsOneToken ns →
    SameFragments sep refs Node.IsOneToken (tokenizeNodes ns) ns
  | [], _ => .refl _
  | n :: ns, h => by
      obtain ⟨hn, hns⟩ := forall_mem_walkAll_cons.1 h
      exact (sameFragments_tokenize n hn).append (sameFragments_tokenizeNodes ns hns)

end

mutual

theorem sameFragments_normalize : ∀ n : Node, (∀ m ∈ n.walk, m.Offers Node.IsNotBlank) →
    SameFragments sep refs Node.IsNotBlank n.normalize [n]
  | .literal text, _ => by
      refine .text trivial (Node.IsText.normalize (n := .literal text) trivial) ?_
      intro hnot
      exact ⟨.literal (Text.normalize text), if_neg hnot⟩
  | .token text, _ =>
      .text trivial (Node.IsText.normalize (n := .token text) trivial) fun _ => ⟨_, rfl⟩
  | .ruleRef _, _ => .refl _
  | .tag _, _ => .refl _
  | .element _ children, h => by
      obtain ⟨hoffers, hchildren⟩ := forall_mem_walk_element.1 h
      exact (sameFragments_normalizeNodes children hchildren).element hoffers

/-- Normalizing keeps the fragments, where a choice offers no blank text. -/
theorem sameFragments_normalizeNodes : ∀ ns : List Node, ChoicesOffer Node.IsNotBlank ns →
    SameFragments sep refs Node.IsNotBlank (normalizeNodes ns) ns
  | [], _ => .refl _
  | n :: ns, h => by
      obtain ⟨hn, hns⟩ := forall_mem_walkAll_cons.1 h
      exact (sameFragments_normalize n hn).append (sameFragments_normalizeNodes ns hns)

end

/-! ## What a rule compiles to -/

/-- Rewording changes no error of the compiler. -/
theorem Reworded.sequenceFragment_eq_error_iff {ns ms : List Node} (h : Reworded ns ms)
    (e : Error) :
    sequenceFragment sep ms = .error e ↔ sequenceFragment sep ns = .error e := by
  rw [← map_eq_error (f := fun _ => ()), sequenceFragment_outcome, h.references_eq,
    ← sequenceFragment_outcome, map_eq_error]

theorem SameFragments.sequenceFragment_eq {ms ns : List Node}
    (h : SameFragments sep (fun uri => .error (.uninlinedReference uri)) P ms ns) :
    sequenceFragment sep ms = sequenceFragment sep ns := by
  rw [← sequenceFragmentOver_eq ms fun _ _ _ _ => rfl, h.sequence,
    sequenceFragmentOver_eq ns fun _ _ _ _ => rfl]

/-- The compiler sees nothing of a rule but the fragment of its body. -/
theorem compileRule_congr {rule : Rule} {body : List Node}
    (h : ∀ sep, sequenceFragment sep body = sequenceFragment sep rule.body) (mode : Option Mode)
    (options : CompileOptions) :
    compileRule (some { rule with body := body }) mode options =
      compileRule (some rule) mode options := by
  simp only [compileRule, Rule.fragment, h]

/-- Tokenizing and normalizing keep the errors of the compiler. They keep the fragment of a rule,
and with it the pattern, if in each choice all raw text is a single token, or is not blank. -/
theorem compileRule_textPass (rule : Rule) :
    (∀ sep e, (sequenceFragment sep (tokenizeNodes rule.body) = .error e ↔
          sequenceFragment sep rule.body = .error e) ∧
        (sequenceFragment sep (normalizeNodes rule.body) = .error e ↔
          sequenceFragment sep rule.body = .error e)) ∧
      (ChoicesOffer Node.IsOneToken rule.body →
        (∀ sep, sequenceFragment sep (tokenizeNodes rule.body) =
            sequenceFragment sep rule.body) ∧
          ∀ mode options, compileRule (some { rule with body := tokenizeNodes rule.body }) mode
            options = compileRule (some rule) mode options) ∧
      (ChoicesOffer Node.IsNotBlank rule.body →
        (∀ sep, sequenceFragment sep (normalizeNodes rule.body) =
            sequenceFragment sep rule.body) ∧
          ∀ mode options, compileRule (some { rule with body := normalizeNodes rule.body }) mode
            options = compileRule (some rule) mode options) := by
  refine ⟨fun sep e => ⟨?_, ?_⟩, fun h => ?_, fun h => ?_⟩
  · exact (reworded_tokenizeNodes rule.body).sequenceFragment_eq_error_iff e
  · exact (reworded_normalizeNodes rule.body).sequenceFragment_eq_error_iff e
  · have hfragment : ∀ sep, sequenceFragment sep (tokenizeNodes rule.body) =
        sequenceFragment sep rule.body := fun _ =>
      (sameFragments_tokenizeNodes rule.body h).sequenceFragment_eq
    exact ⟨hfragment, compileRule_congr hfragment⟩
  · have hfragment : ∀ sep, sequenceFragment sep (normalizeNodes rule.body) =
        sequenceFragment sep rule.body := fun _ =>
      (sameFragments_normalizeNodes rule.body h).sequenceFragment_eq
    exact ⟨hfragment, compileRule_congr hfragment⟩

/-- A choice between a phrase in quotes, an item with raw text, and a tag. -/
def greetingRule : Rule :=
  { id := "greeting"
    body := [.literal "say  ", .element .oneOf
      [.literal "\"good  morning\"", .element (.item (some ⟨1, some 2⟩)) [.literal " a b"],
        .tag "t"]] }

theorem compileRule_textPass_greetingRule :
    ChoicesOffer Node.IsOneToken greetingRule.body ∧
      ChoicesOffer Node.IsNotBlank greetingRule.body ∧ ∀ mode options,
        compileRule (some { greetingRule with body := tokenizeNodes greetingRule.body }) mode
            options = compileRule (some greetingRule) mode options ∧
          compileRule (some { greetingRule with body := normalizeNodes greetingRule.body }) mode
            options = compileRule (some greetingRule) mode options := by
  have htoken : splitTokens "\"good  morning\"" = ["good  morning"] := by decide +kernel
  have hnot : Text.normalize "\"good  morning\"" ≠ "" := by decide +kernel
  have hone : ChoicesOffer Node.IsOneToken greetingRule.body := by
    simp [ChoicesOffer, greetingRule, walkAll, Node.walk, Node.Offers, Node.IsOneToken, htoken]
  have hblank : ChoicesOffer Node.IsNotBlank greetingRule.body := by
    simp [ChoicesOffer, greetingRule, walkAll, Node.walk, Node.Offers, Node.IsNotBlank, hnot]
  obtain ⟨-, htokenize, hnormalize⟩ := compileRule_textPass greetingRule
  exact ⟨hone, hblank, fun mode options =>
    ⟨(htokenize hone).2 mode options, (hnormalize hblank).2 mode options⟩⟩

/-- The two tokens of a text are two alternatives, and blank text is none: in a choice the passes
change what raw text offers. -/
theorem sequenceFragment_textPass_ne :
    (sequenceFragment .space [.element .oneOf [.literal "yes please"]] =
        .ok "(?: yes please)".toList ∧
      sequenceFragment .space (tokenizeNodes [.element .oneOf [.literal "yes please"]]) =
        .ok "(?: yes| please)".toList) ∧
    (sequenceFragment .space [.element .oneOf [.literal " "]] = .ok "(?:)".toList ∧
      sequenceFragment .space (normalizeNodes [.element .oneOf [.literal " "]]) =
        .ok Regex.neverSource) ∧
    ¬ ∀ sep ns, sequenceFragment sep (tokenizeNodes ns) = sequenceFragment sep ns ∧
      sequenceFragment sep (normalizeNodes ns) = sequenceFragment sep ns := by
  have hraw : sequenceFragment .space [.element .oneOf [.literal "yes please"]] =
      .ok "(?: yes please)".toList := by decide +kernel
  have htokens : sequenceFragment .space (tokenizeNodes [.element .oneOf [.literal "yes please"]]) =
      .ok "(?: yes| please)".toList := by decide +kernel
  refine ⟨⟨hraw, htokens⟩, ⟨by decide +kernel, by decide +kernel⟩, fun h => ?_⟩
  obtain ⟨hsame, -⟩ := h .space [.element .oneOf [.literal "yes please"]]
  rw [hraw, htokens] at hsame
  exact absurd hsame (by decide)

end SpeechGrammar
