import SpeechGrammar.Grammar.TextPass
import SpeechGrammar.Proofs.Grammar.RuleLanguage
import SpeechGrammar.Proofs.Text.Phrases

set_option autoImplicit false

/-!
# Passes over text

Normalizing and tokenizing put other text in the place of text and keep everything else.
`Reworded` says what both have in common: the words stay the same. A list of nodes that is
reworded means the same, as long as no choice offers raw text (`Reworded.meansSame`), and it has
the same references and repeat counts.
-/

namespace SpeechGrammar

open Text

/-- Raw text or a token. -/
def Node.IsText : Node → Prop
  | .literal _ | .token _ => True
  | _ => False

/-- The words that a node has by itself. -/
def Node.textWords : Node → List Word
  | .literal text => (tokenChars text.toList).flatMap words
  | .token text => words text.toList
  | _ => []

/-- A list of nodes with other text in the place of raw text, and other tokens in the place of
tokens, that have the same words. -/
inductive Reworded : List Node → List Node → Prop
  | nil : Reworded [] []
  | literal {text : String} {ks ns ms : List Node} (hks : ∀ k ∈ ks, k.IsText)
      (hwords : ks.flatMap Node.textWords = (Node.literal text).textWords)
      (hns : Reworded ns ms) : Reworded (.literal text :: ns) (ks ++ ms)
  | token {text text' : String} {ns ms : List Node}
      (hwords : (Node.token text').textWords = (Node.token text).textWords)
      (hns : Reworded ns ms) : Reworded (.token text :: ns) (.token text' :: ms)
  | ruleRef {uri : String} {ns ms : List Node} (hns : Reworded ns ms) :
      Reworded (.ruleRef uri :: ns) (.ruleRef uri :: ms)
  | tag {content : String} {ns ms : List Node} (hns : Reworded ns ms) :
      Reworded (.tag content :: ns) (.tag content :: ms)
  | element {container : Container} {children reworded ns ms : List Node}
      (hchildren : Reworded children reworded) (hns : Reworded ns ms) :
      Reworded (.element container children :: ns) (.element container reworded :: ms)

/-! ## Text -/

theorem walkAll_of_isText {ks : List Node} (h : ∀ k ∈ ks, k.IsText) : walkAll ks = ks := by
  induction ks with
  | nil => rfl
  | cons k ks ih =>
      rw [List.forall_mem_cons] at h
      have hwalk : k.walk = [k] := by
        cases k with
        | literal _ | token _ | ruleRef _ | tag _ => rfl
        | element _ _ => cases h.1
      rw [walkAll, hwalk, ih h.2, List.singleton_append]

theorem Node.IsText.isContent_iff {k : Node} (h : k.IsText) : k.IsContent ↔ k.textWords ≠ [] := by
  cases k with
  | literal _ | token _ => rfl
  | ruleRef _ | tag _ | element _ _ => cases h

theorem hasContent_text_iff {ks : List Node} (h : ∀ k ∈ ks, k.IsText) :
    HasContent ks ↔ ks.flatMap Node.textWords ≠ [] := by
  simp only [HasContent, walkAll_of_isText h, Ne, List.flatMap_eq_nil_iff, not_forall, exists_prop]
  constructor
  · rintro ⟨k, hk, hcontent⟩
    exact ⟨k, hk, (h k hk).isContent_iff.1 hcontent⟩
  · rintro ⟨k, hk, hwords⟩
    exact ⟨k, hk, (h k hk).isContent_iff.2 hwords⟩

theorem hasContent_text_cons (k : Node) (h : k.IsText) {ns : List Node} :
    HasContent (k :: ns) ↔ k.textWords ≠ [] ∨ HasContent ns := by
  rw [← List.singleton_append, hasContent_append, hasContent_text_iff (by simpa using h)]
  simp

theorem Node.IsText.language_eq {k : Node} (h : k.IsText) (refs : String → Language Word) :
    k.language refs = {k.textWords} := by
  cases k with
  | literal _ | token _ => rfl
  | ruleRef _ | tag _ | element _ _ => cases h

theorem sequenceLanguage_text (refs : String → Language Word) {ks : List Node}
    (h : ∀ k ∈ ks, k.IsText) : sequenceLanguage refs ks = {ks.flatMap Node.textWords} := by
  induction ks with
  | nil => rfl
  | cons k ks ih =>
      rw [List.forall_mem_cons] at h
      rw [sequenceLanguage, h.1.language_eq, ih h.2, List.flatMap_cons]
      exact Set.image2_singleton

/-! ## What rewording keeps -/

/-- The alternatives of a choice, none of them open, stay so. -/
theorem Reworded.not_isOpen {ns ms : List Node} (h : Reworded ns ms)
    (hns : ∀ n ∈ ns, ¬ n.IsOpen) : ∀ m ∈ ms, ¬ m.IsOpen := by
  induction h with
  | nil => exact hns
  | literal _ _ _ _ => exact absurd trivial (hns _ (List.mem_cons_self ..))
  | ruleRef _ _ => exact absurd trivial (hns _ (List.mem_cons_self ..))
  | token _ _ ih | tag _ ih | element _ _ _ ih =>
      rw [List.forall_mem_cons] at hns ⊢
      exact ⟨fun hopen => hopen, ih hns.2⟩

/-- What holds of all text is kept throughout, if an element keeps it when its content is
reworded. -/
theorem Reworded.forall_mem_walkAll {P : Node → Prop} {ns ms : List Node} (h : Reworded ns ms)
    (htext : ∀ k : Node, k.IsText → P k)
    (hP : ∀ container children reworded, Reworded children reworded →
      P (.element container children) → P (.element container reworded))
    (hns : ∀ m ∈ walkAll ns, P m) : ∀ m ∈ walkAll ms, P m := by
  induction h with
  | nil => exact hns
  | literal hks _ _ ih =>
      rw [forall_mem_walkAll_cons] at hns
      rw [forall_mem_walkAll_append, walkAll_of_isText hks]
      exact ⟨fun k hk => htext k (hks k hk), ih hns.2⟩
  | token _ _ ih =>
      rw [forall_mem_walkAll_cons] at hns ⊢
      exact ⟨by simpa [Node.walk] using htext (.token _) trivial, ih hns.2⟩
  | ruleRef _ ih | tag _ ih =>
      rw [forall_mem_walkAll_cons] at hns ⊢
      exact ⟨hns.1, ih hns.2⟩
  | element hchildren _ ihchildren ih =>
      rw [forall_mem_walkAll_cons, forall_mem_walk_element] at hns ⊢
      obtain ⟨⟨helement, hbelow⟩, hrest⟩ := hns
      exact ⟨⟨hP _ _ _ hchildren helement, ihchildren hbelow⟩, ih hrest⟩

theorem Reworded.repeatsOrdered {ns ms : List Node} (h : Reworded ns ms)
    (hns : RepeatsOrdered ns) : RepeatsOrdered ms := by
  refine h.forall_mem_walkAll ?_ (fun container children reworded _ helement => ?_) hns
  · intro k hk
    cases k with
    | literal _ | token _ => trivial
    | ruleRef _ | tag _ | element _ _ => cases hk
  · exact element_isOrdered_congr helement

theorem Reworded.choicesClosed {ns ms : List Node} (h : Reworded ns ms)
    (hns : ChoicesClosed ns) : ChoicesClosed ms := by
  refine h.forall_mem_walkAll ?_ (fun container children reworded hreworded helement => ?_) hns
  · intro k hk
    cases k with
    | literal _ | token _ => trivial
    | ruleRef _ | tag _ | element _ _ => cases hk
  · exact element_isClosedChoice_congr hreworded.not_isOpen helement

theorem Reworded.references_eq {ns ms : List Node} (h : Reworded ns ms) :
    references ms = references ns := by
  induction h with
  | nil => rfl
  | @literal text ks ns ms hks _ _ ih =>
      have hnone : references ks = [] := by
        rw [references_eq_nil_iff, walkAll_of_isText hks]
        intro k hk
        cases k with
        | literal _ | token _ => rfl
        | ruleRef _ | tag _ | element _ _ => cases hks _ hk
      rw [references_append, hnone, List.nil_append, ih]
      rfl
  | token _ _ ih | tag _ ih => exact ih
  | ruleRef _ ih => rw [references_ruleRef_cons, references_ruleRef_cons, ih]
  | element _ _ ihchildren ih =>
      rw [references_element_cons, references_element_cons, ihchildren, ih]

theorem Reworded.hasContent_iff {ns ms : List Node} (h : Reworded ns ms) :
    HasContent ms ↔ HasContent ns := by
  induction h with
  | nil => rfl
  | @literal text ks ns ms hks hwords _ ih =>
      rw [hasContent_append, hasContent_text_iff hks, hwords,
        hasContent_text_cons (.literal text) trivial, ih]
  | @token text text' ns ms hwords _ ih =>
      rw [hasContent_text_cons (.token text') trivial, hasContent_text_cons (.token text) trivial,
        hwords, ih]
  | ruleRef _ ih | tag _ ih => rw [hasContent_cons, hasContent_cons, ih]
  | element _ _ ihchildren ih =>
      rw [hasContent_element_cons, hasContent_element_cons, ihchildren, ih]

/-- Nodes that are reworded mean the same. -/
theorem Reworded.meansSame {ns ms : List Node} (h : Reworded ns ms)
    (refs : String → Language Word) (hns : ChoicesClosed ns) : MeansSame refs ms ns := by
  induction h with
  | nil => exact .nil
  | literal hks hwords _ ih =>
      rw [ChoicesClosed, forall_mem_walkAll_cons] at hns
      refine (ih hns.2).append trivial ?_
      rw [sequenceLanguage_text refs hks, hwords]
      rfl
  | token hwords _ ih =>
      rw [ChoicesClosed, forall_mem_walkAll_cons] at hns
      exact (ih hns.2).cons (congrArg (fun ws => ({ws} : Language Word)) hwords) (by simp)
  | ruleRef _ ih | tag _ ih =>
      rw [ChoicesClosed, forall_mem_walkAll_cons] at hns
      exact (ih hns.2).cons rfl Iff.rfl
  | element _ _ ihchildren ih =>
      rw [ChoicesClosed, forall_mem_walkAll_cons, forall_mem_walk_element] at hns
      obtain ⟨⟨helement, hbelow⟩, hrest⟩ := hns
      exact (ih hrest).element (ihchildren hbelow) helement

/-! ## Normalizing and tokenizing -/

theorem Reworded.append {ns ms ns' ms' : List Node} (h : Reworded ns ms)
    (h' : Reworded ns' ms') : Reworded (ns ++ ns') (ms ++ ms') := by
  induction h with
  | nil => exact h'
  | literal hks hwords _ ih =>
      rw [List.append_assoc]
      exact .literal hks hwords ih
  | token hwords _ ih => exact .token hwords ih
  | ruleRef _ ih => exact .ruleRef ih
  | tag _ ih => exact .tag ih
  | element hchildren _ _ ih => exact .element hchildren ih

/-- Normalizing puts text with the same words in the place of text. Blank raw text vanishes. -/
theorem Node.IsText.normalize {n : Node} (h : n.IsText) :
    (∀ k ∈ n.normalize, k.IsText) ∧ n.normalize.flatMap Node.textWords = n.textWords := by
  cases n with
  | literal text =>
      have hwords := words_tokenChars_normalizeChars text.toList
      rw [Node.normalize]
      by_cases hempty : Text.normalize text = ""
      · have hnil : normalizeChars text.toList = [] := by
          rw [← String.toList_ofList (l := normalizeChars text.toList)]
          exact congrArg String.toList hempty
        rw [hnil] at hwords
        rw [if_pos hempty]
        exact ⟨by simp, hwords⟩
      · rw [if_neg hempty]
        exact ⟨by simp [Node.IsText], by simpa [Node.textWords, Text.normalize] using hwords⟩
  | token text =>
      rw [Node.normalize]
      exact ⟨by simp [Node.IsText], by simp [Node.textWords, Text.normalize, words_normalizeChars]⟩
  | ruleRef _ | tag _ | element _ _ => cases h

/-- Tokenizing puts tokens with the same words in the place of raw text. -/
theorem Node.IsText.tokenize {n : Node} (h : n.IsText) :
    (∀ k ∈ n.tokenize, k.IsText) ∧ n.tokenize.flatMap Node.textWords = n.textWords := by
  cases n with
  | literal text =>
      rw [Node.tokenize]
      refine ⟨?_, by simp [splitTokens, Node.textWords, List.flatMap_map]⟩
      intro k hk
      obtain ⟨token, -, rfl⟩ := List.mem_map.1 hk
      trivial
  | token text =>
      rw [Node.tokenize]
      exact ⟨by simp [Node.IsText], by simp⟩
  | ruleRef _ | tag _ | element _ _ => cases h

theorem reworded_literal {text : String} {ks : List Node}
    (h : (∀ k ∈ ks, k.IsText) ∧ ks.flatMap Node.textWords = (Node.literal text).textWords) :
    Reworded [.literal text] ks := by
  simpa using Reworded.literal h.1 h.2 .nil

mutual

theorem reworded_normalize : ∀ n : Node, Reworded [n] n.normalize
  | .literal text => reworded_literal (Node.IsText.normalize (n := .literal text) trivial)
  | .token text => by
      refine .token ?_ .nil
      simp [Node.textWords, Text.normalize, words_normalizeChars]
  | .ruleRef _ => .ruleRef .nil
  | .tag _ => .tag .nil
  | .element _ children => .element (reworded_normalizeNodes children) .nil

/-- Normalizing rewords. -/
theorem reworded_normalizeNodes : ∀ ns : List Node, Reworded ns (normalizeNodes ns)
  | [] => .nil
  | n :: ns => (reworded_normalize n).append (reworded_normalizeNodes ns)

end

mutual

theorem reworded_tokenize : ∀ n : Node, Reworded [n] n.tokenize
  | .literal text => reworded_literal (Node.IsText.tokenize (n := .literal text) trivial)
  | .token _ => .token rfl .nil
  | .ruleRef _ => .ruleRef .nil
  | .tag _ => .tag .nil
  | .element _ children => .element (reworded_tokenizeNodes children) .nil

/-- Tokenizing rewords. -/
theorem reworded_tokenizeNodes : ∀ ns : List Node, Reworded ns (tokenizeNodes ns)
  | [] => .nil
  | n :: ns => (reworded_tokenize n).append (reworded_tokenizeNodes ns)

end

end SpeechGrammar
