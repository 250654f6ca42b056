import Mathlib.Computability.Language
import SpeechGrammar.Proofs.Grammar.Content

set_option autoImplicit false

/-!
# The language of a rule

The content of a rule denotes a language of lists of words. It is defined node by node, over the
languages `refs` that references stand for. The language of a whole grammar takes for `refs` the
least solution of the equations that the rules of the grammar set up (`ruleLanguage_eq`).
-/

namespace SpeechGrammar

open Text

abbrev Word := List Char

/-- The counts that a repeat count admits. -/
def Repeat.Admits (r : Repeat) (k : Nat) : Prop :=
  r.min.toNat ≤ k ∧ ∀ max ∈ r.max, k ≤ max.toNat

/-- The language of an item over the language of its content. -/
def itemLanguage (occurs : Option Repeat) (L : Language Word) : Language Word :=
  match occurs with
  | none => L
  | some r => {ws | ∃ k, r.Admits k ∧ ws ∈ L ^ k}

mutual

/-- The language of a node. -/
def Node.language (refs : String → Language Word) : Node → Language Word
  | .literal text => {(tokenChars text.toList).flatMap words}
  | .token text => {words text.toList}
  | .ruleRef uri => refs uri
  | .tag _ => 1
  | .element (.item occurs) children => itemLanguage occurs (sequenceLanguage refs children)
  | .element .oneOf children => choiceLanguage refs children
  | .element (.foreign _ _) children => sequenceLanguage refs children

/-- The language of a list of nodes in sequence. -/
def sequenceLanguage (refs : String → Language Word) : List Node → Language Word
  | [] => 1
  | n :: ns => n.language refs * sequenceLanguage refs ns

/-- The language of a choice between nodes; tags are not among them. -/
def choiceLanguage (refs : String → Language Word) : List Node → Language Word
  | [] => 0
  | .tag _ :: ns => choiceLanguage refs ns
  | n :: ns => n.language refs + choiceLanguage refs ns

end

/-! ## Items -/

theorem mem_itemLanguage {r : Repeat} {L : Language Word} {ws : List Word} :
    ws ∈ itemLanguage (some r) L ↔ ∃ k, r.Admits k ∧ ws ∈ L ^ k := Iff.rfl

/-- Bounds in order admit the least number. -/
theorem Repeat.admits_min {r : Repeat} (h : r.isOrdered = true) : r.Admits r.min.toNat := by
  refine ⟨Nat.le_refl _, fun max hmax => ?_⟩
  rw [Option.mem_def] at hmax
  rw [Repeat.isOrdered, hmax] at h
  simpa [UInt32.le_iff_toNat_le] using h

/-- Nothing stays nothing when it is repeated. -/
theorem itemLanguage_one {r : Repeat} (h : r.isOrdered = true) :
    itemLanguage (some r) 1 = 1 := by
  ext ws
  simp only [mem_itemLanguage, one_pow]
  exact ⟨fun ⟨_, _, hws⟩ => hws, fun hws => ⟨_, Repeat.admits_min h, hws⟩⟩

/-! ## Sequences and choices -/

variable {refs : String → Language Word}

theorem sequenceLanguage_append (ns ms : List Node) :
    sequenceLanguage refs (ns ++ ms) = sequenceLanguage refs ns * sequenceLanguage refs ms := by
  induction ns with
  | nil => rw [List.nil_append, sequenceLanguage, one_mul]
  | cons n ns ih => rw [List.cons_append, sequenceLanguage, sequenceLanguage, ih, mul_assoc]

/-- A node that is not a tag is one of the alternatives of its choice. -/
theorem choiceLanguage_cons {n : Node} (hn : ∀ c, n ≠ .tag c) (ns : List Node) :
    choiceLanguage refs (n :: ns) = n.language refs + choiceLanguage refs ns := by
  cases n with
  | tag c => exact absurd rfl (hn c)
  | literal _ | token _ | ruleRef _ | element _ _ =>
      rw [choiceLanguage]
      simp

/-- One list of nodes means the same as another: in sequence, and also as the alternatives of a
choice, if that other one has raw text or references nowhere among its alternatives. -/
structure MeansSame (refs : String → Language Word) (ms ns : List Node) : Prop where
  sequence : sequenceLanguage refs ms = sequenceLanguage refs ns
  choice : (∀ n ∈ ns, ¬ n.IsOpen) → choiceLanguage refs ms = choiceLanguage refs ns

theorem MeansSame.nil : MeansSame refs [] [] := ⟨rfl, fun _ => rfl⟩

theorem MeansSame.cons {m n : Node} {ms ns : List Node}
    (hlanguage : m.language refs = n.language refs)
    (htag : (∃ c, m = .tag c) ↔ ∃ c, n = .tag c) (h : MeansSame refs ms ns) :
    MeansSame refs (m :: ms) (n :: ns) := by
  refine ⟨?_, fun hopen => ?_⟩
  · rw [sequenceLanguage, sequenceLanguage, hlanguage, h.sequence]
  · have hrest := h.choice (List.forall_mem_cons.1 hopen).2
    -- A tag is no alternative, so the two nodes have to be tags both or neither.
    rcases n.tag_or_ne_tag with ⟨c, hc⟩ | hn
    · obtain ⟨d, rfl⟩ := htag.2 ⟨c, hc⟩
      rw [hc]
      exact hrest
    · have hm : ∀ c, m ≠ .tag c := fun c hc => by
        obtain ⟨d, hd⟩ := htag.1 ⟨c, hc⟩
        exact hn d hd
      rw [choiceLanguage_cons hm, choiceLanguage_cons hn, hlanguage, hrest]

/-- An element keeps its meaning when its content does, if it is not a choice with something open
in it. -/
theorem MeansSame.element {container : Container} {children children' ms ns : List Node}
    (h : MeansSame refs ms ns) (hchildren : MeansSame refs children' children)
    (hclosed : (Node.element container children).IsClosedChoice) :
    MeansSame refs (.element container children' :: ms) (.element container children :: ns) := by
  refine h.cons ?_ (by simp)
  cases container with
  | item occurs => rw [Node.language, Node.language, hchildren.sequence]
  | oneOf => exact hchildren.choice hclosed
  | foreign _ _ => exact hchildren.sequence

/-- What is open may be replaced by any number of nodes, as it is in no choice. -/
theorem MeansSame.append {n : Node} {ks ms ns : List Node} (hopen : n.IsOpen)
    (hks : sequenceLanguage refs ks = n.language refs) (h : MeansSame refs ms ns) :
    MeansSame refs (ks ++ ms) (n :: ns) := by
  refine ⟨?_, fun hnot => absurd hopen (hnot n (List.mem_cons_self ..))⟩
  rw [sequenceLanguage_append, sequenceLanguage, hks, h.sequence]

end SpeechGrammar
