import SpeechGrammar.Grammar.Reference
import SpeechGrammar.Proofs.Text.Words
import SpeechGrammar.Text.Phrases

set_option autoImplicit false

/-!
# What stands in a rule

The nodes below a list of nodes, and three properties of them: that there is something to match
(`HasContent`), that the bounds of repeat counts are in order (`RepeatsOrdered`), and that no choice
has raw text or a reference directly in it (`ChoicesClosed`).
-/

namespace SpeechGrammar

open Text

/-! ## Walks -/

theorem mem_walk_element {m : Node} {container : Container} {children : List Node} :
    m ∈ (Node.element container children).walk ↔
      m = .element container children ∨ m ∈ walkAll children := by
  simp [Node.walk]

theorem mem_walkAll_cons {m n : Node} {ns : List Node} :
    m ∈ walkAll (n :: ns) ↔ m ∈ n.walk ∨ m ∈ walkAll ns := by
  simp [walkAll]

theorem mem_walkAll {m : Node} {ns : List Node} : m ∈ walkAll ns ↔ ∃ n ∈ ns, m ∈ n.walk := by
  induction ns with
  | nil => simp [walkAll]
  | cons n ns ih => simp [mem_walkAll_cons, ih]

theorem walkAll_append (ms ns : List Node) : walkAll (ms ++ ns) = walkAll ms ++ walkAll ns := by
  induction ms with
  | nil => rfl
  | cons m ms ih => simp [walkAll, ih]

theorem forall_mem_walkAll_cons {P : Node → Prop} {n : Node} {ns : List Node} :
    (∀ m ∈ walkAll (n :: ns), P m) ↔ (∀ m ∈ n.walk, P m) ∧ ∀ m ∈ walkAll ns, P m := by
  simp only [mem_walkAll_cons, or_imp, forall_and]

theorem forall_mem_walk_element {P : Node → Prop} {container : Container}
    {children : List Node} :
    (∀ m ∈ (Node.element container children).walk, P m) ↔
      P (.element container children) ∧ ∀ m ∈ walkAll children, P m := by
  simp only [mem_walk_element, or_imp, forall_and, forall_eq]

theorem forall_mem_walkAll_append {P : Node → Prop} {ns ms : List Node} :
    (∀ m ∈ walkAll (ns ++ ms), P m) ↔ (∀ m ∈ walkAll ns, P m) ∧ ∀ m ∈ walkAll ms, P m := by
  rw [walkAll_append]
  exact List.forall_mem_append

theorem references_eq_nil_iff {ns : List Node} :
    references ns = [] ↔ ∀ m ∈ walkAll ns, m.uri? = none := List.filterMap_eq_nil_iff

theorem Node.tag_or_ne_tag (n : Node) : (∃ c, n = .tag c) ∨ ∀ c, n ≠ .tag c := by
  cases n with
  | tag c => exact .inl ⟨c, rfl⟩
  | literal _ | token _ | ruleRef _ | element _ _ => exact .inr (by simp)

/-! ## Content -/

/-- The node offers a word of its own or a choice. -/
def Node.IsContent : Node → Prop
  | .literal text => (tokenChars text.toList).flatMap words ≠ []
  | .token text => words text.toList ≠ []
  | .element .oneOf _ => True
  | _ => False

/-- There is a word or a choice among the nodes, at any depth. -/
def HasContent (nodes : List Node) : Prop := ∃ n ∈ walkAll nodes, n.IsContent

theorem hasContent_append {ns ms : List Node} :
    HasContent (ns ++ ms) ↔ HasContent ns ∨ HasContent ms := by
  simp only [HasContent, walkAll_append, List.mem_append, or_and_right, exists_or]

theorem hasContent_cons {n : Node} {ns : List Node} :
    HasContent (n :: ns) ↔ (∃ m ∈ n.walk, m.IsContent) ∨ HasContent ns := by
  simp only [HasContent, mem_walkAll_cons, or_and_right, exists_or]

theorem hasContent_element_cons {container : Container} {children ns : List Node} :
    HasContent (.element container children :: ns) ↔
      (container = .oneOf ∨ HasContent children) ∨ HasContent ns := by
  rw [hasContent_cons]
  cases container with
  | oneOf => simp [mem_walk_element, Node.IsContent]
  | item _ | foreign _ _ => simp [mem_walk_element, Node.IsContent, HasContent]

/-! ## Bounds and choices -/

/-- The bounds of the node, if it repeats its content, are in order. -/
def Node.IsOrdered : Node → Prop
  | .element (.item (some r)) _ => r.isOrdered = true
  | _ => True

/-- The bounds of all repeat counts below the nodes are in order. -/
def RepeatsOrdered (nodes : List Node) : Prop := ∀ n ∈ walkAll nodes, n.IsOrdered

/-- Whether the bounds of an element are in order depends on its kind only. -/
theorem element_isOrdered_congr {container : Container} {ms ns : List Node}
    (h : (Node.element container ns).IsOrdered) : (Node.element container ms).IsOrdered := by
  cases container with
  | item occurs => cases occurs <;> exact h
  | oneOf | foreign _ _ => trivial

/-- Raw text or a reference. -/
def Node.IsOpen : Node → Prop
  | .literal _ => True
  | .ruleRef _ => True
  | _ => False

/-- The node does not offer raw text or a reference to choose from. -/
def Node.IsClosedChoice : Node → Prop
  | .element .oneOf children => ∀ n ∈ children, ¬ n.IsOpen
  | _ => True

theorem element_isClosedChoice_congr {container : Container} {ms ns : List Node}
    (hopen : (∀ n ∈ ns, ¬ n.IsOpen) → ∀ m ∈ ms, ¬ m.IsOpen)
    (h : (Node.element container ns).IsClosedChoice) :
    (Node.element container ms).IsClosedChoice := by
  cases container with
  | oneOf => exact hopen h
  | item _ | foreign _ _ => trivial

/-- No choice below the nodes has raw text or a reference directly in it. -/
def ChoicesClosed (nodes : List Node) : Prop := ∀ n ∈ walkAll nodes, n.IsClosedChoice

end SpeechGrammar
