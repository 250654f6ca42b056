import SpeechGrammar.Markup.Reader
import SpeechGrammar.Proofs.Markup.Tree
import SpeechGrammar.Proofs.Outcome

set_option autoImplicit false

/-!
# Every tree that is read is well formed

In a well-formed tree no text is empty, no two texts stand side by side, and no element has two
attributes with one key. Every event leaves what has been assembled in this form, the open elements
as well as the root (`Assembly.IsWellFormed.take`), so every document that can be read gives a
well-formed tree (`isWellFormed_of_read`).
-/

namespace SpeechGrammar.Markup

/-! ## Well-formed trees -/

mutual

/-- A text that is not empty, or an element whose keys are distinct, with well-formed children. -/
def Node.IsWellFormed : Node → Prop
  | .text s => s ≠ ""
  | .element _ attributes children => (attributes.map Prod.fst).Nodup ∧ AllWellFormed children

/-- The nodes are well formed, and no two texts stand side by side. -/
def AllWellFormed : List Node → Prop
  | [] => True
  | n :: ns => n.IsWellFormed ∧ (∀ s, n = .text s → ∀ t, ns.head? ≠ some (.text t)) ∧
      AllWellFormed ns

end

/-- Only behind a text at the front does a list begin with text after a child is appended. -/
theorem exists_text_of_head?_pushNode {c : Node} {cs : List Node} {node : Node} {t : String}
    (h : (pushNode (c :: cs) node).head? = some (.text t)) : ∃ s, c = .text s := by
  cases c with
  | text s => exact ⟨s, rfl⟩
  | element name attributes children =>
      cases cs with
      | nil => simp [pushNode] at h
      | cons d cs => simp [pushNode_cons_cons] at h

/-- Appending a well-formed child keeps nodes well formed: text that comes behind text joins it. -/
theorem allWellFormed_pushNode {children : List Node} {node : Node}
    (hchildren : AllWellFormed children) (hnode : node.IsWellFormed) :
    AllWellFormed (pushNode children node) := by
  induction children, node using pushNode.induct with
  | case1 node => exact ⟨hnode, by simp, trivial⟩
  | case2 old new =>
      refine ⟨?_, by simp, trivial⟩
      intro hempty
      exact hnode (String.append_eq_empty_iff.1 hempty).2
  | case3 c cs node hnot ih =>
      obtain ⟨hc, hnext, hcs⟩ := hchildren
      rw [pushNode]
      · refine ⟨hc, fun s hs t ht => ?_, ih hcs hnode⟩
        cases cs with
        | nil =>
            -- The new text would have joined the one before it.
            have hpushed : node = .text t := Option.some.inj ht
            exact hnot s t hpushed hs rfl
        | cons d cs =>
            obtain ⟨s', rfl⟩ := exists_text_of_head?_pushNode ht
            exact hnext s hs s' rfl
      · exact hnot

theorem isWellFormed_push {e : Element} {node : Node} (he : e.toNode.IsWellFormed)
    (hnode : node.IsWellFormed) : (e.push node).toNode.IsWellFormed :=
  ⟨he.1, allWellFormed_pushNode he.2 hnode⟩

/-! ## Assembling -/

/-- A key that comes again in a tag is set again, so the element has it once. -/
theorem isWellFormed_tagElement (name : List Char) (attributes : List (String × String)) :
    (tagElement name attributes).toNode.IsWellFormed := by
  rw [tagElement, Element.setAttrs_eq]
  exact ⟨nodup_insertAll (by simp) attributes, trivial⟩

/-- The open elements are well formed as far as they have been read, and so is the root. -/
structure Assembly.IsWellFormed (a : Assembly) : Prop where
  opened : ∀ o ∈ a.opened, o.element.toNode.IsWellFormed
  root : ∀ e ∈ a.root?, e.toNode.IsWellFormed

namespace Assembly.IsWellFormed

variable {a b : Assembly}

theorem pushInner {node : Node} (ha : a.IsWellFormed) (hnode : node.IsWellFormed) :
    (a.pushInner node).IsWellFormed := by
  obtain ⟨opened, root?⟩ := a
  cases opened with
  | nil => exact ha
  | cons inner outer =>
      obtain ⟨hinner, houter⟩ := List.forall_mem_cons.1 ha.opened
      exact ⟨List.forall_mem_cons.2 ⟨isWellFormed_push hinner hnode, houter⟩, ha.root⟩

/-- A tag that is its own end and an end tag bring their element to its place in the same way. -/
theorem attach {e : Element} (ha : a.IsWellFormed) (he : e.toNode.IsWellFormed)
    (h : a.attach e = .ok b) : b.IsWellFormed := by
  unfold Assembly.attach at h
  split at h
  · cases h
    exact ha.pushInner he
  · cases h
  · cases h
    exact ⟨ha.opened, by simpa using he⟩

/-- Every event keeps what has been assembled well formed. -/
theorem take {event : Event} (ha : a.IsWellFormed) (h : a.take event = .ok b) :
    b.IsWellFormed := by
  cases event with
  | text content =>
      rw [Assembly.take] at h
      cases h
      split_ifs with hempty
      · exact ha
      · refine ha.pushInner ?_
        simpa [Node.IsWellFormed] using hempty
  | startTag name attributes =>
      cases h
      exact ⟨List.forall_mem_cons.2 ⟨isWellFormed_tagElement name attributes, ha.opened⟩, ha.root⟩
  | emptyTag name attributes => exact ha.attach (isWellFormed_tagElement name attributes) h
  | endTag name position =>
      obtain ⟨opened, root?⟩ := a
      cases opened with
      | nil => cases h
      | cons inner outer =>
          simp only [Assembly.take] at h
          split_ifs at h
          obtain ⟨hinner, houter⟩ := List.forall_mem_cons.1 ha.opened
          have hclosed : Assembly.IsWellFormed ⟨outer, root?⟩ := ⟨houter, ha.root⟩
          exact hclosed.attach hinner h
  | malformed position => cases h

theorem foldlM_take {es : List Event} (ha : a.IsWellFormed)
    (h : es.foldlM Assembly.take a = .ok b) : b.IsWellFormed := by
  induction es generalizing a with
  | nil =>
      cases h
      exact ha
  | cons event es ih =>
      rw [List.foldlM_cons] at h
      obtain ⟨a', htake, hrest⟩ := bind_eq_ok.1 h
      exact ih (ha.take htake) hrest

theorem finish {e : Element} (ha : a.IsWellFormed) (h : a.finish = .ok e) :
    e.toNode.IsWellFormed := by
  unfold Assembly.finish at h
  split at h
  · cases h
  · cases h
  · rename_i root hopened hroot
    cases h
    exact ha.root _ hroot

end Assembly.IsWellFormed

/-- Every document that can be read gives a well-formed tree. -/
theorem isWellFormed_of_read {s : String} {e : Element} (h : read s = .ok e) :
    e.toNode.IsWellFormed := by
  obtain ⟨a, hrun, hfinish⟩ := bind_eq_ok.1 h
  have hstart : Assembly.IsWellFormed {} := ⟨by simp, by simp⟩
  exact (hstart.foldlM_take hrun).finish hfinish

/-- Runs of text, an entity, verbatim sections, two of them empty, a comment and instructions stand
side by side here, and an element without content between two texts. -/
def mixedDocument : String :=
  "<?xml version=\"1.0\"?><order a=\"1\" b=\"2\"> one <!-- x --> &amp; <![CDATA[]]>" ++
    "<![CDATA[ two ]]><?p?><size c=\"3\"/> three <size><![CDATA[]]></size></order>"

/-- The tree that is read of the document. -/
def mixedElement : Element where
  name := "order"
  attributes := [("a", "1"), ("b", "2")]
  children := [.text "one& two ", .element "size" [("c", "3")] [], .text "three",
    .element "size" [] []]

theorem isWellFormed_of_read_mixedDocument :
    read mixedDocument = .ok mixedElement ∧ mixedElement.toNode.IsWellFormed := by
  have hread : read mixedDocument = .ok mixedElement := by decide +kernel
  exact ⟨hread, isWellFormed_of_read hread⟩

end SpeechGrammar.Markup
