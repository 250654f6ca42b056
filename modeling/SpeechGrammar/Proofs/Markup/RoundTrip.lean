import SpeechGrammar.Proofs.Markup.Reader

set_option autoImplicit false

/-!
# Writing and reading a tree of markup

What is read of a written tree is its normal form: in every element the texts that stand side by
side are joined, each joined text loses the blanks at its ends, and a text of which nothing is left
is dropped (`read_render_normalForm`). A tree is read as it was written exactly if it is in this form
(`Element.IsTrimmed`), and the normal form of every tree is, so that writing and reading a second
time changes nothing.
-/

namespace SpeechGrammar.Markup

open Text

/-! ## The normal form -/

/-- Put a node in front of nodes. A text is joined to the text behind it. -/
def consNode : Node → List Node → List Node
  | .text s, .text t :: ns => .text (s ++ t) :: ns
  | n, ns => n :: ns

mutual

/-- The node with the texts joined that stand side by side below it. -/
def Node.joinTexts : Node → Node
  | .text s => .text s
  | .element name attributes children => .element name attributes (joinTextsAll children)

/-- Join the texts that stand side by side, in the list and below it. -/
def joinTextsAll : List Node → List Node
  | [] => []
  | n :: ns => consNode n.joinTexts (joinTextsAll ns)

end

mutual

/-- The node with the blanks removed from the ends of its texts; nothing if it is a blank text. -/
def Node.trimTexts : Node → List Node
  | .text s => textNodes s.toList
  | .element name attributes children => [.element name attributes (trimTextsAll children)]

/-- Remove the blanks from the ends of all texts, and drop the texts that are left empty. -/
def trimTextsAll : List Node → List Node
  | [] => []
  | n :: ns => n.trimTexts ++ trimTextsAll ns

end

/-- The element with its texts joined and then trimmed. -/
def Element.normalForm (e : Element) : Element :=
  { e with children := trimTextsAll (joinTextsAll e.children) }

/-- An empty text in front of nodes changes nothing in the end. -/
theorem trimTextsAll_consNode_empty (ns : List Node) :
    trimTextsAll (consNode (.text "") ns) = trimTextsAll ns := by
  have hempty : textNodes [] = [] := rfl
  cases ns with
  | nil => simp [consNode, trimTextsAll, Node.trimTexts, hempty]
  | cons n ns => cases n <;> simp [consNode, trimTextsAll, Node.trimTexts, hempty]

/-- Joining and then trimming is what the reader does, run by run. -/
theorem trimTextsAll_consNode : ∀ (ns : List Node) (text : List Char),
    trimTextsAll (consNode (.text (String.ofList text)) (joinTextsAll ns)) = rereadFrom text ns
  | [], text => by simp [joinTextsAll, consNode, trimTextsAll, Node.trimTexts, rereadFrom]
  | .text s :: ns, text => by
      have hjoin : consNode (.text (String.ofList text)) (joinTextsAll (.text s :: ns)) =
          consNode (.text (String.ofList (text ++ s.toList))) (joinTextsAll ns) := by
        rw [joinTextsAll, Node.joinTexts]
        cases joinTextsAll ns with
        | nil => simp [consNode]
        | cons n ms => cases n <;> simp [consNode, String.append_assoc]
      rw [hjoin, trimTextsAll_consNode ns, rereadFrom]
  | .element name attributes children :: ns, text => by
      have hbelow := trimTextsAll_consNode children []
      have hrest := trimTextsAll_consNode ns []
      rw [String.ofList_nil, trimTextsAll_consNode_empty] at hbelow hrest
      simp [joinTextsAll, Node.joinTexts, consNode, trimTextsAll, Node.trimTexts, hbelow, hrest,
        rereadFrom, Node.reread]

theorem Element.normalForm_eq (e : Element) :
    e.normalForm = ⟨e.name, e.attributes, rereadFrom [] e.children⟩ := by
  have hread := trimTextsAll_consNode e.children []
  rw [String.ofList_nil, trimTextsAll_consNode_empty] at hread
  rw [normalForm, hread]

/-! ## Trees in normal form -/

mutual

/-- No text of the node is empty, begins or ends with a blank, or stands beside another one. -/
def Node.IsTrimmed : Node → Prop
  | .text s => s ≠ "" ∧ (∀ c ∈ s.toList.head?, isXmlBlank c = false) ∧
      ∀ c ∈ s.toList.getLast?, isXmlBlank c = false
  | .element _ _ children => AllTrimmed children

/-- The nodes are trimmed, and no two texts stand side by side. -/
def AllTrimmed : List Node → Prop
  | [] => True
  | n :: ns => n.IsTrimmed ∧ (∀ s, n = .text s → ∀ t, ns.head? ≠ some (.text t)) ∧ AllTrimmed ns

end

/-- The texts of the element are as the reader leaves them. -/
def Element.IsTrimmed (e : Element) : Prop := AllTrimmed e.children

/-- A text that is read is trimmed. -/
theorem allTrimmed_textNodes {ns : List Node} (hns : AllTrimmed ns)
    (hhead : ∀ t, ns.head? ≠ some (.text t)) (run : List Char) :
    AllTrimmed (textNodes run ++ ns) := by
  rw [textNodes]
  split
  · exact hns
  · rename_i hrun
    obtain ⟨hfirst, hlast⟩ := trimBy_ends isXmlBlank run
    refine ⟨⟨?_, ?_, ?_⟩, fun _ _ => hhead, hns⟩
    · intro hempty
      rw [String.ofList_eq_empty_iff] at hempty
      exact hrun (by simp [hempty])
    · rwa [String.toList_ofList]
    · rwa [String.toList_ofList]

/-- Whatever is read is trimmed. -/
theorem allTrimmed_rereadFrom : ∀ (ns : List Node) (text : List Char),
    AllTrimmed (rereadFrom text ns)
  | [], text => by
      have hnil : AllTrimmed [] := trivial
      have h := allTrimmed_textNodes hnil (by simp) text
      rwa [List.append_nil] at h
  | .text s :: ns, text => allTrimmed_rereadFrom ns (text ++ s.toList)
  | .element name attributes children :: ns, text => by
      rw [rereadFrom_cons (by simp)]
      have hcons : AllTrimmed (.element name attributes (rereadFrom [] children) ::
          rereadFrom [] ns) :=
        ⟨allTrimmed_rereadFrom children [], by simp, allTrimmed_rereadFrom ns []⟩
      exact allTrimmed_textNodes hcons (by simp) text

theorem textNodes_of_isTrimmed {s : String} (h : (Node.text s).IsTrimmed) :
    textNodes s.toList = [.text s] := by
  have htrim : trimXml s.toList = s.toList := trimBy_eq_self h.2.1 h.2.2
  have hne : ¬ s.toList.isEmpty = true := by simpa using h.1
  rw [textNodes, htrim, if_neg hne, String.ofList_toList]

/-- Trimmed nodes are read as they were written. -/
theorem rereadFrom_of_allTrimmed : ∀ ns : List Node, AllTrimmed ns → rereadFrom [] ns = ns
  | [], _ => rfl
  | [.text s], h => by
      rw [rereadFrom, List.nil_append, rereadFrom, textNodes_of_isTrimmed h.1]
  | .text s :: .text t :: ns, h => absurd rfl (h.2.1 s rfl t)
  | .text s :: .element name attributes children :: ns, h => by
      have hrest := rereadFrom_of_allTrimmed (.element name attributes children :: ns) h.2.2
      rw [rereadFrom_cons (by simp)] at hrest
      rw [rereadFrom, List.nil_append, rereadFrom_cons (by simp), textNodes_of_isTrimmed h.1]
      exact congrArg (Node.text s :: ·) hrest
  | .element name attributes children :: ns, h => by
      rw [rereadFrom_cons (by simp), Node.reread, rereadFrom_of_allTrimmed children h.1,
        rereadFrom_of_allTrimmed ns h.2.2]
      rfl

theorem Element.normalForm_eq_self_iff (e : Element) : e.normalForm = e ↔ e.IsTrimmed := by
  rw [normalForm_eq]
  constructor
  · intro h
    rw [IsTrimmed, ← h]
    exact allTrimmed_rereadFrom e.children []
  · intro h
    rw [rereadFrom_of_allTrimmed e.children h]

theorem Element.isTrimmed_normalForm (e : Element) : e.normalForm.IsTrimmed := by
  rw [normalForm_eq]
  exact allTrimmed_rereadFrom e.children []

/-! ## The round trip -/

theorem allReadable_textNodes {ns : List Node} (h : AllReadable ns) (run : List Char) :
    AllReadable (textNodes run ++ ns) := by
  rw [textNodes]
  split
  · exact h
  · exact ⟨trivial, h⟩

/-- Reading keeps the tags. -/
theorem allReadable_rereadFrom : ∀ (ns : List Node), AllReadable ns → ∀ text,
    AllReadable (rereadFrom text ns)
  | [], _, text => by
      have hnil : AllReadable [] := trivial
      have h := allReadable_textNodes hnil text
      rwa [List.append_nil] at h
  | .text s :: ns, h, text => allReadable_rereadFrom ns h.2 (text ++ s.toList)
  | .element name attributes children :: ns, h, text => by
      have hcons : AllReadable (.element name attributes (rereadFrom [] children) ::
          rereadFrom [] ns) :=
        ⟨⟨h.1.1, allReadable_rereadFrom children h.1.2 []⟩, allReadable_rereadFrom ns h.2 []⟩
      rw [rereadFrom_cons (by simp)]
      exact allReadable_textNodes hcons text

/-- Reading undoes writing: what is read of a written tree is its normal form, so it is the tree
itself exactly if the tree is in this form, and a second round changes nothing. -/
theorem read_render_normalForm {e : Element} (h : e.toNode.IsReadable) :
    read e.render = .ok e.normalForm ∧ (read e.render = .ok e ↔ e.IsTrimmed) ∧
      read e.normalForm.render = .ok e.normalForm := by
  have hread : read e.render = .ok e.normalForm := by
    rw [read_render h, Element.normalForm_eq]
  have hreadable : e.normalForm.toNode.IsReadable := by
    rw [Element.normalForm_eq]
    exact ⟨h.1, allReadable_rereadFrom e.children h.2 []⟩
  refine ⟨hread, ?_, ?_⟩
  · rw [hread, Except.ok.injEq, Element.normalForm_eq_self_iff]
  · rw [read_render hreadable, ← Element.normalForm_eq,
      e.normalForm.normalForm_eq_self_iff.2 e.isTrimmed_normalForm]

/-- A tree whose texts have blanks at their ends or stand side by side, and whose names and values
hold characters that are escaped or that begin other markup. -/
def orderTree : Element where
  name := "order!"
  attributes := [("xml:lang", "en & <de>"), ("?note", "5' or \"6'\"")]
  children := [.text " two\n", .text "&", .element "size" [] [.text "\t"], .text "a < b"]

theorem read_render_normalForm_orderTree :
    read orderTree.render = .ok { orderTree with
      children := [.text "two\n&", .element "size" [] [], .text "a < b"] } ∧
      ¬ orderTree.IsTrimmed := by
  have hreadable : orderTree.toNode.IsReadable := by
    have hroot : IsReadableTag orderTree.name orderTree.attributes :=
      ⟨⟨by decide, by decide, by simp [orderTree]⟩, by decide, by decide⟩
    have hsize : IsReadableTag "size" [] :=
      ⟨⟨by decide, by decide, by simp⟩, by decide, by decide⟩
    exact ⟨hroot, trivial, trivial, ⟨hsize, trivial, trivial⟩, trivial, trivial⟩
  obtain ⟨hread, hiff, -⟩ := read_render_normalForm hreadable
  have hform : orderTree.normalForm = { orderTree with
      children := [.text "two\n&", .element "size" [] [], .text "a < b"] } := by decide
  rw [hform] at hread
  refine ⟨hread, fun htrimmed => ?_⟩
  have hsame := hread.symm.trans (hiff.2 htrimmed)
  exact absurd (Except.ok.inj hsame) (by decide)

end SpeechGrammar.Markup
