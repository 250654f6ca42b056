import Mathlib.Data.List.Chain
import Mathlib.Data.List.Induction
import SpeechGrammar.Proofs.Markup.Tree

set_option autoImplicit false

/-!
# Elements under construction

An element is built by setting attributes and appending children, in any order. Its attributes
depend on the settings only and are an ordered map: the keys stand in the order of their first
setting, each with its last value. Its children depend on the nodes that were appended only: the
characters and elements of these, in order (`units_foldl_pushNode`), with no text beside text.
`built_agrees` puts the two together.
-/

namespace SpeechGrammar.Markup

/-! ## Attributes -/

variable {attributes : List (String × String)}

theorem insertAll_concat (settings : List (String × String)) (setting : String × String) :
    insertAll (settings ++ [setting]) attributes =
      insertAttr setting.1 setting.2 (insertAll settings attributes) := by
  rw [insertAll, List.foldl_append]
  rfl

/-- A key that comes up again is no new key. -/
theorem eraseDups_concat (keys : List String) (key : String) :
    (keys ++ [key]).eraseDups =
      if key ∈ keys then keys.eraseDups else keys.eraseDups ++ [key] := by
  rw [List.eraseDups_append]
  by_cases hmem : key ∈ keys
  · simp [List.removeAll, hmem]
  · simp [List.removeAll, hmem, List.eraseDups_cons]

/-- The keys stand in the order of their first setting. -/
theorem keys_insertAll (settings : List (String × String)) :
    (insertAll settings []).map Prod.fst = (settings.map Prod.fst).eraseDups := by
  induction settings using List.reverseRecOn with
  | nil => rfl
  | append_singleton settings setting ih =>
      have hmem : setting.1 ∈ (insertAll settings []).map Prod.fst ↔
          setting.1 ∈ settings.map Prod.fst := by
        rw [ih, List.mem_eraseDups]
      rw [insertAll_concat, List.map_append, List.map_singleton, eraseDups_concat]
      by_cases hkey : setting.1 ∈ settings.map Prod.fst
      · rw [keys_insertAttr_of_mem (hmem.2 hkey), ih, if_pos hkey]
      · rw [insertAttr_of_notMem (mt hmem.1 hkey), List.map_append, ih, if_neg hkey]
        rfl

/-- A key has the value of its last setting. -/
theorem lookup?_insertAll (settings : List (String × String)) (key : String) :
    lookup? key (insertAll settings []) =
      (settings.reverse.find? (·.1 == key)).map Prod.snd := by
  induction settings using List.reverseRecOn with
  | nil => rfl
  | append_singleton settings setting ih =>
      rw [insertAll_concat, lookup?_insertAttr, List.reverse_append, List.reverse_singleton,
        List.singleton_append, List.find?_cons]
      by_cases hkey : key = setting.1
      · simp [hkey]
      · have hother : (setting.1 == key) = false := by simpa using Ne.symm hkey
        rw [if_neg hkey, ih, hother]

/-! ## Children -/

/-- What is not lost when texts are joined: the characters of a text one by one, and an element as
it is. -/
def Node.units : Node → List (Char ⊕ Element)
  | .text s => s.toList.map .inl
  | .element name attributes children => [.inr ⟨name, attributes, children⟩]

/-- A node is appended as a child of its own, unless both it and the last child are text. -/
theorem pushNode_cases (children : List Node) (node : Node) :
    (pushNode children node = children ++ [node] ∧
        ∀ last ∈ children.getLast?, last.toElement?.isSome ∨ node.toElement?.isSome) ∨
      ∃ before s t, children = before ++ [.text s] ∧ node = .text t ∧
        pushNode children node = before ++ [.text (s ++ t)] := by
  induction children, node using pushNode.induct with
  | case1 node => exact .inl ⟨rfl, by simp⟩
  | case2 s t => exact .inr ⟨[], s, t, rfl, rfl, rfl⟩
  | case3 c cs node hnot ih =>
      have hpush : pushNode (c :: cs) node = c :: pushNode cs node := by
        rw [pushNode]
        exact hnot
      rw [hpush]
      obtain ⟨hcs, hlast⟩ | ⟨before, s, t, rfl, rfl, hcs⟩ := ih
      · refine .inl ⟨by rw [hcs, List.cons_append], ?_⟩
        cases cs with
        | cons d cs => simpa using hlast
        | nil =>
            intro last hmem
            cases hmem
            cases c with
            | element _ _ _ => exact .inl rfl
            | text s =>
                cases node with
                | element _ _ _ => exact .inr rfl
                | text t => exact (hnot s t rfl rfl rfl).elim
      · exact .inr ⟨c :: before, s, t, rfl, rfl, by rw [hcs, List.cons_append]⟩

/-- Appending a node adds what it consists of at the end. -/
theorem units_pushNode (children : List Node) (node : Node) :
    (pushNode children node).flatMap Node.units =
      children.flatMap Node.units ++ node.units := by
  obtain ⟨hpush, -⟩ | ⟨before, s, t, rfl, rfl, hpush⟩ := pushNode_cases children node
  · rw [hpush, List.flatMap_append, List.flatMap_singleton]
  · rw [hpush, List.flatMap_append, List.flatMap_append, List.append_assoc]
    simp [Node.units]

theorem units_foldl_pushNode (nodes children : List Node) :
    (nodes.foldl pushNode children).flatMap Node.units =
      children.flatMap Node.units ++ nodes.flatMap Node.units := by
  induction nodes generalizing children with
  | nil => simp
  | cons node nodes ih =>
      rw [List.foldl_cons, ih, units_pushNode, List.flatMap_cons, List.append_assoc]

/-- Of two children side by side, one at least is an element. -/
def TextsApart (children : List Node) : Prop :=
  children.IsChain fun a b => a.toElement?.isSome ∨ b.toElement?.isSome

theorem TextsApart.pushNode {children : List Node} (h : TextsApart children) (node : Node) :
    TextsApart (pushNode children node) := by
  obtain ⟨hpush, hlast⟩ | ⟨before, s, t, rfl, rfl, hpush⟩ := pushNode_cases children node
  · rw [hpush]
    exact List.isChain_append.2 ⟨h, .singleton node, by simpa using hlast⟩
  · -- The joined text stands where the text before it stood.
    rw [hpush]
    obtain ⟨hbefore, -, hlast⟩ := List.isChain_append.1 h
    refine List.isChain_append.2 ⟨hbefore, .singleton _, fun a ha b hb => ?_⟩
    cases hb
    exact hlast a ha (.text s) rfl

theorem TextsApart.foldl_pushNode {children : List Node} (h : TextsApart children)
    (nodes : List Node) : TextsApart (nodes.foldl Markup.pushNode children) := by
  induction nodes generalizing children with
  | nil => exact h
  | cons node nodes ih => exact ih (h.pushNode node)

/-- The elements of a list are the elements among what it consists of. -/
theorem filterMap_toElement?_eq (nodes : List Node) :
    nodes.filterMap Node.toElement? = (nodes.flatMap Node.units).filterMap Sum.getRight? := by
  induction nodes with
  | nil => rfl
  | cons node nodes ih =>
      rw [List.flatMap_cons, List.filterMap_append, ← ih]
      cases node with
      | text s =>
          rw [List.filterMap_cons_none rfl]
          simp [Node.units, List.filterMap_map, Function.comp_def]
      | element name attributes children => rfl

/-- The text of a list is read off what it consists of. -/
theorem toList_textContents (nodes : List Node) :
    (textContents nodes).toList =
      (nodes.flatMap Node.units).flatMap (Sum.elim ([·]) fun e => e.textContent.toList) := by
  induction nodes with
  | nil => rfl
  | cons node nodes ih =>
      rw [textContents, String.toList_append, ih, List.flatMap_cons, List.flatMap_append]
      congr 1
      cases node with
      | text s => simp [Node.units, Node.textContent, List.flatMap_map]
      | element name attributes children =>
          simp [Node.units, Node.textContent, Element.textContent]

theorem textContents_eq_join (nodes : List Node) :
    textContents nodes = String.join (nodes.map Node.textContent) := by
  induction nodes with
  | nil => rfl
  | cons node nodes ih => rw [textContents, ih, List.map_cons, String.join_cons]

/-! ## Elements -/

/-- A call that builds an element up. -/
inductive BuildStep where
  | setAttr (key value : String)
  | push (node : Node)
deriving Repr

/-- The key and the value that are set. -/
def BuildStep.setting? : BuildStep → Option (String × String)
  | .setAttr key value => some (key, value)
  | .push _ => none

/-- The node that is appended. -/
def BuildStep.node? : BuildStep → Option Node
  | .setAttr _ _ => none
  | .push node => some node

/-- Build an element up by one call. -/
def Element.build (e : Element) : BuildStep → Element
  | .setAttr key value => e.setAttr key value
  | .push node => e.push node

/-- The element that calls in turn make of an element with a name and nothing else. -/
def Element.built (name : String) (steps : List BuildStep) : Element :=
  steps.foldl Element.build { name := name }

/-- Setting attributes and appending children do not get in each other's way. -/
theorem Element.foldl_build (steps : List BuildStep) (e : Element) :
    steps.foldl Element.build e =
      { e with
        attributes := insertAll (steps.filterMap BuildStep.setting?) e.attributes
        children := (steps.filterMap BuildStep.node?).foldl pushNode e.children } := by
  induction steps generalizing e with
  | nil => rfl
  | cons step steps ih =>
      rw [List.foldl_cons, ih]
      cases step with
      | setAttr key value => rfl
      | push node => rfl

theorem Element.built_eq (name : String) (steps : List BuildStep) :
    Element.built name steps =
      { name := name
        attributes := insertAll (steps.filterMap BuildStep.setting?) []
        children := (steps.filterMap BuildStep.node?).foldl pushNode [] } :=
  Element.foldl_build steps _

/-- An element that is built by any calls in any order is an ordered map with a list that joins
texts. No key occurs twice, the keys stand in the order of their first setting, and each has the
value of its last setting. No two texts stand side by side. The characters and elements below it are
those of the nodes that were appended, in order: the elements are the elements among these, and the
text content is theirs. -/
theorem built_agrees (name : String) (steps : List BuildStep) :
    (Element.built name steps).name = name ∧
      ((Element.built name steps).attributes.map Prod.fst).Nodup ∧
      (Element.built name steps).attributes.map Prod.fst =
        ((steps.filterMap BuildStep.setting?).map Prod.fst).eraseDups ∧
      (∀ key, (Element.built name steps).attr? key =
        ((steps.filterMap BuildStep.setting?).reverse.find? (·.1 == key)).map Prod.snd) ∧
      TextsApart (Element.built name steps).children ∧
      (Element.built name steps).children.flatMap Node.units =
        (steps.filterMap BuildStep.node?).flatMap Node.units ∧
      (Element.built name steps).childElements =
        (steps.filterMap BuildStep.node?).filterMap Node.toElement? ∧
      (Element.built name steps).textContent =
        String.join ((steps.filterMap BuildStep.node?).map Node.textContent) := by
  rw [Element.built_eq]
  generalize steps.filterMap BuildStep.setting? = settings
  generalize steps.filterMap BuildStep.node? = nodes
  have hunits : (nodes.foldl pushNode []).flatMap Node.units = nodes.flatMap Node.units :=
    units_foldl_pushNode nodes []
  have hapart : TextsApart (nodes.foldl pushNode []) := TextsApart.foldl_pushNode .nil nodes
  refine ⟨rfl, nodup_insertAll (by simp) settings, keys_insertAll settings,
    lookup?_insertAll settings, hapart, hunits, ?_, ?_⟩
  · rw [Element.childElements, filterMap_toElement?_eq, hunits, ← filterMap_toElement?_eq]
  · rw [Element.textContent, ← textContents_eq_join, ← String.toList_inj, toList_textContents,
      hunits, ← toList_textContents]

end SpeechGrammar.Markup
