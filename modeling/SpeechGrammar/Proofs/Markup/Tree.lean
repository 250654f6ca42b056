import Mathlib.Data.List.Nodup
import SpeechGrammar.Markup.Tree

set_option autoImplicit false

/-!
# Building elements

What setting an attribute and appending a child do. A key is set once, at the place of its first
setting, and looking it up gives the last value. A child is appended at the end, unless it is text
right behind text.
-/

namespace SpeechGrammar.Markup

/-! ## Attributes -/

variable {key : String} {attributes : List (String × String)}

theorem insertAttr_of_notMem (h : key ∉ attributes.map Prod.fst) (value : String) :
    insertAttr key value attributes = attributes ++ [(key, value)] := by
  induction attributes with
  | nil => rfl
  | cons entry attributes ih =>
      rw [List.map_cons, List.mem_cons, not_or] at h
      rw [insertAttr, if_neg (Ne.symm h.1), ih h.2, List.cons_append]

/-- Setting a key that is there keeps all keys in their places. -/
theorem keys_insertAttr_of_mem (h : key ∈ attributes.map Prod.fst) (value : String) :
    (insertAttr key value attributes).map Prod.fst = attributes.map Prod.fst := by
  induction attributes with
  | nil => cases h
  | cons entry attributes ih =>
      rw [insertAttr]
      split
      · rfl
      · rename_i hne
        rw [List.map_cons, List.mem_cons] at h
        rw [List.map_cons, ih (h.resolve_left (Ne.symm hne)), List.map_cons]

theorem nodup_insertAttr (h : (attributes.map Prod.fst).Nodup) (key value : String) :
    ((insertAttr key value attributes).map Prod.fst).Nodup := by
  by_cases hmem : key ∈ attributes.map Prod.fst
  · rwa [keys_insertAttr_of_mem hmem]
  · rw [insertAttr_of_notMem hmem, List.map_append]
    simpa using h.concat hmem

/-- What holds of all keys and of the new one holds of all keys afterwards. -/
theorem forall_keys_insertAttr {P : String → Prop} (h : ∀ entry ∈ attributes, P entry.1)
    (hkey : P key) (value : String) : ∀ entry ∈ insertAttr key value attributes, P entry.1 := by
  induction attributes with
  | nil => simpa [insertAttr] using hkey
  | cons entry attributes ih =>
      rw [List.forall_mem_cons] at h
      rw [insertAttr]
      split
      · exact List.forall_mem_cons.2 h
      · exact List.forall_mem_cons.2 ⟨h.1, ih h.2⟩

theorem lookup?_insertAttr (key' : String) (value : String) :
    lookup? key' (insertAttr key value attributes) =
      if key' = key then some value else lookup? key' attributes := by
  induction attributes with
  | nil => simp [insertAttr, lookup?, eq_comm]
  | cons entry attributes ih =>
      obtain ⟨k, v⟩ := entry
      rw [insertAttr]
      split
      · rename_i hk
        subst hk
        by_cases h : key' = k
        · simp [lookup?, h]
        · simp [lookup?, h, Ne.symm h]
      · rename_i hk
        by_cases h : key' = k
        · subst h
          simp [lookup?, hk]
        · simp [lookup?, ih, Ne.symm h]

/-- Setting attributes leaves the name and the children as they are. -/
theorem Element.setAttrs_eq (e : Element) (settings : List (String × String)) :
    e.setAttrs settings = { e with attributes := insertAll settings e.attributes } := by
  induction settings generalizing e with
  | nil => rfl
  | cons setting settings ih => exact ih (e.setAttr setting.1 setting.2)

theorem nodup_insertAll (h : (attributes.map Prod.fst).Nodup) (settings : List (String × String)) :
    ((insertAll settings attributes).map Prod.fst).Nodup := by
  induction settings generalizing attributes with
  | nil => exact h
  | cons setting settings ih => exact ih (nodup_insertAttr h setting.1 setting.2)

theorem forall_keys_insertAll {P : String → Prop} {settings : List (String × String)}
    (h : ∀ entry ∈ attributes, P entry.1) (hsettings : ∀ setting ∈ settings, P setting.1) :
    ∀ entry ∈ insertAll settings attributes, P entry.1 := by
  induction settings generalizing attributes with
  | nil => exact h
  | cons setting settings ih =>
      rw [List.forall_mem_cons] at hsettings
      exact ih (forall_keys_insertAttr h hsettings.1 setting.2) hsettings.2

/-- Keys that are all new stand behind the others as they come. -/
theorem insertAll_eq_append {settings : List (String × String)}
    (h : ((attributes ++ settings).map Prod.fst).Nodup) :
    insertAll settings attributes = attributes ++ settings := by
  induction settings generalizing attributes with
  | nil => exact (List.append_nil attributes).symm
  | cons setting settings ih =>
      have hshape : attributes ++ setting :: settings = attributes ++ [setting] ++ settings := by
        simp
      have hnew : setting.1 ∉ attributes.map Prod.fst := by
        intro hmem
        rw [List.map_append, List.nodup_append] at h
        exact h.2.2 _ hmem _ (List.mem_cons_self ..) rfl
      rw [hshape] at h ⊢
      rw [← ih h, ← insertAttr_of_notMem hnew]
      rfl

/-- An attribute that is set to nothing stays as it is. -/
theorem attr?_setAttr? (e : Element) (key key' : String) (value? : Option String) :
    (e.setAttr? key value?).attr? key' = if key' = key then value?.or (e.attr? key')
      else e.attr? key' := by
  cases value? with
  | none => simp [Element.setAttr?]
  | some value => simp [Element.setAttr?, Element.setAttr, Element.attr?, lookup?_insertAttr]

@[simp] theorem name_setAttr? (e : Element) (key : String) (value? : Option String) :
    (e.setAttr? key value?).name = e.name := by
  cases value? <;> rfl

@[simp] theorem children_setAttr? (e : Element) (key : String) (value? : Option String) :
    (e.setAttr? key value?).children = e.children := by
  cases value? <;> rfl

/-! ## Children -/

theorem Element.pushAll_eq (e : Element) (nodes : List Node) :
    e.pushAll nodes = { e with children := nodes.foldl pushNode e.children } := by
  induction nodes generalizing e with
  | nil => rfl
  | cons node nodes ih => exact ih (e.push node)

theorem pushNode_element (children : List Node) (name : String)
    (attributes : List (String × String)) (below : List Node) :
    pushNode children (.element name attributes below) =
      children ++ [.element name attributes below] := by
  induction children with
  | nil => rfl
  | cons c children ih => rw [pushNode, ih, List.cons_append]; simp

/-- Text that does not come right behind text is a node of its own. -/
theorem pushNode_text {children : List Node} (h : ∀ t, children.getLast? ≠ some (.text t))
    (s : String) : pushNode children (.text s) = children ++ [.text s] := by
  induction children with
  | nil => rfl
  | cons c children ih =>
      cases children with
      | nil =>
          cases c with
          | text t => exact absurd rfl (h t)
          | element _ _ _ => rfl
      | cons d children =>
          have hrest := ih fun t => by simpa using h t
          rw [pushNode, hrest]
          · rfl
          · rintro _ _ - - ⟨⟩

theorem pushNode_cons_cons (c d : Node) (cs : List Node) (node : Node) :
    pushNode (c :: d :: cs) node = c :: pushNode (d :: cs) node := by
  rw [pushNode]
  simp

theorem pushNode_ne_nil (children : List Node) (node : Node) : pushNode children node ≠ [] := by
  induction children, node using pushNode.induct with
  | case1 node => simp [pushNode]
  | case2 old new => simp [pushNode]
  | case3 c children node hnot ih =>
      rw [pushNode]
      · exact List.cons_ne_nil _ _
      · exact hnot

/-- Text joins the text that was appended right before it. -/
theorem pushNode_pushNode_text (children : List Node) (s t : String) :
    pushNode (pushNode children (.text s)) (.text t) = pushNode children (.text (s ++ t)) := by
  induction children with
  | nil => rfl
  | cons c children ih =>
      cases children with
      | nil =>
          cases c with
          | text r => simp [pushNode, String.append_assoc]
          | element _ _ _ => rfl
      | cons d children =>
          obtain ⟨e, es, hpush⟩ :=
            List.exists_cons_of_ne_nil (pushNode_ne_nil (d :: children) (.text s))
          rw [pushNode_cons_cons, pushNode_cons_cons, ← ih, hpush, pushNode_cons_cons]

end SpeechGrammar.Markup
