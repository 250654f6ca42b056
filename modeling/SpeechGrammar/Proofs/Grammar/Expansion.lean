import SpeechGrammar.Proofs.Grammar.Content
import SpeechGrammar.Proofs.Outcome

set_option autoImplicit false

/-!
# Expansion

`Expands` says what it means to replace every reference by the expanded body of its rule, without
a path and without errors. The expansion of a list of nodes is unique, has no reference left, and
is what `expandNodes` gives (`expands_of_expandNodes`). Whether there is one, and else the error,
depends on the references alone (`expandNodes_outcome`).
-/

namespace SpeechGrammar

variable {rules : List Rule}

/-! ## The first definition of an id -/

theorem id_of_findRule? {id : String} {rule : Rule} (h : findRule? rules id = some rule) :
    rule.id = id := by
  simpa using List.find?_some h

theorem mem_of_findRule? {id : String} {rule : Rule} (h : findRule? rules id = some rule) :
    rule ∈ rules := List.mem_of_find?_eq_some h

theorem findRule?_append (rules others : List Rule) (id : String) :
    findRule? (rules ++ others) id = (findRule? rules id).or (findRule? others id) :=
  List.find?_append ..

theorem findRule?_map {f : Rule → Rule} (hid : ∀ rule, (f rule).id = rule.id) (id : String) :
    findRule? (rules.map f) id = (findRule? rules id).map f := by
  simp [findRule?, List.find?_map, hid]

theorem resolve_eq_ok {uri : String} {target : Rule} :
    resolve rules uri = .ok target ↔
      ∃ id, targetId? uri = some id ∧ findRule? rules id = some target := by
  rw [resolve, ← Option.bind_eq_some_iff]
  cases (targetId? uri).bind (findRule? rules) with
  | none => simp
  | some found => simp

/-- A reference resolves to the first rule with its id. -/
theorem findRule?_of_resolve {uri : String} {target : Rule}
    (h : resolve rules uri = .ok target) : findRule? rules target.id = some target := by
  obtain ⟨id, -, hid⟩ := resolve_eq_ok.1 h
  rw [id_of_findRule? hid]
  exact hid

/-! ## Expansions -/

/-- The node is neither a reference nor an element. -/
def Node.IsLeaf : Node → Prop
  | .literal _ | .token _ | .tag _ => True
  | _ => False

/-- A list of nodes with every reference, at any depth, replaced by the expansion of the body of
its rule. -/
inductive Expands (rules : List Rule) : List Node → List Node → Prop
  | nil : Expands rules [] []
  | leaf {n : Node} {ns ms : List Node} (hn : n.IsLeaf) (hns : Expands rules ns ms) :
      Expands rules (n :: ns) (n :: ms)
  | ruleRef {uri : String} {target : Rule} {body ns ms : List Node}
      (huri : resolve rules uri = .ok target) (hbody : Expands rules target.body body)
      (hns : Expands rules ns ms) : Expands rules (.ruleRef uri :: ns) (body ++ ms)
  | element {container : Container} {children expanded ns ms : List Node}
      (hchildren : Expands rules children expanded) (hns : Expands rules ns ms) :
      Expands rules (.element container children :: ns) (.element container expanded :: ms)

theorem Expands.append {ns ms ns' ms' : List Node} (h : Expands rules ns ms)
    (h' : Expands rules ns' ms') : Expands rules (ns ++ ns') (ms ++ ms') := by
  induction h with
  | nil => exact h'
  | leaf hn _ ih => exact .leaf hn ih
  | ruleRef huri hbody _ _ ih =>
      rw [List.append_assoc]
      exact .ruleRef huri hbody ih
  | element hchildren _ _ ih => exact .element hchildren ih

/-- There is at most one expansion. -/
theorem Expands.unique {ns ms ms' : List Node} (h : Expands rules ns ms)
    (h' : Expands rules ns ms') : ms = ms' := by
  induction h generalizing ms' with
  | nil => cases h'; rfl
  | leaf hn _ ih =>
      cases h' with
      | leaf _ hns => rw [ih hns]
      | ruleRef _ _ _ => cases hn
      | element _ _ => cases hn
  | ruleRef huri _ _ ihbody ih =>
      cases h' with
      | leaf hn _ => cases hn
      | ruleRef huri' hbody hns =>
          rw [huri] at huri'
          cases huri'
          rw [ihbody hbody, ih hns]
  | element _ _ ihchildren ih =>
      cases h' with
      | leaf hn _ => cases hn
      | element hchildren hns => rw [ihchildren hchildren, ih hns]

/-! ## The references of a list of nodes -/

theorem references_append (ns ms : List Node) :
    references (ns ++ ms) = references ns ++ references ms := by
  rw [references, walkAll_append, List.filterMap_append]
  rfl

theorem references_leaf_cons {n : Node} (hn : n.IsLeaf) (ns : List Node) :
    references (n :: ns) = references ns := by
  cases n with
  | literal _ | token _ | tag _ => rfl
  | ruleRef _ | element _ _ => cases hn

theorem references_ruleRef_cons (uri : String) (ns : List Node) :
    references (.ruleRef uri :: ns) = uri :: references ns := rfl

theorem references_element_cons (container : Container) (children ns : List Node) :
    references (.element container children :: ns) = references children ++ references ns := by
  rw [references, walkAll, Node.walk, List.cons_append, List.filterMap_cons_none rfl,
    List.filterMap_append]
  rfl

theorem references_singleton_element (container : Container) (children : List Node) :
    references [.element container children] = references children := by
  rw [references_element_cons]
  exact List.append_nil _

theorem references_cons (n : Node) (ns : List Node) :
    references (n :: ns) = references [n] ++ references ns := by
  rw [← references_append, List.singleton_append]

/-- No reference is left in an expansion. -/
theorem Expands.references_eq_nil {ns ms : List Node} (h : Expands rules ns ms) :
    references ms = [] := by
  induction h with
  | nil => rfl
  | leaf hn _ ih => rw [references_leaf_cons hn, ih]
  | ruleRef _ _ _ ihbody ih => rw [references_append, ihbody, ih, List.nil_append]
  | element _ _ ihchildren ih => rw [references_element_cons, ihchildren, ih, List.nil_append]

/-! ## Replacing references -/

/-- Visit texts in order, up to the first error. -/
def visitAll {α : Type} (visit : String → Except Error α) : List String → Except Error Unit
  | [] => .ok ()
  | uri :: uris => (visit uri).bind fun _ => visitAll visit uris

theorem visitAll_append {α : Type} (visit : String → Except Error α) (uris uris' : List String) :
    visitAll visit (uris ++ uris') =
      (visitAll visit uris).bind fun _ => visitAll visit uris' := by
  induction uris with
  | nil => rfl
  | cons uri uris ih =>
      rw [List.cons_append, visitAll, visitAll, ih]
      cases visit uri with
      | error e => rfl
      | ok a => rfl

theorem visitAll_eq_ok_iff {α : Type} {visit : String → Except Error α} {uris : List String} :
    visitAll visit uris = .ok () ↔ ∀ uri ∈ uris, ∃ a, visit uri = .ok a := by
  induction uris with
  | nil => simp [visitAll]
  | cons uri uris ih => simp [visitAll, bind_eq_ok, ih]

/-- Which reference stops a visit, and with which error, depends on the errors alone. -/
theorem visitAll_congr {α β : Type} {visit : String → Except Error α}
    {visit' : String → Except Error β}
    (h : ∀ uri, (visit uri).map (fun _ => ()) = (visit' uri).map fun _ => ())
    (uris : List String) : visitAll visit uris = visitAll visit' uris := by
  induction uris with
  | nil => rfl
  | cons uri uris ih =>
      rw [visitAll, visitAll, bind_forget, h uri, ih, ← bind_forget (visit' uri)]

mutual

/-- Replacing references fails only at a reference, and at the first one that fails. -/
theorem splice_outcome (target : String → Except Error (List Node)) : ∀ n : Node,
    (n.splice target).map (fun _ => ()) = visitAll target (references [n])
  | .literal _ => rfl
  | .token _ => rfl
  | .tag _ => rfl
  | .ruleRef uri => by
      rw [Node.splice, references_ruleRef_cons, visitAll]
      cases target uri with
      | error e => rfl
      | ok ms => rfl
  | .element container children => by
      rw [Node.splice, references_singleton_element, ← spliceAll_outcome target children]
      cases spliceAll target children with
      | error e => rfl
      | ok ms => rfl

theorem spliceAll_outcome (target : String → Except Error (List Node)) : ∀ ns : List Node,
    (spliceAll target ns).map (fun _ => ()) = visitAll target (references ns)
  | [] => rfl
  | n :: ns => by
      rw [spliceAll, forget_bind_map, references_cons, visitAll_append, splice_outcome target n,
        spliceAll_outcome target ns]

end

mutual

theorem expands_of_splice {target : String → Except Error (List Node)}
    (htarget : ∀ uri ms, target uri = .ok ms → Expands rules [.ruleRef uri] ms) :
    ∀ (n : Node) {ms : List Node}, n.splice target = .ok ms → Expands rules [n] ms
  | .literal _, _, h => by
      cases h
      exact .leaf trivial .nil
  | .token _, _, h => by
      cases h
      exact .leaf trivial .nil
  | .tag _, _, h => by
      cases h
      exact .leaf trivial .nil
  | .ruleRef uri, ms, h => htarget uri ms h
  | .element container children, _, h => by
      obtain ⟨expanded, hexpanded, rfl⟩ := map_eq_ok.1 h
      exact .element (expands_of_spliceAll htarget children hexpanded) .nil

/-- Replacing every reference by its expansion gives an expansion. -/
theorem expands_of_spliceAll {target : String → Except Error (List Node)}
    (htarget : ∀ uri ms, target uri = .ok ms → Expands rules [.ruleRef uri] ms) :
    ∀ (ns : List Node) {ms : List Node}, spliceAll target ns = .ok ms → Expands rules ns ms
  | [], _, h => by
      cases h
      exact .nil
  | n :: ns, _, h => by
      obtain ⟨first, hfirst, hmap⟩ := bind_eq_ok.1 h
      obtain ⟨rest, hrest, rfl⟩ := map_eq_ok.1 hmap
      exact (expands_of_splice htarget n hfirst).append (expands_of_spliceAll htarget ns hrest)

end

/-! ## Expanding below a path -/

/-- The expansion of the body that a reference below the rules of a path stands for. -/
def expandReference (rules : List Rule) (path : List String) (uri : String) :
    Except Error (List Node) :=
  (resolve rules uri).bind fun target =>
    if target.id ∈ path then .error (.cyclicReference (path ++ [target.id]))
    else expandNodes rules (path ++ [target.id]) target.body

theorem expandNodes_eq (path : List String) (nodes : List Node) :
    expandNodes rules path nodes = spliceAll (expandReference rules path) nodes := by
  rw [expandNodes]
  congr 1
  funext uri
  rw [expandReference]
  cases resolve rules uri with
  | error e => rfl
  | ok target => rfl

theorem expandNodes_nil (path : List String) : expandNodes rules path [] = .ok [] := by
  rw [expandNodes_eq]
  rfl

theorem expandNodes_leaf_cons {n : Node} (hn : n.IsLeaf) (path : List String) (ns : List Node) :
    expandNodes rules path (n :: ns) = (expandNodes rules path ns).map (n :: ·) := by
  rw [expandNodes_eq, expandNodes_eq, spliceAll]
  cases n with
  | literal _ | token _ | tag _ => rfl
  | ruleRef _ | element _ _ => cases hn

theorem expandNodes_ruleRef_cons (path : List String) (uri : String) (ns : List Node) :
    expandNodes rules path (.ruleRef uri :: ns) =
      (expandReference rules path uri).bind fun body =>
        (expandNodes rules path ns).map (body ++ ·) := by
  rw [expandNodes_eq, expandNodes_eq, spliceAll, Node.splice]

theorem expandNodes_element_cons (path : List String) (container : Container)
    (children ns : List Node) :
    expandNodes rules path (.element container children :: ns) =
      (expandNodes rules path children).bind fun expanded =>
        (expandNodes rules path ns).map (.element container expanded :: ·) := by
  rw [expandNodes_eq, expandNodes_eq, expandNodes_eq, spliceAll, Node.splice]
  cases spliceAll (expandReference rules path) children with
  | error e => rfl
  | ok expanded => rfl

/-- Expanding succeeds or fails with its references, visited in document order. -/
theorem expandNodes_outcome (path : List String) (nodes : List Node) :
    (expandNodes rules path nodes).map (fun _ => ()) =
      visitAll (expandReference rules path) (references nodes) := by
  rw [expandNodes_eq, spliceAll_outcome]

/-- Nodes without a path in the way expand as soon as their references do. -/
theorem exists_expandNodes_iff {path : List String} {nodes : List Node} :
    (∃ body, expandNodes rules path nodes = .ok body) ↔
      ∀ uri ∈ references nodes, ∃ body, expandReference rules path uri = .ok body := by
  rw [← visitAll_eq_ok_iff, ← expandNodes_outcome]
  simp [map_eq_ok]

theorem expandReference_of_notMem {path : List String} {uri : String} {target : Rule}
    (htarget : resolve rules uri = .ok target) (hpath : target.id ∉ path) :
    expandReference rules path uri = expandNodes rules (path ++ [target.id]) target.body := by
  rw [expandReference, htarget, Except.bind, if_neg hpath]

theorem expandReference_eq_ok {path : List String} {uri : String} {body : List Node} :
    expandReference rules path uri = .ok body ↔ ∃ target, resolve rules uri = .ok target ∧
      target.id ∉ path ∧ expandNodes rules (path ++ [target.id]) target.body = .ok body := by
  rw [expandReference, bind_eq_ok]
  constructor
  · rintro ⟨target, htarget, h⟩
    split at h
    · cases h
    · rename_i hpath
      exact ⟨target, htarget, hpath, h⟩
  · rintro ⟨target, htarget, hpath, h⟩
    exact ⟨target, htarget, by rwa [if_neg hpath]⟩

/-- What expanding gives is the expansion. -/
theorem expands_of_expandNodes {path : List String} {nodes body : List Node}
    (h : expandNodes rules path nodes = .ok body) : Expands rules nodes body := by
  rw [expandNodes_eq] at h
  refine expands_of_spliceAll (fun uri ms huri => ?_) nodes h
  -- A reference that expands steps into a rule that is not on the path, as the definition does.
  obtain ⟨target, htarget, hpath, hbody⟩ := expandReference_eq_ok.1 huri
  have hexpands := expands_of_expandNodes hbody
  have hms := Expands.ruleRef htarget hexpands .nil
  rwa [List.append_nil] at hms
termination_by unusedRules rules path
decreasing_by exact unusedRules_lt (mem_of_resolve htarget) hpath

end SpeechGrammar
