import SpeechGrammar.Proofs.Grammar.Repeat
import SpeechGrammar.Proofs.Outcome
import Mathlib.Data.List.Forall2

set_option autoImplicit false

/-!
# What is read of a node

A markup node and the grammar node that is read of it are related by `Corresponds`, with one case
for each kind of node. Reading succeeds exactly where the relation has something to offer
(`ofMarkup_eq_ok_iff`, `childOfMarkup_eq_ok_iff`), so what is said of reading elsewhere is said of
the relation.
-/

namespace SpeechGrammar

open Markup (lookup? textContents)

/-- The names of the elements that the format defines below its root. -/
def vocabulary : List String := ["rule", "token", "tag", "ruleref", "item", "one-of"]

/-! ## Nodes -/

/-- A markup node and the grammar node that is read of it. -/
inductive Corresponds : Markup.Node → Node → Prop where
  | text (s : String) : Corresponds (.text s) (.literal s)
  | token (attributes : List (String × String)) (children : List Markup.Node) :
      Corresponds (.element "token" attributes children) (.token (textContents children))
  | tag (attributes : List (String × String)) (children : List Markup.Node) :
      Corresponds (.element "tag" attributes children) (.tag (textContents children))
  | ruleRef {attributes : List (String × String)} {uri : String} (children : List Markup.Node)
      (huri : lookup? "uri" attributes = some uri) :
      Corresponds (.element "ruleref" attributes children) (.ruleRef uri)
  | item {attributes : List (String × String)} {children : List Markup.Node} {nodes : List Node}
      (hrepeat : lookup? "repeat" attributes = none)
      (hchildren : List.Forall₂ Corresponds children nodes) :
      Corresponds (.element "item" attributes children) (.element (.item none) nodes)
  | repeated {attributes : List (String × String)} {children : List Markup.Node}
      {nodes : List Node} {value : String} {occurs : Repeat}
      (hrepeat : lookup? "repeat" attributes = some value)
      (hparse : Repeat.parse? value = some occurs)
      (hchildren : List.Forall₂ Corresponds children nodes) :
      Corresponds (.element "item" attributes children) (.element (.item (some occurs)) nodes)
  | oneOf {children : List Markup.Node} {nodes : List Node} (attributes : List (String × String))
      (hchildren : List.Forall₂ Corresponds children nodes) :
      Corresponds (.element "one-of" attributes children) (.element .oneOf nodes)
  | foreign {name : String} {children : List Markup.Node} {nodes : List Node}
      (attributes : List (String × String)) (hname : name ∉ vocabulary)
      (hchildren : List.Forall₂ Corresponds children nodes) :
      Corresponds (.element name attributes children) (.element (.foreign name attributes) nodes)

mutual

theorem ofMarkup_eq_ok_iff : ∀ (m : Markup.Node) (n : Node),
    Node.ofMarkup m = .ok n ↔ Corresponds m n
  | .text s, n => by
      constructor
      · intro h
        cases h
        exact .text s
      · intro h
        cases h
        rfl
  | .element name attributes children, n => by
      have hnodes := nodesOfMarkup_eq_ok_iff children
      constructor
      · intro h
        rw [Node.ofMarkup] at h
        split at h
        · cases h
        split at h
        · rename_i hname
          cases h
          exact hname ▸ .token attributes children
        split at h
        · rename_i hname
          cases h
          exact hname ▸ .tag attributes children
        split at h
        · rename_i hname
          split at h
          · cases h
          · rename_i huri
            cases h
            exact hname ▸ .ruleRef children huri
        split at h
        · rename_i hname
          obtain ⟨occurs?, hoccurs, hmap⟩ := bind_eq_ok.1 h
          obtain ⟨nodes, hchildren, rfl⟩ := map_eq_ok.1 hmap
          rw [hnodes] at hchildren
          obtain ⟨hrepeat, rfl⟩ | ⟨value, occurs, hrepeat, hparse, rfl⟩ :=
            readOccurs_eq_ok_iff.1 hoccurs
          · exact hname ▸ .item hrepeat hchildren
          · exact hname ▸ .repeated hrepeat hparse hchildren
        split at h
        · rename_i hname
          obtain ⟨nodes, hchildren, rfl⟩ := map_eq_ok.1 h
          exact hname ▸ .oneOf attributes ((hnodes nodes).1 hchildren)
        · obtain ⟨nodes, hchildren, rfl⟩ := map_eq_ok.1 h
          exact .foreign attributes (by simp [vocabulary, *]) ((hnodes nodes).1 hchildren)
      · intro h
        cases h with
        | token | tag => simp [Node.ofMarkup]
        | ruleRef _ huri => simp [Node.ofMarkup, huri]
        | item hrepeat hchildren =>
            simp [Node.ofMarkup, readOccurs, hrepeat, (hnodes _).2 hchildren, Except.bind,
              Except.map]
        | repeated hrepeat hparse hchildren =>
            simp [Node.ofMarkup, readOccurs, hrepeat, hparse, (hnodes _).2 hchildren, Except.bind,
              Except.map]
        | oneOf _ hchildren => simp [Node.ofMarkup, (hnodes _).2 hchildren, Except.map]
        | foreign _ hname hchildren =>
            simp only [vocabulary, List.mem_cons, List.not_mem_nil, or_false, not_or] at hname
            simp [Node.ofMarkup, hname, (hnodes _).2 hchildren, Except.map]

theorem nodesOfMarkup_eq_ok_iff : ∀ (ms : List Markup.Node) (ns : List Node),
    nodesOfMarkup ms = .ok ns ↔ List.Forall₂ Corresponds ms ns
  | [], ns => by simp [nodesOfMarkup, eq_comm]
  | m :: ms, ns => by
      have hm := ofMarkup_eq_ok_iff m
      have hms := nodesOfMarkup_eq_ok_iff ms
      rw [List.forall₂_cons_left_iff, nodesOfMarkup, bind_eq_ok]
      simp only [map_eq_ok, hm, hms]
      constructor
      · rintro ⟨n, hn, rest, hrest, rfl⟩
        exact ⟨n, rest, hn, hrest, rfl⟩
      · rintro ⟨n, rest, hn, hrest, rfl⟩
        exact ⟨n, hn, rest, hrest, rfl⟩

end

/-! ## Children -/

/-- A markup node at the top level and the child that is read of it. -/
inductive Child.Corresponds : Markup.Node → Child → Prop where
  | rule {attributes : List (String × String)} {children : List Markup.Node} {id : String}
      {scope : Scope} {body : List Node} (hid : lookup? "id" attributes = some id) (hne : id ≠ "")
      (hscope : (lookup? "scope" attributes).elim (some .isPrivate) Scope.ofName? = some scope)
      (hbody : List.Forall₂ SpeechGrammar.Corresponds children body) :
      Child.Corresponds (.element "rule" attributes children) (.rule ⟨id, scope, body⟩)
  | node {m : Markup.Node} {n : Node} (h : SpeechGrammar.Corresponds m n) :
      Child.Corresponds m (.node n)

theorem readScope_eq_ok_iff {value? : Option String} {scope : Scope} :
    readScope value? = .ok scope ↔ value?.elim (some .isPrivate) Scope.ofName? = some scope := by
  cases value? with
  | none => simp [readScope]
  | some value =>
      rw [readScope]
      cases hscope : Scope.ofName? value with
      | none => simp [hscope]
      | some scope' => simp [hscope]

theorem ruleOfMarkup_eq_ok_iff {attributes : List (String × String)} {children : List Markup.Node}
    {r : Rule} :
    Rule.ofMarkup attributes children = .ok r ↔ lookup? "id" attributes = some r.id ∧ r.id ≠ "" ∧
      (lookup? "scope" attributes).elim (some .isPrivate) Scope.ofName? = some r.scope ∧
        List.Forall₂ Corresponds children r.body := by
  rw [Rule.ofMarkup]
  cases hid : (lookup? "id" attributes).filter (· ≠ "") with
  | none =>
      have hempty : ∀ id, lookup? "id" attributes = some id → id = "" := by
        simpa using Option.filter_eq_none_iff.1 hid
      simp only [reduceCtorEq, false_iff]
      rintro ⟨hsome, hne, -⟩
      exact hne (hempty r.id hsome)
  | some id =>
      obtain ⟨hsome, hne⟩ := Option.filter_eq_some_iff.1 hid
      have hne : id ≠ "" := by simpa using hne
      simp only [bind_eq_ok, map_eq_ok, readScope_eq_ok_iff, nodesOfMarkup_eq_ok_iff]
      constructor
      · rintro ⟨scope, hscope, body, hbody, rfl⟩
        exact ⟨hsome, hne, hscope, hbody⟩
      · rintro ⟨hid, -, hscope, hbody⟩
        cases hsome.symm.trans hid
        exact ⟨r.scope, hscope, r.body, hbody, rfl⟩

theorem childOfMarkup_eq_ok_iff {m : Markup.Node} {c : Child} :
    Child.ofMarkup m = .ok c ↔ Child.Corresponds m c := by
  constructor
  · intro h
    rw [Child.ofMarkup.eq_def] at h
    split at h
    · obtain ⟨r, hr, rfl⟩ := map_eq_ok.1 h
      obtain ⟨hid, hne, hscope, hbody⟩ := ruleOfMarkup_eq_ok_iff.1 hr
      exact .rule hid hne hscope hbody
    · obtain ⟨n, hn, rfl⟩ := map_eq_ok.1 h
      exact .node ((ofMarkup_eq_ok_iff m n).1 hn)
  · intro h
    cases h with
    | rule hid hne hscope hbody =>
        exact map_eq_ok.2 ⟨_, ruleOfMarkup_eq_ok_iff.2 ⟨hid, hne, hscope, hbody⟩, rfl⟩
    | node hn =>
        rw [Child.ofMarkup]
        · exact map_eq_ok.2 ⟨_, (ofMarkup_eq_ok_iff _ _).2 hn, rfl⟩
        · -- A rule is not read as a node.
          rintro attributes children rfl
          simpa [Node.ofMarkup] using (ofMarkup_eq_ok_iff _ _).2 hn

end SpeechGrammar
