import SpeechGrammar.Proofs.Grammar.Expansion
import SpeechGrammar.Proofs.Pattern.Fragment

set_option autoImplicit false

/-!
# Fragments over references

The compiler has no fragment for a reference. Over the fragments `refs` that references stand for,
every node has one, by the same rules; `sequenceFragmentOver_eq` says that these are the fragments
of the compiler where a reference is an error. Whether there is a fragment, and else the error,
depends on the references alone (`sequenceFragmentOver_outcome`).

`SameFragments` compares two lists of nodes, in sequence and as the alternatives of a choice. It is
what a change of the tree has to keep from node to node.
-/

namespace SpeechGrammar

open Text

mutual

/-- The fragment of a node, over the fragments that references stand for. -/
def Node.fragmentOver (sep : Separator) (refs : String → Except Error (List Char)) :
    Node → Except Error (List Char)
  | .literal text => .ok ((tokenChars text.toList).flatMap (wordFragment sep))
  | .token text => .ok (wordFragment sep text.toList)
  | .ruleRef uri => refs uri
  | .tag _ => .ok []
  | .element (.item occurs) children =>
      (sequenceFragmentOver sep refs children).map (itemFragment occurs)
  | .element .oneOf children => (alternativeFragmentsOver sep refs children).map choiceFragment
  | .element (.foreign _ _) children => sequenceFragmentOver sep refs children

/-- The fragment of a list of nodes in sequence, over the fragments that references stand for. -/
def sequenceFragmentOver (sep : Separator) (refs : String → Except Error (List Char)) :
    List Node → Except Error (List Char)
  | [] => .ok []
  | n :: ns => (n.fragmentOver sep refs).bind fun first =>
      (sequenceFragmentOver sep refs ns).map (first ++ ·)

/-- The fragments of the nodes to choose from, over the fragments that references stand for. -/
def alternativeFragmentsOver (sep : Separator) (refs : String → Except Error (List Char)) :
    List Node → Except Error (List (List Char))
  | [] => .ok []
  | .tag _ :: ns => alternativeFragmentsOver sep refs ns
  | n :: ns => (n.fragmentOver sep refs).bind fun first =>
      (alternativeFragmentsOver sep refs ns).map (first :: ·)

end

variable {sep : Separator} {refs : String → Except Error (List Char)}

/-! ## Sequences and choices -/

theorem alternativeFragmentsOver_cons {n : Node} (hn : ∀ c, n ≠ .tag c) (ns : List Node) :
    alternativeFragmentsOver sep refs (n :: ns) = (n.fragmentOver sep refs).bind fun first =>
      (alternativeFragmentsOver sep refs ns).map (first :: ·) := by
  cases n with
  | tag c => exact absurd rfl (hn c)
  | literal _ | token _ | ruleRef _ | element _ _ => rw [alternativeFragmentsOver]; simp

theorem sequenceFragmentOver_singleton (n : Node) :
    sequenceFragmentOver sep refs [n] = n.fragmentOver sep refs := by
  rw [sequenceFragmentOver, sequenceFragmentOver]
  cases n.fragmentOver sep refs with
  | error e => rfl
  | ok first => simp [Except.bind, Except.map]

theorem alternativeFragmentsOver_singleton {n : Node} (hn : ∀ c, n ≠ .tag c) :
    alternativeFragmentsOver sep refs [n] = (n.fragmentOver sep refs).map fun first => [first] := by
  rw [alternativeFragmentsOver_cons hn, alternativeFragmentsOver]
  cases n.fragmentOver sep refs with
  | error e => rfl
  | ok first => rfl

theorem sequenceFragmentOver_append (ns ms : List Node) :
    sequenceFragmentOver sep refs (ns ++ ms) = (sequenceFragmentOver sep refs ns).bind fun first =>
      (sequenceFragmentOver sep refs ms).map (first ++ ·) := by
  induction ns with
  | nil =>
      rw [List.nil_append, sequenceFragmentOver]
      cases sequenceFragmentOver sep refs ms with
      | error e => rfl
      | ok source => rfl
  | cons n ns ih =>
      rw [List.cons_append, sequenceFragmentOver, sequenceFragmentOver, ih]
      cases n.fragmentOver sep refs with
      | error e => rfl
      | ok first =>
          cases sequenceFragmentOver sep refs ns with
          | error e => rfl
          | ok source =>
              cases sequenceFragmentOver sep refs ms with
              | error e => rfl
              | ok source' => simp [Except.bind, Except.map]

theorem alternativeFragmentsOver_append (ns ms : List Node) :
    alternativeFragmentsOver sep refs (ns ++ ms) =
      (alternativeFragmentsOver sep refs ns).bind fun sources =>
        (alternativeFragmentsOver sep refs ms).map (sources ++ ·) := by
  induction ns with
  | nil =>
      rw [List.nil_append, alternativeFragmentsOver]
      cases alternativeFragmentsOver sep refs ms with
      | error e => rfl
      | ok sources => rfl
  | cons n ns ih =>
      rcases n.tag_or_ne_tag with ⟨c, rfl⟩ | hn
      · exact ih
      · rw [List.cons_append, alternativeFragmentsOver_cons hn, alternativeFragmentsOver_cons hn,
          ih]
        cases n.fragmentOver sep refs with
        | error e => rfl
        | ok first =>
            cases alternativeFragmentsOver sep refs ns with
            | error e => rfl
            | ok sources =>
                cases alternativeFragmentsOver sep refs ms with
                | error e => rfl
                | ok sources' => rfl

/-! ## The fragments of the compiler -/

mutual

theorem fragmentOver_eq : ∀ n : Node,
    (∀ m ∈ n.walk, ∀ uri ∈ m.uri?, refs uri = .error (.uninlinedReference uri)) →
      n.fragmentOver sep refs = n.fragment sep
  | .literal _, _ => rfl
  | .token _, _ => rfl
  | .ruleRef uri, h => h (.ruleRef uri) (by simp [Node.walk]) uri rfl
  | .tag _, _ => rfl
  | .element (.item occurs) children, h => by
      obtain ⟨-, hchildren⟩ := forall_mem_walk_element.1 h
      rw [Node.fragmentOver, Node.fragment, sequenceFragmentOver_eq children hchildren]
  | .element .oneOf children, h => by
      obtain ⟨-, hchildren⟩ := forall_mem_walk_element.1 h
      rw [Node.fragmentOver, Node.fragment, alternativeFragmentsOver_eq children hchildren]
  | .element (.foreign _ _) children, h => by
      obtain ⟨-, hchildren⟩ := forall_mem_walk_element.1 h
      exact sequenceFragmentOver_eq children hchildren

/-- Where every reference is the error of the compiler, the fragment is that of the compiler. -/
theorem sequenceFragmentOver_eq : ∀ ns : List Node,
    (∀ m ∈ walkAll ns, ∀ uri ∈ m.uri?, refs uri = .error (.uninlinedReference uri)) →
      sequenceFragmentOver sep refs ns = sequenceFragment sep ns
  | [], _ => rfl
  | n :: ns, h => by
      obtain ⟨hn, hns⟩ := forall_mem_walkAll_cons.1 h
      rw [sequenceFragmentOver, sequenceFragment, fragmentOver_eq n hn,
        sequenceFragmentOver_eq ns hns]

theorem alternativeFragmentsOver_eq : ∀ ns : List Node,
    (∀ m ∈ walkAll ns, ∀ uri ∈ m.uri?, refs uri = .error (.uninlinedReference uri)) →
      alternativeFragmentsOver sep refs ns = alternativeFragments sep ns
  | [], _ => rfl
  | n :: ns, h => by
      obtain ⟨hn, hns⟩ := forall_mem_walkAll_cons.1 h
      rcases n.tag_or_ne_tag with ⟨c, rfl⟩ | hnot
      · exact alternativeFragmentsOver_eq ns hns
      · rw [alternativeFragmentsOver_cons hnot, alternativeFragments_cons hnot,
          fragmentOver_eq n hn, alternativeFragmentsOver_eq ns hns]

end

/-- Nodes without references have their fragment, whatever references would stand for. -/
theorem sequenceFragmentOver_of_references_eq_nil {ns : List Node} (h : references ns = []) :
    sequenceFragmentOver sep refs ns = sequenceFragment sep ns := by
  refine sequenceFragmentOver_eq ns fun m hm uri huri => ?_
  rw [references_eq_nil_iff.1 h m hm] at huri
  cases huri

/-! ## Outcomes -/

mutual

theorem fragmentOver_outcome : ∀ n : Node,
    (n.fragmentOver sep refs).map (fun _ => ()) = visitAll refs (references [n])
  | .literal _ => rfl
  | .token _ => rfl
  | .tag _ => rfl
  | .ruleRef uri => by
      rw [Node.fragmentOver, references_ruleRef_cons, visitAll]
      cases refs uri with
      | error e => rfl
      | ok source => rfl
  | .element (.item occurs) children => by
      rw [references_singleton_element, ← sequenceFragmentOver_outcome children, Node.fragmentOver]
      cases sequenceFragmentOver sep refs children with
      | error e => rfl
      | ok source => rfl
  | .element .oneOf children => by
      rw [references_singleton_element, ← alternativeFragmentsOver_outcome children,
        Node.fragmentOver]
      cases alternativeFragmentsOver sep refs children with
      | error e => rfl
      | ok sources => rfl
  | .element (.foreign _ _) children => by
      rw [references_singleton_element]
      exact sequenceFragmentOver_outcome children

/-- A sequence has a fragment, or fails with its references, visited in document order. -/
theorem sequenceFragmentOver_outcome : ∀ ns : List Node,
    (sequenceFragmentOver sep refs ns).map (fun _ => ()) = visitAll refs (references ns)
  | [] => rfl
  | n :: ns => by
      rw [sequenceFragmentOver, forget_bind_map, references_cons, visitAll_append,
        fragmentOver_outcome n, sequenceFragmentOver_outcome ns]

theorem alternativeFragmentsOver_outcome : ∀ ns : List Node,
    (alternativeFragmentsOver sep refs ns).map (fun _ => ()) = visitAll refs (references ns)
  | [] => rfl
  | n :: ns => by
      -- A tag is no alternative, but it has no references either.
      rcases n.tag_or_ne_tag with ⟨c, rfl⟩ | hn
      · exact alternativeFragmentsOver_outcome ns
      · rw [alternativeFragmentsOver_cons hn, forget_bind_map, references_cons, visitAll_append,
          fragmentOver_outcome n, alternativeFragmentsOver_outcome ns]

end

/-- The outcome of the compiler depends on the references of a sequence: it gives a fragment if
there are none, and else the error for the first. -/
theorem sequenceFragment_outcome (ns : List Node) :
    (sequenceFragment sep ns).map (fun _ => ()) =
      visitAll (α := List Char) (fun uri => .error (.uninlinedReference uri)) (references ns) := by
  have hcompiler : sequenceFragmentOver sep (fun uri => .error (.uninlinedReference uri)) ns =
      sequenceFragment sep ns := sequenceFragmentOver_eq ns fun _ _ _ _ => rfl
  rw [← hcompiler, sequenceFragmentOver_outcome]

/-! ## The same fragments -/

/-- The alternatives of the node, if it is a choice, have the property. -/
def Node.Offers (P : Node → Prop) : Node → Prop
  | .element .oneOf children => ∀ n ∈ children, P n
  | _ => True

/-- All that stands directly in a choice, at any depth, has the property. -/
def ChoicesOffer (P : Node → Prop) (nodes : List Node) : Prop := ∀ n ∈ walkAll nodes, n.Offers P

/-- One list of nodes has the fragments of another: in sequence, and also as the alternatives of a
choice, if all nodes of that other one have the property. -/
structure SameFragments (sep : Separator) (refs : String → Except Error (List Char))
    (P : Node → Prop) (ms ns : List Node) : Prop where
  sequence : sequenceFragmentOver sep refs ms = sequenceFragmentOver sep refs ns
  choice : (∀ n ∈ ns, P n) →
    alternativeFragmentsOver sep refs ms = alternativeFragmentsOver sep refs ns

variable {P : Node → Prop}

theorem SameFragments.refl (ns : List Node) : SameFragments sep refs P ns ns := ⟨rfl, fun _ => rfl⟩

theorem SameFragments.append {ms ns ms' ns' : List Node} (h : SameFragments sep refs P ms ns)
    (h' : SameFragments sep refs P ms' ns') :
    SameFragments sep refs P (ms ++ ms') (ns ++ ns') := by
  constructor
  · rw [sequenceFragmentOver_append, sequenceFragmentOver_append, h.sequence, h'.sequence]
  · intro hall
    obtain ⟨hns, hns'⟩ := List.forall_mem_append.1 hall
    rw [alternativeFragmentsOver_append, alternativeFragmentsOver_append, h.choice hns,
      h'.choice hns']

/-- A list of nodes that replaces a single node has its fragments, if it does so in sequence and,
where the property holds, is one alternative. -/
theorem SameFragments.of_fragmentOver_eq {n : Node} {ks : List Node} (hn : ∀ c, n ≠ .tag c)
    (hsequence : sequenceFragmentOver sep refs ks = n.fragmentOver sep refs)
    (hone : P n → alternativeFragmentsOver sep refs ks =
      (sequenceFragmentOver sep refs ks).map fun source => [source]) :
    SameFragments sep refs P ks [n] := by
  constructor
  · rw [hsequence, sequenceFragmentOver_singleton]
  · intro hP
    rw [hone (hP n (List.mem_singleton_self n)), hsequence, alternativeFragmentsOver_singleton hn]

/-- An element keeps its fragments when its content does, if it is not a choice that offers
something without the property. -/
theorem SameFragments.element {container : Container} {children children' : List Node}
    (h : SameFragments sep refs P children' children)
    (hoffers : (Node.element container children).Offers P) :
    SameFragments sep refs P [.element container children'] [.element container children] := by
  have hfragment : (Node.element container children').fragmentOver sep refs =
      (Node.element container children).fragmentOver sep refs := by
    cases container with
    | item occurs => rw [Node.fragmentOver, Node.fragmentOver, h.sequence]
    | oneOf => rw [Node.fragmentOver, Node.fragmentOver, h.choice hoffers]
    | foreign _ _ => exact h.sequence
  refine .of_fragmentOver_eq (by simp) ?_ fun _ => ?_
  · rw [sequenceFragmentOver_singleton, hfragment]
  · rw [sequenceFragmentOver_singleton, alternativeFragmentsOver_singleton (by simp)]

end SpeechGrammar
