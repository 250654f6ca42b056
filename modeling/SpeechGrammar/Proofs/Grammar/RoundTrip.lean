import SpeechGrammar.Proofs.Grammar.Schema

set_option autoImplicit false

/-!
# A grammar is read back from its element

Writing a grammar as an element and reading that element gives the grammar again, with the texts of
each run of raw text joined into one (`ofMarkup_toMarkup`). No text is written or parsed here, so
any characters may stand in the strings. What is needed is that rules have ids, that repeat counts
are in order, and that foreign elements have distinct keys and names that are not in the
vocabulary.
-/

namespace SpeechGrammar

/-! ## Runs of raw text -/

/-- Items some of which are raw text. -/
structure RawText (α : Type) where
  raw : String → α
  raw? : α → Option String
  raw?_eq_some_iff : ∀ {a : α} {s : String}, raw? a = some s ↔ a = raw s

namespace RawText

variable {α β : Type} {A : RawText α} {B : RawText β}

/-- Put an item before a list; raw text before raw text becomes one item with it. -/
def join (A : RawText α) (a : α) : List α → List α
  | [] => [a]
  | b :: bs =>
      match A.raw? a, A.raw? b with
      | some s, some t => A.raw (s ++ t) :: bs
      | _, _ => a :: b :: bs

theorem raw?_raw (A : RawText α) (s : String) : A.raw? (A.raw s) = some s :=
  A.raw?_eq_some_iff.2 rfl

theorem join_raw (s t : String) (as : List α) :
    A.join (A.raw s) (A.raw t :: as) = A.raw (s ++ t) :: as := by
  simp only [join, raw?_raw]

theorem join_of_raw?_left {a : α} (h : A.raw? a = none) (as : List α) : A.join a as = a :: as := by
  cases as with
  | nil => rfl
  | cons b bs => simp only [join, h]

theorem join_of_raw?_right {b : α} (h : A.raw? b = none) (a : α) (bs : List α) :
    A.join a (b :: bs) = a :: b :: bs := by
  rw [join]
  split
  · rename_i hb
    rw [h] at hb
    cases hb
  · rfl

/-- Either two raw texts meet or nothing is joined. -/
theorem join_cases (a b : α) (bs : List α) :
    (∃ s t, a = A.raw s ∧ b = A.raw t ∧ A.join a (b :: bs) = A.raw (s ++ t) :: bs) ∨
      ((A.raw? a = none ∨ A.raw? b = none) ∧ A.join a (b :: bs) = a :: b :: bs) := by
  cases ha : A.raw? a with
  | none => exact .inr ⟨.inl rfl, join_of_raw?_left ha _⟩
  | some s =>
      cases hb : A.raw? b with
      | none => exact .inr ⟨.inr rfl, join_of_raw?_right hb a bs⟩
      | some t =>
          obtain rfl := A.raw?_eq_some_iff.1 ha
          obtain rfl := A.raw?_eq_some_iff.1 hb
          exact .inl ⟨s, t, rfl, rfl, join_raw s t bs⟩

/-- Lists that correspond item by item still do when a raw text joins them on both sides. -/
theorem forall₂_join {R : α → β → Prop} (hraw : ∀ s, R (A.raw s) (B.raw s))
    (hsame : ∀ a b, R a b → A.raw? a = B.raw? b) {a : α} {b : β} {as : List α} {bs : List β}
    (h : R a b) (hs : List.Forall₂ R as bs) : List.Forall₂ R (A.join a as) (B.join b bs) := by
  cases hs with
  | nil => exact .cons h .nil
  | @cons c d cs ds hcd hs =>
      -- What is raw text on one side is the same raw text on the other, so both sides join or none.
      obtain ⟨s, t, rfl, rfl, hjoin⟩ | ⟨hne, hjoin⟩ := A.join_cases a c cs
      · have hb : b = B.raw s := B.raw?_eq_some_iff.1 ((hsame _ _ h).symm.trans (A.raw?_raw s))
        have hd : d = B.raw t := B.raw?_eq_some_iff.1 ((hsame _ _ hcd).symm.trans (A.raw?_raw t))
        rw [hjoin, hb, hd, join_raw]
        exact .cons (hraw _) hs
      · rw [hsame a b h, hsame c d hcd] at hne
        have hjoin' : B.join b (d :: ds) = b :: d :: ds :=
          hne.elim (fun hb => join_of_raw?_left hb _) fun hd => join_of_raw?_right hd b ds
        rw [hjoin, hjoin']
        exact .cons h (.cons hcd hs)

/-- What is listed of each item, piece by piece for raw text, is not changed by joining. -/
theorem flatMap_join {γ : Type} {f : α → List γ}
    (hraw : ∀ s t, f (A.raw (s ++ t)) = f (A.raw s) ++ f (A.raw t)) (a : α) (as : List α) :
    (A.join a as).flatMap f = f a ++ as.flatMap f := by
  cases as with
  | nil => simp [join]
  | cons b bs =>
      obtain ⟨s, t, rfl, rfl, hjoin⟩ | ⟨-, hjoin⟩ := A.join_cases a b bs
      · rw [hjoin, List.flatMap_cons, List.flatMap_cons, hraw, List.append_assoc]
      · rw [hjoin, List.flatMap_cons]

theorem forall_mem_join {P : α → Prop} (hraw : ∀ s, P (A.raw s)) {a : α} {as : List α}
    (ha : P a) (has : ∀ b ∈ as, P b) : ∀ b ∈ A.join a as, P b := by
  cases as with
  | nil => exact List.forall_mem_singleton.2 ha
  | cons b bs =>
      obtain ⟨s, t, rfl, rfl, hjoin⟩ | ⟨-, hjoin⟩ := A.join_cases a b bs
      · rw [hjoin, List.forall_mem_cons]
        exact ⟨hraw _, (List.forall_mem_cons.1 has).2⟩
      · rw [hjoin, List.forall_mem_cons]
        exact ⟨ha, has⟩

/-- No raw text stands right before raw text. -/
def Apart (A : RawText α) (as : List α) : Prop :=
  as.IsChain fun a b => A.raw? a = none ∨ A.raw? b = none

theorem Apart.join {as : List α} (h : A.Apart as) (a : α) : A.Apart (A.join a as) := by
  cases as with
  | nil => exact .singleton a
  | cons b bs =>
      obtain ⟨s, t, rfl, rfl, hjoin⟩ | ⟨hne, hjoin⟩ := A.join_cases a b bs
      · rw [hjoin]
        cases bs with
        | nil => exact .singleton _
        | cons c cs =>
            -- What follows the second text was apart from it, so it is no raw text.
            obtain ⟨hbc, hrest⟩ := List.isChain_cons_cons.1 h
            rw [raw?_raw] at hbc
            exact .cons_cons (.inr (hbc.resolve_left (by simp))) hrest
      · rw [hjoin]
        exact .cons_cons hne h

end RawText

/-! ## Grammars with joined text -/

/-- The raw text that a node is, if it is one. -/
def Node.raw? : Node → Option String
  | .literal text => some text
  | _ => none

/-- The raw text that a child is, if it is one. -/
def Child.raw? : Child → Option String
  | .node n => n.raw?
  | .rule _ => none

/-- The raw text that a markup node is, if it is one. -/
def Markup.Node.raw? : Markup.Node → Option String
  | .text s => some s
  | .element _ _ _ => none

def Node.rawText : RawText Node where
  raw := .literal
  raw? := Node.raw?
  raw?_eq_some_iff {a} := by cases a <;> simp [Node.raw?]

def Child.rawText : RawText Child where
  raw text := .node (.literal text)
  raw? := Child.raw?
  raw?_eq_some_iff {a} := by
    cases a with
    | rule r => simp [Child.raw?]
    | node n => cases n <;> simp [Child.raw?, Node.raw?]

def Markup.Node.rawText : RawText Markup.Node where
  raw := .text
  raw? := Markup.Node.raw?
  raw?_eq_some_iff {a} := by cases a <;> simp [Markup.Node.raw?]

mutual

/-- The node with each run of raw text below it joined. -/
def Node.joined : Node → Node
  | .element container children => .element container (joinedNodes children)
  | .literal text => .literal text
  | .token text => .token text
  | .ruleRef uri => .ruleRef uri
  | .tag content => .tag content

/-- The nodes with each run of raw text among them and below them joined. -/
def joinedNodes : List Node → List Node
  | [] => []
  | n :: ns => Node.rawText.join n.joined (joinedNodes ns)

end

/-- The child with each run of raw text below it joined. -/
def Child.joined : Child → Child
  | .rule r => .rule { r with body := joinedNodes r.body }
  | .node n => .node n.joined

/-- The children with each run of raw text among them and below them joined. -/
def joinedChildren (children : List Child) : List Child :=
  children.foldr (fun child joined => Child.rawText.join child.joined joined) []

/-! ## Appending one by one -/

/-- Appending a node does not depend on what has been joined at the other end. -/
theorem pushNode_join (a m : Markup.Node) (as : List Markup.Node) :
    Markup.pushNode (Markup.Node.rawText.join a as) m =
      Markup.Node.rawText.join a (Markup.pushNode as m) := by
  cases as with
  | nil => cases a <;> cases m <;> rfl
  | cons b bs =>
      cases bs with
      | nil =>
          cases a <;> cases b <;> cases m <;>
            simp [RawText.join, Markup.Node.rawText, Markup.Node.raw?, Markup.pushNode,
              String.append_assoc]
      | cons c cs =>
          rw [Markup.pushNode_cons_cons b c]
          cases a <;> cases b <;>
            simp [RawText.join, Markup.Node.rawText, Markup.Node.raw?, Markup.pushNode_cons_cons]

/-- Nodes that are appended one by one are joined run by run. -/
theorem foldl_pushNode_eq (ms : List Markup.Node) :
    ms.foldl Markup.pushNode [] = ms.foldr Markup.Node.rawText.join [] := by
  -- Whether the first node is joined before the others are appended or after does not matter.
  have hjoin : ∀ (ms as : List Markup.Node) (a : Markup.Node),
      ms.foldl Markup.pushNode (Markup.Node.rawText.join a as) =
        Markup.Node.rawText.join a (ms.foldl Markup.pushNode as) := by
    intro ms
    induction ms with
    | nil => exact fun _ _ => rfl
    | cons m ms ih =>
        intro as a
        rw [List.foldl_cons, List.foldl_cons, pushNode_join, ih]
  induction ms with
  | nil => rfl
  | cons m ms ih => rw [List.foldr_cons, ← ih, ← hjoin]; rfl

/-! ## What is read back -/

/-- The node, if it is an element, is told from its tag, which has distinct keys. -/
def Node.IsTold : Node → Prop
  | .element container children =>
      container.IsTold ∧ (Node.element container children).HasDistinctKeys
  | _ => True

/-- The child has an id if it is a rule, and all elements below it are told from their tags. -/
def Child.IsTold : Child → Prop
  | .rule r => r.id ≠ "" ∧ ∀ n ∈ walkAll r.body, n.IsTold
  | .node n => ∀ m ∈ n.walk, m.IsTold

theorem textContents_singleton (text : String) : Markup.textContents [.text text] = text := by
  simp [Markup.textContents, Markup.Node.textContent]

theorem reread_eq_self {container : Container} {children : List Node}
    (h : (Node.element container children).HasDistinctKeys) : container.reread = container := by
  cases container with
  | item _ | oneOf => rfl
  | foreign name attributes => rw [Container.reread, setAttributes_eq_self h]

theorem raw?_eq_of_corresponds {m : Markup.Node} {n : Node} (h : Corresponds m n) :
    Markup.Node.rawText.raw? m = Node.rawText.raw? n := by
  cases h <;> rfl

theorem raw?_eq_of_readsAs {m : Markup.Node} {c : Child} (h : ReadsAs m c) :
    Markup.Node.rawText.raw? m = Child.rawText.raw? c := by
  cases childOfMarkup_eq_ok_iff.1 h.1 with
  | rule => rfl
  | node hn => exact raw?_eq_of_corresponds hn

mutual

/-- A node is read back from its element. -/
theorem corresponds_toMarkup : ∀ n : Node, (∀ m ∈ n.walk, m.IsTold) →
    Corresponds n.toMarkup n.joined
  | .literal text, _ => .text text
  | .token text, _ => by
      have htoken := Corresponds.token [] [.text text]
      rwa [textContents_singleton] at htoken
  | .tag content, _ => by
      have htag := Corresponds.tag [] [.text content]
      rwa [textContents_singleton] at htag
  | .ruleRef uri, _ => .ruleRef [] rfl
  | .element container children, h => by
      obtain ⟨⟨hcontainer, hkeys⟩, hchildren⟩ := forall_mem_walk_element.1 h
      have hread := hcontainer.corresponds (corresponds_pushMarkup children hchildren)
      rwa [reread_eq_self hkeys] at hread

/-- Nodes are read back from the element that they are appended to. -/
theorem corresponds_pushMarkup : ∀ ns : List Node, (∀ m ∈ walkAll ns, m.IsTold) →
    List.Forall₂ Corresponds (pushMarkup [] ns) (joinedNodes ns)
  | [], _ => .nil
  | n :: ns, h => by
      obtain ⟨hn, hns⟩ := forall_mem_walkAll_cons.1 h
      have hrest := corresponds_pushMarkup ns hns
      rw [pushMarkup_eq, foldl_pushNode_eq] at hrest ⊢
      exact RawText.forall₂_join Corresponds.text (fun _ _ => raw?_eq_of_corresponds)
        (corresponds_toMarkup n hn) hrest

end

theorem readsAs_toMarkup {c : Child} (hadmits : Grammar.admits c = true) (h : c.IsTold) :
    ReadsAs c.toMarkup c.joined := by
  cases c with
  | rule r =>
      have hscope : Scope.ofName? r.scope.name = some r.scope := by cases r.scope <;> rfl
      exact ⟨childOfMarkup_eq_ok_iff.2 (.rule rfl h.1 hscope (corresponds_pushMarkup r.body h.2)),
        rfl⟩
  | node n =>
      refine ⟨childOfMarkup_eq_ok_iff.2 (.node (corresponds_toMarkup n h)), ?_⟩
      cases n with
      | element container _ =>
          cases container with
          | foreign _ _ => rfl
          | item _ | oneOf => cases hadmits
      | literal _ | tag _ => rfl
      | token _ | ruleRef _ => cases hadmits

theorem readsAs_joinedChildren {children : List Child}
    (h : ∀ c ∈ children, Grammar.admits c = true ∧ c.IsTold) :
    List.Forall₂ ReadsAs ((children.map Child.toMarkup).foldl Markup.pushNode [])
      (joinedChildren children) := by
  rw [foldl_pushNode_eq]
  induction children with
  | nil => exact .nil
  | cons c children ih =>
      rw [List.forall_mem_cons] at h
      exact RawText.forall₂_join (fun s => ⟨rfl, rfl⟩) (fun _ _ => raw?_eq_of_readsAs)
        (readsAs_toMarkup h.1.1 h.1.2) (ih h.2)

/-! ## What is left unchanged -/

/-- What a reader of a grammar comes across: characters of raw text, nodes without children, and
the two ends of elements and rules. -/
inductive Piece where
  | char (c : Char)
  | leaf (n : Node)
  | opening (container : Container)
  | ruleOpening (id : String) (scope : Scope)
  | closing

mutual

/-- What stands in a node, in document order. -/
def Node.pieces : Node → List Piece
  | .literal text => text.toList.map Piece.char
  | .element container children => .opening container :: (piecesAll children ++ [.closing])
  | n => [.leaf n]

/-- What stands in a list of nodes, in document order. -/
def piecesAll : List Node → List Piece
  | [] => []
  | n :: ns => n.pieces ++ piecesAll ns

end

/-- What stands in a child of a grammar, in document order. -/
def Child.pieces : Child → List Piece
  | .rule r => .ruleOpening r.id r.scope :: (piecesAll r.body ++ [.closing])
  | .node n => n.pieces

theorem piecesAll_eq_flatMap (ns : List Node) : piecesAll ns = ns.flatMap Node.pieces := by
  induction ns with
  | nil => rfl
  | cons n ns ih => rw [piecesAll, ih, List.flatMap_cons]

theorem pieces_literal_append (s t : String) :
    (Node.literal (s ++ t)).pieces = (Node.literal s).pieces ++ (Node.literal t).pieces := by
  simp [Node.pieces]

mutual

theorem pieces_joined : ∀ n : Node, n.joined.pieces = n.pieces
  | .literal _ | .token _ | .ruleRef _ | .tag _ => rfl
  | .element container children => by
      rw [Node.joined, Node.pieces, Node.pieces, piecesAll_joinedNodes children]

theorem piecesAll_joinedNodes : ∀ ns : List Node, piecesAll (joinedNodes ns) = piecesAll ns
  | [] => rfl
  | n :: ns => by
      rw [joinedNodes, piecesAll_eq_flatMap, RawText.flatMap_join pieces_literal_append,
        ← piecesAll_eq_flatMap, pieces_joined n, piecesAll_joinedNodes ns, piecesAll]

end

/-- Joining raw text leaves every character and everything else in its place. -/
theorem pieces_joinedChildren (children : List Child) :
    (joinedChildren children).flatMap Child.pieces = children.flatMap Child.pieces := by
  have hchild : ∀ c : Child, c.joined.pieces = c.pieces := by
    intro c
    cases c with
    | rule r => rw [Child.joined, Child.pieces, piecesAll_joinedNodes, Child.pieces]
    | node n => exact pieces_joined n
  induction children with
  | nil => rfl
  | cons c children ih =>
      rw [joinedChildren, List.foldr_cons, RawText.flatMap_join pieces_literal_append, hchild,
        List.flatMap_cons, ← ih]
      rfl

/-- The children of the node, if it is an element, have their raw text joined. -/
def Node.IsJoined : Node → Prop
  | .element _ children => Node.rawText.Apart children
  | _ => True

/-- Raw text is joined in the child and at any depth below it. -/
def Child.IsJoined : Child → Prop
  | .rule r => Node.rawText.Apart r.body ∧ ∀ n ∈ walkAll r.body, n.IsJoined
  | .node n => ∀ m ∈ n.walk, m.IsJoined

theorem isJoined_literal (text : String) : ∀ m ∈ (Node.literal text).walk, m.IsJoined := by
  simp [Node.walk, Node.IsJoined]

mutual

theorem isJoined_joined : ∀ n : Node, ∀ m ∈ n.joined.walk, m.IsJoined
  | .literal _ | .token _ | .ruleRef _ | .tag _ => by
      simp [Node.joined, Node.walk, Node.IsJoined]
  | .element container children => by
      obtain ⟨hapart, hjoined⟩ := isJoined_joinedNodes children
      exact forall_mem_walk_element.2 ⟨hapart, hjoined⟩

theorem isJoined_joinedNodes : ∀ ns : List Node,
    Node.rawText.Apart (joinedNodes ns) ∧ ∀ m ∈ walkAll (joinedNodes ns), m.IsJoined
  | [] => ⟨.nil, by simp [joinedNodes, walkAll]⟩
  | n :: ns => by
      obtain ⟨hapart, hjoined⟩ := isJoined_joinedNodes ns
      have hnodes : ∀ k ∈ joinedNodes (n :: ns), ∀ m ∈ k.walk, m.IsJoined :=
        RawText.forall_mem_join isJoined_literal (isJoined_joined n) fun k hk m hm =>
          hjoined m (mem_walkAll.2 ⟨k, hk, hm⟩)
      refine ⟨hapart.join _, fun m hm => ?_⟩
      obtain ⟨k, hk, hm⟩ := mem_walkAll.1 hm
      exact hnodes k hk m hm

end

/-- After joining, raw text stands next to raw text nowhere. -/
theorem isJoined_joinedChildren (children : List Child) :
    Child.rawText.Apart (joinedChildren children) ∧
      ∀ c ∈ joinedChildren children, c.IsJoined := by
  have hchild : ∀ c : Child, c.joined.IsJoined := by
    intro c
    cases c with
    | rule r => exact isJoined_joinedNodes r.body
    | node n => exact isJoined_joined n
  induction children with
  | nil => exact ⟨.nil, by simp [joinedChildren]⟩
  | cons c children ih =>
      exact ⟨ih.1.join _, RawText.forall_mem_join isJoined_literal (hchild c) ih.2⟩

/-! ## Grammars -/

/-- A grammar is read back from its element with the same attributes. Its children are the same,
but for the runs of raw text, which are joined: nothing is lost or altered, and raw text then
stands next to raw text nowhere. -/
theorem ofMarkup_toMarkup {g : Grammar} (hadmitted : g.IsAdmitted)
    (htold : ∀ child ∈ g.children, child.IsTold) :
    Grammar.ofMarkup g.toMarkup = .ok { g with children := joinedChildren g.children } ∧
      (joinedChildren g.children).flatMap Child.pieces = g.children.flatMap Child.pieces ∧
        Child.rawText.Apart (joinedChildren g.children) ∧
          ∀ c ∈ joinedChildren g.children, c.IsJoined := by
  have hspace : ∀ uri, g.toMarkup.attr? "xmlns" = some uri → uri = grammarNamespace := by
    simp [(attr?_toMarkup g).1]
  have hchildren := readsAs_joinedChildren fun c hc => ⟨hadmitted c hc, htold c hc⟩
  rw [← children_toMarkup] at hchildren
  refine ⟨?_, pieces_joinedChildren g.children, isJoined_joinedChildren g.children⟩
  exact Grammar.ofMarkup_eq_ok_iff.2
    ⟨name_toMarkup g, hspace, _, _, ofAttributes_reread g _, hchildren, rfl⟩

/-- A grammar with strings that no document could hold and with raw text side by side at every
level. -/
def menuGrammar : Grammar :=
  { mode := some .voice
    root := some ""
    children := [.node (.literal "a"), .node (.literal " <b"),
      .rule { id := "m n", scope := .isPublic,
              body := [.element (.item (some ⟨2, none⟩)) [.literal "x", .literal " y", .tag "\n"],
                .literal "u", .literal ""] },
      .node (.element (.foreign "" [("", "1"), ("repeat", "?")]) [.ruleRef "", .token " "])] }

theorem ofMarkup_toMarkup_menuGrammar :
    menuGrammar.IsAdmitted ∧ (∀ child ∈ menuGrammar.children, child.IsTold) ∧
      Grammar.ofMarkup menuGrammar.toMarkup = .ok
        { menuGrammar with
          children := [.node (.literal "a <b"),
            .rule { id := "m n", scope := .isPublic,
                    body := [.element (.item (some ⟨2, none⟩)) [.literal "x y", .tag "\n"],
                      .literal "u"] },
            .node (.element (.foreign "" [("", "1"), ("repeat", "?")])
              [.ruleRef "", .token " "])] } := by
  have hadmitted : menuGrammar.IsAdmitted := by
    rw [Grammar.IsAdmitted]
    decide
  have htold : ∀ child ∈ menuGrammar.children, child.IsTold := by
    simp [menuGrammar, Child.IsTold, Node.IsTold, Container.IsTold, Node.HasDistinctKeys, walkAll,
      Node.walk, vocabulary, Repeat.isOrdered]
  have hjoined : joinedChildren menuGrammar.children = [.node (.literal "a <b"),
      .rule { id := "m n", scope := .isPublic,
              body := [.element (.item (some ⟨2, none⟩)) [.literal "x y", .tag "\n"],
                .literal "u"] },
      .node (.element (.foreign "" [("", "1"), ("repeat", "?")]) [.ruleRef "", .token " "])] := by
    decide +kernel
  refine ⟨hadmitted, htold, ?_⟩
  rw [← hjoined]
  exact (ofMarkup_toMarkup hadmitted htold).1

end SpeechGrammar
