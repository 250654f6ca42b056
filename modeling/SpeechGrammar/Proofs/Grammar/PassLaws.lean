import SpeechGrammar.Proofs.NormalForm

set_option autoImplicit false

/-!
# Laws of the passes over text

Normalizing and tokenizing commute, and a second run of either changes nothing
(`textPasses_comm_idem`). They touch nothing but text (`textPasses_frame`): what is left of the
children without their text is the same before and after. Tokenizing puts tokens in the place of
raw text and keeps the tokens that are there, and normalizing keeps the number of tokens among the
siblings everywhere.
-/

namespace SpeechGrammar

open Text

/-! ## Both passes in turn -/

theorem normalizeNodes_append (ns ms : List Node) :
    normalizeNodes (ns ++ ms) = normalizeNodes ns ++ normalizeNodes ms := by
  induction ns with
  | nil => rfl
  | cons n ns ih => rw [List.cons_append, normalizeNodes, normalizeNodes, ih, List.append_assoc]

theorem tokenizeNodes_append (ns ms : List Node) :
    tokenizeNodes (ns ++ ms) = tokenizeNodes ns ++ tokenizeNodes ms := by
  induction ns with
  | nil => rfl
  | cons n ns ih => rw [List.cons_append, tokenizeNodes, tokenizeNodes, ih, List.append_assoc]

theorem normalizeNodes_singleton (n : Node) : normalizeNodes [n] = n.normalize :=
  List.append_nil _

theorem tokenizeNodes_singleton (n : Node) : tokenizeNodes [n] = n.tokenize := List.append_nil _

theorem normalizeNodes_tokens (texts : List String) :
    normalizeNodes (texts.map Node.token) = (texts.map normalize).map Node.token := by
  induction texts with
  | nil => rfl
  | cons text texts ih => exact congrArg (Node.token (normalize text) :: ·) ih

theorem tokenizeNodes_tokens (texts : List String) :
    tokenizeNodes (texts.map Node.token) = texts.map Node.token := by
  induction texts with
  | nil => rfl
  | cons text texts ih => exact congrArg (Node.token text :: ·) ih

mutual

theorem normalizeNodes_tokenize : ∀ n : Node, normalizeNodes n.tokenize = tokenizeNodes n.normalize
  | .literal text => by
      rw [Node.tokenize, normalizeNodes_tokens, ← splitTokens_normalize, Node.normalize]
      by_cases hempty : normalize text = ""
      · -- Blank raw text vanishes on one side and has no tokens on the other.
        rw [if_pos hempty, hempty]
        rfl
      · rw [if_neg hempty, tokenizeNodes_singleton, Node.tokenize]
  | .token _ => rfl
  | .ruleRef _ => rfl
  | .tag _ => rfl
  | .element container children => by
      rw [Node.tokenize, normalizeNodes_singleton, Node.normalize, Node.normalize,
        tokenizeNodes_singleton, Node.tokenize, normalizeNodes_tokenizeNodes children]

/-- Normalizing after tokenizing is tokenizing after normalizing. -/
theorem normalizeNodes_tokenizeNodes : ∀ ns : List Node,
    normalizeNodes (tokenizeNodes ns) = tokenizeNodes (normalizeNodes ns)
  | [] => rfl
  | n :: ns => by
      rw [tokenizeNodes, normalizeNodes_append, normalizeNodes, tokenizeNodes_append,
        normalizeNodes_tokenize n, normalizeNodes_tokenizeNodes ns]

end

mutual

theorem tokenizeNodes_tokenize : ∀ n : Node, tokenizeNodes n.tokenize = n.tokenize
  | .literal text => tokenizeNodes_tokens (splitTokens text)
  | .token _ => rfl
  | .ruleRef _ => rfl
  | .tag _ => rfl
  | .element container children => by
      rw [Node.tokenize, tokenizeNodes_singleton, Node.tokenize,
        tokenizeNodes_tokenizeNodes children]

/-- Tokens are not split again. -/
theorem tokenizeNodes_tokenizeNodes : ∀ ns : List Node,
    tokenizeNodes (tokenizeNodes ns) = tokenizeNodes ns
  | [] => rfl
  | n :: ns => by
      rw [tokenizeNodes, tokenizeNodes_append, tokenizeNodes_tokenize n,
        tokenizeNodes_tokenizeNodes ns]

end

theorem Child.normalize_tokenize (c : Child) :
    c.tokenize.normalize = c.normalize.map Child.tokenize := by
  cases c with
  | rule r =>
      rw [Child.tokenize, Child.normalize, normalizeNodes_tokenizeNodes]
      rfl
  | node n =>
      cases n with
      | element container children =>
          rw [Child.tokenize, Child.normalize, Node.normalize, normalizeNodes_tokenizeNodes]
          rfl
      | literal text =>
          -- Raw text directly in a grammar is not tokenized: it only has to vanish on both sides.
          show (Child.node (.literal text)).normalize =
            (Child.node (.literal text)).normalize.map Child.tokenize
          rw [Child.normalize, Node.normalize]
          by_cases hempty : Text.normalize text = ""
          · rw [if_pos hempty]
            rfl
          · rw [if_neg hempty]
            rfl
      | token _ | ruleRef _ | tag _ => rfl

theorem Child.tokenize_tokenize (c : Child) : c.tokenize.tokenize = c.tokenize := by
  cases c with
  | rule r => rw [Child.tokenize, Child.tokenize, tokenizeNodes_tokenizeNodes]
  | node n =>
      cases n with
      | element container children =>
          rw [Child.tokenize, Child.tokenize, tokenizeNodes_tokenizeNodes]
      | literal _ | token _ | ruleRef _ | tag _ => rfl

/-- Tokenizing a normalized text gives the tokens of the text, each normalized. On the children of a
grammar the two passes commute, and each changes nothing when it is run again. -/
theorem textPasses_comm_idem :
    (∀ s : String, splitTokens (normalize s) = (splitTokens s).map normalize) ∧
      ∀ children : List Child,
        tokenizeChildren (normalizeChildren children) =
            normalizeChildren (tokenizeChildren children) ∧
          normalizeChildren (normalizeChildren children) = normalizeChildren children ∧
          tokenizeChildren (tokenizeChildren children) = tokenizeChildren children := by
  refine ⟨splitTokens_normalize, fun children => ⟨?_, ?_, ?_⟩⟩
  · rw [tokenizeChildren, normalizeChildren, List.map_flatMap, normalizeChildren, tokenizeChildren,
      List.flatMap_map]
    exact List.flatMap_congr fun c _ => c.normalize_tokenize.symm
  · refine normalizeChildren_eq_self fun c hc => ?_
    obtain ⟨_, -, hmem⟩ := List.mem_flatMap.1 hc
    exact Child.isSpaced_of_mem_normalize hmem
  · rw [tokenizeChildren, tokenizeChildren, List.map_map]
    exact List.map_congr_left fun c _ => c.tokenize_tokenize

/-! ## What is left without text -/

mutual

/-- A node without text: raw text and tokens go, at any depth. -/
def Node.withoutText : Node → List Node
  | .literal _ | .token _ => []
  | .ruleRef uri => [.ruleRef uri]
  | .tag content => [.tag content]
  | .element container children => [.element container (nodesWithoutText children)]

/-- A list of nodes without text. -/
def nodesWithoutText : List Node → List Node
  | [] => []
  | n :: ns => n.withoutText ++ nodesWithoutText ns

end

/-- A child of a grammar without text. -/
def Child.withoutText : Child → List Child
  | .rule r => [.rule { r with body := nodesWithoutText r.body }]
  | .node n => n.withoutText.map Child.node

/-- The children of a grammar without text. -/
def childrenWithoutText (children : List Child) : List Child :=
  children.flatMap Child.withoutText

theorem nodesWithoutText_append (ns ms : List Node) :
    nodesWithoutText (ns ++ ms) = nodesWithoutText ns ++ nodesWithoutText ms := by
  induction ns with
  | nil => rfl
  | cons n ns ih => rw [List.cons_append, nodesWithoutText, nodesWithoutText, ih, List.append_assoc]

theorem nodesWithoutText_of_isText {ks : List Node} (h : ∀ k ∈ ks, k.IsText) :
    nodesWithoutText ks = [] := by
  induction ks with
  | nil => rfl
  | cons k ks ih =>
      rw [List.forall_mem_cons] at h
      have hk : k.withoutText = [] := by
        cases k with
        | literal _ | token _ => rfl
        | ruleRef _ | tag _ | element _ _ => cases h.1
      rw [nodesWithoutText, hk, ih h.2, List.nil_append]

/-- Nodes that are reworded are the same without text. -/
theorem Reworded.nodesWithoutText_eq {ns ms : List Node} (h : Reworded ns ms) :
    nodesWithoutText ms = nodesWithoutText ns := by
  induction h with
  | nil => rfl
  | literal hks _ _ ih =>
      rw [nodesWithoutText_append, nodesWithoutText_of_isText hks, ih]
      rfl
  | token _ _ ih => exact ih
  | ruleRef _ ih | tag _ ih =>
      rw [nodesWithoutText, nodesWithoutText, ih, Node.withoutText]
  | element _ _ ihchildren ih =>
      rw [nodesWithoutText, nodesWithoutText, Node.withoutText, Node.withoutText, ihchildren, ih]

theorem childrenWithoutText_map_node (ns : List Node) :
    childrenWithoutText (ns.map Child.node) = (nodesWithoutText ns).map Child.node := by
  induction ns with
  | nil => rfl
  | cons n ns ih =>
      rw [nodesWithoutText, List.map_append, ← ih]
      rfl

theorem Child.withoutText_normalize (c : Child) :
    childrenWithoutText c.normalize = c.withoutText := by
  cases c with
  | rule r =>
      have hbody := (reworded_normalizeNodes r.body).nodesWithoutText_eq
      simp [Child.normalize, childrenWithoutText, Child.withoutText, hbody]
  | node n =>
      rw [Child.normalize, childrenWithoutText_map_node,
        (reworded_normalize n).nodesWithoutText_eq, nodesWithoutText, nodesWithoutText,
        List.append_nil, Child.withoutText]

theorem Child.withoutText_tokenize (c : Child) : c.tokenize.withoutText = c.withoutText := by
  cases c with
  | rule r =>
      rw [Child.tokenize, Child.withoutText, (reworded_tokenizeNodes r.body).nodesWithoutText_eq,
        Child.withoutText]
  | node n =>
      cases n with
      | element container children =>
          rw [Child.tokenize, Child.withoutText, Node.withoutText,
            (reworded_tokenizeNodes children).nodesWithoutText_eq]
          rfl
      | literal _ | token _ | ruleRef _ | tag _ => rfl

/-! ## Siblings -/

/-- The children of an element. -/
def Node.children? : Node → Option (List Node)
  | .element _ children => some children
  | _ => none

/-- The children of each element in a list of nodes, at any depth, in document order. -/
def childLists (nodes : List Node) : List (List Node) := (walkAll nodes).filterMap Node.children?

/-- The node that a child is, if it is one. -/
def Child.node? : Child → Option Node
  | .rule _ => none
  | .node n => some n

/-- The lists of siblings within a child: the body of a rule, and the children of each element. -/
def Child.siblingLists : Child → List (List Node)
  | .rule r => r.body :: childLists r.body
  | .node n => childLists [n]

/-- All lists of siblings in a grammar with these children. Those that stand directly in it come
first, then the others in document order. -/
def siblingLists (children : List Child) : List (List Node) :=
  children.filterMap Child.node? :: children.flatMap Child.siblingLists

/-- The node is a token. -/
def Node.isToken : Node → Bool
  | .token _ => true
  | _ => false

/-- The number of tokens in a list of siblings, elements not opened. -/
def tokenCount (nodes : List Node) : Nat := nodes.countP Node.isToken

theorem childLists_append (ns ms : List Node) :
    childLists (ns ++ ms) = childLists ns ++ childLists ms := by
  rw [childLists, walkAll_append, List.filterMap_append]
  rfl

theorem childLists_cons (n : Node) (ns : List Node) :
    childLists (n :: ns) = childLists [n] ++ childLists ns := childLists_append [n] ns

theorem childLists_element (container : Container) (children : List Node) :
    childLists [.element container children] = children :: childLists children := by
  simp [childLists, walkAll, Node.walk, Node.children?]

theorem tokenCount_append (ns ms : List Node) :
    tokenCount (ns ++ ms) = tokenCount ns + tokenCount ms := List.countP_append

/-- Normalizing keeps what a node counts for among its siblings. -/
theorem tokenCount_normalize (n : Node) : tokenCount n.normalize = tokenCount [n] := by
  cases n with
  | literal text =>
      rw [Node.normalize]
      split
      · rfl
      · rfl
  | token _ | ruleRef _ | tag _ | element _ _ => rfl

theorem tokenCount_normalizeNodes (ns : List Node) :
    tokenCount (normalizeNodes ns) = tokenCount ns := by
  induction ns with
  | nil => rfl
  | cons n ns ih =>
      rw [normalizeNodes, tokenCount_append, tokenCount_normalize, ih, ← tokenCount_append]
      rfl

mutual

theorem tokenCounts_normalize : ∀ n : Node,
    (childLists n.normalize).map tokenCount = (childLists [n]).map tokenCount
  | .literal text => by
      rw [Node.normalize]
      split
      · rfl
      · rfl
  | .token _ => rfl
  | .ruleRef _ => rfl
  | .tag _ => rfl
  | .element container children => by
      rw [Node.normalize, childLists_element, childLists_element, List.map_cons, List.map_cons,
        tokenCount_normalizeNodes, tokenCounts_normalizeNodes children]

/-- Normalizing keeps the number of tokens among the children of every element. -/
theorem tokenCounts_normalizeNodes : ∀ ns : List Node,
    (childLists (normalizeNodes ns)).map tokenCount = (childLists ns).map tokenCount
  | [] => rfl
  | n :: ns => by
      rw [normalizeNodes, childLists_append, List.map_append, tokenCounts_normalize n,
        tokenCounts_normalizeNodes ns, ← List.map_append, ← childLists_cons]

end

theorem Child.tokenCounts_normalize (c : Child) :
    (c.normalize.flatMap Child.siblingLists).map tokenCount = c.siblingLists.map tokenCount := by
  cases c with
  | rule r =>
      rw [Child.normalize, List.flatMap_singleton, Child.siblingLists, Child.siblingLists,
        List.map_cons, List.map_cons, tokenCount_normalizeNodes, tokenCounts_normalizeNodes]
  | node n =>
      have hflat : ∀ ns : List Node,
          (ns.map Child.node).flatMap Child.siblingLists = childLists ns := by
        intro ns
        induction ns with
        | nil => rfl
        | cons n ns ih =>
            rw [List.map_cons, List.flatMap_cons, ih, childLists_cons]
            rfl
      rw [Child.normalize, hflat, SpeechGrammar.tokenCounts_normalize, Child.siblingLists]

/-- Normalizing keeps the number of tokens in every list of siblings. -/
theorem tokenCounts_normalizeChildren (children : List Child) :
    (siblingLists (normalizeChildren children)).map tokenCount =
      (siblingLists children).map tokenCount := by
  have htop : (normalizeChildren children).filterMap Child.node? =
      normalizeNodes (children.filterMap Child.node?) := by
    induction children with
    | nil => rfl
    | cons c children ih =>
        rw [normalizeChildren] at ih
        rw [normalizeChildren, List.flatMap_cons, List.filterMap_append, ih]
        cases c with
        | rule r => rfl
        | node n =>
            have hsame : (Child.node n).normalize.filterMap Child.node? = n.normalize := by
              simp [Child.normalize, List.filterMap_map, Child.node?, Function.comp_def]
            rw [hsame]
            rfl
  have hbelow : ((normalizeChildren children).flatMap Child.siblingLists).map tokenCount =
      (children.flatMap Child.siblingLists).map tokenCount := by
    rw [normalizeChildren, List.flatMap_assoc, List.map_flatMap, List.map_flatMap]
    exact List.flatMap_congr fun c _ => c.tokenCounts_normalize
  rw [siblingLists, siblingLists, List.map_cons, List.map_cons, htop, tokenCount_normalizeNodes,
    hbelow]

/-! ## What tokenizing keeps -/

/-- The second list is the first with tokens in the place of each raw text, at any depth. All else
stays as it is, and so do the tokens that are there. -/
inductive RawTextSplit : List Node → List Node → Prop
  | nil : RawTextSplit [] []
  | literal {text : String} {ns ms : List Node} (tokens : List String) (hns : RawTextSplit ns ms) :
      RawTextSplit (.literal text :: ns) (tokens.map Node.token ++ ms)
  | token {text : String} {ns ms : List Node} (hns : RawTextSplit ns ms) :
      RawTextSplit (.token text :: ns) (.token text :: ms)
  | ruleRef {uri : String} {ns ms : List Node} (hns : RawTextSplit ns ms) :
      RawTextSplit (.ruleRef uri :: ns) (.ruleRef uri :: ms)
  | tag {content : String} {ns ms : List Node} (hns : RawTextSplit ns ms) :
      RawTextSplit (.tag content :: ns) (.tag content :: ms)
  | element {container : Container} {children split ns ms : List Node}
      (hchildren : RawTextSplit children split) (hns : RawTextSplit ns ms) :
      RawTextSplit (.element container children :: ns) (.element container split :: ms)

/-- The second child of a grammar is the first with tokens in the place of the raw text in it. A
node that is not an element stays as it is, raw text included. -/
inductive Child.RawTextSplit : Child → Child → Prop
  | rule {r : Rule} {body : List Node} (hbody : SpeechGrammar.RawTextSplit r.body body) :
      Child.RawTextSplit (.rule r) (.rule { r with body := body })
  | element {container : Container} {children split : List Node}
      (hchildren : SpeechGrammar.RawTextSplit children split) :
      Child.RawTextSplit (.node (.element container children)) (.node (.element container split))
  | node {n : Node} (hn : n.children? = none) : Child.RawTextSplit (.node n) (.node n)

theorem rawTextSplit_tokenizeNodes : ∀ ns : List Node, RawTextSplit ns (tokenizeNodes ns)
  | [] => .nil
  | .literal text :: ns => .literal (splitTokens text) (rawTextSplit_tokenizeNodes ns)
  | .token _ :: ns => .token (rawTextSplit_tokenizeNodes ns)
  | .ruleRef _ :: ns => .ruleRef (rawTextSplit_tokenizeNodes ns)
  | .tag _ :: ns => .tag (rawTextSplit_tokenizeNodes ns)
  | .element _ children :: ns =>
      .element (rawTextSplit_tokenizeNodes children) (rawTextSplit_tokenizeNodes ns)

theorem Child.rawTextSplit_tokenize (c : Child) : Child.RawTextSplit c c.tokenize := by
  cases c with
  | rule r => exact .rule (rawTextSplit_tokenizeNodes r.body)
  | node n =>
      cases n with
      | element container children => exact .element (rawTextSplit_tokenizeNodes children)
      | literal _ | token _ | ruleRef _ | tag _ => exact .node rfl

/-- The passes touch nothing but text. Without raw text and tokens, the children are the same before
and after either pass. Tokenizing keeps every token, and the raw text that stands directly in the
grammar; normalizing keeps the number of tokens in every list of siblings. -/
theorem textPasses_frame (children : List Child) :
    childrenWithoutText (normalizeChildren children) = childrenWithoutText children ∧
      childrenWithoutText (tokenizeChildren children) = childrenWithoutText children ∧
      List.Forall₂ Child.RawTextSplit children (tokenizeChildren children) ∧
      (siblingLists (normalizeChildren children)).map tokenCount =
        (siblingLists children).map tokenCount := by
  refine ⟨?_, ?_, ?_, tokenCounts_normalizeChildren children⟩
  · rw [childrenWithoutText, normalizeChildren, List.flatMap_assoc]
    exact List.flatMap_congr fun c _ => c.withoutText_normalize
  · rw [childrenWithoutText, tokenizeChildren, List.flatMap_map]
    exact List.flatMap_congr fun c _ => c.withoutText_tokenize
  · rw [tokenizeChildren, List.forall₂_map_right_iff, List.forall₂_same]
    exact fun c _ => c.rawTextSplit_tokenize

end SpeechGrammar
