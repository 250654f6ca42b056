import SpeechGrammar.Grammar.Mode
import SpeechGrammar.Grammar.Repeat

set_option autoImplicit false

/-!
# Rules and their content

The body of a rule is a list of nodes: raw text, tokens, references to other rules, tags, and
elements that contain nodes again. A grammar holds rules and nodes.
-/

namespace SpeechGrammar

/-- What an element does with its children. -/
inductive Container where
  /-- A sequence, repeated if there is a repeat count. -/
  | item (occurs : Option Repeat)
  /-- A choice of one child. -/
  | oneOf
  /-- An element that the grammar format does not define, kept with its attributes. -/
  | foreign (name : String) (attributes : List (String × String))
deriving Repr, DecidableEq

/-- The element name of a container. -/
def Container.name : Container → String
  | .item _ => "item"
  | .oneOf => "one-of"
  | .foreign name _ => name

/-- The content of a rule. -/
inductive Node where
  /-- Raw text that has not been split into tokens. -/
  | literal (text : String)
  /-- A word or a phrase, matched as it stands. -/
  | token (text : String)
  /-- A reference to a rule. -/
  | ruleRef (uri : String)
  /-- An annotation, carried along and never matched. -/
  | tag (content : String)
  /-- A container with its children. -/
  | element (container : Container) (children : List Node)
deriving Repr, Inhabited

mutual

/-- Equality of nodes is decidable. -/
def Node.decEq : (a b : Node) → Decidable (a = b)
  | .literal s, .literal t =>
      if h : s = t then isTrue (by rw [h]) else isFalse (by intro e; cases e; exact h rfl)
  | .token s, .token t =>
      if h : s = t then isTrue (by rw [h]) else isFalse (by intro e; cases e; exact h rfl)
  | .ruleRef s, .ruleRef t =>
      if h : s = t then isTrue (by rw [h]) else isFalse (by intro e; cases e; exact h rfl)
  | .tag s, .tag t =>
      if h : s = t then isTrue (by rw [h]) else isFalse (by intro e; cases e; exact h rfl)
  | .element c xs, .element d ys =>
      if hc : c = d then
        match Node.decEqList xs ys with
        | isTrue h => isTrue (by rw [hc, h])
        | isFalse h => isFalse (by intro e; cases e; exact h rfl)
      else isFalse (by intro e; cases e; exact hc rfl)
  | .literal _, .token _ | .literal _, .ruleRef _ | .literal _, .tag _
  | .literal _, .element _ _ => isFalse (by intro e; cases e)
  | .token _, .literal _ | .token _, .ruleRef _ | .token _, .tag _
  | .token _, .element _ _ => isFalse (by intro e; cases e)
  | .ruleRef _, .literal _ | .ruleRef _, .token _ | .ruleRef _, .tag _
  | .ruleRef _, .element _ _ => isFalse (by intro e; cases e)
  | .tag _, .literal _ | .tag _, .token _ | .tag _, .ruleRef _
  | .tag _, .element _ _ => isFalse (by intro e; cases e)
  | .element _ _, .literal _ | .element _ _, .token _ | .element _ _, .ruleRef _
  | .element _ _, .tag _ => isFalse (by intro e; cases e)

/-- Equality of lists of nodes is decidable. -/
def Node.decEqList : (as bs : List Node) → Decidable (as = bs)
  | [], [] => isTrue rfl
  | [], _ :: _ => isFalse (by intro e; cases e)
  | _ :: _, [] => isFalse (by intro e; cases e)
  | a :: as, b :: bs =>
      match Node.decEq a b, Node.decEqList as bs with
      | isTrue h, isTrue t => isTrue (by rw [h, t])
      | isFalse h, _ => isFalse (by intro e; cases e; exact h rfl)
      | _, isFalse t => isFalse (by intro e; cases e; exact t rfl)

end

instance : DecidableEq Node := Node.decEq

/-- A named rule. -/
structure Rule where
  id : String
  scope : Scope := .isPrivate
  body : List Node := []
deriving Repr, DecidableEq, Inhabited

/-- What stands directly in a grammar. -/
inductive Child where
  | rule (r : Rule)
  | node (n : Node)
deriving Repr, DecidableEq, Inhabited

/-! ## Kinds and walks -/

/-- The name of a kind of node; an element is called by its element name. -/
def Node.kind : Node → String
  | .literal _ => "text"
  | .token _ => "token"
  | .ruleRef _ => "ruleref"
  | .tag _ => "tag"
  | .element container _ => container.name

mutual

/-- A node and everything below it, parents first. -/
def Node.walk : Node → List Node
  | .element container children => .element container children :: walkAll children
  | node => [node]

/-- The nodes of a list and everything below them, parents first. -/
def walkAll : List Node → List Node
  | [] => []
  | n :: ns => n.walk ++ walkAll ns

end

/-- The uri of a reference. -/
def Node.uri? : Node → Option String
  | .ruleRef uri => some uri
  | _ => none

/-- The uris of the references in a list of nodes, at any depth, in document order. -/
def references (nodes : List Node) : List String := (walkAll nodes).filterMap Node.uri?

/-- The rule contains a reference. -/
def Rule.hasReferences (rule : Rule) : Bool := !(references rule.body).isEmpty

/-- The rule is visible outside its grammar. -/
def Rule.isPublic (rule : Rule) : Bool := rule.scope == .isPublic

/-- The id of the rule that a uri refers to inside its grammar: what follows the hash sign. -/
def targetId? (uri : String) : Option String :=
  match uri.toList with
  | '#' :: c :: cs => some (String.ofList (c :: cs))
  | _ => none

/-! ## Children of a grammar -/

/-- The name of a kind of child. -/
def Child.kind : Child → String
  | .rule _ => "rule"
  | .node n => n.kind

/-- The rule that a child is, if it is one. -/
def Child.rule? : Child → Option Rule
  | .rule r => some r
  | .node _ => none

/-- The content of the tag that a child is, if it is one. -/
def Child.tag? : Child → Option String
  | .node (.tag content) => some content
  | _ => none

/-- The rules among the children, in order. -/
def rulesOf (children : List Child) : List Rule := children.filterMap Child.rule?

/-- The first rule with the id. -/
def findRule? (rules : List Rule) (id : String) : Option Rule := rules.find? (·.id == id)

end SpeechGrammar
