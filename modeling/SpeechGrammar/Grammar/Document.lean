import SpeechGrammar.Grammar.Basic
import SpeechGrammar.Markup.Writer

set_option autoImplicit false

/-!
# Grammars as documents

A grammar is written as a `grammar` element and read back from one. Reading refuses what the
format does not allow: a foreign root or namespace, an unknown mode or scope, a rule without an
id, a reference without a uri, a bad repeat count, and a rule below the top level.
-/

namespace SpeechGrammar

/-- The namespace of the grammar format. -/
def grammarNamespace : String := "http://www.w3.org/2001/06/grammar"

/-! ## Reading -/

/-- The repeat count of an item. -/
def readOccurs (value? : Option String) : Except Error (Option Repeat) :=
  match value? with
  | none => .ok none
  | some value =>
      match Repeat.parse? value with
      | none => .error (.invalidAttribute "item" "repeat" value)
      | some r => .ok (some r)

/-- The scope of a rule; private if there is none. -/
def readScope (value? : Option String) : Except Error Scope :=
  match value? with
  | none => .ok .isPrivate
  | some value =>
      match Scope.ofName? value with
      | none => .error (.invalidAttribute "rule" "scope" value)
      | some scope => .ok scope

mutual

/-- The grammar node that a markup node stands for. -/
def Node.ofMarkup : Markup.Node → Except Error Node
  | .text s => .ok (.literal s)
  | .element name attributes children =>
      if name = "rule" then .error (.invalidChild .nestedRule)
      else if name = "token" then .ok (.token (Markup.textContents children))
      else if name = "tag" then .ok (.tag (Markup.textContents children))
      else if name = "ruleref" then
        match Markup.lookup? "uri" attributes with
        | none => .error (.document .referenceWithoutUri)
        | some uri => .ok (.ruleRef uri)
      else if name = "item" then
        (readOccurs (Markup.lookup? "repeat" attributes)).bind fun occurs =>
          (nodesOfMarkup children).map (.element (.item occurs))
      else if name = "one-of" then (nodesOfMarkup children).map (.element .oneOf)
      else (nodesOfMarkup children).map (.element (.foreign name attributes))

/-- The grammar nodes that a list of markup nodes stands for. -/
def nodesOfMarkup : List Markup.Node → Except Error (List Node)
  | [] => .ok []
  | n :: ns => (Node.ofMarkup n).bind fun node => (nodesOfMarkup ns).map (node :: ·)

end

/-- The rule that an element stands for. -/
def Rule.ofMarkup (attributes : List (String × String)) (children : List Markup.Node) :
    Except Error Rule :=
  match (Markup.lookup? "id" attributes).filter (· ≠ "") with
  | none => .error (.document .ruleWithoutId)
  | some id =>
      (readScope (Markup.lookup? "scope" attributes)).bind fun scope =>
        (nodesOfMarkup children).map fun body => ⟨id, scope, body⟩

/-- The child of a grammar that a markup node stands for. -/
def Child.ofMarkup (node : Markup.Node) : Except Error Child :=
  match node with
  | .element "rule" attributes children => (Rule.ofMarkup attributes children).map Child.rule
  | node => (Node.ofMarkup node).map Child.node

/-- Read a markup node and append it to a grammar. -/
def Grammar.appendMarkup (g : Grammar) (node : Markup.Node) : Except Error Grammar :=
  (Child.ofMarkup node).bind g.append

/-- A grammar with the attributes of an element and no children. -/
def Grammar.ofAttributes (e : Markup.Element) : Except Error Grammar :=
  let g : Grammar :=
    { language := e.attr? "xml:lang", baseUri := e.attr? "xml:base", root := e.attr? "root",
      tagFormat := e.attr? "tag-format" }
  match e.attr? "mode" with
  | none => .ok g
  | some name => g.setModeName name

/-- The grammar that an element stands for. -/
def Grammar.ofMarkup (e : Markup.Element) : Except Error Grammar :=
  if e.name ≠ "grammar" then .error (.document (.wrongRoot e.name))
  else
    match (e.attr? "xmlns").filter (· ≠ grammarNamespace) with
    | some uri => .error (.document (.unknownNamespace uri))
    | none =>
        (Grammar.ofAttributes e).bind fun g => e.children.foldlM Grammar.appendMarkup g

/-- The grammar that a document writes. -/
def Grammar.parse (text : String) : Except Error Grammar :=
  match Markup.read text with
  | .error cause => .error (.document (.unreadable cause))
  | .ok e => Grammar.ofMarkup e

/-- Read a document and embed its grammar. -/
def Grammar.embedDocument (g : Grammar) (text : String) : Except Error Grammar :=
  (Grammar.parse text).bind g.embed

/-! ## Writing -/

/-- The attributes with repeated keys set again, so that each key is left once. -/
def setAttributes (attributes : List (String × String)) : List (String × String) :=
  Markup.insertAll attributes []

/-- The attributes of the element for a container. -/
def Container.attributes : Container → List (String × String)
  | .item none => []
  | .item (some occurs) => [("repeat", occurs.render)]
  | .oneOf => []
  | .foreign _ attributes => setAttributes attributes

mutual

/-- The markup node for a grammar node. -/
def Node.toMarkup : Node → Markup.Node
  | .literal text => .text text
  | .token text => .element "token" [] [.text text]
  | .tag content => .element "tag" [] [.text content]
  | .ruleRef uri => .element "ruleref" [("uri", uri)] []
  | .element container children =>
      .element container.name container.attributes (pushMarkup [] children)

/-- Append the markup nodes for grammar nodes; raw text joins raw text before it. -/
def pushMarkup (done : List Markup.Node) : List Node → List Markup.Node
  | [] => done
  | n :: ns => pushMarkup (Markup.pushNode done n.toMarkup) ns

end

/-- The markup node for a rule. -/
def Rule.toMarkup (rule : Rule) : Markup.Node :=
  .element "rule" [("id", rule.id), ("scope", rule.scope.name)] (pushMarkup [] rule.body)

/-- The markup node for a child of a grammar. -/
def Child.toMarkup : Child → Markup.Node
  | .rule r => r.toMarkup
  | .node n => n.toMarkup

/-- The element for a grammar. -/
def Grammar.toMarkup (g : Grammar) : Markup.Element :=
  let start : Markup.Element :=
    { name := "grammar", attributes := [("xmlns", grammarNamespace), ("version", "1.0")] }
  ((((start.setAttr? "mode" (g.mode.map Mode.name)).setAttr? "xml:lang" g.language).setAttr?
    "xml:base" g.baseUri).setAttr? "root" g.root).setAttr? "tag-format" g.tagFormat
  |>.pushAll (g.children.map Child.toMarkup)

/-- The document for a grammar. -/
def Grammar.render (g : Grammar) : String := g.toMarkup.render

end SpeechGrammar
