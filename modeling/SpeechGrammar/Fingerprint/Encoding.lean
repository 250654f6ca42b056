import SpeechGrammar.Fingerprint.Blake3
import SpeechGrammar.Fingerprint.Json
import SpeechGrammar.Grammar.Basic

set_option autoImplicit false

/-!
# Fingerprints

The fingerprint of a value is the hash of its compact JSON form. A grammar is encoded with all
its attributes and its whole content.
-/

namespace SpeechGrammar

/-! ## Encoding -/

/-- The encoding of a mode. -/
def encodeMode : Option Mode → Json
  | none => .null
  | some mode => .string mode.name

/-- The encoding of a bound. -/
def encodeCount (n : UInt32) : Json := .int n.toNat

/-- The encoding of a repeat count. -/
def Repeat.encode (r : Repeat) : Json :=
  .object [("min", encodeCount r.min), ("max", (r.max.map encodeCount).getD .null)]

/-- The encoding of an attribute. -/
def encodeAttribute (entry : String × String) : Json :=
  .array [.string entry.1, .string entry.2]

/-- The encoding of a container. -/
def Container.encode : Container → Json
  | .item occurs => .object [("Item", .object [("repeat", (occurs.map Repeat.encode).getD .null)])]
  | .oneOf => .string "OneOf"
  | .foreign name attributes =>
      .object [("Opaque", .object [("name", .string name),
        ("attributes", .array (attributes.map encodeAttribute))])]

mutual

/-- The encoding of a node. -/
def Node.encode : Node → Json
  | .literal text => .object [("Literal", .string text)]
  | .token text => .object [("Token", .object [("text", .string text)])]
  | .ruleRef uri => .object [("RuleRef", .object [("uri", .string uri)])]
  | .tag content => .object [("Tag", .object [("content", .string content)])]
  | .element container children =>
      .object [("Element", .object [("container", container.encode),
        ("children", .array (encodeNodes children))])]

/-- The encodings of a list of nodes. -/
def encodeNodes : List Node → List Json
  | [] => []
  | n :: ns => n.encode :: encodeNodes ns

end

/-- The encoding of a rule. -/
def Rule.encode (rule : Rule) : Json :=
  .object [("id", .string rule.id), ("scope", .string rule.scope.name),
    ("body", .array (encodeNodes rule.body))]

/-- The encoding of a child of a grammar. -/
def Child.encode : Child → Json
  | .rule r => .object [("Rule", r.encode)]
  | .node n => .object [("Node", n.encode)]

/-- The encoding of a grammar. -/
def Grammar.encode (g : Grammar) : Json :=
  .object [("mode", encodeMode g.mode), ("language", .ofString? g.language),
    ("base_uri", .ofString? g.baseUri), ("root", .ofString? g.root),
    ("tag_format", .ofString? g.tagFormat), ("children", .array (g.children.map Child.encode))]

/-! ## Hashing -/

/-- The fingerprint of a JSON value. -/
def Json.fingerprint (value : Json) : String :=
  "blake3:" ++ Blake3.hexHash (String.ofList value.render).toUTF8.toList

/-- The fingerprint of a grammar. An artifact that cannot be encoded has none, but every grammar can
be encoded. -/
def Grammar.fingerprint (g : Grammar) : Except Error String := .ok g.encode.fingerprint

end SpeechGrammar
