import SpeechGrammar.Grammar.Mode
import SpeechGrammar.Markup.Reader
import SpeechGrammar.Text.Quoted

set_option autoImplicit false

/-!
# Errors of a grammar

Each error is a cause; `Error.message` gives its wording. None of them can be repaired: a
grammar that raised one is not used for matching.
-/

namespace SpeechGrammar

open SpeechGrammar.Text

/-- Why a node cannot stand where it does. -/
inductive Misplacement where
  /-- A rule below the top level. -/
  | nestedRule
  /-- A node of this kind directly in a grammar. -/
  | topLevel (kind : String)
deriving Repr, DecidableEq

/-- Why a document is not a grammar. -/
inductive DocumentFault where
  | unreadable (cause : Markup.ReadError)
  | wrongRoot (name : String)
  | unknownNamespace (uri : String)
  | ruleWithoutId
  | referenceWithoutUri
deriving Repr, DecidableEq

/-- Why a pattern cannot be used. -/
inductive PatternFault where
  /-- The source is not an expression. -/
  | malformed
  /-- The expression is nested too deeply. -/
  | tooDeep
  /-- The expression is too large once its repetitions are written out. -/
  | tooLarge
deriving Repr, DecidableEq

/-- What can be wrong with a grammar. -/
inductive Error where
  | invalidChild (cause : Misplacement)
  | modeMismatch (expected found : Option Mode)
  | unresolvedReference (uri : String)
  | cyclicReference (chain : List String)
  | missingRootRule (root : String)
  | uninlinedReference (uri : String)
  | invalidAttribute (element name value : String)
  | document (fault : DocumentFault)
  | pattern (fault : PatternFault)
deriving Repr, DecidableEq

/-- The wording of a misplacement. -/
def Misplacement.message : Misplacement → String
  | .nestedRule => "<rule> may only appear directly under <grammar>"
  | .topLevel kind => s!"a grammar can only accept rules and tags as children, got <{kind}>"

/-- The wording of a document fault. -/
def DocumentFault.message : DocumentFault → String
  | .unreadable cause => cause.message
  | .wrongRoot name => s!"expected <grammar> root element, found <{name}>"
  | .unknownNamespace uri => s!"unknown grammar namespace {quoted uri}"
  | .ruleWithoutId => "<rule> requires an id"
  | .referenceWithoutUri => "<ruleref> requires a uri"

/-- The wording of a pattern fault. -/
def PatternFault.message : PatternFault → String
  | .malformed => "the pattern is not a regular expression"
  | .tooDeep => "the pattern is nested too deeply"
  | .tooLarge => "the pattern is too large"

/-- The wording of an error. -/
def Error.message : Error → String
  | .invalidChild cause => s!"CHILD/{cause.message}"
  | .modeMismatch expected found =>
      "CHILD/MODE: embedded grammars must have the same mode " ++
        s!"(expected {modeLabel expected}, found {modeLabel found})"
  | .unresolvedReference uri => s!"REF/UNRESOLVED: no rule matches reference {uri}"
  | .cyclicReference chain => "REF/CYCLE: " ++ " -> ".intercalate chain
  | .missingRootRule root =>
      s!"ROOT/MISSING: a grammar must have a rule matching the root rule name {quoted root}"
  | .uninlinedReference uri =>
      s!"REF/UNINLINED: reference {uri} reached the pattern compiler; inline the grammar first"
  | .invalidAttribute element name value =>
      s!"ATTR/{element}.{name}: invalid value {quoted value}"
  | .document fault => s!"DOC/{fault.message}"
  | .pattern fault => s!"PATTERN/{fault.message}"

/-- The error is about what a grammar may contain. The mode of an embedded grammar counts. -/
def Error.isInvalidChild : Error → Bool
  | .invalidChild _ | .modeMismatch _ _ => true
  | _ => false

end SpeechGrammar
