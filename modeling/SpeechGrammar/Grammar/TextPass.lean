import SpeechGrammar.Grammar.Node
import SpeechGrammar.Text.Phrases

set_option autoImplicit false

/-!
# Normalizing and tokenizing

Two passes change the text of a grammar and nothing else. Normalizing joins the words of each
text by single spaces and drops raw text that is blank. Tokenizing replaces raw text by its
tokens. Raw text directly in a grammar is not rule content: it is normalized but not tokenized.
-/

namespace SpeechGrammar

open SpeechGrammar.Text

/-! ## Normalizing -/

mutual

/-- A node with its text normalized; blank raw text vanishes. -/
def Node.normalize : Node → List Node
  | .literal text => if Text.normalize text = "" then [] else [.literal (Text.normalize text)]
  | .token text => [.token (Text.normalize text)]
  | .element container children => [.element container (normalizeNodes children)]
  | .ruleRef uri => [.ruleRef uri]
  | .tag content => [.tag content]

/-- A list of nodes with their text normalized. -/
def normalizeNodes : List Node → List Node
  | [] => []
  | n :: ns => n.normalize ++ normalizeNodes ns

end

/-- A child of a grammar with its text normalized. -/
def Child.normalize : Child → List Child
  | .rule r => [.rule { r with body := normalizeNodes r.body }]
  | .node n => n.normalize.map Child.node

/-- The children of a grammar with their text normalized. -/
def normalizeChildren (children : List Child) : List Child := children.flatMap Child.normalize

/-! ## Tokenizing -/

mutual

/-- A node with its raw text split into tokens. -/
def Node.tokenize : Node → List Node
  | .literal text => (splitTokens text).map Node.token
  | .element container children => [.element container (tokenizeNodes children)]
  | .token text => [.token text]
  | .ruleRef uri => [.ruleRef uri]
  | .tag content => [.tag content]

/-- A list of nodes with their raw text split into tokens. -/
def tokenizeNodes : List Node → List Node
  | [] => []
  | n :: ns => n.tokenize ++ tokenizeNodes ns

end

/-- A child of a grammar with the raw text of its content split into tokens. -/
def Child.tokenize : Child → Child
  | .rule r => .rule { r with body := tokenizeNodes r.body }
  | .node (.element container children) => .node (.element container (tokenizeNodes children))
  | .node n => .node n

/-- The children of a grammar with the raw text of their content split into tokens. -/
def tokenizeChildren (children : List Child) : List Child := children.map Child.tokenize

end SpeechGrammar
