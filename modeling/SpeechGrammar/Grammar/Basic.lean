import SpeechGrammar.Grammar.Reference
import SpeechGrammar.Grammar.TextPass

set_option autoImplicit false

/-!
# Grammars

A grammar has attributes and children. Children are appended through a guard: only rules, tags,
raw text and foreign elements may stand directly in a grammar. An operation that fails returns
no grammar, so the one it was applied to stays as it was.
-/

namespace SpeechGrammar

/-- A grammar: its attributes and what stands in it. -/
structure Grammar where
  mode : Option Mode := none
  language : Option String := none
  baseUri : Option String := none
  root : Option String := none
  tagFormat : Option String := none
  children : List Child := []
deriving Repr, DecidableEq, Inhabited

namespace Grammar

/-! ## Content -/

/-- The rules of a grammar, in order. -/
def rules (g : Grammar) : List Rule := rulesOf g.children

/-- The content of the tags that stand directly in a grammar, in order. -/
def tags (g : Grammar) : List String := g.children.filterMap Child.tag?

/-- The first rule with the id. -/
def rule? (g : Grammar) (id : String) : Option Rule := findRule? g.rules id

/-- The rule that the root id names. -/
def rootRule? (g : Grammar) : Option Rule := g.root.bind g.rule?

/-- No root is declared, or the declared one exists. -/
def hasMatchingRoot (g : Grammar) : Bool := g.root.isNone || g.rootRule?.isSome

/-- The grammar, unless it declares a root that does not exist. -/
def requireRoot (g : Grammar) : Except Error Grammar :=
  match g.root, g.rootRule? with
  | some root, none => .error (.missingRootRule root)
  | _, _ => .ok g

/-- The grammar describes keys. -/
def isDtmf (g : Grammar) : Bool := g.mode == some .dtmf

/-- The grammar describes spoken words. -/
def isVoice (g : Grammar) : Bool := g.mode == some .voice

/-- Two grammars have the same identity: language, base URI, mode and root. Their content does
not take part. -/
def sameIdentity (g h : Grammar) : Bool :=
  g.language == h.language && g.baseUri == h.baseUri && g.mode == h.mode && g.root == h.root

/-! ## Building -/

/-- The child may stand directly in a grammar. -/
def admits : Child → Bool
  | .rule _ => true
  | .node (.tag _) => true
  | .node (.literal _) => true
  | .node (.element (.foreign _ _) _) => true
  | .node _ => false

/-- Add a rule. A rule may always stand in a grammar. -/
def addRule (g : Grammar) (rule : Rule) : Grammar :=
  { g with children := g.children ++ [.rule rule] }

/-- Append a child if it may stand in a grammar. -/
def append (g : Grammar) (child : Child) : Except Error Grammar :=
  if admits child then .ok { g with children := g.children ++ [child] }
  else .error (.invalidChild (.topLevel child.kind))

/-- Append children one after the other, up to the first that may not stand in a grammar. -/
def appendAll (g : Grammar) (children : List Child) : Except Error Grammar :=
  children.foldlM append g

/-- Append the content of another grammar, which must have the same mode. -/
def embed (g other : Grammar) : Except Error Grammar :=
  if other.mode = g.mode then g.appendAll other.children
  else .error (.modeMismatch g.mode other.mode)

/-- Set the mode by its written form. -/
def setModeName (g : Grammar) (name : String) : Except Error Grammar :=
  match Mode.ofName? name with
  | none => .error (.invalidAttribute "grammar" "mode" name)
  | some mode => .ok { g with mode := some mode }

/-! ## Passes -/

/-- Inline every reference of the root rule and drop every other rule. -/
def inlined (g : Grammar) : Except Error Grammar :=
  (inlineChildren g.root g.children).map fun children => { g with children := children }

/-- Normalize all text. -/
def normalized (g : Grammar) : Grammar := { g with children := normalizeChildren g.children }

/-- Split the raw text of the rules into tokens. -/
def tokenized (g : Grammar) : Grammar := { g with children := tokenizeChildren g.children }

end Grammar

end SpeechGrammar
