import SpeechGrammar.Grammar.Error
import SpeechGrammar.Grammar.Node
import SpeechGrammar.Regex.Source
import SpeechGrammar.Text.Phrases

set_option autoImplicit false

/-!
# Pattern fragments

Each node of a rule contributes a fragment to the source of the pattern of the rule. Spoken
words are written with a space before each, keys with nothing between them; an utterance is
brought into the same form before it is matched.
-/

namespace SpeechGrammar

open SpeechGrammar.Text

/-- How the words of an utterance are written. -/
inductive Separator where
  /-- A space before each word. -/
  | space
  /-- Nothing between the words. -/
  | adjacent
deriving Repr, DecidableEq

/-- Keys are pressed one after the other; anything else is spoken. -/
def Separator.ofMode : Option Mode → Separator
  | some .dtmf => .adjacent
  | _ => .space

/-- What stands before each word. -/
def Separator.lead : Separator → List Char
  | .space => [' ']
  | .adjacent => []

/-- The form of an utterance that patterns are matched against. -/
def canonicalChars (sep : Separator) (cs : List Char) : List Char :=
  (words cs).flatMap (sep.lead ++ ·)

/-- The form of an utterance that patterns are matched against. -/
def canonicalize (sep : Separator) (utterance : String) : String :=
  String.ofList (canonicalChars sep utterance.toList)

/-! ## Fragments -/

/-- The fragment of a text that is matched word by word. -/
def wordFragment (sep : Separator) (cs : List Char) : List Char :=
  (words cs).flatMap (fun word => sep.lead ++ Regex.escape word)

/-- The quantifier for a repeat count. -/
def Repeat.quantifier (r : Repeat) : List Char :=
  let count (n : UInt32) : List Char := (toString n.toNat).toList
  match r.max with
  | none =>
      if r.min = 0 then ['*']
      else if r.min = 1 then ['+']
      else '\x7b' :: (count r.min ++ [',', '\x7d'])
  | some max =>
      if r.min = 0 ∧ max = 1 then ['?']
      else if r.min = max then '\x7b' :: (count r.min ++ ['\x7d'])
      else '\x7b' :: (count r.min ++ ',' :: (count max ++ ['\x7d']))

/-- The source of a group. -/
def groupSource (inner : List Char) : List Char := '(' :: '?' :: ':' :: (inner ++ [')'])

/-- The fragment of an item: its content, repeated if there is something to repeat. -/
def itemFragment (occurs : Option Repeat) (inner : List Char) : List Char :=
  match occurs with
  | none => inner
  | some r => if inner.isEmpty then [] else groupSource inner ++ r.quantifier

/-- The fragment of a choice; one without alternatives matches nothing. -/
def choiceFragment (alternatives : List (List Char)) : List Char :=
  if alternatives.isEmpty then Regex.neverSource
  else groupSource (['|'].intercalate alternatives)

mutual

/-- The fragment of a node. A reference has none. -/
def Node.fragment (sep : Separator) : Node → Except Error (List Char)
  | .literal text => .ok ((tokenChars text.toList).flatMap (wordFragment sep))
  | .token text => .ok (wordFragment sep text.toList)
  | .ruleRef uri => .error (.uninlinedReference uri)
  | .tag _ => .ok []
  | .element (.item occurs) children =>
      (sequenceFragment sep children).map (itemFragment occurs)
  | .element .oneOf children => (alternativeFragments sep children).map choiceFragment
  | .element (.foreign _ _) children => sequenceFragment sep children

/-- The fragment of a list of nodes in sequence. -/
def sequenceFragment (sep : Separator) : List Node → Except Error (List Char)
  | [] => .ok []
  | n :: ns => (n.fragment sep).bind fun first => (sequenceFragment sep ns).map (first ++ ·)

/-- The fragments of the nodes to choose from; tags are not among them. -/
def alternativeFragments (sep : Separator) : List Node → Except Error (List (List Char))
  | [] => .ok []
  | .tag _ :: ns => alternativeFragments sep ns
  | n :: ns => (n.fragment sep).bind fun first => (alternativeFragments sep ns).map (first :: ·)

end

/-- The fragment of the body of a rule. -/
def Rule.fragment (sep : Separator) (rule : Rule) : Except Error (List Char) :=
  sequenceFragment sep rule.body

end SpeechGrammar
