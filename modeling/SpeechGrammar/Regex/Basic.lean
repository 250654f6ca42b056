set_option autoImplicit false

/-!
# Regular expressions

The expressions are the ones that patterns are made of: characters, the class that holds no
character, the two ends of the text, groups, repetitions, sequences and choices. A sequence or
a choice has at least two parts. The depth of nesting bounds what is accepted as a pattern.
-/

namespace SpeechGrammar

/-- A regular expression. -/
inductive Regex where
  /-- The empty text. -/
  | empty
  /-- One character. -/
  | char (c : Char)
  /-- A class of characters without members. -/
  | never
  /-- The start of the text. -/
  | atStart
  /-- The end of the text. -/
  | atEnd
  | group (r : Regex)
  /-- At least `min` and, if bounded, at most `max` times. -/
  | repeated (r : Regex) (min : Nat) (max : Option Nat)
  | concat (rs : List Regex)
  | choice (rs : List Regex)
deriving Repr, Inhabited

namespace Regex

/-- A sequence of any length. -/
def concatOf : List Regex → Regex
  | [] => .empty
  | [r] => r
  | rs => .concat rs

/-- A choice between any number of expressions but zero. -/
def choiceOf : List Regex → Regex
  | [] => .empty
  | [r] => r
  | rs => .choice rs

mutual

/-- Apply a function to every character of an expression. -/
def mapChars (f : Char → Char) : Regex → Regex
  | .empty => .empty
  | .char c => .char (f c)
  | .never => .never
  | .atStart => .atStart
  | .atEnd => .atEnd
  | .group r => .group (r.mapChars f)
  | .repeated r min max => .repeated (r.mapChars f) min max
  | .concat rs => .concat (mapCharsAll f rs)
  | .choice rs => .choice (mapCharsAll f rs)

/-- Apply a function to every character of the expressions of a list. -/
def mapCharsAll (f : Char → Char) : List Regex → List Regex
  | [] => []
  | r :: rs => r.mapChars f :: mapCharsAll f rs

end

/-! ## Depth -/

mutual

/-- The depth of nesting: groups, repetitions, sequences, choices and classes on a path. -/
def depth : Regex → Nat
  | .empty | .char _ | .atStart | .atEnd => 0
  | .never => 1
  | .group r => r.depth + 1
  | .repeated r _ _ => r.depth + 1
  | .concat rs => depthAll rs + 1
  | .choice rs => depthAll rs + 1

/-- The greatest depth in a list of expressions. -/
def depthAll : List Regex → Nat
  | [] => 0
  | r :: rs => Nat.max r.depth (depthAll rs)

end

/-- The greatest depth of a pattern. -/
def maxDepth : Nat := 250

end Regex

end SpeechGrammar
