import SpeechGrammar.Text.Decimal

set_option autoImplicit false

/-!
# Entities

Five characters have named entities, and every character but the null has numeric ones. The
writer replaces the five characters by their entities; the reader replaces every entity by its
character and refuses anything else that starts with an ampersand.
-/

namespace SpeechGrammar.Markup

open SpeechGrammar.Text

/-! ## Writing -/

/-- The written form of a character in text and in attribute values. -/
def escapeChar (c : Char) : List Char :=
  match c with
  | '<' => "&lt;".toList
  | '>' => "&gt;".toList
  | '&' => "&amp;".toList
  | '\x27' => "&apos;".toList
  | '"' => "&quot;".toList
  | c => [c]

/-- The written form of a text. -/
def escape (cs : List Char) : List Char := cs.flatMap escapeChar

/-! ## Reading -/

/-- The character with a code point, if there is one other than the null. -/
def charOfCode? (n : Nat) : Option Char :=
  if n ≠ 0 ∧ n.isValidChar then some (Char.ofNat n) else none

/-- The character that stands for the name between the ampersand and the semicolon. -/
def entity? (name : List Char) : Option Char :=
  match name with
  | '#' :: 'x' :: digits => (readDigits? 16 digits).bind charOfCode?
  | '#' :: digits => (readDigits? 10 digits).bind charOfCode?
  | name =>
      if name = "lt".toList then some '<'
      else if name = "gt".toList then some '>'
      else if name = "amp".toList then some '&'
      else if name = "apos".toList then some '\x27'
      else if name = "quot".toList then some '"'
      else none

/-- What follows an ampersand, up to the next one: a name, a semicolon, and plain text. -/
def afterAmpersand? (cs : List Char) : Option (List Char) :=
  match cs.dropWhile (· != ';') with
  | [] => none
  | _ :: rest => (entity? (cs.takeWhile (· != ';'))).map (· :: rest)

/-- The text with every entity replaced, if every ampersand starts one. -/
def unescape? (cs : List Char) : Option (List Char) :=
  match cs.splitOn '&' with
  | [] => some []
  | plain :: pieces => (pieces.mapM afterAmpersand?).map (fun ps => plain ++ ps.flatten)

end SpeechGrammar.Markup
