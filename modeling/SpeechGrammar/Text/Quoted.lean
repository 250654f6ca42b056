import SpeechGrammar.Text.GraphemeExtend
import SpeechGrammar.Text.Unprintable

set_option autoImplicit false

/-!
# Quoted text in messages

A message shows a value between double quotes. The quote, the backslash and the usual controls
have short escapes; every other character that cannot be seen on its own is written by its code
point in lower-case hexadecimal.
-/

namespace SpeechGrammar.Text

/-- The point lies in one of the ranges. -/
def inRanges (ranges : List (Nat × Nat)) (n : Nat) : Bool :=
  ranges.any (fun r => r.1 ≤ n && n ≤ r.2)

/-- The character cannot be seen on its own. -/
def isHidden (c : Char) : Bool :=
  if 0x20 ≤ c.toNat ∧ c.toNat < 0x7f then false
  else inRanges graphemeExtendRanges c.toNat || inRanges unprintableRanges c.toNat

/-- The escape of a character by its code point. -/
def codePointEscape (c : Char) : List Char :=
  ['\\', 'u', '\x7b'] ++ Nat.toDigits 16 c.toNat ++ ['\x7d']

/-- One character of a quoted text. -/
def quoteChar (c : Char) : List Char :=
  match c with
  | '"' => ['\\', '"']
  | '\\' => ['\\', '\\']
  | '\n' => ['\\', 'n']
  | '\r' => ['\\', 'r']
  | '\t' => ['\\', 't']
  | '\x00' => ['\\', '0']
  | c => if isHidden c then codePointEscape c else [c]

/-- The text between double quotes. -/
def quoted (s : String) : String :=
  String.ofList ('"' :: (s.toList.flatMap quoteChar ++ ['"']))

end SpeechGrammar.Text
