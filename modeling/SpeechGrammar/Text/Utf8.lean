set_option autoImplicit false

/-!
# Bytes of characters

The characters of a range are written in UTF-8 by a few sequences of byte ranges: a sequence
stands for the characters whose first byte is in its first range, whose second byte is in its
second range, and so on.
-/

namespace SpeechGrammar.Text

/-- The bytes of a text. -/
def utf8Bytes (cs : List Char) : List UInt8 := cs.flatMap String.utf8EncodeChar

/-- A sequence of byte ranges. -/
abbrev ByteRanges := List (UInt8 × UInt8)

/-- Where a range of code points has to be cut because a single sequence cannot write it: where
the number of bytes changes, and where a later byte would take some of its values only beside
some values of an earlier one. -/
def cutPoint? (first last : Nat) : Option Nat :=
  match [0x80, 0x800, 0x10000].find? fun n => first < n && n ≤ last with
  | some n => some n
  | none =>
      if last < 0x80 then none
      else
        [0x40, 0x1000, 0x40000].findSome? fun block =>
          if first / block = last / block then none
          else if first % block ≠ 0 then some ((first / block + 1) * block)
          else if last % block ≠ block - 1 then some (last / block * block)
          else none

/-- The parts of a range of code points that a single sequence can write. -/
def cutRange (first last : Nat) : List (Nat × Nat) :=
  match cutPoint? first last with
  | none => [(first, last)]
  | some n =>
      if first < n ∧ n ≤ last then cutRange first (n - 1) ++ cutRange n last
      else [(first, last)]
termination_by last - first
decreasing_by all_goals omega

/-- The sequences of byte ranges for a range of code points. Surrogates have none. -/
def byteRanges (first last : Nat) : List ByteRanges :=
  let parts :=
    if first ≤ 0xd7ff ∧ 0xe000 ≤ last then cutRange first 0xd7ff ++ cutRange 0xe000 last
    else cutRange first last
  parts.map fun (first, last) =>
    (String.utf8EncodeChar (Char.ofNat first)).zip (String.utf8EncodeChar (Char.ofNat last))

end SpeechGrammar.Text
