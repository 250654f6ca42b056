set_option autoImplicit false

/-!
# Reading whole numbers

A number is written as a non-empty run of digits of its base. The words of 32 bits are read
with an optional plus sign and must not overflow.
-/

namespace SpeechGrammar.Text

/-- The value of a digit in a base of at most sixteen. -/
def digitValue? (base : Nat) (c : Char) : Option Nat :=
  let value :=
    if '0' ≤ c ∧ c ≤ '9' then some (c.toNat - '0'.toNat)
    else if 'a' ≤ c ∧ c ≤ 'f' then some (c.toNat - 'a'.toNat + 10)
    else if 'A' ≤ c ∧ c ≤ 'F' then some (c.toNat - 'A'.toNat + 10)
    else none
  value.filter (· < base)

/-- The number written by a non-empty run of digits. -/
def readDigits? (base : Nat) (cs : List Char) : Option Nat :=
  if cs.isEmpty then none
  else cs.foldlM (fun n c => (digitValue? base c).map (n * base + ·)) 0

/-- The number written by decimal digits after an optional plus sign, if it fits 32 bits. -/
def readWord32? (cs : List Char) : Option UInt32 :=
  let digits := match cs with
    | '+' :: rest => rest
    | _ => cs
  match readDigits? 10 digits with
  | none => none
  | some n => if n < UInt32.size then some (UInt32.ofNat n) else none

end SpeechGrammar.Text
