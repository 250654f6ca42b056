import SpeechGrammar.Text.Blank
import SpeechGrammar.Text.Decimal

set_option autoImplicit false

/-!
# Repeat counts

How often an item occurs: a least number and, unless it is unbounded, a greatest number. The
written forms are `n` for exactly, `n-m` for between, and `n-` for at least.
-/

namespace SpeechGrammar

open SpeechGrammar.Text

/-- The bounds on the occurrences of an item. Without `max` they are unbounded. -/
structure Repeat where
  min : UInt32
  max : Option UInt32
deriving Repr, DecidableEq

/-- The greatest number is not below the least one. -/
def Repeat.isOrdered (r : Repeat) : Bool := r.max.all (r.min ≤ ·)

/-- A number of a repeat count, which may stand between blanks. -/
def readCount? (cs : List Char) : Option UInt32 := readWord32? (trim cs)

/-- The bounds written before and after a dash. Nothing at all after the dash leaves them
unbounded. -/
def Repeat.ofParts? (first last : List Char) : Option Repeat :=
  match readCount? first with
  | none => none
  | some min =>
      if last.isEmpty then some ⟨min, none⟩
      else (readCount? last).map (fun max => ⟨min, some max⟩)

/-- The repeat count that a text writes, whatever the order of its bounds. -/
def Repeat.ofForm? (cs : List Char) : Option Repeat :=
  match cs.dropWhile (· != '-') with
  | [] => (readCount? cs).map (fun n => ⟨n, some n⟩)
  | _ :: last => Repeat.ofParts? (cs.takeWhile (· != '-')) last

/-- The repeat count that a text writes, if its bounds are in order. -/
def Repeat.parse? (s : String) : Option Repeat :=
  (Repeat.ofForm? s.toList).filter Repeat.isOrdered

/-- The shortest written form of a repeat count. -/
def Repeat.render (r : Repeat) : String :=
  match r.max with
  | none => toString r.min.toNat ++ "-"
  | some max =>
      if max = r.min then toString r.min.toNat
      else toString r.min.toNat ++ "-" ++ toString max.toNat

end SpeechGrammar
