import SpeechGrammar.Regex.Basic

set_option autoImplicit false

/-!
# Matching a text

An expression is matched from its end: given, for each position of the text, a set of goals that
can be reached from there, `reach` computes the goals that can be reached by first matching the
expression. Goals are the bits of a number and positions are the places of a list, one more than
the text has characters. A choice unites the goals, a sequence works from its last part to its
first, and an unbounded repetition goes through the positions once from the right, with the
positions where its part can end as goals.
-/

namespace SpeechGrammar.Regex

/-! ## Goals -/

/-- Unite the goals at each position. -/
def unite : List Nat → List Nat → List Nat
  | g :: goals, h :: more => (g ||| h) :: unite goals more
  | _, _ => []

/-- Goals that are reached by a character of the text that has the property. -/
def afterChar (p : Char → Bool) : (text : List Char) → (goals : List Nat) → List Nat
  | [], _ => [0]
  | a :: text, goals =>
      (if p a then goals.tail.headD 0 else 0) :: afterChar p text goals.tail

/-- Keep the goals at the first position only. -/
def atFirst : List Nat → List Nat
  | [] => []
  | g :: goals => g :: goals.map (fun _ => 0)

/-- Keep the goals at the last position only. -/
def atLast : List Nat → List Nat
  | [] => []
  | [g] => [g]
  | _ :: goals => 0 :: atLast goals

/-- The bit for each of the positions from `start` on. -/
def ownBits : (start : Nat) → (text : List Char) → List Nat
  | start, [] => [1 <<< start]
  | start, _ :: text => (1 <<< start) :: ownBits (start + 1) text

/-- Unite the goals at the positions whose bits are set. -/
def gather : (bits : Nat) → (goals : List Nat) → Nat
  | _, [] => 0
  | bits, g :: goals =>
      if bits = 0 then 0
      else (if bits % 2 = 1 then g else 0) ||| gather (bits / 2) goals

/-- The goals that are reached by going on any number of times. The bits of `ends` at a position
are the positions where one more time can end; the first position is `start`. -/
def afterAny : (start : Nat) → (ends goals : List Nat) → List Nat
  | start, e :: ends, g :: goals =>
      let later := afterAny (start + 1) ends goals
      (g ||| gather (e >>> (start + 1)) later) :: later
  | _, _, _ => []

/-- Apply a function a number of times, or until it changes nothing. -/
def iterate (f : List Nat → List Nat) : Nat → List Nat → List Nat
  | 0, goals => goals
  | n + 1, goals =>
      let next := f goals
      if next = goals then goals else iterate f n next

/-! ## Matching -/

mutual

/-- The goals that are reached, from each position of the text, by matching the expression and
then going on. -/
def reach (text : List Char) : Regex → (goals : List Nat) → List Nat
  | .empty, goals => goals
  | .char c, goals => afterChar (· == c) text goals
  | .never, goals => goals.map (fun _ => 0)
  | .atStart, goals => atFirst goals
  | .atEnd, goals => atLast goals
  | .group r, goals => reach text r goals
  | .repeated r min max, goals =>
      -- The times that have to come stand first in the text, so they are applied last.
      let rest :=
        match max with
        | none => afterAny 0 (reach text r (ownBits 0 text)) goals
        | some m => iterate (fun reached => unite goals (reach text r reached)) (m - min) goals
      iterate (reach text r) min rest
  | .concat rs, goals => reachAll text rs goals
  | .choice rs, goals => reachAny text rs goals

/-- The goals that are reached by matching the expressions of a list in turn. -/
def reachAll (text : List Char) : List Regex → (goals : List Nat) → List Nat
  | [], goals => goals
  | r :: rs, goals => reach text r (reachAll text rs goals)

/-- The goals that are reached by matching one of the expressions of a list. -/
def reachAny (text : List Char) : List Regex → (goals : List Nat) → List Nat
  | [], goals => goals.map (fun _ => 0)
  | r :: rs, goals => unite (reach text r goals) (reachAny text rs goals)

end

/-- The expression matches somewhere in the text. -/
def isMatch (r : Regex) (text : List Char) : Bool :=
  (reach text r (1 :: text.map (fun _ => 1))).any (· != 0)

end SpeechGrammar.Regex
