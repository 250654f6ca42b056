import SpeechGrammar.Regex.Basic

set_option autoImplicit false

/-!
# Simplified expressions

Before an automaton is built, an expression is simplified: groups disappear, adjacent characters
join into a literal, a choice between single characters becomes a class, what the branches of a
choice begin with in common is written once, and repeating what can only be empty comes to
nothing. Only the size of the automaton depends on it. The rules are those that the expression
library applies before it counts the size, so close to the limit the size (`automatonSize`) may
differ from the library's own.
-/

namespace SpeechGrammar.Regex

/-- A simplified expression. -/
inductive Simplified where
  | empty
  /-- A text that is not empty. -/
  | literal (text : List Char)
  /-- A class: its code points as closed ranges in ascending order that do not touch. -/
  | oneOf (ranges : List (Nat × Nat))
  | atStart
  | atEnd
  | repeated (r : Simplified) (min : Nat) (max : Option Nat)
  | concat (rs : List Simplified)
  | choice (rs : List Simplified)
deriving Inhabited

namespace Simplified

/-! ## Equality -/

mutual

/-- Two expressions are written in the same way. -/
def sameAs : Simplified → Simplified → Bool
  | .empty, .empty => true
  | .literal text, .literal text' => text == text'
  | .oneOf ranges, .oneOf ranges' => ranges == ranges'
  | .atStart, .atStart => true
  | .atEnd, .atEnd => true
  | .repeated r min max, .repeated r' min' max' => r.sameAs r' && min == min' && max == max'
  | .concat rs, .concat rs' => sameAll rs rs'
  | .choice rs, .choice rs' => sameAll rs rs'
  | _, _ => false

/-- Two lists of expressions are written in the same way. -/
def sameAll : List Simplified → List Simplified → Bool
  | [], [] => true
  | r :: rs, r' :: rs' => r.sameAs r' && sameAll rs rs'
  | _, _ => false

end

/-! ## Lengths -/

mutual

/-- No text but the empty one can be matched. -/
def isVoid : Simplified → Bool
  | .empty | .atStart | .atEnd => true
  | .literal _ | .oneOf _ => false
  | .repeated r _ _ => r.isVoid
  | .concat rs => allVoid rs
  | .choice rs => allVoid rs

/-- No text but the empty one can be matched by any expression of a list. -/
def allVoid : List Simplified → Bool
  | [] => true
  | r :: rs => r.isVoid && allVoid rs

end

mutual

/-- The least length of a text that is matched. It is not known if an empty class occurs. -/
def minLength? : Simplified → Option Nat
  | .empty | .atStart | .atEnd => some 0
  | .literal text => some text.length
  | .oneOf ranges => if ranges.isEmpty then none else some 1
  | .repeated r min _ => r.minLength?.map (min * ·)
  | .concat rs => (minLengths? rs).map (·.foldl (· + ·) 0)
  | .choice rs => (minLengths? rs).map fun lengths => lengths.foldl Nat.min (lengths.headD 0)

/-- The least lengths for the expressions of a list. -/
def minLengths? : List Simplified → Option (List Nat)
  | [] => some []
  | r :: rs => r.minLength?.bind fun length => (minLengths? rs).map (length :: ·)

end

/-! ## Classes -/

/-- The code point of the next character. -/
def nextPoint (n : Nat) : Nat := if n = 0xd7ff then 0xe000 else n + 1

/-- Join a range with the ranges behind it that it touches, which start in ascending order. -/
def joinRanges (range : Nat × Nat) : List (Nat × Nat) → List (Nat × Nat)
  | [] => [range]
  | next :: rest =>
      if next.1 ≤ nextPoint range.2 then joinRanges (range.1, Nat.max range.2 next.2) rest
      else range :: joinRanges next rest

/-- The class of the characters in some ranges; a single one is a literal. -/
def classOf (ranges : List (Nat × Nat)) : Simplified :=
  match ranges.mergeSort fun r s => r.1 ≤ s.1 with
  | [] => .oneOf []
  | range :: rest =>
      match joinRanges range rest with
      | [(first, last)] =>
          if first = last then .literal [Char.ofNat first] else .oneOf [(first, last)]
      | joined => .oneOf joined

/-- The character that an expression consists of. -/
def char? : Simplified → Option Char
  | .literal [c] => some c
  | _ => none

/-- The ranges of an expression that is a class. -/
def ranges? : Simplified → Option (List (Nat × Nat))
  | .oneOf ranges => some ranges
  | _ => none

/-! ## Repetitions, sequences and choices -/

/-- A repetition. What can only be empty is repeated once at most. -/
def repeatOf (r : Simplified) (min : Nat) (max : Option Nat) : Simplified :=
  let min := if r.isVoid then Nat.min min 1 else min
  let max := if r.isVoid then some (Nat.min (max.getD 1) 1) else max
  if min = 0 ∧ max = some 0 then .empty
  else if min = 1 ∧ max = some 1 then r
  else .repeated r min max

/-- The parts that an expression contributes to a sequence. -/
def parts : Simplified → List Simplified
  | .empty => []
  | .concat rs => rs
  | r => [r]

/-- Put an expression in front of a sequence, joining two literals. -/
def prepend (r : Simplified) (rs : List Simplified) : List Simplified :=
  match r, rs with
  | .literal text, .literal text' :: rest => .literal (text ++ text') :: rest
  | r, rs => r :: rs

/-- A sequence. -/
def concatOf (rs : List Simplified) : Simplified :=
  match (rs.flatMap parts).foldr prepend [] with
  | [] => .empty
  | [r] => r
  | rs => .concat rs

/-- The branches that an expression contributes to a choice. -/
def branches : Simplified → List Simplified
  | .choice rs => rs
  | r => [r]

/-- A choice between branches, none of which is a choice. Characters and classes are united. -/
def unite (rs : List Simplified) : Simplified :=
  match rs with
  | [] => .oneOf []
  | [r] => r
  | rs =>
      match rs.mapM char? with
      | some cs => classOf (cs.map fun c => (c.toNat, c.toNat))
      | none =>
          match rs.mapM ranges? with
          | some ranges => classOf ranges.flatten
          | none => .choice rs

/-- The parts of an expression that is a sequence. -/
def sequence? : Simplified → Option (List Simplified)
  | .concat rs => some rs
  | _ => none

/-- The number of parts that two sequences begin with in common. -/
def commonLength : List Simplified → List Simplified → Nat
  | r :: rs, s :: ss => if r.sameAs s then commonLength rs ss + 1 else 0
  | _, _ => 0

/-- Write what all branches begin with in common once, if all of them are sequences. -/
def factor (rs : List Simplified) : Simplified :=
  match rs.mapM sequence? with
  | some (first :: rest) =>
      let common := rest.foldl (fun n s => Nat.min n (commonLength first s)) first.length
      if common = 0 then .choice rs
      else
        let tails := ((first :: rest).map fun s => concatOf (s.drop common)).flatMap branches
        concatOf (first.take common ++ [unite tails])
  | _ => .choice rs

/-- A choice. -/
def choiceOf (rs : List Simplified) : Simplified :=
  match unite (rs.flatMap branches) with
  | .choice rs => factor rs
  | r => r

end Simplified

/-! ## Simplifying -/

mutual

/-- Simplify an expression in which a character stands for each of its variants. -/
def simplify (variants : Char → List Char) : Regex → Simplified
  | .empty => .empty
  | .char c => .classOf ((variants c).map fun d => (d.toNat, d.toNat))
  | .never => .oneOf []
  | .atStart => .atStart
  | .atEnd => .atEnd
  | .group r => r.simplify variants
  | .repeated r min max => .repeatOf (r.simplify variants) min max
  | .concat rs => .concatOf (simplifyAll variants rs)
  | .choice rs => .choiceOf (simplifyAll variants rs)

/-- Simplify the expressions of a list. -/
def simplifyAll (variants : Char → List Char) : List Regex → List Simplified
  | [] => []
  | r :: rs => r.simplify variants :: simplifyAll variants rs

end

end SpeechGrammar.Regex
