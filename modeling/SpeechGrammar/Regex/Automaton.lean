import SpeechGrammar.Regex.Simplified
import SpeechGrammar.Text.Utf8

set_option autoImplicit false

/-!
# Size of automata

The texts of an expression are read byte by byte by an automaton, forwards or backwards. Its
size is counted in bytes: each state has a fixed size, and a state that goes on in one of
several ways takes more for each of them. What is repeated a number of times is written out as
often.

The count follows the account that the expression library keeps of its own automata. It is not a
count of what an automaton has to have, and where an expression comes close to the limit
(`maxAutomatonSize`), the two may differ.
-/

namespace SpeechGrammar.Regex

open SpeechGrammar.Text

/-- The size of a state. -/
def stateSize : Nat := 32

/-- The size of a state that reads a byte in one of a number of ranges. -/
def readingSize (ranges : Nat) : Nat := stateSize + 8 * ranges

/-- The size of a state that goes on to one of a number of states. -/
def branchingSize (branches : Nat) : Nat := stateSize + 4 * branches

/-- The total of a measure over a list. -/
def total {α : Type} (size : α → Nat) (xs : List α) : Nat := xs.foldl (fun n x => n + size x) 0

/-! ## Literals to choose from -/

/-- The words of a list grouped by their first letters; within a group they stay in order. -/
def groupByHead (words : List (List UInt8)) : List (List (List UInt8)) :=
  (words.mergeSort fun v w => v.headD 0 ≤ w.headD 0).splitBy fun v w => v.head? == w.head?

/-- The size of the states behind a point that some words go through, each word given by what
is left of it, in order of preference. A word that ends keeps the later words apart from the
earlier ones, and nothing follows where all words end. No word is longer than `depth`. -/
def trieSize : (depth : Nat) → (words : List (List UInt8)) → Nat
  | 0, _ => 0
  | depth + 1, words =>
      let later := words.dropWhile List.isEmpty
      if later.isEmpty then 0
      else
        let ends := (if later.length < words.length then 1 else 0) + later.countP List.isEmpty
        let runs := (later.splitBy fun v w => v.isEmpty == w.isEmpty).filter fun run =>
          !(run.headD []).isEmpty
        let runSize (run : List (List UInt8)) : Nat :=
          let groups := groupByHead run
          (if groups.length = 1 then stateSize else readingSize groups.length) +
            total (fun group => trieSize depth (group.map List.tail)) groups
        branchingSize (runs.length + ends) + total runSize runs

/-- The size for a choice between literals. -/
def literalsSize (words : List (List UInt8)) : Nat :=
  let depth := words.foldl (fun n word => Nat.max n word.length) 0
  stateSize + trieSize (depth + 1) words

/-! ## Classes -/

/-- Sequences grouped by their first ranges. -/
def groupByRange (seqs : List ByteRanges) : List (List ByteRanges) :=
  seqs.splitBy fun s t => s.head? == t.head?

/-- The number of beginnings that some sequences have, the empty one apart. -/
def countPrefixes : (depth : Nat) → (seqs : List ByteRanges) → Nat
  | 0, _ => 0
  | depth + 1, seqs =>
      total (fun group => 1 + countPrefixes depth (group.map List.tail))
        (groupByRange (seqs.filter (!·.isEmpty)))

/-- The points that sequences go through, each given by what is left of the sequences there. -/
def readingPoints : (depth : Nat) → (seqs : List ByteRanges) → List (List ByteRanges)
  | 0, _ => []
  | depth + 1, seqs =>
      if seqs.all List.isEmpty then []
      else seqs :: (groupByRange seqs).flatMap fun group => readingPoints depth (group.map List.tail)

/-- The size for a class of characters. One of single bytes takes a state for all of them. For
others, sequences share their beginnings where they are read backwards, and the points from
which the same is left where they are read forwards. -/
def classSize (backwards : Bool) (ranges : List (Nat × Nat)) : Nat :=
  if ranges.all (·.2 < 0x80) then stateSize + readingSize ranges.length
  else
    let seqs := ranges.flatMap fun (first, last) => byteRanges first last
    if backwards then branchingSize seqs.length + stateSize + stateSize * countPrefixes 4 seqs
    else
      stateSize +
        total (fun point => readingSize (groupByRange point).length) (readingPoints 4 seqs).eraseDups

/-! ## Expressions -/

namespace Simplified

/-- The text of a literal. -/
def text? : Simplified → Option (List Char)
  | .literal text => some text
  | _ => none

mutual

/-- The size of the states for an expression. -/
def size (backwards : Bool) : Simplified → Nat
  | .empty | .atStart | .atEnd => stateSize
  | .literal text => stateSize * (utf8Bytes text).length
  | .oneOf ranges => classSize backwards ranges
  | .repeated r min none =>
      let once := r.size backwards
      -- A loop around what can be empty is entered through a state of its own.
      if 0 < min then min * once + branchingSize 2
      else if r.minLength?.any (0 < ·) then once + branchingSize 2
      else once + 2 * branchingSize 2 + stateSize
  | .repeated r min (some max) =>
      let once := r.size backwards
      let required := if min = 0 then stateSize else min * once
      -- Each time that need not come can be passed over.
      if min = max then required
      else if min = 0 ∧ max = 1 then once + branchingSize 2 + stateSize
      else required + stateSize + (max - min) * (once + branchingSize 2)
  | .concat rs => sizeAll backwards rs
  | .choice rs =>
      match rs.mapM text? with
      | some texts =>
          literalsSize (texts.map fun text =>
            if backwards then (utf8Bytes text).reverse else utf8Bytes text)
      | none => sizeAll backwards rs + branchingSize rs.length + stateSize

/-- The size of the states for the expressions of a list. -/
def sizeAll (backwards : Bool) : List Simplified → Nat
  | [] => 0
  | r :: rs => r.size backwards + sizeAll backwards rs

end

/-- The size of the larger one of the two automata of an expression. Forwards there are a first
state, a last one, and one at either end of the match; backwards there are the first two. -/
def automatonSize (r : Simplified) : Nat :=
  Nat.max (4 * stateSize + r.size false) (2 * stateSize + r.size true)

end Simplified

/-- The greatest size of an automaton: ten mebibytes. -/
def maxAutomatonSize : Nat := 10 * 1024 * 1024

end SpeechGrammar.Regex
