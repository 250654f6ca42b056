import SpeechGrammar.Regex.Basic
import SpeechGrammar.Text.Decimal

set_option autoImplicit false

/-!
# Reading the source of an expression

The source of an expression is cut into tokens, and the tokens are assembled with a stack of
open groups. The quantifiers bind tighter than sequence, and sequence tighter than choice.
-/

namespace SpeechGrammar.Regex

open SpeechGrammar.Text

/-! ## Tokens -/

/-- A token of a source. -/
inductive Token where
  | char (c : Char)
  | never
  | atStart
  | atEnd
  | openGroup
  | closeGroup
  | bar
  | quantifier (min : Nat) (max : Option Nat)
deriving Repr, DecidableEq

/-- The characters that have a meaning in a source and stand for themselves after a backslash. -/
def isMeta (c : Char) : Bool :=
  "\\.+*?()|[]\x7b\x7d^$#&-~".toList.contains c

/-- The source of a character that stands for itself. -/
def escapeChar (c : Char) : List Char := if isMeta c then ['\\', c] else [c]

/-- The source of a text in which every character stands for itself. -/
def escape (cs : List Char) : List Char := cs.flatMap escapeChar

/-- The source of the class without members: everything but the whole range of characters. -/
def neverSource : List Char := "[^\\x00-\\x\x7b10FFFF\x7d]".toList

/-- The bounds between the braces of a counted quantifier. -/
def readBounds? (cs : List Char) : Option (Nat × Option Nat) :=
  match cs.splitOn ',' with
  | [count] => (readDigits? 10 count).map (fun n => (n, some n))
  | [min, max] =>
      (readDigits? 10 min).bind fun m =>
        if max.isEmpty then some (m, none)
        else (readDigits? 10 max).bind fun n => if m ≤ n then some (m, some n) else none
  | _ => none

/-- The token at the start of a source, and the number of characters that follow its first. -/
def tokenAt? (c : Char) (cs : List Char) : Option (Token × Nat) :=
  match c with
  | '\\' =>
      match cs with
      | [] => none
      | d :: _ => if isMeta d then some (.char d, 1) else none
  | '(' => if ['?', ':'].isPrefixOf cs then some (.openGroup, 2) else none
  | ')' => some (.closeGroup, 0)
  | '|' => some (.bar, 0)
  | '^' => some (.atStart, 0)
  | '$' => some (.atEnd, 0)
  | '?' => some (.quantifier 0 (some 1), 0)
  | '*' => some (.quantifier 0 none, 0)
  | '+' => some (.quantifier 1 none, 0)
  | '\x7b' =>
      let body := cs.takeWhile (· != '\x7d')
      if body.length = cs.length then none
      else (readBounds? body).map fun (min, max) => (.quantifier min max, body.length + 1)
  | '[' =>
      if neverSource.isPrefixOf (c :: cs) then some (.never, neverSource.length - 1) else none
  | '.' => none
  | c => some (.char c, 0)

/-- The tokens of a source after its first `skip` characters. -/
def tokensFrom? : (skip : Nat) → List Char → Option (List Token)
  | _, [] => some []
  | skip + 1, _ :: cs => tokensFrom? skip cs
  | 0, c :: cs =>
      match tokenAt? c cs with
      | none => none
      | some (token, skip) => (tokensFrom? skip cs).map (token :: ·)

/-- The tokens of a source. -/
def tokens? (cs : List Char) : Option (List Token) := tokensFrom? 0 cs

/-! ## Assembly -/

/-- An open group: its finished branches and the parts of the current one, latest first. -/
structure OpenGroup where
  branches : List Regex := []
  parts : List Regex := []

/-- The expression in a group that ends. -/
def OpenGroup.close (g : OpenGroup) : Regex :=
  choiceOf ((concatOf g.parts.reverse :: g.branches).reverse)

/-- Add a part to the current branch of a group. -/
def OpenGroup.push (g : OpenGroup) (r : Regex) : OpenGroup := { g with parts := r :: g.parts }

/-- Take one token into account; the open groups stand innermost first. -/
def assemble : List OpenGroup → Token → Option (List OpenGroup)
  | [], _ => none
  | g :: outer, .char c => some (g.push (.char c) :: outer)
  | g :: outer, .never => some (g.push .never :: outer)
  | g :: outer, .atStart => some (g.push .atStart :: outer)
  | g :: outer, .atEnd => some (g.push .atEnd :: outer)
  | g :: outer, .openGroup => some ({} :: g :: outer)
  | [_], .closeGroup => none
  | g :: h :: outer, .closeGroup => some (h.push (.group g.close) :: outer)
  | g :: outer, .bar => some (⟨concatOf g.parts.reverse :: g.branches, []⟩ :: outer)
  | g :: outer, .quantifier min max =>
      match g.parts with
      | [] => none
      | r :: parts => some ({ g with parts := .repeated r min max :: parts } :: outer)

/-- The expression that a list of tokens writes. -/
def ofTokens? (tokens : List Token) : Option Regex :=
  match tokens.foldlM assemble [{}] with
  | some [g] => some g.close
  | _ => none

/-- The expression that a source writes. -/
def ofSource? (source : List Char) : Option Regex := (tokens? source).bind ofTokens?

end SpeechGrammar.Regex
