import SpeechGrammar.Yaml.Cursor
import SpeechGrammar.Yaml.Token

set_option autoImplicit false

/-!
# Scalars

A scalar is written plainly, in quotes, or as a block of lines. A single line break inside a
scalar is folded into a space, except in the lines of a literal block, and of several breaks the
first is dropped. Texts are built in reverse.
-/

namespace SpeechGrammar.Yaml

open SpeechGrammar.Text

/-! ## Blanks between two parts -/

/-- Blanks and line breaks between two parts of a scalar, both in reverse. After an escaped line
break the blanks before it do not count. -/
structure Gap where
  blanks : List Char := []
  breaks : List Char := []
  escaped : Bool := false

namespace Gap

/-- The gap has a line break. -/
def isBroken (g : Gap) : Bool := g.escaped || !g.breaks.isEmpty

/-- The gap with one more blank or line break. -/
def add (g : Gap) (c : Char) : Gap :=
  if isBreak c then { g with breaks := breakText c :: g.breaks }
  else if g.isBroken then g
  else { g with blanks := c :: g.blanks }

/-- The text that a gap stands for, in reverse. -/
def folded (g : Gap) : List Char :=
  if g.escaped then g.breaks
  else
    match g.breaks with
    | [] => g.blanks
    | ['\n'] => [' ']
    | breaks => if breaks.getLast? = some '\n' then breaks.dropLast else breaks

end Gap

namespace Cursor

/-! ## Plain scalars -/

/-- Read a plain scalar, in brackets if `flow` holds, in a block of the given indentation. The
result has its text in reverse and whether a line break has been passed behind it. -/
def plainText (flow : Bool) (indent : Nat) : (fuel : Nat) → Cursor → (text : List Char) → Gap →
    Option (Cursor × List Char × Bool)
  | 0, _, _, _ => none
  | fuel + 1, s, text, gap =>
      let finished := some (s, text, gap.isBroken)
      match s.rest with
      | [] => finished
      | c :: cs =>
          if isSpace c || isBreak c then
            -- A tab cannot indent a line.
            if c == '\t' && gap.isBroken && s.column < indent then none
            else plainText flow indent fuel s.advance text (gap.add c)
          else if gap.isBroken && !flow && s.column < indent then finished
          else if s.atDocumentMark then finished
          else if c == '#' && (gap.isBroken || !gap.blanks.isEmpty) then finished
          else if c == ':' && flow && cs.head?.any (fun d => isFlowMark d || d == '?') then none
          else if c == ':' && atGap cs then finished
          else if flow && isFlowMark c then finished
          else plainText flow indent fuel s.advance (c :: (gap.folded ++ text)) {}

/-! ## Scalars in quotes -/

/-- The character for a letter behind a backslash. -/
def simpleEscape? (c : Char) : Option Char :=
  match c with
  | '0' => some '\x00'
  | 'a' => some '\x07'
  | 'b' => some '\x08'
  | 't' => some '\t'
  | '\t' => some '\t'
  | 'n' => some '\n'
  | 'v' => some '\x0b'
  | 'f' => some '\x0c'
  | 'r' => some '\r'
  | 'e' => some '\x1b'
  | ' ' => some ' '
  | '"' => some '"'
  | '/' => some '/'
  | '\\' => some '\\'
  | 'N' => some '\u0085'
  | '_' => some '\u00a0'
  | 'L' => some '\u2028'
  | 'P' => some '\u2029'
  | _ => none

/-- The number of hexadecimal digits that follow a letter behind a backslash. -/
def escapeDigits (c : Char) : Nat :=
  if c = 'x' then 2 else if c = 'u' then 4 else if c = 'U' then 8 else 0

/-- The escape behind a backslash: its character and its length. -/
def escape? : List Char → Option (Char × Nat)
  | [] => none
  | c :: cs =>
      let width := escapeDigits c
      if width = 0 then (simpleEscape? c).map (fun d => (d, 1))
      else if (cs.take width).length < width then none
      else
        (readDigits? 16 (cs.take width)).bind fun n =>
          if n.isValidChar then some (Char.ofNat n, width + 1) else none

/-- Read a scalar from behind its opening quote to behind its closing one. The result has its
text in reverse. -/
def quotedText (quote : Char) : (fuel : Nat) → Cursor → (text : List Char) → Gap →
    Option (Cursor × List Char)
  | 0, _, _, _ => none
  | fuel + 1, s, text, gap =>
      match s.rest with
      | [] => none
      | c :: cs =>
          if isSpace c || isBreak c then quotedText quote fuel s.advance text (gap.add c)
          else if s.atDocumentMark then none
          else
            let text := gap.folded ++ text
            if c == quote then
              -- Between single quotes two of them write one.
              if c == '\x27' && cs.head? == some '\x27' then
                quotedText quote fuel (s.skip 2) (c :: text) {}
              else some (s.advance, text)
            else if c == '\\' && quote == '"' then
              -- A line break behind a backslash joins the lines without a space.
              if cs.head?.any isBreak then
                quotedText quote fuel (s.skip 2) text { escaped := true }
              else
                match escape? cs with
                | none => none
                | some (d, length) => quotedText quote fuel (s.skip (length + 1)) (d :: text) {}
            else quotedText quote fuel s.advance (c :: text) {}

/-! ## Blocks of lines -/

/-- Go past the blank lines before a line of a block. The result has the greatest column that
was reached and the line breaks in reverse. Without an indentation (zero) all spaces belong to
it. -/
def blockGap (indent : Nat) : (fuel : Nat) → Cursor → (reached : Nat) → (breaks : List Char) →
    Option (Cursor × Nat × List Char)
  | 0, _, _, _ => none
  | fuel + 1, s, reached, breaks =>
      let inIndent := indent == 0 || s.column < indent
      let finished := some (s, Nat.max reached s.column, breaks)
      match s.rest with
      | [] => finished
      | c :: _ =>
          if c == ' ' && inIndent then blockGap indent fuel s.advance reached breaks
          else if c == '\t' && inIndent then none
          else if isBreak c then
            blockGap indent fuel s.advance (Nat.max reached s.column) (breakText c :: breaks)
          else finished

/-- The lines of a block that have been read: their text in reverse, the break behind the last
of them, the breaks of the blank lines after it, and whether the last line starts with a
blank. -/
structure BlockLines where
  text : List Char := []
  lead : List Char := []
  breaks : List Char := []
  blank : Bool := false

/-- The lines with one more. A break between two lines is folded if neither of them starts with
a blank. -/
def BlockLines.add (lines : BlockLines) (folded : Bool) (content : List Char) : BlockLines :=
  let blank := content.head?.any isSpace
  let lead :=
    if folded && lines.lead == ['\n'] && !lines.blank && !blank then
      if lines.breaks.isEmpty then [' '] else []
    else lines.lead
  { text := content.reverse ++ (lines.breaks ++ (lead ++ lines.text)), blank := blank }

/-- Read the lines of a block. Each takes at least one character. -/
def blockLines (folded : Bool) (indent : Nat) : (fuel : Nat) → Cursor → BlockLines →
    Option (Cursor × BlockLines)
  | 0, _, _ => none
  | fuel + 1, s, lines =>
      if s.column ≠ indent then some (s, lines)
      else if s.rest.isEmpty then some (s, lines)
      else
        let lines := lines.add folded (s.rest.takeWhile (!isBreak ·))
        let s := s.skipLine
        match s.rest with
        | [] => some (s, lines)
        | c :: _ =>
            (blockGap indent fuel s.advance 0 []).bind fun (s, _, breaks) =>
              blockLines folded indent fuel s
                { lines with lead := [breakText c], breaks := breaks }

/-- What becomes of the line breaks behind the last line of a block. -/
inductive Chomping where
  | strip
  | clip
  | keep
deriving Repr, DecidableEq

/-- The text of a block, in reverse. -/
def BlockLines.chomped (lines : BlockLines) : Chomping → List Char
  | .strip => lines.text
  | .clip => lines.lead ++ lines.text
  | .keep => lines.breaks ++ (lines.lead ++ lines.text)

/-- The sign for what becomes of line breaks. -/
def chomping? : Char → Option Chomping
  | '+' => some .keep
  | '-' => some .strip
  | _ => none

/-- The marks behind the sign of a block: at most one sign for the line breaks at its end and
one digit for its indentation, in any order. -/
def blockHeader (cs : List Char) : Option (Chomping × Nat × List Char) :=
  let width? (chomping : Chomping) : List Char → Option (Chomping × Nat × List Char)
    | c :: rest =>
        if c = '0' then none
        else if c.isDigit then some (chomping, c.toNat - '0'.toNat, rest)
        else some (chomping, 0, c :: rest)
    | [] => some (chomping, 0, [])
  match cs.head?.bind chomping? with
  | some chomping => width? chomping cs.tail
  | none =>
      (width? .clip cs).map fun (chomping, width, rest) =>
        match rest.head?.bind chomping? with
        | some chomping => (chomping, width, rest.tail)
        | none => (chomping, width, rest)

/-- Read a block from its sign, in a block of the given indentation. The result has its text in
reverse. -/
def blockText (folded : Bool) (indent : Nat) (s : Cursor) : Option (Cursor × List Char) :=
  let opened := s.advance
  (blockHeader opened.rest).bind fun (chomping, width, after) =>
    (opened.skipTo after).finishLine?.bind fun s =>
      -- Without a digit, the first line that is not blank gives the indentation.
      let fixed := if width = 0 then 0 else indent - 1 + width
      (blockGap fixed (s.rest.length + 1) s 0 []).bind fun (s, reached, breaks) =>
        let indent := if width = 0 then Nat.max (Nat.max reached indent) 1 else fixed
        (blockLines folded indent (s.rest.length + 1) s { breaks := breaks }).map
          fun (s, lines) => (s, lines.chomped chomping)

end Cursor

end SpeechGrammar.Yaml
