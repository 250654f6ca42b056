import SpeechGrammar.Yaml.Character

set_option autoImplicit false

/-!
# Places in a YAML text

A cursor is a place in a text. It knows what is left of the text, the line and the column, and
how many bytes it has passed, as the reach of a key is counted in bytes.
-/

namespace SpeechGrammar.Yaml

/-- A place in a text. -/
structure Cursor where
  rest : List Char
  index : Nat := 0
  line : Nat := 0
  column : Nat := 0

namespace Cursor

/-- Go past one character or one line break. -/
def advance (s : Cursor) : Cursor :=
  match s.rest with
  | [] => s
  | '\r' :: '\n' :: cs => { rest := cs, index := s.index + 2, line := s.line + 1, column := 0 }
  | c :: cs =>
      if isBreak c then
        { rest := cs, index := s.index + c.utf8Size, line := s.line + 1, column := 0 }
      else { s with rest := cs, index := s.index + c.utf8Size, column := s.column + 1 }

/-- Go past a number of characters. -/
def skip : Nat → Cursor → Cursor
  | 0, s => s
  | n + 1, s => skip n s.advance

/-- Go to what is left of the text behind a part of the line. -/
def skipTo (s : Cursor) (after : List Char) : Cursor := s.skip (s.rest.length - after.length)

/-- Go past spaces and tabs. -/
def skipSpaces (s : Cursor) : Cursor := s.skip (s.rest.takeWhile isSpace).length

/-- Go to the end of the line. -/
def skipLine (s : Cursor) : Cursor := s.skip (s.rest.takeWhile (!isBreak ·)).length

/-- Go past spaces, tabs and a comment to the end of the line and past its break. There may be
nothing else. -/
def finishLine? (s : Cursor) : Option Cursor :=
  let s := s.skipSpaces
  let s := if s.rest.head? = some '#' then s.skipLine else s
  if atLineEnd s.rest then some s.advance else none

/-- A mark of three characters stands alone at the start of a line. -/
def atDocumentMark (s : Cursor) : Bool :=
  s.column == 0 && (s.rest.take 3 == ['-', '-', '-'] || s.rest.take 3 == ['.', '.', '.']) &&
    atGap (s.rest.drop 3)

end Cursor

end SpeechGrammar.Yaml
