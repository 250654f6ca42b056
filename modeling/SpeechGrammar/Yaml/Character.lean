set_option autoImplicit false

/-!
# Characters of a YAML text

The classes of characters that the tokens of a YAML text are told apart by.
-/

namespace SpeechGrammar.Yaml

/-- A space or a tab. -/
def isSpace (c : Char) : Bool := c == ' ' || c == '\t'

/-- A line break. A carriage return and a line feed behind it are one break together. -/
def isBreak (c : Char) : Bool :=
  c == '\n' || c == '\r' || c == '\u0085' || c == '\u2028' || c == '\u2029'

/-- What a line break stands for in a scalar: the separators of lines and paragraphs stand for
themselves, and every other break for a line feed. -/
def breakText (c : Char) : Char := if c = '\u2028' ∨ c = '\u2029' then c else '\n'

/-- The text ends or goes on with a line break. -/
def atLineEnd (cs : List Char) : Bool := cs.head?.all isBreak

/-- The text ends or goes on with a space, a tab or a line break. -/
def atGap (cs : List Char) : Bool := cs.head?.all fun c => isSpace c || isBreak c

/-- The characters that may occur. -/
def isAllowed (c : Char) : Bool :=
  let n := c.toNat
  n == 0x9 || n == 0xa || n == 0xd || (0x20 ≤ n && n ≤ 0x7e) || n == 0x85 ||
    (0xa0 ≤ n && n ≤ 0xd7ff) || (0xe000 ≤ n && n ≤ 0xfffd) || (0x10000 ≤ n && n ≤ 0x10ffff)

/-- The characters of the names of anchors, directives and tag handles. -/
def isNameChar (c : Char) : Bool := c.isAlphanum || c == '-' || c == '_'

/-- The characters with a meaning inside brackets. -/
def isFlowMark (c : Char) : Bool := ",[]\x7b\x7d".toList.contains c

/-- The characters of a tag that stand for themselves. Commas and square brackets are among them
only where `marks` holds. -/
def isTagChar (marks : Bool) (c : Char) : Bool :=
  isNameChar c || ";/?:@&=+$.!~*\x27()".toList.contains c || (marks && ",[]".toList.contains c)

/-- What is left of a text behind spaces and tabs. -/
def dropSpaces (cs : List Char) : List Char := cs.dropWhile isSpace

end SpeechGrammar.Yaml
