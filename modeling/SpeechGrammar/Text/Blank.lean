set_option autoImplicit false

/-!
# Blank characters

Two notions of blank occur: the Unicode property `White_Space`, which separates the words of a
grammar and of an utterance, and the four blanks of XML, which surround text in a document.
-/

namespace SpeechGrammar.Text

/-- The characters with the Unicode property `White_Space`. -/
def isBlank (c : Char) : Bool :=
  let n := c.toNat
  (0x9 ≤ n && n ≤ 0xd) || n == 0x20 || n == 0x85 || n == 0xa0 || n == 0x1680 ||
    (0x2000 ≤ n && n ≤ 0x200a) || n == 0x2028 || n == 0x2029 || n == 0x202f || n == 0x205f ||
    n == 0x3000

/-- The blanks of XML: space, tab, carriage return and line feed. -/
def isXmlBlank (c : Char) : Bool :=
  c == ' ' || c == '\t' || c == '\r' || c == '\n'

/-- Remove the characters of a class from both ends. -/
def trimBy (p : Char → Bool) (cs : List Char) : List Char :=
  ((cs.dropWhile p).reverse.dropWhile p).reverse

/-- Remove the blanks from both ends. -/
def trim (cs : List Char) : List Char := trimBy isBlank cs

/-- Remove the XML blanks from the end. -/
def trimXmlEnd (cs : List Char) : List Char := (cs.reverse.dropWhile isXmlBlank).reverse

end SpeechGrammar.Text
