import SpeechGrammar.Text.Blank

set_option autoImplicit false

/-!
# Words

The words of a text are its maximal runs of characters that are not blank. Every treatment of
white space in the library goes through them: the normal form of a text joins its words by
single spaces, and the two written forms of an utterance put a space before each word or
nothing at all.
-/

namespace SpeechGrammar.Text

/-- The words of a text, in order. -/
def words (cs : List Char) : List (List Char) :=
  (cs.splitOnP isBlank).filter (fun w => !w.isEmpty)

/-- The words of a text joined by single spaces. -/
def normalizeChars (cs : List Char) : List Char :=
  [' '].intercalate (words cs)

/-- The words of a text joined by single spaces. -/
def normalize (s : String) : String := String.ofList (normalizeChars s.toList)

/-- The number of words of a text. -/
def wordCount (s : String) : Nat := (words s.toList).length

end SpeechGrammar.Text
