import SpeechGrammar.Text.Words

set_option autoImplicit false

/-!
# Splitting rule text into tokens

Rule text is a sequence of words and of phrases in double quotes. The quotes are paired from
the left: the first with the second, the third with the fourth. The text between the two quotes
of a pair is one token, kept whole up to the blanks at its ends; the text outside the pairs is
split into words. A last quote without a partner is an ordinary character.
-/

namespace SpeechGrammar.Text

/-- A quoted phrase is one token, or none if it is blank. -/
def phrase (cs : List Char) : List (List Char) :=
  let inner := trim cs
  if inner.isEmpty then [] else [inner]

/-- The tokens of a text that has been cut at its quotes. The pieces stand alternately outside
and inside a pair; only a last quote can be without partner, and it then stands between the
last two pieces. -/
def tokensOfPieces : List (List Char) → List (List Char)
  | [] => []
  | [outside] => words outside
  | [outside, unpaired] => words (outside ++ '"' :: unpaired)
  | outside :: inside :: rest => words outside ++ phrase inside ++ tokensOfPieces rest

/-- The tokens of a text, as lists of characters. -/
def tokenChars (cs : List Char) : List (List Char) := tokensOfPieces (cs.splitOn '"')

/-- The tokens of a text: its quoted phrases and the words around them. -/
def splitTokens (s : String) : List String := (tokenChars s.toList).map String.ofList

end SpeechGrammar.Text
