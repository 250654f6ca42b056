import SpeechGrammar.Grammar.Basic
import SpeechGrammar.Pattern.Basic

set_option autoImplicit false

/-!
# Matching utterances

A grammar is compiled by compiling its root rule. An utterance that the pattern accepts gets
the mode of the grammar, its confidence and an interpretation.
-/

namespace SpeechGrammar

/-- How an accepted utterance is interpreted. -/
inductive Interpreter where
  /-- By itself. -/
  | echo
  /-- By the number of its words. -/
  | wordCount
deriving Repr, DecidableEq

/-- The interpretation of an utterance. -/
inductive Interpretation where
  | text (utterance : String)
  | words (count : Nat)
deriving Repr, DecidableEq

/-- The interpretation that an interpreter gives to an utterance. -/
def Interpreter.interpret : Interpreter → String → Interpretation
  | .echo, utterance => .text utterance
  | .wordCount, utterance => .words (Text.wordCount utterance)

/-- What is known of an utterance that has been accepted. -/
structure Match where
  mode : Option Mode
  confidence : Nat
  utterance : String
  interpretation : Interpretation
deriving Repr, DecidableEq

/-- A grammar that is ready for matching. -/
structure CompiledGrammar where
  mode : Option Mode
  pattern : Pattern
  interpreter : Interpreter := .echo

/-- Match an utterance; the empty pattern accepts none. -/
def CompiledGrammar.match? (g : CompiledGrammar) (utterance : String) : Option Match :=
  if g.pattern.isMatch (canonicalChars (.ofMode g.mode) utterance.toList) then
    some ⟨g.mode, confidence g.mode, utterance, g.interpreter.interpret utterance⟩
  else none

namespace Grammar

/-- Compile a grammar for matching. -/
def compile (g : Grammar) (options : CompileOptions) (interpreter : Interpreter := .echo) :
    Except Error CompiledGrammar :=
  (compileRule g.rootRule? g.mode options).map fun pattern => ⟨g.mode, pattern, interpreter⟩

/-- The pattern of a grammar with the default options. -/
def toPattern (g : Grammar) : Except Error Pattern := compileRule g.rootRule? g.mode {}

/-- Compile a grammar with the default options and match one utterance. -/
def match? (g : Grammar) (utterance : String) : Except Error (Option Match) :=
  (g.compile {}).map (·.match? utterance)

end Grammar

end SpeechGrammar
