import SpeechGrammar.Pattern.Fragment
import SpeechGrammar.Regex.Automaton
import SpeechGrammar.Regex.Match
import SpeechGrammar.Text.CaseFolding

set_option autoImplicit false

/-!
# Patterns

A rule is compiled into a pattern: its fragment between the two ends of the text. A rule without
anything to match, and a rule that does not exist, have the empty pattern, which matches no
text. Two patterns are equal when their sources are.
-/

namespace SpeechGrammar

/-- How a rule is compiled. -/
structure CompileOptions where
  caseInsensitive : Bool := false
deriving Repr, DecidableEq

/-- A compiled rule. -/
inductive Pattern where
  /-- The pattern that matches no text. -/
  | empty
  /-- A pattern with its source and the expression that it writes. -/
  | regex (source : List Char) (expression : Regex) (ignoreCase : Bool)

namespace Pattern

/-- The source of a pattern; that of the empty one is empty. -/
def source : Pattern → String
  | .empty => ""
  | .regex source _ _ => String.ofList source

/-- The pattern is the empty one. -/
def isEmpty : Pattern → Bool
  | .empty => true
  | .regex _ _ _ => false

/-- Patterns are compared by their sources. -/
instance : BEq Pattern := ⟨fun p q => p.source == q.source⟩

/-- The pattern matches a text that is already in the form for patterns. Without regard to case,
the expression and the text are folded. -/
def isMatch (p : Pattern) (text : List Char) : Bool :=
  match p with
  | .empty => false
  | .regex _ expression false => expression.isMatch text
  | .regex _ expression true =>
      (expression.mapChars Text.foldCase).isMatch (text.map Text.foldCase)

/-- The pattern with the given source, if the source is an expression within the limits. -/
def ofSource (source : List Char) (options : CompileOptions) : Except Error Pattern :=
  match Regex.ofSource? source with
  | none => .error (.pattern .malformed)
  | some expression =>
      let variants := if options.caseInsensitive then Text.caseVariants else fun c => [c]
      if Regex.maxDepth < expression.depth then .error (.pattern .tooDeep)
      else if Regex.maxAutomatonSize < (expression.simplify variants).automatonSize then
        .error (.pattern .tooLarge)
      else .ok (.regex source expression options.caseInsensitive)

/-- The pattern of a fragment, which has to match the whole text. -/
def ofFragment (fragment : List Char) (options : CompileOptions) : Except Error Pattern :=
  if fragment.isEmpty then .ok .empty else ofSource ('^' :: (fragment ++ ['$'])) options

end Pattern

/-- Compile a rule, if there is one. -/
def compileRule (rule? : Option Rule) (mode : Option Mode) (options : CompileOptions) :
    Except Error Pattern :=
  match rule? with
  | none => .ok .empty
  | some rule =>
      (rule.fragment (.ofMode mode)).bind fun fragment => Pattern.ofFragment fragment options

end SpeechGrammar
