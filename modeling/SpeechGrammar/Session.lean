import SpeechGrammar.Grammar.Edit
import SpeechGrammar.Pattern.Match

set_option autoImplicit false

/-!
# Sessions

A session works on one grammar. It keeps a saved copy to compare with and to go back to, and
the grammar that was compiled last. What fails leaves the session as it was.
-/

namespace SpeechGrammar

/-- The state of a session. -/
structure Session where
  grammar : Grammar := {}
  saved? : Option Grammar := none
  compiled? : Option CompiledGrammar := none

namespace Session

/-- Change the grammar. An edit that fails has not changed it. -/
def edit (s : Session) (edit : Edit) : Except Error Session :=
  match edit.run s.grammar with
  | (.error e, _) => .error e
  | (.ok (), g) => .ok { s with grammar := g }

/-- Prepare the grammar and report on it. -/
def prepare (s : Session) : Except Error (Session × Report) :=
  s.grammar.prepared.map fun (g, report) => ({ s with grammar := g }, report)

/-- Save a copy of the grammar. -/
def save (s : Session) : Session := { s with saved? := some s.grammar }

/-- Go back to the saved copy, if there is one. -/
def restore? (s : Session) : Option Session :=
  s.saved?.map fun g => { s with grammar := g }

/-- The grammar has the identity of the saved copy. -/
def equalsSaved (s : Session) : Bool := s.saved?.any s.grammar.sameIdentity

/-- Compile the grammar and keep the result. -/
def compile (s : Session) (options : CompileOptions) (interpreter : Interpreter) :
    Except Error (Session × CompiledGrammar) :=
  (s.grammar.compile options interpreter).map fun compiled =>
    ({ s with compiled? := some compiled }, compiled)

/-- Match an utterance against the grammar that was compiled last, if there is one. -/
def matchCompiled? (s : Session) (utterance : String) : Option (Option Match) :=
  s.compiled?.map (·.match? utterance)

end Session

end SpeechGrammar
