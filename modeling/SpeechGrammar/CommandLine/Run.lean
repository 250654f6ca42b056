import SpeechGrammar.CommandLine.Arguments
import SpeechGrammar.Grammar.Edit
import SpeechGrammar.Options
import SpeechGrammar.Pattern.Match

set_option autoImplicit false

/-!
# Running a command

Every command loads the compile options and a grammar, prepares the grammar and compiles it;
then it writes line by line. The first step that fails ends the run. What is written depends
on the command: a line on the grammar, the prepared grammar, the pattern, or one line of JSON
for each utterance.
-/

namespace SpeechGrammar.CommandLine

/-- Why a run fails. -/
inductive Failure where
  | options (cause : OptionsError)
  | unreadable (file : String)
  | unparsed (file : String) (cause : Error)
  | rootless (cause : Error)
  | unprepared (file : String) (cause : Error)
  | uncompiled (cause : Error)
deriving Repr, DecidableEq

/-- What was attempted when a run failed, where the report says so. -/
def Failure.context? : Failure → Option String
  | .unreadable file => some s!"failed to read {file}"
  | .unparsed file _ => some s!"failed to parse {file}"
  | .unprepared file _ => some s!"failed to prepare {file}"
  | .options _ | .rootless _ | .uncompiled _ => none

/-- The wording of the cause of a failure, if it has one. -/
def Failure.causeMessage? : Failure → Option String
  | .options cause => some cause.message
  | .unreadable _ => none
  | .unparsed _ cause | .rootless cause | .unprepared _ cause | .uncompiled cause =>
      some cause.message

/-! ## Loading -/

/-- The compile options of a command line: those of the file, then the flag. -/
def Arguments.options (args : Arguments) (files : String → Option String) :
    Except OptionsError CompileOptions :=
  let fromFile : Except OptionsError CompileOptions :=
    match args.config? with
    | none => .ok {}
    | some file =>
        match files file with
        | none => .error (.unreadable file)
        | some text => CompileOptions.parse text
  fromFile.map fun options =>
    if args.caseInsensitive then { options with caseInsensitive := true } else options

/-- The grammar of a file, which must have the root that it declares. -/
def loadGrammar (files : String → Option String) (file : String) : Except Failure Grammar :=
  match files file with
  | none => .error (.unreadable file)
  | some text =>
      match Grammar.parse text with
      | .error e => .error (.unparsed file e)
      | .ok g => g.requireRoot.mapError .rootless

/-- A grammar that has been prepared and compiled. -/
structure Prepared where
  grammar : Grammar
  compiled : CompiledGrammar

/-- Everything a command needs: options, grammar and pattern, in this order. -/
def prepare (args : Arguments) (files : String → Option String) : Except Failure Prepared :=
  ((args.options files).mapError Failure.options).bind fun options =>
    (loadGrammar files args.path).bind fun loaded =>
      (loaded.prepared.mapError (Failure.unprepared args.path)).bind fun (g, _) =>
        ((g.compile options).mapError Failure.uncompiled).map fun compiled => ⟨g, compiled⟩

/-! ## Writing -/

/-- The JSON form of an interpretation. -/
def encodeInterpretation : Interpretation → Json
  | .text utterance => .string utterance
  | .words count => .object [("words", .int count)]

/-- The JSON form of the result for an utterance, with its keys in order. -/
def encodeResult (utterance : String) : Option Match → Json
  | none => .object [("matched", .bool false), ("utterance", .string utterance)]
  | some m =>
      .object [("confidence", .int m.confidence),
        ("interpretation", encodeInterpretation m.interpretation), ("matched", .bool true),
        ("mode", encodeMode m.mode), ("utterance", .string m.utterance)]

/-- The line for an utterance, without its line feed. -/
def matchLine (compiled : CompiledGrammar) (utterance : String) : String :=
  String.ofList (encodeResult utterance (compiled.match? utterance)).render

/-- What a command writes, as lines. -/
def output (args : Arguments) (p : Prepared) : List String :=
  match args.command with
  | .check =>
      let root := p.grammar.root.getD "-"
      [s!"ok: {args.path} (mode {modeLabel p.grammar.mode}, root {root})"]
  | .inline => [p.grammar.render]
  | .regexp => [p.compiled.pattern.source]
  | .match => args.utterances.map (matchLine p.compiled)

/-! ## Running -/

/-- A run in progress. A step may fail, and what has been written by then stays written. -/
abbrev Run := ExceptT Failure (StateM String)

/-- Write a line, which ends with a line feed. Whatever is written is accepted: a writer that fails
for reasons of its own is not modelled. -/
def writeLine (line : String) : Run Unit := modify fun written => written ++ line ++ "\n"

/-- Prepare the grammar of a command, then write the lines of the command one after the other. -/
def steps (args : Arguments) (files : String → Option String) : Run Unit := do
  let p ← ExceptT.mk (pure (prepare args files))
  (output args p).forM writeLine

/-- Run a command on the given files: how it ends, and what it has written by then. -/
def execute (args : Arguments) (files : String → Option String) : Except Failure Unit × String :=
  ((steps args files).run.run "").run

/-- What a command writes on the given files, or why it fails. -/
def run (args : Arguments) (files : String → Option String) : Except Failure String :=
  match execute args files with
  | (.ok (), written) => .ok written
  | (.error f, _) => .error f

end SpeechGrammar.CommandLine
