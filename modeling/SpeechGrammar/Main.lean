import SpeechGrammar.CommandLine.Run

set_option autoImplicit false

/-!
# The program

Reads the files that a command line names, runs the command, and writes its output or the
reason why there is none.
-/

namespace SpeechGrammar.CommandLine

/-- The help text. -/
def usage : String :=
  "Compile SRGS/GRXML grammars and match utterances

Usage: grxml [OPTIONS] <COMMAND>

Commands:
  check   Validate a grammar: root rule, references and pattern
  inline  Print the prepared (inlined, normalized, tokenized) grammar as XML
  regexp  Print the compiled pattern
  match   Match utterances, printing one JSON result per line
  help    Print this message or the help of the given subcommand(s)

Options:
  -c, --config <FILE>     YAML file with compile options
  -i, --case-insensitive  Match tokens regardless of letter case (overrides the config file)
  -h, --help              Print help
  -V, --version           Print version
"

/-- The wording of a usage error that is not a request for help. -/
def UsageError.message : UsageError → String
  | .help | .noArguments => usage
  | .version => "grxml 1.0.0\n"
  | .missingCommand => "error: a command is needed\n"
  | .missingOperand => "error: a required argument was not provided\n"
  | .unknownArgument => "error: unexpected argument\n"
  | .unknownCommand => "error: unrecognized command\n"
  | .missingValue => "error: a value is required\n"
  | .unexpectedValue => "error: unexpected value\n"
  | .repeatedOption => "error: an option cannot be used multiple times\n"

/-- The content of a file, if it can be read. -/
def readFile? (path : String) : IO (Option String) := do
  try
    return some (← IO.FS.readFile path)
  catch _ =>
    return none

/-- The report on a failure: what was attempted, and the cause. -/
def Failure.report (f : Failure) : String :=
  ": ".intercalate (f.context?.toList ++ f.causeMessage?.toList)

/-- Run a command line. -/
def start (arguments : List String) : IO UInt32 := do
  match Arguments.parse arguments with
  | .error .help =>
      IO.print usage
      return 0
  | .error .version =>
      IO.print (UsageError.message .version)
      return 0
  | .error e =>
      IO.eprint e.message
      return 2
  | .ok args =>
      let config? ← match args.config? with
        | none => pure none
        | some path => readFile? path
      let grammar? ← readFile? args.path
      let files (path : String) : Option String :=
        if args.config? = some path then config? else grammar?
      let (outcome, written) := execute args files
      IO.print written
      match outcome with
      | .ok () => return 0
      | .error f =>
          IO.eprintln s!"Error: {f.report}"
          return 1

end SpeechGrammar.CommandLine

/-- The entry point. -/
def main (arguments : List String) : IO UInt32 := SpeechGrammar.CommandLine.start arguments
