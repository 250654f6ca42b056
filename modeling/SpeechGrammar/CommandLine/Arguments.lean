set_option autoImplicit false

/-!
# Command line arguments

A command line is a command with its operands and two options that may stand before or after
the command: a file of compile options and a flag. An argument that starts with a dash is an
option, up to a double dash; the value of an option follows it or is attached to it.
-/

namespace SpeechGrammar.CommandLine

/-- What a command does with a grammar. -/
inductive Command where
  | check
  | inline
  | regexp
  | «match»
deriving Repr, DecidableEq

/-- The command with a name. -/
def Command.ofName? (name : String) : Option Command :=
  if name = "check" then some .check
  else if name = "inline" then some .inline
  else if name = "regexp" then some .regexp
  else if name = "match" then some .match
  else none

/-- Why a command line is not run. -/
inductive UsageError where
  /-- The help is asked for. -/
  | help
  /-- The version is asked for. -/
  | version
  /-- There is no argument at all. -/
  | noArguments
  | missingCommand
  | missingOperand
  | unknownArgument
  | unknownCommand
  /-- An option or an operand without its value. -/
  | missingValue
  /-- A value for an option that takes none. -/
  | unexpectedValue
  | repeatedOption
deriving Repr, DecidableEq

/-- A command line that can be run. -/
structure Arguments where
  config? : Option String
  caseInsensitive : Bool
  command : Command
  path : String
  utterances : List String
deriving Repr, DecidableEq

/-! ## One level of a command line

The arguments before the command and those after it are read in the same way. A value that has
been read is held back until the next argument needs it to be taken, and only then refused if
it is empty or given twice. -/

/-- A value that has been read and not been taken yet. -/
inductive Pending where
  | nothing
  /-- The value of the file option, if it has come. -/
  | config (value? : Option String)
  | path (value : String)
deriving Repr, DecidableEq

/-- What has been read of a level. -/
structure Level where
  config? : Option String := none
  caseInsensitive : Bool := false
  path? : Option String := none
  utterances : List String := []
  pending : Pending := .nothing
  /-- Everything that follows is an operand. -/
  operandsOnly : Bool := false
deriving Repr, DecidableEq

/-- Take a value of the file option. -/
def Level.setConfig (l : Level) (value : String) : Except UsageError Level :=
  if l.config?.isSome then .error .repeatedOption
  else if value = "" then .error .missingValue
  else .ok { l with config? := some value }

/-- Take the value that has been held back. -/
def Level.settle (l : Level) : Except UsageError Level :=
  match l.pending with
  | .nothing => .ok l
  | .config none => .error .missingValue
  | .config (some value) => { l with pending := .nothing }.setConfig value
  | .path value =>
      if value = "" then .error .missingValue
      else .ok { l with pending := .nothing, path? := some value }

/-- Set the flag, which may be given once. -/
def Level.setFlag (l : Level) : Except UsageError Level :=
  if l.caseInsensitive then .error .repeatedOption else .ok { l with caseInsensitive := true }

/-- The file option is waiting for its value. -/
def Level.awaitsValue (l : Level) : Bool := l.pending == .config none

/-- Read an option with a long name; `main` is the level before the command. -/
def Level.readLong (l : Level) (main : Bool) (name : List Char) (value? : Option (List Char)) :
    Except UsageError Level :=
  if name = "config".toList then
    l.settle.bind fun l =>
      match value? with
      | none => .ok { l with pending := .config none }
      | some value => l.setConfig (String.ofList value)
  else if name = "case-insensitive".toList then
    if value?.isSome then .error .unexpectedValue else l.settle.bind Level.setFlag
  else if name = "help".toList then
    if value?.isSome then .error .unexpectedValue else l.settle.bind fun _ => .error .help
  else if main ∧ name = "version".toList then
    if value?.isSome then .error .unexpectedValue else l.settle.bind fun _ => .error .version
  else .error .unknownArgument

/-- Read options with one-letter names; the value of the file option may be attached. -/
def Level.readShort (l : Level) (main : Bool) : List Char → Except UsageError Level
  | [] => .ok l
  | c :: cs =>
      if c = 'i' then
        match l.settle.bind Level.setFlag with
        | .error e => .error e
        | .ok l => l.readShort main cs
      else if c = 'h' then l.settle.bind fun _ => .error .help
      else if main ∧ c = 'V' then l.settle.bind fun _ => .error .version
      else if c = 'c' then
        l.settle.bind fun l =>
          match cs with
          | [] => .ok { l with pending := .config none }
          | '=' :: value => l.setConfig (String.ofList value)
          | value => l.setConfig (String.ofList value)
      else .error .unknownArgument

/-- Read an argument that is an option, a double dash or the value of the file option; anything
else is left to the level. -/
def Level.readOption? (l : Level) (main : Bool) (argument : String) :
    Option (Except UsageError Level) :=
  if l.operandsOnly then none
  else
    match argument.toList with
    | ['-', '-'] => some (.ok { l with operandsOnly := true })
    | '-' :: '-' :: option =>
        let name := option.takeWhile (· != '=')
        let value? := match option.dropWhile (· != '=') with
          | [] => none
          | _ :: value => some value
        some (l.readLong main name value?)
    | '-' :: c :: cs => some (l.readShort main (c :: cs))
    | _ =>
        if l.awaitsValue then some (.ok { l with pending := .config (some argument) }) else none

/-! ## After the command -/

/-- Read an operand of a command: the grammar file, then utterances for a match. -/
def Level.readOperand (l : Level) (command : Command) (operand : String) :
    Except UsageError Level :=
  let hasPath := l.path?.isSome || (l.pending matches .path _)
  if !hasPath then l.settle.map fun l => { l with pending := .path operand }
  else if command = .match then
    l.settle.map fun l => { l with utterances := l.utterances ++ [operand] }
  else .error .unknownArgument

/-- Read what follows a command. -/
def Level.readCommand (l : Level) (command : Command) : List String → Except UsageError Level
  | [] =>
      l.settle.bind fun l =>
        if l.path?.isNone || (command = .match && l.utterances.isEmpty) then
          .error .missingOperand
        else .ok l
  | argument :: rest =>
      match (l.readOption? false argument).getD (l.readOperand command argument) with
      | .error e => .error e
      | .ok l => l.readCommand command rest

/-- The help on a command, or on all of them. -/
def helpOn : List String → UsageError
  | [] => .help
  | [name] => if name = "help" ∨ (Command.ofName? name).isSome then .help else .unknownCommand
  | _ => .unknownCommand

/-! ## The whole command line -/

/-- Read what follows the name of the program. -/
def Level.readMain (l : Level) : List String → Except UsageError Arguments
  | [] =>
      l.settle.bind fun l =>
        if l.config?.isNone && !l.caseInsensitive then .error .noArguments
        else .error .missingCommand
  | argument :: rest =>
      match l.readOption? true argument with
      | some (.error e) => .error e
      | some (.ok l) => l.readMain rest
      | none =>
          if argument = "help" then
            .error (if l.operandsOnly then .unknownArgument else helpOn rest)
          else
            match Command.ofName? argument with
            | none => .error .unknownCommand
            | some command =>
                if l.operandsOnly then .error .unknownArgument
                else
                  (Level.readCommand {} command rest).bind fun after =>
                    l.settle.map fun before =>
                      { config? := after.config? <|> before.config?
                        caseInsensitive := before.caseInsensitive || after.caseInsensitive
                        command := command
                        path := after.path?.getD ""
                        utterances := after.utterances }

/-- The command line that a list of arguments writes, without the name of the program. -/
def Arguments.parse (arguments : List String) : Except UsageError Arguments :=
  Level.readMain {} arguments

end SpeechGrammar.CommandLine
