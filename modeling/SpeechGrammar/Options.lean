import SpeechGrammar.Pattern.Basic
import SpeechGrammar.Yaml.Document

set_option autoImplicit false

/-!
# Compile options

Compile options are written as a YAML mapping. Keys that are not known are ignored, and an
option that is not given has its default. A text without a value gives the defaults.
-/

namespace SpeechGrammar

/-- Why compile options cannot be used. -/
inductive OptionsError where
  | invalid
  | unreadable (file : String)
deriving Repr, DecidableEq

/-- The wording of an options error. -/
def OptionsError.message : OptionsError → String
  | .invalid => "CONFIG/invalid compile options"
  | .unreadable file => s!"CONFIG/failed to read {file}"

namespace CompileOptions

/-- The truth value that a text writes. -/
def readBool? (text : String) : Option Bool :=
  if text = "true" ∨ text = "True" ∨ text = "TRUE" then some true
  else if text = "false" ∨ text = "False" ∨ text = "FALSE" then some false
  else none

/-- The truth value that a scalar writes. It is plain, or a literal block with the tag of truth
values. -/
def ofScalar? (scalar : Yaml.Scalar) : Option Bool :=
  if scalar.style = .plain ∨ (scalar.style = .literal ∧ scalar.tag? = some Yaml.boolTag) then
    readBool? scalar.text
  else none

/-- The options that the entries of a mapping give, where `resolve?` says what an alias stands
for; `seen?` is the flag if it has been given. -/
def ofEntries? (resolve? : Yaml.Value → Option Yaml.Value) (seen? : Option Bool) :
    List (Yaml.Value × Yaml.Value) → Option CompileOptions
  | [] => some ⟨seen?.getD false⟩
  | (key, value) :: rest =>
      match resolve? key with
      | some (.scalar key) =>
          if key.text = "case_insensitive" then
            match seen?, resolve? value with
            | none, some (.scalar flag) =>
                (ofScalar? flag).bind fun b => ofEntries? resolve? (some b) rest
            | _, _ => none
          else ofEntries? resolve? seen? rest
      | _ => none

/-- The options that a document gives. -/
def ofDocument? (document : Yaml.Document) : Option CompileOptions :=
  match document.value with
  | .scalar scalar => if scalar.text = "" ∧ scalar.style = .plain then some {} else none
  | .mapping entries => ofEntries? document.resolve? none entries
  | _ => none

/-- The options that a text writes. -/
def parse (text : String) : Except OptionsError CompileOptions :=
  if (Text.words text.toList).isEmpty then .ok {}
  else
    match Yaml.document? text.toList with
    | none => .error .invalid
    | some none => .ok {}
    | some (some document) =>
        match ofDocument? document with
        | none => .error .invalid
        | some options => .ok options

end CompileOptions

end SpeechGrammar
