import SpeechGrammar.Text.Decimal
import SpeechGrammar.Yaml.Character

set_option autoImplicit false

/-!
# Tags and directives

A tag names the type of a value. It is written as a handle and a suffix: the handle stands for
the beginning of the tag, as directives in front of the document declare it. Percent signs
write single octets, so a tag is a list of octets, which ends at the first one that is zero.
-/

namespace SpeechGrammar.Yaml

open SpeechGrammar.Text

/-- A tag, or a part of it. -/
abbrev Octets := List UInt8

/-- The octets of a text of one octet a character. -/
def octets (cs : List Char) : Octets := cs.map fun c => UInt8.ofNat c.toNat

/-- The octets up to the first one that is zero. -/
def untilZero (bytes : Octets) : Octets := bytes.takeWhile (· != 0)

/-- A tag as it is written. Without a handle the suffix is the whole tag. -/
structure WrittenTag where
  handle : String
  suffix : Octets
deriving Repr, DecidableEq

/-- A directive: the version of the text, or what a handle stands for. -/
inductive Directive where
  | version (major minor : Nat)
  | handle (name : String) (start : Octets)
deriving Repr, DecidableEq

/-! ## Octets behind percent signs -/

/-- The octet that two hexadecimal digits write. -/
def octet? (a b : Char) : Option UInt8 := (readDigits? 16 [a, b]).map UInt8.ofNat

/-- The number of octets that have to follow an octet where `more` of a character are missing. -/
def missingAfter? (more : Nat) (octet : UInt8) : Option Nat :=
  if 0 < more then if 0x80 ≤ octet ∧ octet < 0xc0 then some (more - 1) else none
  else if octet < 0x80 then some 0
  else if octet < 0xc0 then none
  else if octet < 0xe0 then some 1
  else if octet < 0xf0 then some 2
  else if octet < 0xf8 then some 3
  else none

/-- The octets of the longest part of a tag at the start of a text, and what is left behind it;
`more` octets of a character are missing. -/
def tagOctets (marks : Bool) : (more : Nat) → List Char → Option (Octets × List Char)
  | more, '%' :: a :: b :: rest =>
      (octet? a b).bind fun octet =>
        (missingAfter? more octet).bind fun more =>
          (tagOctets marks more rest).map fun (bytes, after) => (octet :: bytes, after)
  | more, c :: rest =>
      if 0 < more ∨ c = '%' then none
      else if isTagChar marks c then
        (tagOctets marks 0 rest).map fun (bytes, after) => (octets [c] ++ bytes, after)
      else some ([], c :: rest)
  | more, [] => if 0 < more then none else some ([], [])

/-- The same for a part that may not be empty. -/
def tagPart? (marks : Bool) (cs : List Char) : Option (Octets × List Char) :=
  (tagOctets marks 0 cs).filter fun (bytes, _) => !bytes.isEmpty

/-! ## Tags -/

/-- The handle at the start of a text, from its sign to the sign that closes it, if there is
one, and what is left. -/
def readHandle : List Char → Option (List Char × List Char)
  | '!' :: cs =>
      let name := cs.takeWhile isNameChar
      match cs.dropWhile isNameChar with
      | '!' :: rest => some ('!' :: (name ++ ['!']), rest)
      | rest => some ('!' :: name, rest)
  | _ => none

/-- The tag at the start of a text, and what is left. A handle that is not closed belongs to the
suffix, but for its sign. -/
def readTag : List Char → Option (WrittenTag × List Char)
  | '!' :: '<' :: cs =>
      (tagPart? true cs).bind fun (bytes, after) =>
        match after with
        | '>' :: rest => some (⟨"", untilZero bytes⟩, rest)
        | _ => none
  | cs =>
      (readHandle cs).bind fun (handle, after) =>
        if 1 < handle.length ∧ handle.getLast? = some '!' then
          (tagPart? false after).map fun (bytes, rest) =>
            (⟨String.ofList handle, untilZero bytes⟩, rest)
        else
          (tagOctets false 0 after).map fun (bytes, rest) =>
            let suffix := untilZero (octets handle.tail ++ bytes)
            (if suffix.isEmpty then ⟨"", octets ['!']⟩ else ⟨"!", suffix⟩, rest)

/-- The handles that need no declaration. -/
def defaultHandles : List (String × Octets) :=
  [("!", octets ['!']), ("!!", octets "tag:yaml.org,2002:".toList)]

/-- The tag that is written, if its handle is known. -/
def WrittenTag.resolve? (handles : List (String × Octets)) (tag : WrittenTag) : Option Octets :=
  if tag.handle.isEmpty then some tag.suffix
  else (handles.lookup tag.handle).map (· ++ tag.suffix)

/-- The tag of truth values. -/
def boolTag : Octets := octets "tag:yaml.org,2002:bool".toList

/-! ## Directives -/

/-- A part of a version: at most nine digits. -/
def readVersionPart (cs : List Char) : Option (Nat × List Char) :=
  let digits := cs.takeWhile Char.isDigit
  if 9 < digits.length then none
  else (readDigits? 10 digits).map fun n => (n, cs.dropWhile Char.isDigit)

/-- The version at the start of a text, and what is left. -/
def readVersion (cs : List Char) : Option (Directive × List Char) :=
  (readVersionPart cs).bind fun (major, after) =>
    match after with
    | '.' :: rest =>
        (readVersionPart rest).map fun (minor, rest) => (.version major minor, rest)
    | _ => none

/-- A handle and what it stands for at the start of a text, and what is left. -/
def readDeclaration (cs : List Char) : Option (Directive × List Char) :=
  (readHandle cs).bind fun (handle, after) =>
    if handle.getLast? ≠ some '!' ∨ ¬ after.head?.any isSpace then none
    else
      (tagPart? true (dropSpaces after)).bind fun (bytes, rest) =>
        if atGap rest then some (.handle (String.ofList handle) (untilZero bytes), rest) else none

/-- The directive at the start of a text behind its sign, and what is left. -/
def readDirective (cs : List Char) : Option (Directive × List Char) :=
  let after := cs.dropWhile isNameChar
  if !atGap after then none
  else
    match String.ofList (cs.takeWhile isNameChar) with
    | "YAML" => readVersion (dropSpaces after)
    | "TAG" => readDeclaration (dropSpaces after)
    | _ => none

/-- The handles that directives declare. The version is 1.1 or 1.2 and given at most once, as is
a handle; `versioned` says whether the version has been given. -/
def declaredHandles? (versioned : Bool) : List Directive → Option (List (String × Octets))
  | [] => some []
  | .version major minor :: rest =>
      if versioned ∨ major ≠ 1 ∨ (minor ≠ 1 ∧ minor ≠ 2) then none else declaredHandles? true rest
  | .handle name start :: rest =>
      (declaredHandles? versioned rest).bind fun handles =>
        if (handles.lookup name).isSome then none else some ((name, start) :: handles)

end SpeechGrammar.Yaml
