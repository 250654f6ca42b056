import SpeechGrammar.Yaml.Scanner

set_option autoImplicit false

/-!
# YAML documents

The tokens of a text are composed into one value: a scalar, a sequence or a mapping. Values may
have anchors. An alias holds the number of an anchor, and what the number stands for is known
at the end of the document. A text holds at most one document.
-/

namespace SpeechGrammar.Yaml

/-- A scalar with its tag. -/
structure Scalar where
  text : String
  style : Style
  tag? : Option Octets
deriving Repr, DecidableEq

/-- A value. -/
inductive Value where
  | scalar (scalar : Scalar)
  | sequence (items : List Value)
  | mapping (entries : List (Value × Value))
  | alias (number : Nat)
deriving Repr, Inhabited

/-- A value that is not written. -/
def Value.missing : Value := .scalar ⟨"", .plain, none⟩

/-- A document: its value, and the values with an anchor by their numbers, latest first. -/
structure Document where
  value : Value
  anchored : List (Nat × Value)

/-- What a value stands for: an alias stands for the value that got its number last. -/
def Document.resolve? (d : Document) : Value → Option Value
  | .alias number => d.anchored.lookup number
  | value => some value

/-! ## Properties of values -/

/-- What is left to compose, what the handles of tags stand for, the numbers of anchors, and the
values with an anchor in the order in which they start. -/
structure Composer where
  tokens : List Token
  handles : List (String × Octets)
  numbers : List (String × Nat) := []
  anchored : Array (Nat × Value) := #[]

/-- Give an anchor to the value that starts here, which is filled in when it is complete. Its
number is the number of the names in use, so a name that is set again shares its number with
the next new name. The result has the place of the value. -/
def Composer.enter (c : Composer) : Option String → Composer × Option Nat
  | none => (c, none)
  | some name =>
      let number := c.numbers.length
      ({ c with
          numbers := (name, number) :: c.numbers.filter (·.1 != name)
          anchored := c.anchored.push (number, .missing) },
        some c.anchored.size)

/-- Fill in a value that is complete. -/
def Composer.fill (c : Composer) (place? : Option Nat) (value : Value) : Composer :=
  match place? with
  | none => c
  | some place => { c with anchored := c.anchored.modify place fun (number, _) => (number, value) }

/-- The anchor and tag in front of a value, in any order, and the rest. -/
def properties : List Token → Option String × Option WrittenTag × List Token
  | .anchor name :: .tag tag :: rest => (some name, some tag, rest)
  | .tag tag :: .anchor name :: rest => (some name, some tag, rest)
  | .anchor name :: rest => (some name, none, rest)
  | .tag tag :: rest => (none, some tag, rest)
  | rest => (none, none, rest)

/-- The tag that is written, if there is one; its handle has to be known. -/
def Composer.tag? (c : Composer) : Option WrittenTag → Option (Option Octets)
  | none => some none
  | some tag => (tag.resolve? c.handles).map some

/-! ## Values -/

/-- The next token is one of the given ones, or there is none. -/
def Composer.nextIn (c : Composer) (marks : List Token) : Bool :=
  match c.tokens with
  | [] => true
  | token :: _ => marks.contains token

/-- Go to the next item in brackets, past the comma before it, or past the given end; the result
says whether the end has come. -/
def nextItem (close : Token) (first : Bool) (c : Composer) : Option (Composer × Bool) :=
  match c.tokens with
  | [] => none
  | token :: rest =>
      if token = close then some ({ c with tokens := rest }, true)
      else if first then some (c, false)
      else if token = .flowEntry then
        if rest.head? = some close then some ({ c with tokens := rest.tail }, true)
        else some ({ c with tokens := rest }, false)
      else none

mutual

/-- Compose a value. Blocks may start where `block` holds, and a sequence may stand without
indentation of its own where `flush` holds. -/
def composeValue : (fuel : Nat) → (block flush : Bool) → Composer → Option (Value × Composer)
  | 0, _, _, _ => none
  | fuel + 1, block, flush, c =>
      match c.tokens with
      | .alias name :: rest =>
          (c.numbers.lookup name).map fun number => (.alias number, { c with tokens := rest })
      | tokens =>
          let (anchor?, written?, rest) := properties tokens
          (c.tag? written?).bind fun tag? =>
            let (c, place?) := c.enter anchor?
            let inner := { c with tokens := rest }
            let after (tokens : List Token) : Composer := { c with tokens := tokens }
            let finish (result : Option (Value × Composer)) : Option (Value × Composer) :=
              result.map fun (value, c) => (value, c.fill place? value)
            let absent : Option (Value × Composer) :=
              if anchor?.isSome || tag?.isSome then
                finish (some (.scalar ⟨"", .plain, tag?⟩, inner))
              else none
            match rest with
            | .blockEntry :: _ =>
                if flush then
                  finish ((composeEntries fuel false inner).map fun (items, c) =>
                    (.sequence items, c))
                else absent
            | .scalar text style :: rest =>
                finish (some (.scalar ⟨text, style, tag?⟩, after rest))
            | .flowSequenceStart :: rest =>
                finish ((composeFlowItems fuel true (after rest)).map fun (items, c) =>
                  (.sequence items, c))
            | .flowMappingStart :: rest =>
                finish ((composeFlowPairs fuel true (after rest)).map fun (entries, c) =>
                  (.mapping entries, c))
            | .blockSequenceStart :: rest =>
                if block then
                  finish ((composeEntries fuel true (after rest)).map fun (items, c) =>
                    (.sequence items, c))
                else absent
            | .blockMappingStart :: rest =>
                if block then
                  finish ((composePairs fuel (after rest)).map fun (entries, c) =>
                    (.mapping entries, c))
                else absent
            | _ => absent

/-- Compose a value unless one of the given tokens follows. -/
def composeUnless : (fuel : Nat) → (marks : List Token) → (block flush : Bool) → Composer →
    Option (Value × Composer)
  | 0, _, _, _, _ => none
  | fuel + 1, marks, block, flush, c =>
      if c.nextIn marks then some (.missing, c) else composeValue fuel block flush c

/-- Compose the entries of a block sequence, which is closed if it has been opened. -/
def composeEntries : (fuel : Nat) → (opened : Bool) → Composer → Option (List Value × Composer)
  | 0, _, _ => none
  | fuel + 1, opened, c =>
      match c.tokens with
      | .blockEntry :: rest =>
          let marks : List Token :=
            if opened then [.blockEntry, .blockEnd] else [.blockEntry, .key, .value, .blockEnd]
          (composeUnless fuel marks true false { c with tokens := rest }).bind fun (item, c) =>
            (composeEntries fuel opened c).map fun (items, c) => (item :: items, c)
      | .blockEnd :: rest => some ([], if opened then { c with tokens := rest } else c)
      | _ => if opened then none else some ([], c)

/-- Compose the entries of a block mapping. -/
def composePairs : (fuel : Nat) → Composer → Option (List (Value × Value) × Composer)
  | 0, _ => none
  | fuel + 1, c =>
      match c.tokens with
      | .key :: rest =>
          let marks : List Token := [.key, .value, .blockEnd]
          (composeUnless fuel marks true true { c with tokens := rest }).bind fun (key, c) =>
            let value? : Option (Value × Composer) :=
              match c.tokens with
              | .value :: rest => composeUnless fuel marks true true { c with tokens := rest }
              | _ => some (.missing, c)
            value?.bind fun (value, c) =>
              (composePairs fuel c).map fun (entries, c) => ((key, value) :: entries, c)
      | .blockEnd :: rest => some ([], { c with tokens := rest })
      | _ => none

/-- Compose a pair in braces behind the mark of its key. -/
def composeFlowPair : (fuel : Nat) → Composer → Option ((Value × Value) × Composer)
  | 0, _ => none
  | fuel + 1, c =>
      (composeUnless fuel [.value, .flowEntry, .flowMappingEnd] false false c).bind
        fun (key, c) =>
          (composeFlowValue fuel .flowMappingEnd c).map fun (value, c) => ((key, value), c)

/-- Compose a single pair among the items in brackets, behind the mark of its key. A colon,
comma or bracket that stands in place of the key goes with the key that is missing. -/
def composeSinglePair : (fuel : Nat) → Composer → Option ((Value × Value) × Composer)
  | 0, _ => none
  | fuel + 1, c =>
      let key? : Option (Value × Composer) :=
        match c.tokens with
        | [] => none
        | token :: rest =>
            if token = .value ∨ token = .flowEntry ∨ token = .flowSequenceEnd then
              some (.missing, { c with tokens := rest })
            else composeValue fuel false false c
      key?.bind fun (key, c) =>
        (composeFlowValue fuel .flowSequenceEnd c).map fun (value, c) => ((key, value), c)

/-- Compose the value of a pair in brackets with the given end. It is missing if there is no
colon. -/
def composeFlowValue : (fuel : Nat) → (close : Token) → Composer → Option (Value × Composer)
  | 0, _, _ => none
  | fuel + 1, close, c =>
      match c.tokens with
      | .value :: rest =>
          composeUnless fuel [.flowEntry, close] false false { c with tokens := rest }
      | _ => some (.missing, c)

/-- Compose the items of a sequence in brackets. An item may be a single pair. -/
def composeFlowItems : (fuel : Nat) → (first : Bool) → Composer → Option (List Value × Composer)
  | 0, _, _ => none
  | fuel + 1, first, c =>
      match nextItem .flowSequenceEnd first c with
      | none => none
      | some (c, true) => some ([], c)
      | some (c, false) =>
          let item? : Option (Value × Composer) :=
            match c.tokens with
            | .key :: rest =>
                (composeSinglePair fuel { c with tokens := rest }).map
                  fun (pair, c) => (.mapping [pair], c)
            | _ => composeValue fuel false false c
          item?.bind fun (item, c) =>
            (composeFlowItems fuel false c).map fun (items, c) => (item :: items, c)

/-- Compose the pairs of a mapping in braces. A key may stand without a value. -/
def composeFlowPairs : (fuel : Nat) → (first : Bool) → Composer →
    Option (List (Value × Value) × Composer)
  | 0, _, _ => none
  | fuel + 1, first, c =>
      match nextItem .flowMappingEnd first c with
      | none => none
      | some (c, true) => some ([], c)
      | some (c, false) =>
          let pair? : Option ((Value × Value) × Composer) :=
            match c.tokens with
            | .key :: rest => composeFlowPair fuel { c with tokens := rest }
            | _ =>
                (composeValue fuel false false c).map fun (key, c) => ((key, .missing), c)
          pair?.bind fun (pair, c) =>
            (composeFlowPairs fuel false c).map fun (pairs, c) => (pair :: pairs, c)

end

/-! ## Documents -/

/-- The directives at the start of a list of tokens, and the rest. -/
def splitDirectives : List Token → List Directive × List Token
  | .directive directive :: rest =>
      let (directives, body) := splitDirectives rest
      (directive :: directives, body)
  | rest => ([], rest)

/-- The document between its marks has no content. -/
def isBlank : List Token → Bool
  | [] => true
  | .directive _ :: _ => true
  | .documentStart :: _ => true
  | .documentEnd :: _ => true
  | _ => false

/-- The document that tokens make up. Only the end of the document may follow its value. -/
def composeDocument (handles : List (String × Octets)) (marked : Bool) (body : List Token) :
    Option Document :=
  let c : Composer := { tokens := body, handles := handles ++ defaultHandles }
  let result? :=
    if marked && isBlank body then some (.missing, c)
    else composeValue (8 * body.length + 8) true false c
  result?.bind fun (value, c) =>
    if c.tokens.all (· == .documentEnd) then some ⟨value, c.anchored.toList.reverse⟩ else none

/-- The document of a text: there may be none, and there may not be two. Behind directives it
starts with its mark. -/
def document? (text : List Char) : Option (Option Document) :=
  (tokens? text).bind fun tokens =>
    let (directives, body) := splitDirectives tokens
    (declaredHandles? false directives).bind fun handles =>
      match body with
      | [] => if directives.isEmpty then some none else none
      | .documentStart :: body => (composeDocument handles true body).map some
      | body =>
          if directives.isEmpty then (composeDocument handles false body).map some else none

end SpeechGrammar.Yaml
