import SpeechGrammar.Yaml.Scalar

set_option autoImplicit false

/-!
# From a YAML text to its tokens

A YAML text is cut into tokens. The structure of blocks is in the indentation: a token that
stands further right than its block opens a new block, one that stands further left closes
blocks. Whether a scalar is a key is known only at the colon behind it, so the scanner remembers
where a key may have started and puts the mark of a key there afterwards.
-/

namespace SpeechGrammar.Yaml

/-- Where a key may have started: the number of tokens before it and its place in the text. A
required key has to be followed by a colon. -/
structure PossibleKey where
  position : Nat
  index : Nat
  line : Nat
  column : Nat
  required : Bool
deriving Repr

/-- The state of the scanner. Indentation is the column of the block plus one, and zero outside
blocks. There is one possible key for each level of brackets, innermost first. -/
structure Scanner where
  cursor : Cursor
  flow : Nat := 0
  indent : Nat := 0
  outerIndents : List Nat := []
  keyAllowed : Bool := true
  keys : List (Option PossibleKey) := [none]
  tokens : Array Token := #[]

namespace Scanner

/-! ## Moving -/

/-- Go past one character or one line break. -/
def advance (s : Scanner) : Scanner := { s with cursor := s.cursor.advance }

/-- Go past blanks, comments, line breaks, and a byte order mark at the start of a line. A tab
may not stand where a key can start. -/
def skipGap : (fuel : Nat) → Scanner → Scanner
  | 0, s => s
  | fuel + 1, s =>
      match s.cursor.rest with
      | [] => s
      | c :: _ =>
          if c = '\ufeff' ∧ s.cursor.column = 0 then skipGap fuel s.advance
          else if c = ' ' ∨ (c = '\t' ∧ (0 < s.flow ∨ ¬ s.keyAllowed)) then skipGap fuel s.advance
          else if c = '#' then skipGap fuel { s with cursor := s.cursor.skipLine }
          else if isBreak c then
            skipGap fuel { s.advance with keyAllowed := s.keyAllowed || s.flow == 0 }
          else s

/-! ## Tokens and blocks -/

/-- Append a token. -/
def emit (s : Scanner) (token : Token) : Scanner := { s with tokens := s.tokens.push token }

/-- Close the blocks that stand further right than a column plus one. -/
def unroll (s : Scanner) (indent : Nat) : Scanner :=
  if 0 < s.flow then s else go s s.outerIndents
where
  /-- Close blocks while there are outer ones. -/
  go (s : Scanner) : List Nat → Scanner
    | [] => s
    | outer :: outers =>
        if indent < s.indent then
          go { s with indent := outer, outerIndents := outers, tokens := s.tokens.push .blockEnd }
            outers
        else s

/-- Open a block at a column if it stands further right than the current one; its mark goes to
a place among the tokens. -/
def roll (s : Scanner) (column position : Nat) (mark : Token) : Scanner :=
  if 0 < s.flow || column + 1 ≤ s.indent then s
  else
    { s with indent := column + 1, outerIndents := s.indent :: s.outerIndents,
             tokens := s.tokens.insertIdxIfInBounds position mark }

/-- Drop the possible key of the current level, unless it is required. -/
def dropKey (s : Scanner) : Option Scanner :=
  match s.keys with
  | some key :: keys => if key.required then none else some { s with keys := none :: keys }
  | _ => some s

/-- A key may start here. -/
def saveKey (s : Scanner) : Option Scanner :=
  if s.keyAllowed then
    s.dropKey.map fun s =>
      let place := s.cursor
      -- What starts a line of a block mapping has to be a key.
      { s with keys := some ⟨s.tokens.size, place.index, place.line, place.column,
        s.flow == 0 && s.indent == place.column + 1⟩ :: s.keys.tail }
  else some s

/-- Forget the possible keys that are on an earlier line or too far back. -/
def dropStaleKeys (s : Scanner) : Option Scanner :=
  let fresh? (key? : Option PossibleKey) : Option (Option PossibleKey) :=
    match key? with
    | none => some none
    | some key =>
        if key.line < s.cursor.line || key.index + 1024 < s.cursor.index then
          if key.required then none else some none
        else some (some key)
  (s.keys.mapM fresh?).map fun keys => { s with keys := keys }

/-! ## Kinds of tokens -/

/-- Read an anchor or an alias from its sign. -/
def readName (s : Scanner) (token : String → Token) : Option Scanner :=
  s.saveKey.bind fun s =>
    let start := s.cursor.advance
    let name := start.rest.takeWhile isNameChar
    let place := start.skip name.length
    let ended := atGap place.rest || place.rest.head?.any ("?:,]\x7d%@`".toList.contains ·)
    if name.isEmpty || !ended then none
    else
      some { s.emit (token (String.ofList name)) with cursor := place, keyAllowed := false }

/-- Read a tag from its sign. -/
def readTag (s : Scanner) : Option Scanner :=
  s.saveKey.bind fun s =>
    (Yaml.readTag s.cursor.rest).bind fun (tag, after) =>
      if atGap after || (0 < s.flow && after.head? == some ',') then
        some { s.emit (.tag tag) with cursor := s.cursor.skipTo after, keyAllowed := false }
      else none

/-- Read a directive from its sign, with its line. -/
def readDirective (s : Scanner) : Option Scanner :=
  (s.unroll 0).dropKey.bind fun s =>
    let start := s.cursor.advance
    (Yaml.readDirective start.rest).bind fun (directive, after) =>
      (start.skipTo after).finishLine?.map fun place =>
        { s.emit (.directive directive) with cursor := place, keyAllowed := false }

/-- Read a mark of a document. -/
def readDocumentMark (s : Scanner) (token : Token) : Option Scanner :=
  (s.unroll 0).dropKey.map fun s =>
    { s.emit token with cursor := s.cursor.skip 3, keyAllowed := false }

/-- Read a token of one character that opens a bracket. -/
def openBracket (s : Scanner) (token : Token) : Option Scanner :=
  s.saveKey.map fun s =>
    { (s.emit token).advance with
      flow := s.flow + 1, keys := none :: s.keys, keyAllowed := true }

/-- Read a token of one character that closes a bracket. -/
def closeBracket (s : Scanner) (token : Token) : Option Scanner :=
  s.dropKey.map fun s =>
    { (s.emit token).advance with
      flow := s.flow - 1, keys := if s.flow = 0 then s.keys else s.keys.tail,
      keyAllowed := false }

/-- Read the comma between two items in brackets. -/
def readComma (s : Scanner) : Option Scanner :=
  s.dropKey.map fun s => { (s.emit .flowEntry).advance with keyAllowed := true }

/-- Read the dash of an entry of a sequence. -/
def readEntry (s : Scanner) : Option Scanner :=
  if s.flow = 0 ∧ ¬ s.keyAllowed then none
  else
    (s.roll s.cursor.column s.tokens.size .blockSequenceStart).dropKey.map fun s =>
      { (s.emit .blockEntry).advance with keyAllowed := true }

/-- Read the question mark of a key. -/
def readKey (s : Scanner) : Option Scanner :=
  if s.flow = 0 ∧ ¬ s.keyAllowed then none
  else
    (s.roll s.cursor.column s.tokens.size .blockMappingStart).dropKey.map fun s =>
      { (s.emit .key).advance with keyAllowed := s.flow == 0 }

/-- Read the colon of a value. If a key may have started before it, it did. -/
def readValue (s : Scanner) : Option Scanner :=
  match s.keys with
  | some key :: keys =>
      -- The marks go in front of the tokens of the key, which have been read by now.
      let marked := { s with tokens := s.tokens.insertIdxIfInBounds key.position .key,
                             keys := none :: keys }
      let rolled := marked.roll key.column key.position .blockMappingStart
      some { (rolled.emit .value).advance with keyAllowed := false }
  | _ =>
      if s.flow = 0 ∧ ¬ s.keyAllowed then none
      else
        let rolled := s.roll s.cursor.column s.tokens.size .blockMappingStart
        some { (rolled.emit .value).advance with keyAllowed := s.flow == 0 }

/-- Append a scalar whose text has been read in reverse. -/
def emitScalar (s : Scanner) (text : List Char) (style : Style) : Scanner :=
  s.emit (.scalar (String.ofList text.reverse) style)

/-- Read a block of lines from its sign. A key may start behind it. -/
def readBlock (s : Scanner) (style : Style) : Option Scanner :=
  s.dropKey.bind fun s =>
    (s.cursor.blockText (style == .folded) s.indent).map fun (place, text) =>
      { s.emitScalar text style with cursor := place, keyAllowed := true }

/-- Read a scalar in quotes from its quote. -/
def readQuoted (s : Scanner) (quote : Char) (style : Style) : Option Scanner :=
  s.saveKey.bind fun s =>
    (s.cursor.advance.quotedText quote (s.cursor.rest.length + 1) [] {}).map fun (place, text) =>
      { s.emitScalar text style with cursor := place, keyAllowed := false }

/-- Read a plain scalar. A key may start behind it if a line break has been passed. -/
def readPlain (s : Scanner) : Option Scanner :=
  s.saveKey.bind fun s =>
    (s.cursor.plainText (0 < s.flow) s.indent (s.cursor.rest.length + 1) [] {}).map
      fun (place, text, broken) =>
        { s.emitScalar text .plain with cursor := place, keyAllowed := broken }

/-- A plain scalar can start with the character in front of the text. -/
def startsPlain (flow : Bool) (c : Char) (cs : List Char) : Bool :=
  !("-?:,[]\x7b\x7d#&*!|>\x27\"%@`".toList.contains c || isSpace c || isBreak c) ||
    (c == '-' && !cs.head?.any isSpace) || (!flow && (c == '?' || c == ':') && !atGap cs)

/-- Read the token that starts here with a character. -/
def readToken (s : Scanner) (c : Char) (cs : List Char) : Option Scanner :=
  let flow := 0 < s.flow
  -- Directives and marks of documents stand at the start of a line, also inside brackets.
  if s.cursor.column = 0 ∧ c = '%' then s.readDirective
  else if s.cursor.atDocumentMark then
    s.readDocumentMark (if c = '-' then .documentStart else .documentEnd)
  else if c = '[' then s.openBracket .flowSequenceStart
  else if c = '\x7b' then s.openBracket .flowMappingStart
  else if c = ']' then s.closeBracket .flowSequenceEnd
  else if c = '\x7d' then s.closeBracket .flowMappingEnd
  else if c = ',' then s.readComma
  else if c = '-' ∧ atGap cs then s.readEntry
  else if c = '?' ∧ (flow ∨ atGap cs) then s.readKey
  else if c = ':' ∧ (flow ∨ atGap cs) then s.readValue
  else if c = '*' then s.readName .alias
  else if c = '&' then s.readName .anchor
  else if c = '!' then s.readTag
  else if c = '|' ∧ ¬ flow then s.readBlock .literal
  else if c = '>' ∧ ¬ flow then s.readBlock .folded
  else if c = '\x27' then s.readQuoted c .singleQuoted
  else if c = '"' then s.readQuoted c .doubleQuoted
  else if startsPlain flow c cs then s.readPlain
  else none

/-- Read tokens up to the end of the text. Each token takes at least one character, so the fuel
is never less than the characters that are left. -/
def run : (fuel : Nat) → Scanner → Option (List Token)
  | 0, _ => none
  | fuel + 1, s =>
      (skipGap (fuel + 1) s).dropStaleKeys.bind fun s =>
        match s.cursor.rest with
        | [] => (s.unroll 0).dropKey.map fun s => s.tokens.toList
        | c :: cs => ((s.unroll (s.cursor.column + 1)).readToken c cs).bind (run fuel)

end Scanner

/-- The tokens of a text, if it can be cut into tokens. -/
def tokens? (text : List Char) : Option (List Token) :=
  if text.all isAllowed then Scanner.run (text.length + 1) { cursor := { rest := text } }
  else none

end SpeechGrammar.Yaml
