import SpeechGrammar.Markup.Attributes

set_option autoImplicit false

/-!
# Events of a document

A document is read as a sequence of events: text with its entities replaced, and the tags. Text
runs lose the blanks at their ends before entities are replaced, and runs that are then empty
vanish. Comments, processing instructions, the declaration and the document type are skipped,
but they end a run of text. The sequence ends with the document or with the first piece that
is malformed. Positions count the bytes of the text.
-/

namespace SpeechGrammar.Markup

open SpeechGrammar.Text

/-- What a document says next. -/
inductive Event where
  /-- A run of text or the content of a verbatim section. -/
  | text (content : List Char)
  /-- A start tag with its full name and its attributes. -/
  | startTag (name : List Char) (attributes : List (String × String))
  /-- A tag that is start and end at once. -/
  | emptyTag (name : List Char) (attributes : List (String × String))
  /-- An end tag and the position where it starts. -/
  | endTag (name : List Char) (position : Nat)
  /-- Something that cannot be read, and the position to report. -/
  | malformed (position : Nat)
deriving Repr, DecidableEq

/-- The number of bytes of a text. -/
def byteLength : List Char → Nat
  | [] => 0
  | c :: cs => c.utf8Size + byteLength cs

/-- One piece of markup: the event it stands for, if any, its number of bytes, and the text
that follows it; or the position to report if it cannot be read. -/
abbrev Piece := Except Nat (Option Event × Nat × List Char)

/-! ## Tags -/

/-- The characters before the first blank. -/
def tagName (content : List Char) : List Char := content.takeWhile (fun c => !isXmlBlank c)

/-- What follows the name of a tag. -/
def tagRest (content : List Char) : List Char := content.dropWhile (fun c => !isXmlBlank c)

/-- The event of a start tag or an empty tag with the given content, if its attributes can be
read. A slash at the very end makes the tag empty. -/
def tagEvent? (content : List Char) : Option Event :=
  if content.getLast? = some '/' then
    (attributes? (tagRest content.dropLast)).map (.emptyTag (tagName content.dropLast))
  else (attributes? (tagRest content)).map (.startTag (tagName content))

/-- The name in an end tag: what follows the slash, without the blanks after it. Blanks alone
are kept. -/
def endTagName (content : List Char) : List Char :=
  if content.all isXmlBlank then content else trimXmlEnd content

/-- A start tag or an empty tag, read from behind its `<` at `position`. Faults in attributes
are reported behind the tag. -/
def readTag (position : Nat) (cs : List Char) : Piece :=
  match cutTag? none cs with
  | none => .error position
  | some (content, rest) =>
      let size := byteLength content + 2
      match tagEvent? content with
      | none => .error (position + size)
      | some event => .ok (some event, size, rest)

/-- An end tag, read from behind the slash. -/
def readEndTag (position : Nat) (cs : List Char) : Piece :=
  match cutTag? none cs with
  | none => .error position
  | some (content, rest) =>
      .ok (some (.endTag (endTagName content) position), byteLength content + 3, rest)

/-! ## Other markup -/

/-- A piece that runs to a mark, read from behind its opening of `size` bytes. -/
def readTo (mark : List Char) (event? : List Char → Option Event) (position size : Nat)
    (cs : List Char) : Piece :=
  match cutAt? mark cs with
  | none => .error position
  | some (content, rest) =>
      .ok (event? content, size + byteLength content + byteLength mark, rest)

/-- A document type, read from behind its `<`. Its keyword may be in any case, and it needs a
name; the lack of one is reported at the end of the piece. -/
def readDocumentType (position : Nat) (cs : List Char) : Piece :=
  match cutBalanced? 0 cs with
  | none => .error position
  | some (content, rest) =>
      if (content.take 8).map Char.toLower = "!doctype".toList then
        if (content.drop 8).all isXmlBlank then .error (position + 1 + byteLength content)
        else .ok (none, byteLength content + 2, rest)
      else .error position

/-- One piece of markup, read from behind the `<` at `position`. -/
def readMarkup (position : Nat) (cs : List Char) : Piece :=
  match cs with
  | '/' :: rest => readEndTag position rest
  -- One question mark cannot both open and close an instruction.
  | '?' :: '>' :: _ => .error position
  | '?' :: rest => readTo ['?', '>'] (fun _ => none) position 2 rest
  | '!' :: '-' :: '-' :: rest => readTo ['-', '-', '>'] (fun _ => none) position 4 rest
  | '!' :: '[' :: 'C' :: 'D' :: 'A' :: 'T' :: 'A' :: '[' :: rest =>
      readTo [']', ']', '>'] (fun content => some (.text content)) position 9 rest
  | '!' :: 'D' :: _ => readDocumentType position cs
  | '!' :: 'd' :: _ => readDocumentType position cs
  | '!' :: _ => .error position
  | [] => .error position
  | _ => readTag position cs

/-! ## Every piece leaves less to read -/

theorem length_lt_of_readTag {position size : Nat} {cs rest : List Char} {event? : Option Event}
    (h : readTag position cs = .ok (event?, size, rest)) : rest.length < cs.length := by
  unfold readTag at h
  split at h
  · cases h
  · rename_i content after hcut
    dsimp only at h
    split at h
    · cases h
    · cases h
      rw [cutTag?_eq_append hcut]
      simp only [List.length_append, List.length_cons]
      omega

theorem length_lt_of_readEndTag {position size : Nat} {cs rest : List Char}
    {event? : Option Event} (h : readEndTag position cs = .ok (event?, size, rest)) :
    rest.length < cs.length := by
  unfold readEndTag at h
  split at h
  · cases h
  · rename_i content after hcut
    cases h
    rw [cutTag?_eq_append hcut]
    simp only [List.length_append, List.length_cons]
    omega

theorem length_le_of_readTo {mark : List Char} {f : List Char → Option Event}
    {position size total : Nat} {cs rest : List Char} {event? : Option Event}
    (h : readTo mark f position size cs = .ok (event?, total, rest)) :
    rest.length ≤ cs.length := by
  unfold readTo at h
  split at h
  · cases h
  · rename_i content after hcut
    cases h
    rw [cutAt?_eq_append hcut]
    simp only [List.length_append]
    omega

theorem length_lt_of_readDocumentType {position size : Nat} {cs rest : List Char}
    {event? : Option Event} (h : readDocumentType position cs = .ok (event?, size, rest)) :
    rest.length < cs.length := by
  unfold readDocumentType at h
  split at h
  · cases h
  · rename_i content after hcut
    split at h
    · split at h
      · cases h
      · cases h
        rw [cutBalanced?_eq_append hcut]
        simp only [List.length_append, List.length_cons]
        omega
    · cases h

theorem length_lt_of_readMarkup {position size : Nat} {cs rest : List Char}
    {event? : Option Event} (h : readMarkup position cs = .ok (event?, size, rest)) :
    rest.length < cs.length := by
  unfold readMarkup at h
  split at h
  · have := length_lt_of_readEndTag h
    simp only [List.length_cons]
    omega
  · cases h
  · have := length_le_of_readTo h
    simp only [List.length_cons]
    omega
  · have := length_le_of_readTo h
    simp only [List.length_cons]
    omega
  · have := length_le_of_readTo h
    simp only [List.length_cons]
    omega
  · exact length_lt_of_readDocumentType h
  · exact length_lt_of_readDocumentType h
  · cases h
  · cases h
  · exact length_lt_of_readTag h

/-! ## The whole document -/

/-- The events of a text that starts at `position`. -/
def events (position : Nat) (cs : List Char) : List Event :=
  match _h : cs.dropWhile isXmlBlank with
  | [] => []
  | '<' :: markup =>
      let start := position + byteLength (cs.takeWhile isXmlBlank)
      match _hm : readMarkup start markup with
      | .error fault => [.malformed fault]
      | .ok (event?, size, rest) => event?.toList ++ events (start + size) rest
  | c :: run =>
      let content := c :: run.takeWhile (· != '<')
      let stop := position + byteLength (cs.takeWhile isXmlBlank) + byteLength content
      match unescape? (trimXmlEnd content) with
      | none => [.malformed stop]
      | some text => .text text :: events stop (run.dropWhile (· != '<'))
termination_by cs.length
decreasing_by
  · have h1 := congrArg List.length _h
    have h2 := length_lt_of_readMarkup _hm
    have h3 := length_dropWhile_le isXmlBlank cs
    simp only [List.length_cons] at h1
    omega
  · have h1 := congrArg List.length _h
    have h2 := length_dropWhile_le (fun c => c != '<') run
    have h3 := length_dropWhile_le isXmlBlank cs
    simp only [List.length_cons] at h1
    omega

end SpeechGrammar.Markup
