import SpeechGrammar.Markup.Event
import SpeechGrammar.Markup.Tree

set_option autoImplicit false

/-!
# Reading markup

The events of a document are assembled into a tree with a stack of open elements. Text outside
the root is dropped. An element closes into the one below it, or becomes the root.
-/

namespace SpeechGrammar.Markup

/-- Why a text is not a document. -/
inductive ReadError where
  | noRoot
  | malformed (position : Nat)
  | unclosed (name : String)
  | secondRoot
deriving Repr, DecidableEq

/-- The wording of a reading error. -/
def ReadError.message : ReadError → String
  | .noRoot => "empty input"
  | .malformed position => s!"malformed xml at byte {position}"
  | .unclosed name => s!"element <{name}> is never closed"
  | .secondRoot => "document has more than one root element"

/-- An element that has been opened, with the full name that has to close it. -/
structure OpenElement where
  fullName : List Char
  element : Element

/-- What has been read: the open elements, innermost first, and the root once it is closed. -/
structure Assembly where
  opened : List OpenElement := []
  root? : Option Element := none

/-- The part of a name after the first colon, or all of it. -/
def localName (name : List Char) : List Char :=
  match name.dropWhile (· != ':') with
  | [] => name
  | _ :: rest => rest

/-- The element that a tag opens: the local name, and the attributes set one after the other. A tag
that has a key twice is malformed (`attributes?`), so none of them is set again. -/
def tagElement (name : List Char) (attributes : List (String × String)) : Element :=
  Element.setAttrs { name := String.ofList (localName name) } attributes

/-- Append a node to the innermost open element; outside the root it is dropped. -/
def Assembly.pushInner (a : Assembly) (node : Node) : Assembly :=
  match a.opened with
  | [] => a
  | inner :: outer => { a with opened := { inner with element := inner.element.push node } :: outer }

/-- Take a finished element as a child of the innermost open one, or as the root. -/
def Assembly.attach (a : Assembly) (e : Element) : Except ReadError Assembly :=
  match a.opened, a.root? with
  | _ :: _, _ => .ok (a.pushInner e.toNode)
  | [], some _ => .error .secondRoot
  | [], none => .ok { a with root? := some e }

/-- Take one event into account. -/
def Assembly.take (a : Assembly) : Event → Except ReadError Assembly
  | .text content => .ok (if content.isEmpty then a else a.pushInner (.text (String.ofList content)))
  | .startTag name attributes =>
      .ok { a with opened := ⟨name, tagElement name attributes⟩ :: a.opened }
  | .emptyTag name attributes => a.attach (tagElement name attributes)
  | .endTag name position =>
      match a.opened with
      | [] => .error (.malformed position)
      | inner :: outer =>
          if inner.fullName = name then { a with opened := outer }.attach inner.element
          else .error (.malformed position)
  | .malformed position => .error (.malformed position)

/-- The root of a document that has ended. -/
def Assembly.finish (a : Assembly) : Except ReadError Element :=
  match a.opened, a.root? with
  | inner :: _, _ => .error (.unclosed inner.element.name)
  | [], none => .error .noRoot
  | [], some root => .ok root

/-- The text without a byte order mark at its start. -/
def dropMark : List Char → List Char
  | '\ufeff' :: cs => cs
  | cs => cs

/-- The root element of the document that the characters write. -/
def readChars (cs : List Char) : Except ReadError Element :=
  ((events 0 (dropMark cs)).foldlM Assembly.take {}).bind Assembly.finish

/-- The root element of the document that a text writes. -/
def read (s : String) : Except ReadError Element := readChars s.toList

end SpeechGrammar.Markup
