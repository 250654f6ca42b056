set_option autoImplicit false

/-!
# Compact JSON

Values are written without blanks. In strings only the quote, the backslash and the controls
are escaped.
-/

namespace SpeechGrammar

/-- A JSON value without fractions. The entries of an object keep their order. -/
inductive Json where
  | null
  | bool (b : Bool)
  | int (n : Int)
  | string (s : String)
  | array (items : List Json)
  | object (entries : List (String × Json))
deriving Repr, Inhabited

namespace Json

/-- The written form of a character in a string. -/
def escapeChar (c : Char) : List Char :=
  match c with
  | '"' => ['\\', '"']
  | '\\' => ['\\', '\\']
  | '\x08' => ['\\', 'b']
  | '\x0c' => ['\\', 'f']
  | '\n' => ['\\', 'n']
  | '\r' => ['\\', 'r']
  | '\t' => ['\\', 't']
  | c =>
      if c.toNat < 0x20 then
        ['\\', 'u', '0', '0', Nat.digitChar (c.toNat / 16), Nat.digitChar (c.toNat % 16)]
      else [c]

/-- The written form of a string. -/
def quote (s : String) : List Char := '"' :: (s.toList.flatMap escapeChar ++ ['"'])

mutual

/-- The written form of a value. -/
def render : Json → List Char
  | .null => "null".toList
  | .bool true => "true".toList
  | .bool false => "false".toList
  | .int n => (toString n).toList
  | .string s => quote s
  | .array items => '[' :: (renderItems items ++ [']'])
  | .object entries => '\x7b' :: (renderEntries entries ++ ['\x7d'])

/-- The items of an array, with commas between them. -/
def renderItems : List Json → List Char
  | [] => []
  | [item] => item.render
  | item :: next :: rest => item.render ++ ',' :: renderItems (next :: rest)

/-- The entries of an object, with commas between them. -/
def renderEntries : List (String × Json) → List Char
  | [] => []
  | [(key, value)] => quote key ++ ':' :: value.render
  | (key, value) :: next :: rest =>
      quote key ++ ':' :: (value.render ++ ',' :: renderEntries (next :: rest))

end

/-- The string, or null. -/
def ofString? : Option String → Json
  | none => .null
  | some s => .string s

end Json

end SpeechGrammar
