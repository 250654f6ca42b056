import SpeechGrammar.Markup.Tree
import SpeechGrammar.Markup.Entity

set_option autoImplicit false

/-!
# Writing markup

The written form has no indentation. An element without children is written as one empty tag.
-/

namespace SpeechGrammar.Markup

/-- The attributes of a tag, each after a space. -/
def renderAttributes (attributes : List (String × String)) : List Char :=
  attributes.flatMap fun (key, value) =>
    ' ' :: (key.toList ++ '=' :: '"' :: (escape value.toList ++ ['"']))

mutual

/-- The written form of a node. -/
def Node.render : Node → List Char
  | .text s => escape s.toList
  | .element name attributes [] =>
      '<' :: (name.toList ++ renderAttributes attributes ++ ['/', '>'])
  | .element name attributes (c :: cs) =>
      '<' :: (name.toList ++ renderAttributes attributes ++ '>' :: (renderAll (c :: cs) ++
        '<' :: '/' :: (name.toList ++ ['>'])))

/-- The written form of a list of nodes. -/
def renderAll : List Node → List Char
  | [] => []
  | n :: ns => n.render ++ renderAll ns

end

/-- The written form of a document with the given root. -/
def Element.render (e : Element) : String := String.ofList e.toNode.render

end SpeechGrammar.Markup
