set_option autoImplicit false

/-!
# Markup trees

An element has a name, attributes in document order and children that are text or elements.
Elements are built by `setAttr`, which keeps one value per key at the place of its first
setting, and by `push`, which joins text to a text right before it.
-/

namespace SpeechGrammar.Markup

/-- A child of an element: text, or a nested element with its attributes and children. -/
inductive Node where
  | text (content : String)
  | element (name : String) (attributes : List (String × String)) (children : List Node)
deriving Repr, Inhabited

mutual

/-- Equality of nodes is decidable. -/
def Node.decEq : (a b : Node) → Decidable (a = b)
  | .text s, .text t =>
      if h : s = t then isTrue (by rw [h]) else isFalse (by intro e; cases e; exact h rfl)
  | .text _, .element _ _ _ => isFalse (by intro e; cases e)
  | .element _ _ _, .text _ => isFalse (by intro e; cases e)
  | .element n as cs, .element m bs ds =>
      if hn : n = m then
        if ha : as = bs then
          match Node.decEqList cs ds with
          | isTrue hc => isTrue (by rw [hn, ha, hc])
          | isFalse hc => isFalse (by intro e; cases e; exact hc rfl)
        else isFalse (by intro e; cases e; exact ha rfl)
      else isFalse (by intro e; cases e; exact hn rfl)

/-- Equality of lists of nodes is decidable. -/
def Node.decEqList : (as bs : List Node) → Decidable (as = bs)
  | [], [] => isTrue rfl
  | [], _ :: _ => isFalse (by intro e; cases e)
  | _ :: _, [] => isFalse (by intro e; cases e)
  | a :: as, b :: bs =>
      match Node.decEq a b, Node.decEqList as bs with
      | isTrue h, isTrue t => isTrue (by rw [h, t])
      | isFalse h, _ => isFalse (by intro e; cases e; exact h rfl)
      | _, isFalse t => isFalse (by intro e; cases e; exact t rfl)

end

instance : DecidableEq Node := Node.decEq

/-- An element on its own, as the root of a document or under construction. -/
structure Element where
  name : String
  attributes : List (String × String) := []
  children : List Node := []
deriving Repr, Inhabited, DecidableEq

/-- The element as a child. -/
def Element.toNode (e : Element) : Node := .element e.name e.attributes e.children

/-- The element that a child is, if it is one. -/
def Node.toElement? : Node → Option Element
  | .text _ => none
  | .element name attributes children => some ⟨name, attributes, children⟩

/-! ## Attributes -/

/-- The value of the first entry with the key. -/
def lookup? (key : String) : List (String × String) → Option String
  | [] => none
  | (k, v) :: rest => if k = key then some v else lookup? key rest

/-- Replace the value of the first entry with the key, or append an entry. -/
def insertAttr (key value : String) : List (String × String) → List (String × String)
  | [] => [(key, value)]
  | (k, v) :: rest =>
      if k = key then (k, value) :: rest else (k, v) :: insertAttr key value rest

/-- Set entries one after the other. -/
def insertAll (settings attributes : List (String × String)) : List (String × String) :=
  settings.foldl (fun attributes setting => insertAttr setting.1 setting.2 attributes) attributes

/-- The value of an attribute. -/
def Element.attr? (e : Element) (key : String) : Option String := lookup? key e.attributes

/-- Set an attribute. A key that is set again keeps its place. -/
def Element.setAttr (e : Element) (key value : String) : Element :=
  { e with attributes := insertAttr key value e.attributes }

/-- Set attributes one after the other. -/
def Element.setAttrs (e : Element) (settings : List (String × String)) : Element :=
  settings.foldl (fun e setting => e.setAttr setting.1 setting.2) e

/-- Set an attribute if there is a value for it. -/
def Element.setAttr? (e : Element) (key : String) : Option String → Element
  | none => e
  | some value => e.setAttr key value

/-! ## Children -/

/-- Append a child; text joins a text that is the last child. -/
def pushNode : List Node → Node → List Node
  | [], node => [node]
  | [.text old], .text new => [.text (old ++ new)]
  | c :: cs, node => c :: pushNode cs node

/-- Append a child; text joins a text that is the last child. -/
def Element.push (e : Element) (node : Node) : Element :=
  { e with children := pushNode e.children node }

/-- Append children one after the other. -/
def Element.pushAll (e : Element) (nodes : List Node) : Element :=
  nodes.foldl Element.push e

/-- The children that are elements, in order. -/
def Element.childElements (e : Element) : List Element := e.children.filterMap Node.toElement?

mutual

/-- The text of a node and of everything below it, in document order. -/
def Node.textContent : Node → String
  | .text s => s
  | .element _ _ children => textContents children

/-- The text of a list of nodes, in document order. -/
def textContents : List Node → String
  | [] => ""
  | n :: ns => n.textContent ++ textContents ns

end

/-- The text of an element and of everything below it, in document order. -/
def Element.textContent (e : Element) : String := textContents e.children

end SpeechGrammar.Markup
