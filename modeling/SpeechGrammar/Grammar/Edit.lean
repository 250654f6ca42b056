import SpeechGrammar.Grammar.Document
import SpeechGrammar.Pipeline

set_option autoImplicit false

/-!
# Edits

The operations that change a grammar, as values. `Edit.apply` gives the new grammar or an error;
`Edit.run` works in place and also tells what is left of the grammar after an error. Most edits
compute everything before they change anything. Embedding does not: it appends one child after
the other.
-/

namespace SpeechGrammar

/-- An operation that changes a grammar. -/
inductive Edit where
  /-- Start over with an empty grammar. -/
  | reset
  /-- Replace the grammar by the one that a document writes. -/
  | load (text : String)
  /-- Write the grammar and read it back. -/
  | reload
  | setMode (name : String)
  | setRoot (id : String)
  | setLanguage (language : String)
  | setBaseUri (uri : String)
  | setTagFormat (format : String)
  | append (child : Child)
  | addRule (rule : Rule)
  | embed (other : Grammar)
  | embedSelf
  | embedDocument (text : String)
  | inline
  | normalize
  | tokenize
  | prepare
deriving Repr

/-- The grammar after an edit. -/
def Edit.apply : Edit → Grammar → Except Error Grammar
  | .reset, _ => .ok {}
  | .load text, _ => Grammar.parse text
  | .reload, g => Grammar.parse g.render
  | .setMode name, g => g.setModeName name
  | .setRoot id, g => .ok { g with root := some id }
  | .setLanguage language, g => .ok { g with language := some language }
  | .setBaseUri uri, g => .ok { g with baseUri := some uri }
  | .setTagFormat format, g => .ok { g with tagFormat := some format }
  | .append child, g => g.append child
  | .addRule rule, g => .ok (g.addRule rule)
  | .embed other, g => g.embed other
  | .embedSelf, g => g.embed g
  | .embedDocument text, g => g.embedDocument text
  | .inline, g => g.inlined
  | .normalize, g => .ok g.normalized
  | .tokenize, g => .ok g.tokenized
  | .prepare, g => g.prepared.map Prod.fst

/-! ## In place -/

/-- Append children in place, one after the other. The first one that may not stand in a grammar
ends it, and those before it stay. -/
def Grammar.appendInPlace (g : Grammar) : List Child → Except Error Unit × Grammar
  | [] => (.ok (), g)
  | child :: children =>
      match g.append child with
      | .error e => (.error e, g)
      | .ok next => next.appendInPlace children

/-- Embed another grammar in place. -/
def Grammar.embedInPlace (g other : Grammar) : Except Error Unit × Grammar :=
  if other.mode = g.mode then g.appendInPlace other.children
  else (.error (.modeMismatch g.mode other.mode), g)

/-- Keep the nodes of a grammar in place. The first rule with the root id gets the new body, if
there is one, and every other rule goes. -/
def retainRoot (root? : Option String) : (body? : Option (List Node)) → List Child → List Child
  | _, [] => []
  | body?, .node n :: rest => .node n :: retainRoot root? body? rest
  | some body, .rule r :: rest =>
      if root? = some r.id then .rule { r with body := body } :: retainRoot root? none rest
      else retainRoot root? (some body) rest
  | none, .rule _ :: rest => retainRoot root? none rest

/-- Inline in place. The rules are checked and the root is expanded before anything is changed. -/
def Grammar.inlineInPlace (g : Grammar) : Except Error Unit × Grammar :=
  match checkRules g.rules (List.range g.rules.length) [] with
  | .error e => (.error e, g)
  | .ok () =>
      match g.rootRule?.mapM (expandRule g.rules) with
      | .error e => (.error e, g)
      | .ok body? => (.ok (), { g with children := retainRoot g.root body? g.children })

/-- Put a new grammar in the place of a grammar, once it has been computed. -/
def Grammar.replaceBy (g : Grammar) : Except Error Grammar → Except Error Unit × Grammar
  | .error e => (.error e, g)
  | .ok h => (.ok (), h)

/-- An edit in place: its outcome, and the grammar that is left, after an error too. -/
def Edit.run : Edit → Grammar → Except Error Unit × Grammar
  | .embed other, g => g.embedInPlace other
  | .embedSelf, g => g.embedInPlace g
  | .embedDocument text, g =>
      match Grammar.parse text with
      | .error e => (.error e, g)
      | .ok other => g.embedInPlace other
  | .inline, g => g.inlineInPlace
  | edit, g => g.replaceBy (edit.apply g)

end SpeechGrammar
