import SpeechGrammar.Markup.Cut
import SpeechGrammar.Markup.Entity

set_option autoImplicit false

/-!
# Attributes of a tag

What follows the name in a tag is a sequence of keys, each with an equals sign and a quoted
value. Blanks may stand around each part. A key may not occur twice, and the entities of a
value are replaced.
-/

namespace SpeechGrammar.Markup

open SpeechGrammar.Text

/-- The character belongs to the key that has been started before it. -/
def isKeyChar (c : Char) : Bool := c != '=' && !isXmlBlank c

/-- One attribute at the start of a text that does not start with a blank: its key, its value
with entities replaced, and what follows it. -/
def attribute? : List Char → Option ((String × String) × List Char)
  | [] => none
  | k :: cs =>
      match (cs.dropWhile isKeyChar).dropWhile isXmlBlank with
      | '=' :: afterEquals =>
          match afterEquals.dropWhile isXmlBlank with
          | [] => none
          | q :: body =>
              if q = '"' ∨ q = '\x27' then
                match cutAt? [q] body with
                | none => none
                | some (raw, rest) =>
                    (unescape? raw).map fun value =>
                      ((String.ofList (k :: cs.takeWhile isKeyChar), String.ofList value), rest)
              else none
      | _ => none

theorem length_dropWhile_le {α : Type} (p : α → Bool) (cs : List α) :
    (cs.dropWhile p).length ≤ cs.length :=
  (List.dropWhile_suffix p).length_le

theorem length_lt_of_attribute? {cs rest : List Char} {entry : String × String}
    (h : attribute? cs = some (entry, rest)) : rest.length < cs.length := by
  cases cs with
  | nil => simp [attribute?] at h
  | cons k cs =>
      rw [attribute?] at h
      split at h
      · rename_i afterEquals hkey
        split at h
        · cases h
        · rename_i q body hquote
          split at h
          · split at h
            · cases h
            · rename_i raw after hcut
              obtain ⟨value, -, heq⟩ := Option.map_eq_some_iff.1 h
              have hrest : after = rest := congrArg Prod.snd heq
              have h1 := congrArg List.length hkey
              have h2 := congrArg List.length hquote
              have h3 := congrArg List.length (cutAt?_eq_append hcut)
              have h4 := length_dropWhile_le isKeyChar cs
              have h5 := length_dropWhile_le isXmlBlank (cs.dropWhile isKeyChar)
              have h6 := length_dropWhile_le isXmlBlank afterEquals
              subst hrest
              simp only [List.length_cons, List.length_append] at *
              omega
          · cases h
      · cases h

/-- The attributes of a tag, whatever their keys. -/
def attributeList? (cs : List Char) : Option (List (String × String)) :=
  if (cs.dropWhile isXmlBlank).isEmpty then some []
  else
    match _h : attribute? (cs.dropWhile isXmlBlank) with
    | none => none
    | some (entry, rest) => (attributeList? rest).map (entry :: ·)
termination_by cs.length
decreasing_by
  exact Nat.lt_of_lt_of_le (length_lt_of_attribute? _h) (length_dropWhile_le _ _)

/-- The attributes of a tag, if no key occurs twice. -/
def attributes? (cs : List Char) : Option (List (String × String)) :=
  (attributeList? cs).filter (fun entries => decide (entries.map Prod.fst).Nodup)

end SpeechGrammar.Markup
