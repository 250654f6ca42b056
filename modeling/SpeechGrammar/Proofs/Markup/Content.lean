import SpeechGrammar.Proofs.Markup.Piece
import SpeechGrammar.Proofs.Markup.Reader
import SpeechGrammar.Proofs.Outcome

set_option autoImplicit false

/-!
# Reading content

The reader takes a text piece by piece, and neither the place of a piece nor what stands behind it
decides what it does: `outcome?` is what has been assembled at the end of a text, and
`outcome?_content` cuts it in two behind any piece of markup.

The text content of what is read consists of the texts in the order in which they are read. Two
assemblies with the same open tags go on alike (`exists_finish_of_sameTags`), so a difference in
their text is still there at the end (`finish_pushText_ne`).
-/

namespace SpeechGrammar.Markup

open Text

/-! ## Piece by piece -/

theorem toOption_bind {ε α β : Type} (x : Except ε α) (f : α → Except ε β) :
    (x >>= f).toOption = x.toOption.bind fun a => (f a).toOption := by
  cases x <;> rfl

theorem toOption_assemble_of_ok {cs markup rest : List Char} {event? : Option Event}
    {p size : Nat} (hcs : cs.dropWhile isXmlBlank = '<' :: markup)
    (hread : readMarkup (p + byteLength (cs.takeWhile isXmlBlank)) markup = .ok (event?, size, rest))
    (a : Assembly) : ∃ next, (assemble a p cs).toOption =
      (a.take? event?).bind fun b => (assemble b next rest).toOption := by
  refine ⟨p + byteLength (cs.takeWhile isXmlBlank) + size, ?_⟩
  rw [assemble, events_eq_markup hcs, hread]
  cases event? with
  | none => rfl
  | some event => exact toOption_bind (a.take event) _

theorem toOption_assemble_of_error {cs markup : List Char} {p fault : Nat}
    (hcs : cs.dropWhile isXmlBlank = '<' :: markup)
    (hread : readMarkup (p + byteLength (cs.takeWhile isXmlBlank)) markup = .error fault)
    (a : Assembly) : (assemble a p cs).toOption = none := by
  rw [assemble, events_eq_markup hcs, hread]
  rfl

/-- The text with which an assembly goes on. -/
def Assembly.pushText (a : Assembly) (text : List Char) : Assembly :=
  if text.isEmpty then a else a.pushInner (.text (String.ofList text))

theorem toOption_assemble_text {cs run : List Char} {c : Char} (hc : c ≠ '<')
    (hcs : cs.dropWhile isXmlBlank = c :: run) (a : Assembly) (p : Nat) :
    ∃ next, (assemble a p cs).toOption =
      (unescape? (trimXmlEnd (c :: run.takeWhile (· != '<')))).bind fun text =>
        (assemble (a.pushText text) next (run.dropWhile (· != '<'))).toOption := by
  refine ⟨p + byteLength (cs.takeWhile isXmlBlank) + byteLength (c :: run.takeWhile (· != '<')), ?_⟩
  rw [assemble, events_eq_text hc hcs rfl]
  cases unescape? (trimXmlEnd (c :: run.takeWhile (· != '<'))) with
  | none => rfl
  | some text => rfl

/-- Neither the place of a text nor the blanks at its start decide what is assembled. -/
theorem toOption_assemble_congr {cs ds : List Char}
    (h : cs.dropWhile isXmlBlank = ds.dropWhile isXmlBlank) (a : Assembly) (p q : Nat) :
    (assemble a p cs).toOption = (assemble a q ds).toOption := by
  induction p, cs using events.induct generalizing ds a q with
  | case1 p cs hnil =>
      rw [assemble, assemble, events_eq_nil hnil, events_eq_nil (h ▸ hnil)]
  | case2 p cs markup hmarkup start fault =>
      rename_i hread
      rw [toOption_assemble_of_error hmarkup hread]
      cases hother : readMarkup (q + byteLength (ds.takeWhile isXmlBlank)) markup with
      | error fault' => rw [toOption_assemble_of_error (h ▸ hmarkup) hother]
      | ok piece =>
          -- A piece that can be read in one place can be read in every place.
          obtain ⟨event?, size, rest⟩ := piece
          obtain ⟨markup, rfl, hpiece⟩ := exists_piece hother
          obtain ⟨event?', size', hok, -⟩ := hpiece start rest
          rw [hok] at hread
          cases hread
  | case3 p cs markup hmarkup start event? size rest hread =>
      rename_i ih
      obtain ⟨markup, rfl, hpiece⟩ := exists_piece hread
      obtain ⟨event?', size', hother, htake⟩ :=
        hpiece (q + byteLength (ds.takeWhile isXmlBlank)) rest
      obtain ⟨next, hcs⟩ := toOption_assemble_of_ok hmarkup hread a
      obtain ⟨next', hds⟩ := toOption_assemble_of_ok (h ▸ hmarkup) hother a
      rw [hcs, hds, htake]
      congr 1
      funext b
      exact (ih rfl b next).symm.trans (ih rfl b next')
  | case4 p cs c run hnot hrun content =>
      rename_i htext
      obtain ⟨next, hcs⟩ := toOption_assemble_text hnot hrun a p
      obtain ⟨next', hds⟩ := toOption_assemble_text hnot (h ▸ hrun) a q
      rw [hcs, hds, htext]
      rfl
  | case5 p cs c run hnot hrun content stop text =>
      rename_i htext ih
      obtain ⟨next, hcs⟩ := toOption_assemble_text hnot hrun a p
      obtain ⟨next', hds⟩ := toOption_assemble_text hnot (h ▸ hrun) a q
      rw [hcs, hds, htext]
      exact (ih rfl _ next).symm.trans (ih rfl _ next')

/-- What has been assembled at the end of a text, if the text can be read. -/
def outcome? (a : Assembly) (cs : List Char) : Option Assembly := (assemble a 0 cs).toOption

theorem outcome?_eq_some_iff {a b : Assembly} {cs : List Char} :
    outcome? a cs = some b ↔ assemble a 0 cs = .ok b := by
  rw [outcome?]
  cases assemble a 0 cs with
  | error fault => simp [Except.toOption]
  | ok c => simp [Except.toOption]

@[simp] theorem outcome?_nil (a : Assembly) : outcome? a [] = some a := by
  rw [outcome?_eq_some_iff, assemble, events_eq_nil rfl]
  rfl

theorem toOption_assemble (a : Assembly) (position : Nat) (cs : List Char) :
    (assemble a position cs).toOption = outcome? a cs :=
  toOption_assemble_congr rfl a position 0

theorem outcome?_congr {cs ds : List Char}
    (h : cs.dropWhile isXmlBlank = ds.dropWhile isXmlBlank) (a : Assembly) :
    outcome? a cs = outcome? a ds :=
  toOption_assemble_congr h a 0 0

theorem outcome?_piece {markup : List Char} {step : Assembly → Option Assembly}
    (h : IsPiece markup step) (a : Assembly) (rest : List Char) :
    outcome? a ('<' :: (markup ++ rest)) = (step a).bind fun b => outcome? b rest := by
  have hcs : ('<' :: (markup ++ rest)).dropWhile isXmlBlank = '<' :: (markup ++ rest) :=
    List.dropWhile_cons_of_neg (by decide)
  obtain ⟨event?, size, hread, htake⟩ :=
    h (0 + byteLength (('<' :: (markup ++ rest)).takeWhile isXmlBlank)) rest
  obtain ⟨next, hnext⟩ := toOption_assemble_of_ok hcs hread a
  simp only [toOption_assemble] at hnext
  rw [hnext, htake]

/-- A run of text is taken as what is left of it when it is trimmed. -/
theorem outcome?_run {run after : List Char} (hrun : '<' ∉ run) (hafter : EndsRun after)
    (a : Assembly) :
    outcome? a (run ++ after) =
      (unescape? (trimXml run)).bind fun text => outcome? (a.pushText text) after := by
  obtain ⟨htrim, hcs⟩ | ⟨c, cs, hc, hcs, htake, hdrop, htrim, -⟩ := run_cases hrun hafter
  · rw [htrim, outcome?_congr (hcs.trans hafter.dropWhile_isXmlBlank.symm)]
    rfl
  · obtain ⟨next, hnext⟩ := toOption_assemble_text hc hcs a 0
    simp only [toOption_assemble, htake, hdrop, htrim] at hnext
    exact hnext

/-- Text joins the text before it. -/
theorem Assembly.pushText_pushText (a : Assembly) (xs ys : List Char) :
    (a.pushText xs).pushText ys = a.pushText (xs ++ ys) := by
  obtain ⟨opened, root?⟩ := a
  cases xs with
  | nil => rfl
  | cons x xs =>
      cases ys with
      | nil => rw [List.append_nil]; rfl
      | cons y ys =>
          cases opened with
          | nil => rfl
          | cons inner outer =>
              simp only [pushText, pushInner, Element.push, pushNode_pushNode_text,
                List.cons_append, List.isEmpty_cons, Bool.false_eq_true, if_false,
                ← String.ofList_append]

/-! ## Content -/

/-- The reader takes the characters behind a `<` as one piece. -/
def IsMarkup (markup : List Char) : Prop :=
  ∃ position event? size rest, readMarkup position (markup ++ rest) = .ok (event?, size, rest)

theorem IsMarkup.exists_isPiece {markup : List Char} (h : IsMarkup markup) :
    ∃ step, IsPiece markup step := by
  obtain ⟨position, event?, size, rest, hread⟩ := h
  obtain ⟨markup', hcs, hpiece⟩ := exists_piece hread
  exact ⟨_, List.append_cancel_right hcs ▸ hpiece⟩

/-- Text and whole pieces of markup, with markup at the end if there is any. -/
inductive IsContent : List Char → Prop where
  | nil : IsContent []
  | cons {run markup rest : List Char} (run_text : '<' ∉ run) (piece : IsMarkup markup)
      (content : IsContent rest) : IsContent (run ++ '<' :: (markup ++ rest))

/-- Content is taken first, and then what stands behind it. -/
theorem outcome?_content {before : List Char} (h : IsContent before) (a : Assembly)
    (rest : List Char) :
    outcome? a (before ++ rest) = (outcome? a before).bind fun b => outcome? b rest := by
  induction h generalizing a with
  | nil =>
      rw [List.nil_append, outcome?_nil, Option.bind_some]
  | @cons run markup before hrun hmarkup hbefore ih =>
      obtain ⟨step, hpiece⟩ := hmarkup.exists_isPiece
      rw [List.append_assoc, List.cons_append, List.append_assoc,
        outcome?_run hrun (endsRun_markup _), outcome?_run hrun (endsRun_markup _)]
      simp only [outcome?_piece hpiece, ih, Option.bind_assoc]

theorem IsContent.dropMark {before : List Char} (h : IsContent before) :
    IsContent (dropMark before) := by
  cases h with
  | nil => exact .nil
  | @cons run markup rest hrun hmarkup hrest =>
      unfold Markup.dropMark
      split
      · rename_i cs heq
        cases run with
        | nil => exact absurd (List.cons.inj heq).1 (by decide)
        | cons c run =>
            obtain ⟨-, rfl⟩ := List.cons.inj heq
            exact .cons (fun h => hrun (List.mem_cons_of_mem _ h)) hmarkup hrest
      · exact .cons hrun hmarkup hrest

theorem readChars_eq_ok_iff {cs : List Char} {e : Element} :
    readChars cs = .ok e ↔ ∃ a, outcome? {} (dropMark cs) = some a ∧ a.finish = .ok e := by
  simp only [outcome?_eq_some_iff]
  exact bind_eq_ok

theorem dropMark_append {cs : List Char} (h : cs ≠ []) (ds : List Char) :
    dropMark (cs ++ ds) = dropMark cs ++ ds := by
  cases cs with
  | nil => exact absurd rfl h
  | cons c cs =>
      unfold dropMark
      split <;> simp_all

/-! ## The text content of what is read -/

theorem textContents_pushNode (children : List Node) (node : Node) :
    textContents (pushNode children node) = textContents children ++ node.textContent := by
  induction children, node using pushNode.induct with
  | case1 node => simp [pushNode, textContents]
  | case2 old new => simp [pushNode, textContents, Node.textContent]
  | case3 c children node hnot ih =>
      rw [pushNode]
      · rw [textContents, ih, textContents, String.append_assoc]
      · exact hnot

/-- The text of the open elements, from the outermost to the innermost. -/
def openedText : List OpenElement → String
  | [] => ""
  | inner :: outer => openedText outer ++ inner.element.textContent

/-- All text that has been read inside an element, in the order in which it was read. -/
def Assembly.textContent (a : Assembly) : String :=
  a.root?.elim "" Element.textContent ++ openedText a.opened

theorem textContent_pushInner {a : Assembly} (h : a.opened ≠ []) (node : Node) :
    (a.pushInner node).textContent = a.textContent ++ node.textContent := by
  obtain ⟨_ | ⟨inner, outer⟩, root?⟩ := a
  · exact absurd rfl h
  · simp [Assembly.pushInner, Assembly.textContent, openedText, Element.push, Element.textContent,
      textContents_pushNode, String.append_assoc]

theorem textContent_pushText {a : Assembly} (h : a.opened ≠ []) (text : List Char) :
    (a.pushText text).textContent = a.textContent ++ String.ofList text := by
  cases text with
  | nil => simp [Assembly.pushText]
  | cons c text => exact textContent_pushInner h _

theorem textContent_attach {a a' : Assembly} {e : Element} (h : a.attach e = .ok a') :
    a'.textContent = a.textContent ++ e.textContent := by
  obtain ⟨_ | ⟨inner, outer⟩, root?⟩ := a
  · cases root? with
    | none =>
        cases h
        simp [Assembly.textContent, openedText]
    | some root => cases h
  · cases h
    exact textContent_pushInner (List.cons_ne_nil _ _) e.toNode

/-- The text of an event. -/
def Event.textContent : Event → String
  | .text content => String.ofList content
  | _ => ""

/-- A tag has no text. -/
theorem textContent_tagElement (name : List Char) (attributes : List (String × String)) :
    (tagElement name attributes).textContent = "" := by
  rw [tagElement, Element.setAttrs_eq]
  rfl

/-- Text is kept if an element is open, and nothing else adds to the text content. -/
theorem textContent_take {a a' : Assembly} {event : Event} (h : a.take event = .ok a') :
    a'.textContent = a.textContent ++ if a.opened = [] then "" else event.textContent := by
  cases event with
  | text content =>
      cases h
      show (a.pushText content).textContent = _
      by_cases hopened : a.opened = []
      · rw [if_pos hopened, String.append_empty]
        simp only [Assembly.pushText, Assembly.pushInner, hopened, ite_self]
      · rw [if_neg hopened, textContent_pushText hopened]
        rfl
  | startTag name attributes =>
      cases h
      simp [Assembly.textContent, openedText, Event.textContent, textContent_tagElement]
  | emptyTag name attributes =>
      rw [textContent_attach h, textContent_tagElement]
      simp [Event.textContent]
  | endTag name position =>
      unfold Assembly.take at h
      obtain ⟨_ | ⟨inner, outer⟩, root?⟩ := a
      · cases h
      · dsimp only at h
        split at h
        · rw [textContent_attach h]
          simp [Assembly.textContent, openedText, Event.textContent, String.append_assoc]
        · cases h
  | malformed position => cases h

/-- Two assemblies that differ only in what the elements hold. -/
structure SameTags (a b : Assembly) : Prop where
  opened : a.opened.map OpenElement.fullName = b.opened.map OpenElement.fullName
  root : a.root?.isSome = b.root?.isSome

theorem SameTags.opened_eq_nil {a b : Assembly} (h : SameTags a b) :
    a.opened = [] ↔ b.opened = [] := by
  rw [← List.map_eq_nil_iff (f := OpenElement.fullName), h.opened, List.map_eq_nil_iff]

theorem SameTags.symm {a b : Assembly} (h : SameTags a b) : SameTags b a :=
  ⟨h.opened.symm, h.root.symm⟩

theorem SameTags.trans {a b c : Assembly} (h : SameTags a b) (h' : SameTags b c) : SameTags a c :=
  ⟨h.opened.trans h'.opened, h.root.trans h'.root⟩

theorem sameTags_pushInner (a : Assembly) (node : Node) : SameTags (a.pushInner node) a := by
  obtain ⟨_ | ⟨inner, outer⟩, root?⟩ := a <;> exact ⟨rfl, rfl⟩

theorem sameTags_pushText (a : Assembly) (text : List Char) : SameTags (a.pushText text) a := by
  cases text with
  | nil => exact ⟨rfl, rfl⟩
  | cons c text => exact sameTags_pushInner a _

/-- Whether an element can be taken is decided by the tags around it. -/
theorem SameTags.attach {a b a' : Assembly} {e f : Element} (h : SameTags a b)
    (ha : a.attach e = .ok a') : ∃ b', b.attach f = .ok b' ∧ SameTags a' b' := by
  obtain ⟨opened, root?⟩ := a
  obtain ⟨opened', root?'⟩ := b
  cases opened with
  | nil =>
      obtain rfl : opened' = [] := h.opened_eq_nil.1 rfl
      cases root? with
      | none =>
          obtain rfl : root?' = none := by simpa using h.root.symm
          cases ha
          exact ⟨_, rfl, rfl, rfl⟩
      | some root => cases ha
  | cons inner outer =>
      obtain ⟨inner', outer', rfl⟩ := List.exists_cons_of_ne_nil fun hnil =>
        List.cons_ne_nil inner outer (h.opened_eq_nil.2 hnil)
      cases ha
      exact ⟨_, rfl, ((sameTags_pushInner _ _).trans h).trans (sameTags_pushInner _ _).symm⟩

/-- Whether an event can be taken is decided by the tags. -/
theorem SameTags.take {a b a' : Assembly} {event : Event} (h : SameTags a b)
    (ha : a.take event = .ok a') : ∃ b', b.take event = .ok b' ∧ SameTags a' b' := by
  cases event with
  | text content =>
      cases ha
      exact ⟨_, rfl, ((sameTags_pushText _ _).trans h).trans (sameTags_pushText _ _).symm⟩
  | startTag name attributes =>
      cases ha
      exact ⟨_, rfl, congrArg (name :: ·) h.opened, h.root⟩
  | emptyTag name attributes => exact h.attach ha
  | endTag name position =>
      obtain ⟨opened, root?⟩ := a
      obtain ⟨opened', root?'⟩ := b
      cases opened with
      | nil => cases ha
      | cons inner outer =>
          obtain ⟨inner', outer', rfl⟩ := List.exists_cons_of_ne_nil fun hnil =>
            List.cons_ne_nil inner outer (h.opened_eq_nil.2 hnil)
          obtain ⟨hname, houter⟩ := List.cons.inj h.opened
          have hrest : SameTags ⟨outer, root?⟩ ⟨outer', root?'⟩ := ⟨houter, h.root⟩
          unfold Assembly.take at ha ⊢
          dsimp only at ha ⊢
          rw [← hname]
          split at ha
          · rename_i heq
            rw [if_pos heq]
            exact hrest.attach ha
          · cases ha
  | malformed position => cases ha

/-- Assemblies with the same tags go on alike, and the same text is added to both. -/
theorem foldlM_of_sameTags {a b a' : Assembly} {es : List Event} (h : SameTags a b)
    (ha : es.foldlM Assembly.take a = .ok a') :
    ∃ b' more, es.foldlM Assembly.take b = .ok b' ∧ SameTags a' b' ∧
      a'.textContent = a.textContent ++ more ∧ b'.textContent = b.textContent ++ more := by
  induction es generalizing a b with
  | nil =>
      cases ha
      exact ⟨b, "", rfl, h, String.append_empty.symm, String.append_empty.symm⟩
  | cons event es ih =>
      rw [List.foldlM_cons] at ha
      obtain ⟨c, htake, ha⟩ := bind_eq_ok.1 ha
      obtain ⟨d, hd, htags⟩ := h.take htake
      obtain ⟨b', more, hb', hsame, hmore, hmore'⟩ := ih htags ha
      refine ⟨b', (if a.opened = [] then "" else event.textContent) ++ more, ?_, hsame, ?_, ?_⟩
      · rw [List.foldlM_cons, hd]
        exact hb'
      · rw [hmore, textContent_take htake, String.append_assoc]
      · rw [hmore', textContent_take hd, String.append_assoc]
        simp only [h.opened_eq_nil]

theorem textContent_finish {a : Assembly} {e : Element} (h : a.finish = .ok e) :
    e.textContent = a.textContent := by
  obtain ⟨_ | ⟨inner, outer⟩, _ | root⟩ := a
  · cases h
  · cases h
    simp [Assembly.textContent, openedText]
  · cases h
  · cases h

theorem SameTags.finish {a b : Assembly} {e : Element} (h : SameTags a b) (ha : a.finish = .ok e) :
    ∃ f, b.finish = .ok f := by
  obtain ⟨_ | ⟨inner, outer⟩, _ | root⟩ := a
  · cases ha
  · obtain ⟨opened', _ | root'⟩ := b
    · exact absurd h.root (by simp)
    · obtain rfl : opened' = [] := h.opened_eq_nil.1 rfl
      exact ⟨root', rfl⟩
  · cases ha
  · cases ha

/-- If the rest of a document can be read into one assembly, it can be read into another one with
the same tags, and it adds the same text to both. -/
theorem exists_finish_of_sameTags {a b a' : Assembly} {cs : List Char} {e : Element}
    (h : SameTags a b) (ha : outcome? a cs = some a') (he : a'.finish = .ok e) :
    ∃ b' f more, outcome? b cs = some b' ∧ b'.finish = .ok f ∧
      e.textContent = a.textContent ++ more ∧ f.textContent = b.textContent ++ more := by
  rw [outcome?_eq_some_iff] at ha
  obtain ⟨b', more, hb', htags, hmore, hmore'⟩ := foldlM_of_sameTags h ha
  obtain ⟨f, hf⟩ := htags.finish he
  refine ⟨b', f, more, outcome?_eq_some_iff.2 hb', hf, ?_, ?_⟩
  · rw [textContent_finish he, hmore]
  · rw [textContent_finish hf, hmore']

/-- A text that is changed inside an element changes what is read. -/
theorem finish_pushText_ne {inside a b : Assembly} {xs ys after : List Char} {e : Element}
    (hopened : inside.opened ≠ []) (hne : xs ≠ ys)
    (ha : outcome? (inside.pushText xs) after = some a) (he : a.finish = .ok e)
    (hb : outcome? (inside.pushText ys) after = some b) : b.finish ≠ .ok e := by
  intro hf
  have htags := (sameTags_pushText inside xs).trans (sameTags_pushText inside ys).symm
  obtain ⟨b', f, more, hb', hf', hxs, hys⟩ := exists_finish_of_sameTags htags ha he
  rw [hb, Option.some.injEq] at hb'
  subst hb'
  rw [hf, Except.ok.injEq] at hf'
  subst hf'
  rw [hxs, textContent_pushText hopened, textContent_pushText hopened, ← String.toList_inj] at hys
  simp only [String.toList_append, String.toList_ofList, List.append_cancel_right_eq,
    List.append_cancel_left_eq] at hys
  exact hne hys

end SpeechGrammar.Markup
