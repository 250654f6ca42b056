import SpeechGrammar.Markup.Reader

set_option autoImplicit false

/-!
# Pieces of markup

Where a piece of markup ends is decided by its own characters. So the reader takes a piece alike
whatever stands behind it, and wherever the piece stands it does the same to what has been assembled
(`exists_piece`): only the positions in errors are different.
-/

namespace SpeechGrammar.Markup

open Text

/-! ## Where a piece ends -/

theorem map_consFirst_eq_some {c : Char} {cut? : Option (List Char × List Char)}
    {before after : List Char} :
    cut?.map (consFirst c) = some (c :: before, after) ↔ cut? = some (before, after) := by
  cases cut? with
  | none => simp
  | some cut => simp [consFirst, Prod.ext_iff]

theorem map_consFirst_ne_nil {c : Char} {cut? : Option (List Char × List Char)}
    {after : List Char} : cut?.map (consFirst c) ≠ some ([], after) := by
  cases cut? with
  | none => simp
  | some cut => simp [consFirst]

theorem cutTag?_congr {quote : Option Char} {content ys : List Char}
    (h : cutTag? quote (content ++ '>' :: ys) = some (content, ys)) (zs : List Char) :
    cutTag? quote (content ++ '>' :: zs) = some (content, zs) := by
  induction content generalizing quote with
  | nil =>
      cases quote with
      | none => rfl
      | some q => exact absurd h map_consFirst_ne_nil
  | cons c content ih =>
      cases quote with
      | none =>
          rw [List.cons_append, cutTag?] at h ⊢
          split at h
          · simp at h
          · rename_i hc
            rw [if_neg hc, map_consFirst_eq_some]
            exact ih (map_consFirst_eq_some.1 h)
      | some q =>
          rw [List.cons_append, cutTag?, map_consFirst_eq_some] at h ⊢
          exact ih h

theorem cutBalanced?_congr {depth : Nat} {content ys : List Char}
    (h : cutBalanced? depth (content ++ '>' :: ys) = some (content, ys)) (zs : List Char) :
    cutBalanced? depth (content ++ '>' :: zs) = some (content, zs) := by
  induction content generalizing depth with
  | nil =>
      cases depth with
      | zero => rfl
      | succ depth => exact absurd h map_consFirst_ne_nil
  | cons c content ih =>
      cases depth with
      | zero =>
          rw [List.cons_append, cutBalanced?] at h ⊢
          split at h
          · simp at h
          · rename_i hc
            rw [if_neg hc, map_consFirst_eq_some]
            exact ih (map_consFirst_eq_some.1 h)
      | succ depth =>
          rw [List.cons_append, cutBalanced?, map_consFirst_eq_some] at h ⊢
          exact ih h

/-- A mark is found at the start of a text or not, whatever stands behind a part of the text that is
long enough to hold it. -/
theorem isPrefixOf_append {mark cs : List Char} (h : mark.length ≤ cs.length) (ys : List Char) :
    mark.isPrefixOf (cs ++ ys) = mark.isPrefixOf cs := by
  rw [Bool.eq_iff_iff, List.isPrefixOf_iff_prefix, List.isPrefixOf_iff_prefix]
  constructor
  · exact fun hprefix => List.prefix_of_prefix_length_le hprefix (List.prefix_append cs ys) h
  · exact fun hprefix => hprefix.trans (List.prefix_append cs ys)

theorem cutAt?_congr {mark content ys : List Char} (hmark : mark ≠ [])
    (h : cutAt? mark (content ++ mark ++ ys) = some (content, ys)) (zs : List Char) :
    cutAt? mark (content ++ mark ++ zs) = some (content, zs) := by
  induction content with
  | nil =>
      obtain ⟨m, ms, rfl⟩ := List.exists_cons_of_ne_nil hmark
      simp [cutAt?]
  | cons c content ih =>
      have hlength : mark.length ≤ (c :: (content ++ mark)).length := by
        simp only [List.length_cons, List.length_append]
        omega
      rw [List.cons_append, List.cons_append, cutAt?, ← List.cons_append,
        isPrefixOf_append hlength] at h ⊢
      split at h
      · simp at h
      · rename_i hc
        rw [if_neg hc, map_consFirst_eq_some]
        exact ih (map_consFirst_eq_some.1 h)

/-! ## What a piece does -/

/-- What a piece of markup does to what has been assembled, if it can be taken. -/
def Assembly.take? (a : Assembly) : Option Event → Option Assembly
  | none => some a
  | some event => (a.take event).toOption

/-- The place of an end tag only counts for the error that it may cause. -/
theorem take?_endTag (a : Assembly) (name : List Char) (p q : Nat) :
    a.take? (some (.endTag name p)) = a.take? (some (.endTag name q)) := by
  unfold Assembly.take? Assembly.take
  cases a.opened with
  | nil => rfl
  | cons inner outer =>
      dsimp only
      split <;> rfl

/-- The reader takes the characters as one piece wherever they stand and whatever stands behind
them, and the piece always does the same to what has been assembled. -/
def IsPiece (markup : List Char) (step : Assembly → Option Assembly) : Prop :=
  ∀ position rest, ∃ event? size,
    readMarkup position (markup ++ rest) = .ok (event?, size, rest) ∧ ∀ a, a.take? event? = step a

theorem readTag_eq_ok {p size : Nat} {cs rest : List Char} {event? : Option Event}
    (h : readTag p cs = .ok (event?, size, rest)) :
    ∃ content, cs = content ++ '>' :: rest ∧
      ∀ q ys, readTag q (content ++ '>' :: ys) = .ok (event?, size, ys) := by
  unfold readTag at h
  split at h
  · cases h
  · rename_i content after hcut
    dsimp only at h
    split at h
    · cases h
    · rename_i event hevent
      cases h
      obtain rfl := cutTag?_eq_append hcut
      refine ⟨content, rfl, fun q ys => ?_⟩
      rw [readTag, cutTag?_congr hcut]
      simp only [hevent]

theorem readEndTag_eq_ok {p size : Nat} {cs rest : List Char} {event? : Option Event}
    (h : readEndTag p cs = .ok (event?, size, rest)) :
    ∃ content, cs = content ++ '>' :: rest ∧ event? = some (.endTag (endTagName content) p) ∧
      ∀ q ys, readEndTag q (content ++ '>' :: ys) =
        .ok (some (.endTag (endTagName content) q), size, ys) := by
  unfold readEndTag at h
  split at h
  · cases h
  · rename_i content after hcut
    cases h
    obtain rfl := cutTag?_eq_append hcut
    refine ⟨content, rfl, rfl, fun q ys => ?_⟩
    rw [readEndTag, cutTag?_congr hcut]

theorem readTo_eq_ok {mark : List Char} (hmark : mark ≠ []) {f : List Char → Option Event}
    {p opening size : Nat} {cs rest : List Char} {event? : Option Event}
    (h : readTo mark f p opening cs = .ok (event?, size, rest)) :
    ∃ content, cs = content ++ mark ++ rest ∧
      ∀ q ys, readTo mark f q opening (content ++ mark ++ ys) = .ok (event?, size, ys) := by
  unfold readTo at h
  split at h
  · cases h
  · rename_i content after hcut
    cases h
    obtain rfl := cutAt?_eq_append hcut
    refine ⟨content, rfl, fun q ys => ?_⟩
    rw [readTo, cutAt?_congr hmark hcut]

theorem readDocumentType_eq_ok {p size : Nat} {cs rest : List Char} {event? : Option Event}
    (h : readDocumentType p cs = .ok (event?, size, rest)) :
    ∃ content, cs = content ++ '>' :: rest ∧
      ∀ q ys, readDocumentType q (content ++ '>' :: ys) = .ok (event?, size, ys) := by
  unfold readDocumentType at h
  split at h
  · cases h
  · rename_i content after hcut
    split at h
    · rename_i hkeyword
      split at h
      · cases h
      · rename_i hname
        cases h
        obtain rfl := cutBalanced?_eq_append hcut
        refine ⟨content, rfl, fun q ys => ?_⟩
        rw [readDocumentType, cutBalanced?_congr hcut]
        simp only [if_pos hkeyword, if_neg hname]
    · cases h

/-- Markup that begins with none of the other signs is a tag. -/
theorem readMarkup_of_ne {c : Char} (hslash : c ≠ '/') (hquestion : c ≠ '?')
    (hexclamation : c ≠ '!') (position : Nat) (cs : List Char) :
    readMarkup position (c :: cs) = readTag position (c :: cs) := by
  rw [readMarkup] <;> simp_all

theorem isPiece_of_read {markup : List Char} {event? : Option Event} (size : Nat)
    (h : ∀ position rest, readMarkup position (markup ++ rest) = .ok (event?, size, rest)) :
    IsPiece markup fun a => a.take? event? :=
  fun position rest => ⟨event?, size, h position rest, fun _ => rfl⟩

/-- A document type ends behind its first two characters. -/
theorem exists_cons_cons_of_eq_append {c d : Char} {tail content rest : List Char}
    (hne : c ≠ '>' ∧ d ≠ '>') (h : c :: d :: tail = content ++ '>' :: rest) :
    ∃ inner, content = c :: d :: inner := by
  match content, h with
  | [], h => exact absurd (List.cons.inj h).1 hne.1
  | [_], h => exact absurd (List.cons.inj (List.cons.inj h).2).1 hne.2
  | c' :: d' :: inner, h =>
      simp only [List.cons_append, List.cons.injEq] at h
      exact ⟨inner, by rw [h.1, h.2.1]⟩

/-- What the reader takes at one place is a piece of markup. -/
theorem exists_piece {p size : Nat} {cs rest : List Char} {event? : Option Event}
    (h : readMarkup p cs = .ok (event?, size, rest)) :
    ∃ markup, cs = markup ++ rest ∧ IsPiece markup fun a => a.take? event? := by
  unfold readMarkup at h
  split at h
  · obtain ⟨content, rfl, rfl, hread⟩ := readEndTag_eq_ok h
    refine ⟨'/' :: (content ++ ['>']), by simp, fun q ys => ?_⟩
    refine ⟨some (.endTag (endTagName content) q), size, ?_, fun a => take?_endTag a _ _ _⟩
    rw [List.cons_append, List.append_assoc, readMarkup]
    exact hread q ys
  · cases h
  · rename_i hnot
    obtain ⟨content, rfl, hread⟩ := readTo_eq_ok (by simp) h
    refine ⟨'?' :: (content ++ ['?', '>']), by simp, isPiece_of_read size fun q ys => ?_⟩
    rw [List.cons_append, readMarkup, hread q ys]
    -- The question mark that begins the instruction is not the one that ends it.
    intro zs hzs
    cases content with
    | nil => exact absurd (List.cons.inj hzs).1 (by decide)
    | cons c content =>
        obtain ⟨rfl, -⟩ := List.cons.inj hzs
        exact hnot _ rfl
  · obtain ⟨content, rfl, hread⟩ := readTo_eq_ok (by simp) h
    exact ⟨'!' :: '-' :: '-' :: (content ++ ['-', '-', '>']), by simp,
      isPiece_of_read size fun q ys => hread q ys⟩
  · obtain ⟨content, rfl, hread⟩ := readTo_eq_ok (by simp) h
    exact ⟨'!' :: '[' :: 'C' :: 'D' :: 'A' :: 'T' :: 'A' :: '[' :: (content ++ [']', ']', '>']),
      by simp, isPiece_of_read size fun q ys => hread q ys⟩
  · obtain ⟨content, hcs, hread⟩ := readDocumentType_eq_ok h
    obtain ⟨content, rfl⟩ := exists_cons_cons_of_eq_append (by decide) hcs
    refine ⟨'!' :: 'D' :: (content ++ ['>']), by simpa using hcs,
      isPiece_of_read size fun q ys => ?_⟩
    rw [List.cons_append, List.cons_append, List.append_assoc]
    exact hread q ys
  · obtain ⟨content, hcs, hread⟩ := readDocumentType_eq_ok h
    obtain ⟨content, rfl⟩ := exists_cons_cons_of_eq_append (by decide) hcs
    refine ⟨'!' :: 'd' :: (content ++ ['>']), by simpa using hcs,
      isPiece_of_read size fun q ys => ?_⟩
    rw [List.cons_append, List.cons_append, List.append_assoc]
    exact hread q ys
  · cases h
  · cases h
  · rename_i hslash _ hquestion _ _ _ _ hexclamation hnil
    obtain ⟨content, rfl, hread⟩ := readTag_eq_ok h
    refine ⟨content ++ ['>'], by simp, isPiece_of_read size fun q ys => ?_⟩
    rw [List.append_assoc, List.singleton_append]
    cases content with
    | nil => exact hread q ys
    | cons c content =>
        rw [List.cons_append, readMarkup_of_ne ?_ ?_ ?_]
        · exact hread q ys
        · rintro rfl
          exact hslash _ rfl
        · rintro rfl
          exact hquestion _ rfl
        · rintro rfl
          exact hexclamation _ rfl

end SpeechGrammar.Markup
