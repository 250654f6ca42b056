import SpeechGrammar.Proofs.Regex.Spans

set_option autoImplicit false

/-!
# Replacing characters

What an expression matches in a text, it still matches when a function is applied to the characters
of both (`Spans.mapChars`). Conversely, what is matched after that was matched before it in a text
that differs only in characters with the same image (`exists_spans_of_mapChars`). So the expression
with its characters replaced accepts exactly the texts with an image in common with a text that the
expression itself accepts (`isMatch_mapChars_iff`).
-/

namespace SpeechGrammar.Regex

variable {f : Char → Char}

/-! ## Expressions and their parts -/

/-- Induction over an expression, with one hypothesis for all parts of a sequence or a choice. -/
@[elab_as_elim]
theorem inductionOn {motive : Regex → Prop} (r : Regex) (empty : motive .empty)
    (char : ∀ c, motive (.char c)) (never : motive .never) (atStart : motive .atStart)
    (atEnd : motive .atEnd) (group : ∀ r, motive r → motive (.group r))
    (repeated : ∀ r min max, motive r → motive (.repeated r min max))
    (concat : ∀ rs, (∀ r ∈ rs, motive r) → motive (.concat rs))
    (choice : ∀ rs, (∀ r ∈ rs, motive r) → motive (.choice rs)) : motive r :=
  @Regex.rec motive (fun rs => ∀ r ∈ rs, motive r) empty char never atStart atEnd group repeated
    concat choice (by simp) (fun _ _ hr hrs => List.forall_mem_cons.2 ⟨hr, hrs⟩) r

theorem mapCharsAll_eq_map (f : Char → Char) (rs : List Regex) :
    mapCharsAll f rs = rs.map (mapChars f) := by
  induction rs with
  | nil => rfl
  | cons r rs ih => rw [mapCharsAll, ih, List.map_cons]

theorem mapChars_concatOf (f : Char → Char) (rs : List Regex) :
    (concatOf rs).mapChars f = concatOf (rs.map (mapChars f)) := by
  cases rs with
  | nil => rfl
  | cons r rs =>
      cases rs with
      | nil => rfl
      | cons _ _ =>
          show (Regex.concat _).mapChars f = _
          rw [mapChars, mapCharsAll_eq_map]
          rfl

theorem mapChars_choiceOf (f : Char → Char) (rs : List Regex) :
    (choiceOf rs).mapChars f = choiceOf (rs.map (mapChars f)) := by
  cases rs with
  | nil => rfl
  | cons r rs =>
      cases rs with
      | nil => rfl
      | cons _ _ =>
          show (Regex.choice _).mapChars f = _
          rw [mapChars, mapCharsAll_eq_map]
          rfl

@[simp] theorem mapChars_id (r : Regex) : r.mapChars id = r := by
  induction r using inductionOn with
  | empty | never | atStart | atEnd => rfl
  | char c => rfl
  | group r ih => rw [mapChars, ih]
  | repeated r min max ih => rw [mapChars, ih]
  | concat rs ih => rw [mapChars, mapCharsAll_eq_map, List.map_congr_left ih, List.map_id']
  | choice rs ih => rw [mapChars, mapCharsAll_eq_map, List.map_congr_left ih, List.map_id']

/-- A number of steps is a sequence of equal parts. -/
theorem steps_iff_spansAll {text : List Char} {r : Regex} {n i j : Nat} :
    Steps (Spans text r) n i j ↔ SpansAll text (List.replicate n r) i j := by
  induction n generalizing i with
  | zero => rfl
  | succ n ih => simp only [Steps, List.replicate_succ, SpansAll, ih]

theorem spansAny_iff {text : List Char} {rs : List Regex} {i j : Nat} :
    SpansAny text rs i j ↔ ∃ r ∈ rs, Spans text r i j := by
  induction rs with
  | nil => simp [SpansAny]
  | cons r rs ih => simp [SpansAny, ih]

/-! ## From a text to its image -/

/-- Between two positions, one text is the image of another text of the same length. -/
structure MapsBetween (f : Char → Char) (text image : List Char) (i j : Nat) : Prop where
  length_eq : image.length = text.length
  getElem?_eq : ∀ k, i ≤ k → k < j → image[k]? = text[k]?.map f

variable {text image : List Char}

theorem MapsBetween.within {i j i' j' : Nat} (h : MapsBetween f text image i j) (hi : i ≤ i')
    (hj : j' ≤ j) : MapsBetween f text image i' j' :=
  ⟨h.length_eq, fun k hik hkj => h.getElem?_eq k (hi.trans hik) (hkj.trans_le hj)⟩

/-- A sequence matches in the image if each of its parts does. -/
theorem SpansAll.map {rs : List Regex}
    (hrs : ∀ r ∈ rs, ∀ i j, MapsBetween f text image i j → Spans text r i j →
      Spans image (r.mapChars f) i j) {i j : Nat} (hmaps : MapsBetween f text image i j)
    (h : SpansAll text rs i j) : SpansAll image (rs.map (mapChars f)) i j := by
  induction rs generalizing i with
  | nil => exact h
  | cons r rs ih =>
      obtain ⟨m, hm, hj⟩ := h
      obtain ⟨hr, hrs⟩ := List.forall_mem_cons.1 hrs
      exact ⟨m, hr i m (hmaps.within le_rfl (le_of_spansAll text rs hj)) hm,
        ih hrs (hmaps.within (le_of_spans text r hm) le_rfl) hj⟩

/-- What an expression matches depends on the text between the two positions only, and on where the
text ends. There the text may be replaced by its image, with the expression. -/
theorem Spans.mapChars {r : Regex} {i j : Nat} (hmaps : MapsBetween f text image i j)
    (h : Spans text r i j) : Spans image (r.mapChars f) i j := by
  induction r using inductionOn generalizing i j with
  | empty => exact h
  | char c =>
      obtain ⟨hc, rfl⟩ := h
      refine ⟨?_, rfl⟩
      rw [hmaps.getElem?_eq i le_rfl (Nat.lt_succ_self i), hc, Option.map_some]
  | never => exact h.elim
  | atStart => exact h
  | atEnd => exact ⟨h.1.trans hmaps.length_eq.symm, h.2⟩
  | group r ih => exact ih hmaps h
  | repeated r min max ih =>
      obtain ⟨n, hn, hsteps⟩ := h
      refine ⟨n, hn, ?_⟩
      rw [steps_iff_spansAll] at hsteps ⊢
      rw [← List.map_replicate]
      refine SpansAll.map (fun r' hr' i j hmaps h => ?_) hmaps hsteps
      obtain rfl := List.eq_of_mem_replicate hr'
      exact ih hmaps h
  | concat rs ih =>
      rw [Regex.mapChars, mapCharsAll_eq_map]
      exact SpansAll.map (fun r hr i j => ih r hr) hmaps h
  | choice rs ih =>
      rw [Regex.mapChars, mapCharsAll_eq_map]
      obtain ⟨r, hr, hspans⟩ := spansAny_iff.1 h
      exact spansAny_iff.2 ⟨r.mapChars f, List.mem_map_of_mem hr, ih r hr hmaps hspans⟩

theorem Spans.congr {r : Regex} {i j : Nat} (hlen : image.length = text.length)
    (heq : ∀ k, i ≤ k → k < j → image[k]? = text[k]?) (h : Spans text r i j) :
    Spans image r i j := by
  have hmaps : MapsBetween id text image i j :=
    ⟨hlen, fun k hik hkj => by rw [heq k hik hkj, Option.map_id, id]⟩
  simpa using h.mapChars hmaps

/-! ## From an image to a text -/

/-- One text comes from another by changes between two positions that the images do not show. -/
structure VariesBetween (f : Char → Char) (text other : List Char) (i j : Nat) : Prop where
  map_eq : other.map f = text.map f
  outside : ∀ k, k < i ∨ j ≤ k → other[k]? = text[k]?

variable {other : List Char}

theorem VariesBetween.refl (text : List Char) (i j : Nat) : VariesBetween f text text i j :=
  ⟨rfl, fun _ _ => rfl⟩

theorem VariesBetween.length_eq {i j : Nat} (h : VariesBetween f text other i j) :
    other.length = text.length := by
  simpa using congrArg List.length h.map_eq

theorem VariesBetween.trans {last : List Char} {i m j : Nat} (h : VariesBetween f text other i m)
    (h' : VariesBetween f other last m j) (hi : i ≤ m) (hj : m ≤ j) :
    VariesBetween f text last i j := by
  refine ⟨h'.map_eq.trans h.map_eq, fun k hk => ?_⟩
  rcases hk with hk | hk
  · exact (h'.outside k (.inl (hk.trans_le hi))).trans (h.outside k (.inl hk))
  · exact (h'.outside k (.inr hk)).trans (h.outside k (.inr (hj.trans hk)))

/-- A sequence that matches the image matches a text that has been changed part by part. -/
theorem exists_spansAll_of_map {rs : List Regex}
    (hrs : ∀ r ∈ rs, ∀ i j text, Spans (text.map f) (r.mapChars f) i j →
      ∃ other, VariesBetween f text other i j ∧ Spans other r i j) {i j : Nat}
    (h : SpansAll (text.map f) (rs.map (mapChars f)) i j) :
    ∃ other, VariesBetween f text other i j ∧ SpansAll other rs i j := by
  induction rs generalizing i text with
  | nil => exact ⟨text, .refl text i j, h⟩
  | cons r rs ih =>
      obtain ⟨m, hm, hj⟩ := h
      obtain ⟨hr, hrs⟩ := List.forall_mem_cons.1 hrs
      obtain ⟨other, hother, hfirst⟩ := hr i m text hm
      rw [← hother.map_eq] at hj
      obtain ⟨last, hlast, hrest⟩ := ih hrs hj
      have hi := le_of_spans other r hfirst
      have hj := le_of_spansAll last rs hrest
      -- The changes for the rest come behind what the first part matches.
      have hkept : Spans last r i m :=
        hfirst.congr hlast.length_eq fun k _ hkm => hlast.outside k (.inl hkm)
      exact ⟨last, hother.trans hlast hi hj, m, hkept, hrest⟩

/-- What matches the image matches a text with the same image, changed where the match is. -/
theorem exists_spans_of_mapChars {r : Regex} {i j : Nat}
    (h : Spans (text.map f) (r.mapChars f) i j) :
    ∃ other, VariesBetween f text other i j ∧ Spans other r i j := by
  induction r using inductionOn generalizing i j text with
  | empty => exact ⟨text, .refl text i j, h⟩
  | char c =>
      obtain ⟨hc, rfl⟩ := h
      obtain ⟨hlt, hget⟩ := List.getElem?_eq_some_iff.1 hc
      refine ⟨text.set i c, ⟨?_, fun k hk => ?_⟩, ?_, rfl⟩
      · rw [List.map_set, ← hget, List.set_getElem_self]
      · exact List.getElem?_set_ne (by omega)
      · exact List.getElem?_set_self (by simpa using hlt)
  | never => exact h.elim
  | atStart => exact ⟨text, .refl text i j, h⟩
  | atEnd => exact ⟨text, .refl text i j, h.1.trans (List.length_map _), h.2⟩
  | group r ih => exact ih h
  | repeated r min max ih =>
      obtain ⟨n, hn, hsteps⟩ := h
      rw [steps_iff_spansAll, ← List.map_replicate] at hsteps
      obtain ⟨other, hother, hspans⟩ := exists_spansAll_of_map (fun r' hr' i j text h => by
        obtain rfl := List.eq_of_mem_replicate hr'
        exact ih h) hsteps
      exact ⟨other, hother, n, hn, steps_iff_spansAll.2 hspans⟩
  | concat rs ih =>
      rw [Regex.mapChars, mapCharsAll_eq_map] at h
      exact exists_spansAll_of_map (fun r hr i j text h => ih r hr h) h
  | choice rs ih =>
      rw [Regex.mapChars, mapCharsAll_eq_map] at h
      obtain ⟨_, hmem, hspans⟩ := spansAny_iff.1 h
      obtain ⟨r, hr, rfl⟩ := List.mem_map.1 hmem
      obtain ⟨other, hother, hspans⟩ := ih r hr hspans
      exact ⟨other, hother, spansAny_iff.2 ⟨r, hr, hspans⟩⟩

/-! ## Matching -/

/-- Replacing the characters of an expression and of a text by their images adds exactly the texts
that have the same image as a text that matches. -/
theorem isMatch_mapChars_iff (r : Regex) (text : List Char) :
    (r.mapChars f).isMatch (text.map f) = true ↔
      ∃ other, other.map f = text.map f ∧ r.isMatch other = true := by
  simp only [isMatch_iff_spans]
  constructor
  · rintro ⟨i, j, h, hj⟩
    obtain ⟨other, hother, hspans⟩ := exists_spans_of_mapChars h
    rw [List.length_map] at hj
    exact ⟨other, hother.map_eq, i, j, hspans, hother.length_eq.symm ▸ hj⟩
  · rintro ⟨other, hmap, i, j, h, hj⟩
    rw [← hmap]
    refine ⟨i, j, h.mapChars ⟨List.length_map _, fun k _ _ => List.getElem?_map ..⟩, ?_⟩
    rwa [List.length_map]

end SpeechGrammar.Regex
