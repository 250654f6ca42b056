import SpeechGrammar.Grammar.Document
import SpeechGrammar.Proofs.Text.Decimal
import SpeechGrammar.Proofs.Text.Phrases

set_option autoImplicit false

/-!
# What is read as a repeat count

`Repeat.IsForm` gives the written forms of a repeat count: a number, a number with a dash behind
it, and two numbers in order with a dash between them, where each number may have a plus sign and
stand between blanks. These and no others are read (`Repeat.parse?_eq_some_iff`), the shortest
form of a count among them. `readOccurs_forms` says so of the attribute of an item, with the error
for every other value.
-/

namespace SpeechGrammar

open Text

theorem isBlank_of_isDigit {c : Char} (h : c.isDigit = true) : isBlank c = false := by
  have hrange : 48 ≤ c.toNat ∧ c.toNat ≤ 57 := Char.isDigit_iff_toNat.1 h
  simp [isBlank]
  omega

/-! ## Numbers -/

/-- A number of a repeat count: decimal digits, with a plus sign or without, between blanks. -/
def IsCount (cs : List Char) (n : UInt32) : Prop :=
  ∃ lead sign digits trail, AllBlank lead ∧ (sign = [] ∨ sign = ['+']) ∧
    IsDecimal digits n.toNat ∧ AllBlank trail ∧ cs = lead ++ (sign ++ digits ++ trail)

/-- The digits of a number write it without sign and blanks. -/
theorem isCount_toDigits (n : UInt32) : IsCount (Nat.toDigits 10 n.toNat) n :=
  ⟨[], [], _, [], by simp [AllBlank], .inl rfl, isDecimal_toDigits n.toNat, by simp [AllBlank],
    by simp⟩

/-- A sign with digits has no blank at its ends. -/
theorem ends_of_isDecimal {sign digits : List Char} {n : Nat} (hsign : sign = [] ∨ sign = ['+'])
    (h : IsDecimal digits n) :
    (∀ c ∈ (sign ++ digits).head?, isBlank c = false) ∧
      ∀ c ∈ (sign ++ digits).getLast?, isBlank c = false := by
  have hnone : ∀ c ∈ sign ++ digits, isBlank c = false := by
    rw [List.forall_mem_append]
    refine ⟨?_, fun c hc => isBlank_of_isDigit (h.isDigit c hc)⟩
    rcases hsign with rfl | rfl
    · simp
    · exact List.forall_mem_singleton.2 (by decide)
  exact ⟨fun c hc => hnone c (List.mem_of_mem_head? hc),
    fun c hc => hnone c (List.mem_of_mem_getLast? hc)⟩

/-- What is read as a number of a repeat count. -/
theorem readCount?_eq_some_iff {cs : List Char} {n : UInt32} :
    readCount? cs = some n ↔ IsCount cs n := by
  rw [readCount?, readWord32?_eq_some_iff]
  constructor
  · rintro ⟨sign, digits, hsign, hdigits, htrim⟩
    obtain ⟨lead, trail, hlead, htrail, hcs⟩ := exists_eq_append_trimBy isBlank cs
    refine ⟨lead, sign, digits, trail, hlead, hsign, hdigits, htrail, ?_⟩
    rw [← htrim]
    exact hcs
  · rintro ⟨lead, sign, digits, trail, hlead, hsign, hdigits, htrail, rfl⟩
    obtain ⟨hfirst, hlast⟩ := ends_of_isDecimal hsign hdigits
    exact ⟨sign, digits, hsign, hdigits, trimBy_append hlead htrail hfirst hlast⟩

theorem IsCount.notMem_dash {cs : List Char} {n : UInt32} (h : IsCount cs n) : '-' ∉ cs := by
  obtain ⟨lead, sign, digits, trail, hlead, hsign, hdigits, htrail, rfl⟩ := h
  have hblank : ∀ blanks, AllBlank blanks → '-' ∉ blanks := by
    intro blanks hblanks hmem
    exact absurd (hblanks '-' hmem) (by decide)
  have hplus : '-' ∉ sign := by
    rcases hsign with rfl | rfl <;> decide
  simp only [List.mem_append, not_or]
  exact ⟨hblank lead hlead, ⟨hplus, hdigits.notMem rfl⟩, hblank trail htrail⟩

theorem IsCount.ne_nil {cs : List Char} {n : UInt32} (h : IsCount cs n) : cs ≠ [] := by
  obtain ⟨lead, sign, digits, trail, -, -, hdigits, -, rfl⟩ := h
  simp [hdigits.ne_nil]

/-! ## Forms -/

/-- The written forms of a repeat count. -/
inductive Repeat.IsForm : List Char → Repeat → Prop
  | exactly {cs : List Char} {n : UInt32} (h : IsCount cs n) : IsForm cs ⟨n, some n⟩
  | atLeast {cs : List Char} {n : UInt32} (h : IsCount cs n) : IsForm (cs ++ ['-']) ⟨n, none⟩
  | between {cs ds : List Char} {m n : UInt32} (hm : IsCount cs m) (hn : IsCount ds n)
      (hle : m ≤ n) : IsForm (cs ++ '-' :: ds) ⟨m, some n⟩

theorem Repeat.IsForm.isOrdered {cs : List Char} {r : Repeat} (h : Repeat.IsForm cs r) :
    r.isOrdered = true := by
  cases h with
  | exactly _ => simp [Repeat.isOrdered]
  | atLeast _ => rfl
  | between _ _ hle => simpa [Repeat.isOrdered] using hle

/-- The shortest form of a count whose bounds are in order is one of its forms. -/
theorem Repeat.isForm_render {r : Repeat} (h : r.isOrdered = true) :
    Repeat.IsForm r.render.toList r := by
  have hcount : ∀ n : UInt32, (toString n.toNat).toList = Nat.toDigits 10 n.toNat := fun n =>
    String.toList_ofList
  obtain ⟨min, max⟩ := r
  cases max with
  | none =>
      rw [Repeat.render, String.toList_append, hcount]
      exact .atLeast (isCount_toDigits min)
  | some max =>
      by_cases hsame : max = min
      · have hrender : Repeat.render ⟨min, some max⟩ = toString min.toNat := if_pos hsame
        rw [hrender, hcount, hsame]
        exact .exactly (isCount_toDigits min)
      · have hrender : Repeat.render ⟨min, some max⟩ =
            toString min.toNat ++ "-" ++ toString max.toNat := if_neg hsame
        have hle : min ≤ max := by simpa [Repeat.isOrdered] using h
        rw [hrender, String.toList_append, String.toList_append, hcount, hcount,
          List.append_assoc]
        exact .between (isCount_toDigits min) (isCount_toDigits max) hle

/-! ## Reading -/

theorem Repeat.ofForm?_of_notMem {cs : List Char} (h : '-' ∉ cs) :
    Repeat.ofForm? cs = (readCount? cs).map fun n => ⟨n, some n⟩ := by
  have hall : ∀ c ∈ cs, (c != '-') = true := fun c hc =>
    bne_iff_ne.2 (ne_of_mem_of_not_mem hc h)
  rw [Repeat.ofForm?, List.dropWhile_eq_nil_iff.2 hall]

/-- The bounds are read on both sides of the first dash. -/
theorem Repeat.ofForm?_append {first : List Char} (h : '-' ∉ first) (last : List Char) :
    Repeat.ofForm? (first ++ '-' :: last) = Repeat.ofParts? first last := by
  have hall : ∀ c ∈ first, (c != '-') = true := fun c hc =>
    bne_iff_ne.2 (ne_of_mem_of_not_mem hc h)
  rw [Repeat.ofForm?, dropWhile_append_eq hall (by simp), takeWhile_append_eq hall (by simp)]

theorem Repeat.ofParts?_nil (first : List Char) :
    Repeat.ofParts? first [] = (readCount? first).map fun n => ⟨n, none⟩ := by
  rw [Repeat.ofParts?]
  cases readCount? first with
  | none => rfl
  | some n => rfl

theorem Repeat.ofParts?_eq_some_iff {first last : List Char} (hlast : last ≠ []) {r : Repeat} :
    Repeat.ofParts? first last = some r ↔
      ∃ m n, IsCount first m ∧ IsCount last n ∧ (⟨m, some n⟩ : Repeat) = r := by
  rw [Repeat.ofParts?]
  simp only [← readCount?_eq_some_iff]
  cases readCount? first with
  | none => simp
  | some m => simp [hlast]

/-- The repeat counts that are read are those in one of the three forms. -/
theorem Repeat.parse?_eq_some_iff {s : String} {r : Repeat} :
    Repeat.parse? s = some r ↔ Repeat.IsForm s.toList r := by
  rw [Repeat.parse?, Option.filter_eq_some_iff]
  constructor
  · rintro ⟨hform, hordered⟩
    -- A text with a dash is split at the first one, and nothing at all behind it is the open form.
    by_cases hdash : '-' ∈ s.toList
    · obtain ⟨first, last, hs, hfirst⟩ := List.eq_append_cons_of_mem hdash
      rw [hs] at hform ⊢
      rw [Repeat.ofForm?_append hfirst] at hform
      by_cases hlast : last = []
      · rw [hlast, Repeat.ofParts?_nil, Option.map_eq_some_iff] at hform
        obtain ⟨n, hn, rfl⟩ := hform
        rw [hlast]
        exact .atLeast (readCount?_eq_some_iff.1 hn)
      · obtain ⟨m, n, hm, hn, rfl⟩ := (Repeat.ofParts?_eq_some_iff hlast).1 hform
        exact .between hm hn (by simpa [Repeat.isOrdered] using hordered)
    · rw [Repeat.ofForm?_of_notMem hdash, Option.map_eq_some_iff] at hform
      obtain ⟨n, hn, rfl⟩ := hform
      exact .exactly (readCount?_eq_some_iff.1 hn)
  · intro h
    refine ⟨?_, h.isOrdered⟩
    -- No number has a dash in it, so the dash of a form is the first one.
    generalize s.toList = cs at h
    cases h with
    | exactly hn => rw [Repeat.ofForm?_of_notMem hn.notMem_dash, readCount?_eq_some_iff.2 hn]; rfl
    | atLeast hn =>
        rw [Repeat.ofForm?_append hn.notMem_dash, Repeat.ofParts?_nil,
          readCount?_eq_some_iff.2 hn]
        rfl
    | between hm hn _ =>
        rw [Repeat.ofForm?_append hm.notMem_dash]
        exact (Repeat.ofParts?_eq_some_iff hn.ne_nil).2 ⟨_, _, hm, hn, rfl⟩

/-- A repeat count in order is read back. -/
theorem Repeat.parse?_render {r : Repeat} (h : r.isOrdered = true) :
    Repeat.parse? r.render = some r := Repeat.parse?_eq_some_iff.2 (Repeat.isForm_render h)

/-- A repeat count that is read has its bounds in order. -/
theorem isOrdered_of_parse? {s : String} {r : Repeat} (h : Repeat.parse? s = some r) :
    r.isOrdered = true := (Repeat.parse?_eq_some_iff.1 h).isOrdered

/-! ## The attribute of an item -/

theorem readOccurs_eq_ok_iff {value? : Option String} {occurs? : Option Repeat} :
    readOccurs value? = .ok occurs? ↔ (value? = none ∧ occurs? = none) ∨
      ∃ value occurs, value? = some value ∧ Repeat.parse? value = some occurs ∧
        occurs? = some occurs := by
  cases value? with
  | none => simp [readOccurs, eq_comm]
  | some value =>
      rw [readOccurs]
      cases hparse : Repeat.parse? value with
      | none => simp [hparse]
      | some occurs => simp [hparse, eq_comm]

theorem readOccurs_eq_error_iff {s : String} {e : Error} :
    readOccurs (some s) = .error e ↔
      Repeat.parse? s = none ∧ .invalidAttribute "item" "repeat" s = e := by
  rw [readOccurs]
  cases Repeat.parse? s with
  | none => simp
  | some r => simp

/-- Counts whose bounds are in order are read back from their shortest form. Of all values, those
in one of the three forms are read, as what their numbers say, and can be written again; every
other value is reported as a whole. -/
theorem readOccurs_forms :
    (∀ r : Repeat, (∀ max ∈ r.max, r.min ≤ max) → readOccurs (some r.render) = .ok (some r)) ∧
      ∀ s : String,
        (∀ r, readOccurs (some s) = .ok (some r) ↔ Repeat.IsForm s.toList r) ∧
        (∀ r, readOccurs (some s) = .ok (some r) → readOccurs (some r.render) = .ok (some r)) ∧
        ((¬ ∃ r, Repeat.IsForm s.toList r) ↔
          readOccurs (some s) = .error (.invalidAttribute "item" "repeat" s)) := by
  have hforms : ∀ s r, readOccurs (some s) = .ok (some r) ↔ Repeat.IsForm s.toList r := by
    intro s r
    rw [← Repeat.parse?_eq_some_iff, readOccurs_eq_ok_iff]
    simp
  refine ⟨fun r hordered => ?_, fun s => ⟨hforms s, fun r hr => ?_, ?_⟩⟩
  · refine (hforms _ r).2 (Repeat.isForm_render ?_)
    rw [Repeat.isOrdered, Option.all_eq_true]
    simpa using hordered
  · exact (hforms _ r).2 (Repeat.isForm_render ((hforms s r).1 hr).isOrdered)
  · simp only [← Repeat.parse?_eq_some_iff, readOccurs_eq_error_iff, and_true,
      Option.eq_none_iff_forall_ne_some, not_exists, ne_eq]

/-- Blanks, a plus sign and leading zeros are not kept; a blank behind the dash of the open form
makes it none. -/
theorem readOccurs_forms_blanks :
    (∀ max ∈ (some 4 : Option UInt32), (2 : UInt32) ≤ max) ∧
      readOccurs (some " +2 - 004") = .ok (some ⟨2, some 4⟩) ∧
      readOccurs (some (Repeat.render ⟨2, some 4⟩)) = .ok (some ⟨2, some 4⟩) ∧
      ¬ (∃ r, Repeat.IsForm "2- ".toList r) := by
  have hread : readOccurs (some " +2 - 004") = .ok (some ⟨2, some 4⟩) := by decide +kernel
  have hopen : readOccurs (some "2- ") = .error (.invalidAttribute "item" "repeat" "2- ") := by
    decide +kernel
  obtain ⟨hrender, hforms⟩ := readOccurs_forms
  have hordered : ∀ max ∈ (some 4 : Option UInt32), (2 : UInt32) ≤ max := by
    intro max hmax
    obtain rfl := Option.mem_some_iff.1 hmax
    decide
  exact ⟨hordered, hread, hrender ⟨2, some 4⟩ hordered, (hforms "2- ").2.2.2 hopen⟩

end SpeechGrammar
