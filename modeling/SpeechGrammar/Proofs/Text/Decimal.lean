import Mathlib.Tactic
import SpeechGrammar.Text.Decimal

set_option autoImplicit false

/-!
# What is read as a number

A number is read from its decimal digits and from nothing else (`readDigits?_eq_some_iff`), with
leading zeros or without. The digits that a number is printed with are among them, so every number
is read back. A word of 32 bits may have a plus sign before it (`readWord32?_eq_some_iff`).
-/

namespace SpeechGrammar.Text

/-- A non-empty run of decimal digits that writes the number. -/
structure IsDecimal (digits : List Char) (n : Nat) : Prop where
  ne_nil : digits ≠ []
  isDigit : ∀ c ∈ digits, c.isDigit = true
  value : Nat.ofDigitChars 10 digits 0 = n

/-- The letters stand for digits of larger bases only. -/
theorem digitValue?_ten (c : Char) :
    digitValue? 10 c = if c.isDigit then some (c.toNat - '0'.toNat) else none := by
  by_cases hc : c.isDigit = true
  · have hrange := Char.isDigit_iff_toNat.1 hc
    have hvalue : c.toNat - '0'.toNat < 10 := by
      have hnine : '9'.toNat = '0'.toNat + 9 := rfl
      omega
    have hdigit : '0' ≤ c ∧ c ≤ '9' := hrange
    simp only [digitValue?, if_pos hdigit, if_pos hc, Option.filter_some, decide_eq_true hvalue,
      if_true]
  · have hdigit : ¬ ('0' ≤ c ∧ c ≤ '9') := fun h => hc (Char.isDigit_iff_toNat.2 h)
    rw [digitValue?, if_neg hdigit, if_neg hc]
    -- What is left are letters, whose values begin at ten.
    split_ifs <;> simp

/-- Reading on from a number gives a number exactly if only digits follow. -/
theorem foldlM_digitValue?_eq_some_iff {cs : List Char} {init n : Nat} :
    cs.foldlM (fun m c => (digitValue? 10 c).map (m * 10 + ·)) init = some n ↔
      (∀ c ∈ cs, c.isDigit = true) ∧ Nat.ofDigitChars 10 cs init = n := by
  induction cs generalizing init with
  | nil => simp
  | cons c cs ih =>
      rw [List.foldlM_cons, digitValue?_ten]
      by_cases hc : c.isDigit = true
      · have hstep : init * 10 + (c.toNat - '0'.toNat) = 10 * init + (c.toNat - '0'.toNat) := by
          rw [Nat.mul_comm]
        rw [if_pos hc, Option.map_some, Option.bind_eq_bind, Option.bind_some, ih, hstep,
          Nat.ofDigitChars_cons, List.forall_mem_cons]
        simp only [hc, true_and]
      · simp [hc]

/-- What is read as a number are its decimal digits. -/
theorem readDigits?_eq_some_iff {cs : List Char} {n : Nat} :
    readDigits? 10 cs = some n ↔ IsDecimal cs n := by
  rw [readDigits?]
  split_ifs with hnil
  · rw [List.isEmpty_iff] at hnil
    constructor
    · intro h
      cases h
    · intro h
      exact absurd hnil h.ne_nil
  · rw [List.isEmpty_iff] at hnil
    rw [foldlM_digitValue?_eq_some_iff]
    exact ⟨fun h => ⟨hnil, h.1, h.2⟩, fun h => ⟨h.isDigit, h.value⟩⟩

/-- A number is printed with decimal digits of its own. -/
theorem isDecimal_toDigits (n : Nat) : IsDecimal (Nat.toDigits 10 n) n where
  ne_nil := Nat.toDigits_ne_nil
  isDigit _ hc := Nat.isDigit_of_mem_toDigits (by decide) (by decide) hc
  value := Nat.ofDigitChars_toDigits (by decide) (by decide)

/-- The decimal digits of a number are read as the number. -/
theorem readDigits?_toDigits (n : Nat) : readDigits? 10 (Nat.toDigits 10 n) = some n :=
  readDigits?_eq_some_iff.2 (isDecimal_toDigits n)

/-- A character that is not a digit does not occur among the digits of a number. -/
theorem IsDecimal.notMem {digits : List Char} {n : Nat} (h : IsDecimal digits n) {c : Char}
    (hc : c.isDigit = false) : c ∉ digits := by
  intro hmem
  rw [h.isDigit c hmem] at hc
  cases hc

theorem notMem_toDigits (n : Nat) {c : Char} (hc : c.isDigit = false) :
    c ∉ Nat.toDigits 10 n := (isDecimal_toDigits n).notMem hc

/-! ## Words of 32 bits -/

/-- A word is what its digits write, if that fits. -/
theorem word32_eq_some_iff {m? : Option Nat} {n : UInt32} :
    (match m? with
      | none => none
      | some m => if m < UInt32.size then some (UInt32.ofNat m) else none) = some n ↔
      m? = some n.toNat := by
  cases m? with
  | none => simp
  | some m =>
      dsimp only
      constructor
      · intro h
        split_ifs at h with hm
        cases h
        rw [UInt32.toNat_ofNat_of_lt' hm]
      · intro h
        cases h
        rw [if_pos n.toNat_lt, UInt32.ofNat_toNat]

theorem readWord32?_plus_eq_some_iff {digits : List Char} {n : UInt32} :
    readWord32? ('+' :: digits) = some n ↔ IsDecimal digits n.toNat :=
  word32_eq_some_iff.trans readDigits?_eq_some_iff

theorem readWord32?_eq_some_iff_of_ne_plus {cs : List Char} (hcs : ∀ rest, cs ≠ '+' :: rest)
    {n : UInt32} : readWord32? cs = some n ↔ IsDecimal cs n.toNat := by
  rw [readWord32?]
  · exact word32_eq_some_iff.trans readDigits?_eq_some_iff
  · exact hcs

/-- What is read as a word of 32 bits are its decimal digits, with a plus sign or without. -/
theorem readWord32?_eq_some_iff {cs : List Char} {n : UInt32} :
    readWord32? cs = some n ↔
      ∃ sign digits, (sign = [] ∨ sign = ['+']) ∧ IsDecimal digits n.toNat ∧
        cs = sign ++ digits := by
  constructor
  · intro h
    by_cases hplus : ∃ rest, cs = '+' :: rest
    · obtain ⟨digits, rfl⟩ := hplus
      exact ⟨['+'], digits, .inr rfl, readWord32?_plus_eq_some_iff.1 h, rfl⟩
    · push Not at hplus
      exact ⟨[], cs, .inl rfl, (readWord32?_eq_some_iff_of_ne_plus hplus).1 h, rfl⟩
  · rintro ⟨sign, digits, rfl | rfl, h, rfl⟩
    · refine (readWord32?_eq_some_iff_of_ne_plus fun rest hrest => ?_).2 h
      exact h.notMem (c := '+') rfl (hrest ▸ List.mem_cons_self ..)
    · exact readWord32?_plus_eq_some_iff.2 h

end SpeechGrammar.Text
