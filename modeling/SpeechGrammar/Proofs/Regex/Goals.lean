import Mathlib.Logic.Relation
import Mathlib.Tactic
import SpeechGrammar.Regex.Match

set_option autoImplicit false

/-!
# Goals of the matcher

The matcher works on a list with a set of goals, the bits of a number, for each position of the
text. `Holds goals i b` says that the goal `b` is among the goals at position `i`; positions
beyond the list have none. Each operation of the matcher on such lists is described by what it
does to `Holds`.
-/

namespace SpeechGrammar.Regex

open Relation

/-- The goal `b` is among the goals at position `i`. -/
def Holds (goals : List Nat) (i b : Nat) : Prop := (goals.getD i 0).testBit b = true

@[simp] theorem holds_nil (i b : Nat) : ¬ Holds [] i b := by simp [Holds]

@[simp] theorem holds_zero (g b : Nat) (goals : List Nat) :
    Holds (g :: goals) 0 b ↔ g.testBit b = true := by simp [Holds]

@[simp] theorem holds_succ (g i b : Nat) (goals : List Nat) :
    Holds (g :: goals) (i + 1) b ↔ Holds goals i b := by simp [Holds]

theorem lt_length_of_holds {goals : List Nat} {i b : Nat} (h : Holds goals i b) :
    i < goals.length := by
  by_contra hle
  simp [Holds, List.getElem?_eq_none (Nat.le_of_not_lt hle)] at h

/-- A goal holds somewhere as soon as the list has a set that is not empty. -/
theorem any_ne_zero_iff (goals : List Nat) :
    goals.any (· != 0) = true ↔ ∃ i b, Holds goals i b := by
  rw [List.any_eq_true]
  constructor
  · rintro ⟨g, hg, hne⟩
    obtain ⟨b, hb⟩ := Nat.exists_testBit_of_ne_zero (by simpa using hne)
    obtain ⟨i, hi, rfl⟩ := List.getElem_of_mem hg
    exact ⟨i, b, by simpa [Holds, List.getElem?_eq_getElem hi] using hb⟩
  · rintro ⟨i, b, h⟩
    have hi : i < goals.length := lt_length_of_holds h
    refine ⟨goals[i], List.getElem_mem hi, ?_⟩
    rw [Holds, List.getD_eq_getElem?_getD, List.getElem?_eq_getElem hi] at h
    rw [Option.getD_some] at h
    rw [bne_iff_ne]
    rintro hz
    simp [hz] at h

/-! ## Uniting and keeping goals -/

theorem length_unite (goals more : List Nat) (h : goals.length = more.length) :
    (unite goals more).length = goals.length := by
  induction goals generalizing more with
  | nil => cases more <;> rfl
  | cons g goals ih =>
      cases more with
      | nil => cases h
      | cons m more => simp [unite, ih more (by simpa using h)]

theorem holds_unite {goals more : List Nat} (h : goals.length = more.length) (i b : Nat) :
    Holds (unite goals more) i b ↔ Holds goals i b ∨ Holds more i b := by
  induction goals generalizing more i with
  | nil => cases more <;> simp [unite] at h ⊢
  | cons g goals ih =>
      cases more with
      | nil => cases h
      | cons m more =>
          cases i with
          | zero => simp [unite]
          | succ i => simpa [unite] using ih (by simpa using h) i

theorem holds_map_zero (goals : List Nat) (i b : Nat) : ¬ Holds (goals.map fun _ => 0) i b := by
  induction goals generalizing i with
  | nil => simp
  | cons g goals ih =>
      cases i with
      | zero => simp
      | succ i => simpa using ih i

theorem length_atFirst (goals : List Nat) : (atFirst goals).length = goals.length := by
  cases goals <;> simp [atFirst]

theorem holds_atFirst (goals : List Nat) (i b : Nat) :
    Holds (atFirst goals) i b ↔ i = 0 ∧ Holds goals i b := by
  cases goals with
  | nil => simp [atFirst]
  | cons g goals =>
      cases i with
      | zero => simp [atFirst]
      | succ i => simpa [atFirst] using holds_map_zero goals i b

theorem length_atLast (goals : List Nat) : (atLast goals).length = goals.length := by
  induction goals with
  | nil => rfl
  | cons g goals ih => cases goals <;> simp_all [atLast]

theorem holds_atLast (goals : List Nat) (i b : Nat) :
    Holds (atLast goals) i b ↔ i + 1 = goals.length ∧ Holds goals i b := by
  induction goals generalizing i with
  | nil => simp [atLast]
  | cons g goals ih =>
      cases goals with
      | nil => cases i <;> simp [atLast]
      | cons h goals =>
          cases i with
          | zero => simp [atLast]
          | succ i => simpa [atLast] using ih i

/-! ## Reading a character -/

theorem length_afterChar (p : Char → Bool) (text : List Char) (goals : List Nat) :
    (afterChar p text goals).length = text.length + 1 := by
  induction text generalizing goals with
  | nil => rfl
  | cons a text ih => simp [afterChar, ih]

theorem holds_afterChar (p : Char → Bool) (text : List Char) (goals : List Nat) (i b : Nat) :
    Holds (afterChar p text goals) i b ↔
      ∃ c, text[i]? = some c ∧ p c = true ∧ Holds goals (i + 1) b := by
  induction text generalizing goals i with
  | nil => cases i <;> simp [afterChar]
  | cons a text ih =>
      have htail : ∀ j, Holds goals.tail j b ↔ Holds goals (j + 1) b := by
        intro j
        cases goals <;> simp
      cases i with
      | zero =>
          have hhead : (goals.tail.headD 0).testBit b = true ↔ Holds goals 1 b := by
            rw [← htail 0]
            cases goals.tail <;> simp
          by_cases hp : p a = true
          · simp only [afterChar, hp, if_true, holds_zero, hhead]
            simp [hp]
          · simp [afterChar, hp]
      | succ i => simp [afterChar, ih, htail]

/-! ## Going on any number of times -/

theorem length_ownBits (start : Nat) (text : List Char) :
    (ownBits start text).length = text.length + 1 := by
  induction text generalizing start with
  | nil => rfl
  | cons a text ih => simp [ownBits, ih]

theorem testBit_one_shiftLeft (i b : Nat) : (1 <<< i).testBit b = true ↔ b = i := by
  rw [Nat.one_shiftLeft, Nat.testBit_two_pow]
  simp [eq_comm]

theorem holds_ownBits (start : Nat) (text : List Char) (i b : Nat) :
    Holds (ownBits start text) i b ↔ i ≤ text.length ∧ b = start + i := by
  induction text generalizing start i with
  | nil =>
      cases i with
      | zero => rw [ownBits, holds_zero, testBit_one_shiftLeft]; simp
      | succ i => simp [ownBits]
  | cons a text ih =>
      cases i with
      | zero => rw [ownBits, holds_zero, testBit_one_shiftLeft]; simp
      | succ i =>
          rw [ownBits, holds_succ, ih, List.length_cons]
          omega

theorem testBit_gather (bits : Nat) (goals : List Nat) (b : Nat) :
    (gather bits goals).testBit b = true ↔ ∃ i, bits.testBit i = true ∧ Holds goals i b := by
  induction goals generalizing bits with
  | nil => simp [gather]
  | cons g goals ih =>
      by_cases hz : bits = 0
      · simp [gather, hz]
      · rw [gather, if_neg hz, Nat.testBit_or, Bool.or_eq_true, ih]
        constructor
        · rintro (h | ⟨i, hi, hg⟩)
          · by_cases hodd : bits % 2 = 1
            · exact ⟨0, by simpa [Nat.testBit_zero] using hodd, by simpa [hodd] using h⟩
            · simp [hodd] at h
          · exact ⟨i + 1, by rwa [Nat.testBit_add_one], by simpa using hg⟩
        · rintro ⟨i, hi, hg⟩
          cases i with
          | zero =>
              rw [Nat.testBit_zero, decide_eq_true_eq] at hi
              exact Or.inl (by simpa [hi] using hg)
          | succ i => exact Or.inr ⟨i, by rwa [Nat.testBit_add_one] at hi, by simpa using hg⟩

theorem length_afterAny (start : Nat) (ends goals : List Nat) (h : ends.length = goals.length) :
    (afterAny start ends goals).length = goals.length := by
  induction ends generalizing start goals with
  | nil => cases goals <;> simp_all [afterAny]
  | cons e ends ih =>
      cases goals with
      | nil => cases h
      | cons g goals => simp [afterAny, ih (start + 1) goals (by simpa using h)]

/-- A relation that never goes down, seen from the next position on. -/
theorem reflTransGen_succ {R : Nat → Nat → Prop} (hR : ∀ i j, R i j → i ≤ j) (i j : Nat) :
    ReflTransGen R (i + 1) j ↔
      ∃ k, j = k + 1 ∧ ReflTransGen (fun i j => R (i + 1) (j + 1)) i k := by
  constructor
  · intro h
    induction h with
    | refl => exact ⟨i, rfl, .refl⟩
    | @tail m n _ hstep ih =>
        obtain ⟨k, rfl, hk⟩ := ih
        have hle : k + 1 ≤ n := hR _ _ hstep
        obtain ⟨l, rfl⟩ : ∃ l, n = l + 1 := ⟨n - 1, by omega⟩
        exact ⟨l, rfl, hk.tail hstep⟩
  · rintro ⟨k, rfl, hk⟩
    exact hk.lift (· + 1) fun _ _ h => h

/-- Going on any number of times is not going on at all, or a step that leaves the position and
going on from there. -/
theorem reflTransGen_iff_leave {R : Nat → Nat → Prop} (hR : ∀ i j, R i j → i ≤ j) (i j : Nat) :
    ReflTransGen R i j ↔ j = i ∨ ∃ m, i < m ∧ R i m ∧ ReflTransGen R m j := by
  constructor
  · intro h
    induction h using ReflTransGen.head_induction_on with
    | refl => exact Or.inl rfl
    | @head i m hstep hrest ih =>
        -- A step that stays at its position can be left out.
        rcases Nat.eq_or_lt_of_le (hR _ _ hstep) with rfl | hlt
        · exact ih
        · exact Or.inr ⟨m, hlt, hstep, hrest⟩
  · rintro (rfl | ⟨m, -, hstep, hrest⟩)
    · exact .refl
    · exact .head hstep hrest

/-- One pass from the right finds what is reached by going on any number of times. -/
theorem holds_afterAny (start : Nat) (ends goals : List Nat) (hlen : ends.length = goals.length)
    (hR : ∀ i j, Holds ends i (start + j) → i ≤ j) (i b : Nat) :
    Holds (afterAny start ends goals) i b ↔
      ∃ j, ReflTransGen (fun i j => Holds ends i (start + j)) i j ∧ Holds goals j b := by
  induction ends generalizing start goals i with
  | nil => cases goals <;> simp_all [afterAny]
  | cons e ends ih =>
      cases goals with
      | nil => cases hlen
      | cons g goals =>
          -- The relation of the rest of the list is that of the list, one position later.
          have hshift : ∀ i j, Holds ends i (start + 1 + j) ↔
              Holds (e :: ends) (i + 1) (start + (j + 1)) := by
            intro i j
            rw [holds_succ, show start + 1 + j = start + (j + 1) by omega]
          have hrest : ∀ i, Holds (afterAny (start + 1) ends goals) i b ↔
              ∃ j, ReflTransGen (fun i j => Holds (e :: ends) i (start + j)) (i + 1) j ∧
                Holds (g :: goals) j b := by
            intro i
            rw [ih (start + 1) goals (by simpa using hlen)
              (fun i j h => by have := hR _ _ ((hshift i j).1 h); omega)]
            simp only [reflTransGen_succ hR, hshift]
            constructor
            · rintro ⟨j, hj, hg⟩
              exact ⟨j + 1, ⟨j, rfl, hj⟩, by simpa using hg⟩
            · rintro ⟨_, ⟨j, rfl, hj⟩, hg⟩
              exact ⟨j, hj, by simpa using hg⟩
          cases i with
          | succ i => rw [afterAny, holds_succ, hrest]
          | zero =>
              -- From the first position one stays, or leaves it for a later one; the later ones
              -- have been computed already.
              rw [afterAny, holds_zero, Nat.testBit_or, Bool.or_eq_true, testBit_gather]
              constructor
              · rintro (h | ⟨m, hm, hlater⟩)
                · exact ⟨0, .refl, by simpa using h⟩
                · obtain ⟨j, hj, hg⟩ := (hrest m).1 hlater
                  refine ⟨j, .head ?_ hj, hg⟩
                  rw [holds_zero]
                  rwa [Nat.testBit_shiftRight, show start + 1 + m = start + (m + 1) by omega] at hm
              · rintro ⟨j, hj, hg⟩
                rcases (reflTransGen_iff_leave hR 0 j).1 hj with rfl | ⟨m, hpos, hstep, hj⟩
                · exact Or.inl (by simpa using hg)
                · obtain ⟨m, rfl⟩ : ∃ k, m = k + 1 := ⟨m - 1, by omega⟩
                  refine Or.inr ⟨m, ?_, (hrest m).2 ⟨j, hj, hg⟩⟩
                  rw [holds_zero] at hstep
                  rwa [Nat.testBit_shiftRight, show start + 1 + m = start + (m + 1) by omega]

/-! ## Iterating -/

/-- Stopping where nothing changes any more leaves the result of an iteration as it is. -/
theorem iterate_eq (f : List Nat → List Nat) (n : Nat) (goals : List Nat) :
    iterate f n goals = f^[n] goals := by
  induction n generalizing goals with
  | zero => rfl
  | succ n ih =>
      rw [iterate, Function.iterate_succ_apply]
      by_cases h : f goals = goals
      · rw [if_pos h, h, Function.iterate_fixed h]
      · rw [if_neg h, ih]

end SpeechGrammar.Regex
