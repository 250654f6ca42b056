import SpeechGrammar.Proofs.Regex.Goals

set_option autoImplicit false

/-!
# What an expression matches

`Spans text r i j` says that the expression `r` matches the part of the text from position `i`
to position `j`. The main statement is `isMatch_iff_spans`: the matcher answers yes exactly when
the expression matches some part of the text. It rests on `holds_reach`, which describes the
goals that the matcher computes by the relation.
-/

namespace SpeechGrammar.Regex

open Relation

/-- A number of steps of a relation. -/
def Steps (R : Nat → Nat → Prop) : Nat → Nat → Nat → Prop
  | 0, i, j => j = i
  | n + 1, i, j => ∃ m, R i m ∧ Steps R n m j

/-- A repetition allows a number of times. A greatest number below the least one counts as the
least one. -/
def Allows (min : Nat) (max : Option Nat) (n : Nat) : Prop :=
  min ≤ n ∧ ∀ m ∈ max, n ≤ min ∨ n ≤ m

mutual

/-- The expression matches the text from one position to another. -/
def Spans (text : List Char) : Regex → Nat → Nat → Prop
  | .empty, i, j => j = i
  | .char c, i, j => text[i]? = some c ∧ j = i + 1
  | .never, _, _ => False
  | .atStart, i, j => i = 0 ∧ j = i
  | .atEnd, i, j => i = text.length ∧ j = i
  | .group r, i, j => Spans text r i j
  | .repeated r min max, i, j => ∃ n, Allows min max n ∧ Steps (Spans text r) n i j
  | .concat rs, i, j => SpansAll text rs i j
  | .choice rs, i, j => SpansAny text rs i j

/-- The expressions match the text, one after the other, from one position to another. -/
def SpansAll (text : List Char) : List Regex → Nat → Nat → Prop
  | [], i, j => j = i
  | r :: rs, i, j => ∃ m, Spans text r i m ∧ SpansAll text rs m j

/-- One of the expressions matches the text from one position to another. -/
def SpansAny (text : List Char) : List Regex → Nat → Nat → Prop
  | [], _, _ => False
  | r :: rs, i, j => Spans text r i j ∨ SpansAny text rs i j

end

/-! ## Steps -/

theorem steps_add (R : Nat → Nat → Prop) (m n i j : Nat) :
    Steps R (m + n) i j ↔ ∃ k, Steps R m i k ∧ Steps R n k j := by
  induction m generalizing i with
  | zero => simp [Steps]
  | succ m ih =>
      rw [Nat.add_right_comm]
      simp only [Steps, ih]
      constructor
      · rintro ⟨l, hl, k, hk, hj⟩
        exact ⟨k, ⟨l, hl, hk⟩, hj⟩
      · rintro ⟨k, ⟨l, hl, hk⟩, hj⟩
        exact ⟨l, hl, k, hk, hj⟩

theorem reflTransGen_iff_steps (R : Nat → Nat → Prop) (i j : Nat) :
    ReflTransGen R i j ↔ ∃ n, Steps R n i j := by
  constructor
  · intro h
    induction h using ReflTransGen.head_induction_on with
    | refl => exact ⟨0, rfl⟩
    | head hstep _ ih =>
        obtain ⟨n, hn⟩ := ih
        exact ⟨n + 1, _, hstep, hn⟩
  · rintro ⟨n, hn⟩
    induction n generalizing i with
    | zero => rw [show j = i from hn]
    | succ n ih =>
        obtain ⟨m, hstep, hrest⟩ := hn
        exact .head hstep (ih m hrest)

theorem steps_le {R : Nat → Nat → Prop} (hR : ∀ i j, R i j → i ≤ j) {n i j : Nat}
    (h : Steps R n i j) : i ≤ j := by
  induction n generalizing i with
  | zero => exact Nat.le_of_eq (Eq.symm h)
  | succ n ih =>
      obtain ⟨m, hstep, hrest⟩ := h
      exact Nat.le_trans (hR i m hstep) (ih hrest)

mutual

/-- No expression goes back in the text. -/
theorem le_of_spans (text : List Char) : ∀ (r : Regex) {i j : Nat}, Spans text r i j → i ≤ j
  | .empty, _, _, h => Nat.le_of_eq (Eq.symm h)
  | .char _, _, _, h => by
      obtain ⟨-, rfl⟩ := h
      exact Nat.le_succ _
  | .never, _, _, h => False.elim h
  | .atStart, _, _, h => Nat.le_of_eq h.2.symm
  | .atEnd, _, _, h => Nat.le_of_eq h.2.symm
  | .group r, _, _, h => le_of_spans text r h
  | .repeated r _ _, _, _, h => by
      obtain ⟨n, -, hn⟩ := h
      exact steps_le (fun i j hij => le_of_spans text r hij) hn
  | .concat rs, _, _, h => le_of_spansAll text rs h
  | .choice rs, _, _, h => le_of_spansAny text rs h

theorem le_of_spansAll (text : List Char) :
    ∀ (rs : List Regex) {i j : Nat}, SpansAll text rs i j → i ≤ j
  | [], _, _, h => Nat.le_of_eq (Eq.symm h)
  | r :: rs, _, _, h => by
      obtain ⟨m, hm, hj⟩ := h
      exact Nat.le_trans (le_of_spans text r hm) (le_of_spansAll text rs hj)

theorem le_of_spansAny (text : List Char) :
    ∀ (rs : List Regex) {i j : Nat}, SpansAny text rs i j → i ≤ j
  | [], _, _, h => False.elim h
  | r :: rs, _, _, h => by
      rcases h with h | h
      · exact le_of_spans text r h
      · exact le_of_spansAny text rs h

end

/-! ## The goals that the matcher computes -/

/-- `f` maps goals for a text to what is reached by a step of `R` before them. -/
structure Steered (size : Nat) (R : Nat → Nat → Prop) (f : List Nat → List Nat) : Prop where
  length_eq : ∀ goals, goals.length = size → (f goals).length = size
  holds_iff : ∀ goals, goals.length = size → ∀ i b,
    Holds (f goals) i b ↔ ∃ j, R i j ∧ Holds goals j b

variable {size : Nat} {R S : Nat → Nat → Prop} {f g : List Nat → List Nat}

theorem Steered.comp (hf : Steered size R f) (hg : Steered size S g) :
    Steered size (fun i j => ∃ m, R i m ∧ S m j) (fun goals => f (g goals)) where
  length_eq goals h := hf.length_eq _ (hg.length_eq goals h)
  holds_iff goals h i b := by
    rw [hf.holds_iff _ (hg.length_eq goals h)]
    simp only [hg.holds_iff goals h]
    constructor
    · rintro ⟨m, hm, j, hj, hb⟩
      exact ⟨j, ⟨m, hm, hj⟩, hb⟩
    · rintro ⟨j, ⟨m, hm, hj⟩, hb⟩
      exact ⟨m, hm, j, hj, hb⟩

theorem Steered.unite (hf : Steered size R f) (hg : Steered size S g) :
    Steered size (fun i j => R i j ∨ S i j) (fun goals => Regex.unite (f goals) (g goals)) where
  length_eq goals h := by
    rw [length_unite _ _ (by rw [hf.length_eq goals h, hg.length_eq goals h]),
      hf.length_eq goals h]
  holds_iff goals h i b := by
    rw [holds_unite (by rw [hf.length_eq goals h, hg.length_eq goals h]),
      hf.holds_iff goals h, hg.holds_iff goals h]
    simp only [or_and_right, exists_or]

theorem Steered.id : Steered size (fun i j => j = i) (fun goals => goals) where
  length_eq _ h := h
  holds_iff _ _ _ _ := by simp

theorem Steered.iterate (hf : Steered size R f) (n : Nat) :
    Steered size (Steps R n) (Regex.iterate f n) := by
  induction n with
  | zero => exact Steered.id
  | succ n ih =>
      have hcomp := hf.comp ih
      -- The last application is the first step in the text.
      have heq : Regex.iterate f (n + 1) = fun goals => f (Regex.iterate f n goals) := by
        funext goals
        rw [iterate_eq, iterate_eq, Function.iterate_succ_apply']
      rw [heq]
      exact hcomp

/-- Adding what one more step reaches a number of times allows up to as many steps. -/
theorem Steered.iterate_unite (hf : Steered size R f) (n : Nat) :
    Steered size (fun i j => ∃ k, k ≤ n ∧ Steps R k i j)
      (fun goals => Regex.iterate (fun reached => Regex.unite goals (f reached)) n goals) := by
  induction n with
  | zero =>
      have heq : (fun i j => ∃ k, k ≤ 0 ∧ Steps R k i j) = fun i j => j = i := by
        funext i j
        simp [Steps]
      rw [heq]
      exact Steered.id
  | succ n ih =>
      -- Up to `n + 1` steps are none, or one and then up to `n`.
      have hone := Steered.id.unite (hf.comp ih)
      have hrel : (fun i j => ∃ k, k ≤ n + 1 ∧ Steps R k i j) =
          fun i j => j = i ∨ ∃ m, R i m ∧ ∃ k, k ≤ n ∧ Steps R k m j := by
        funext i j
        apply propext
        constructor
        · rintro ⟨k, hk, hsteps⟩
          cases k with
          | zero => exact Or.inl hsteps
          | succ k =>
              obtain ⟨m, hm, hj⟩ := hsteps
              exact Or.inr ⟨m, hm, k, Nat.le_of_succ_le_succ hk, hj⟩
        · rintro (rfl | ⟨m, hm, k, hk, hj⟩)
          · exact ⟨0, Nat.zero_le _, rfl⟩
          · exact ⟨k + 1, Nat.succ_le_succ hk, m, hm, hj⟩
      have heq : (fun goals =>
            Regex.iterate (fun reached => Regex.unite goals (f reached)) (n + 1) goals) =
          fun goals => Regex.unite goals
            (f (Regex.iterate (fun reached => Regex.unite goals (f reached)) n goals)) := by
        funext goals
        rw [iterate_eq, iterate_eq, Function.iterate_succ_apply']
      rw [hrel, heq]
      exact hone

theorem allows_none_iff (min n : Nat) : Allows min none n ↔ ∃ k, n = min + k := by
  simp only [Allows, Option.not_mem_none, false_implies, implies_true, and_true]
  constructor
  · exact Nat.exists_eq_add_of_le
  · rintro ⟨k, rfl⟩
    exact Nat.le_add_right min k

theorem allows_some_iff (min max n : Nat) :
    Allows min (some max) n ↔ ∃ k, k ≤ max - min ∧ n = min + k := by
  simp only [Allows, Option.mem_some_iff, forall_eq']
  constructor
  · rintro ⟨hmin, hmax⟩
    exact ⟨n - min, by omega, by omega⟩
  · rintro ⟨k, hk, rfl⟩
    exact ⟨by omega, by omega⟩

/-- One pass from the right, with the ends of a single step, allows any number of steps. -/
theorem Steered.afterAny {text : List Char} (hf : Steered (text.length + 1) R f)
    (hR : ∀ i j, R i j → i ≤ j) :
    Steered (text.length + 1) (ReflTransGen R)
      (fun goals => Regex.afterAny 0 (f (ownBits 0 text)) goals) where
  length_eq goals h := by
    rw [length_afterAny _ _ _ (by rw [hf.length_eq _ (length_ownBits 0 text), h]), h]
  holds_iff goals h i b := by
    have hends : ∀ i j, Holds (f (ownBits 0 text)) i (0 + j) ↔ R i j ∧ j ≤ text.length := by
      intro i j
      rw [hf.holds_iff _ (length_ownBits 0 text)]
      simp only [holds_ownBits, Nat.zero_add]
      constructor
      · rintro ⟨k, hk, hle, rfl⟩
        exact ⟨hk, hle⟩
      · rintro ⟨hj, hle⟩
        exact ⟨j, hj, hle, rfl⟩
    have hlen : (f (ownBits 0 text)).length = goals.length := by
      rw [hf.length_eq _ (length_ownBits 0 text), h]
    rw [holds_afterAny 0 _ _ hlen (fun i j hij => hR i j ((hends i j).1 hij).1)]
    simp only [hends]
    constructor
    · rintro ⟨j, hj, hb⟩
      exact ⟨j, hj.lift (fun k => k) fun _ _ hab => hab.1, hb⟩
    · rintro ⟨j, hj, hb⟩
      have hle : j ≤ text.length := by
        have := lt_length_of_holds hb
        omega
      refine ⟨j, ?_, hb⟩
      -- Every step ends inside the text, because the last one does.
      induction hj using ReflTransGen.head_induction_on with
      | refl => exact .refl
      | @head i m hstep hrest ih =>
          have hm : m ≤ j := by
            obtain ⟨n, hn⟩ := (reflTransGen_iff_steps R m j).1 hrest
            exact steps_le hR hn
          exact .head ⟨hstep, Nat.le_trans hm hle⟩ ih

mutual

/-- The matcher computes what is reached by matching the expression and then going on. -/
theorem steered_reach (text : List Char) :
    ∀ r : Regex, Steered (text.length + 1) (Spans text r) (reach text r)
  | .empty => Steered.id
  | .char c =>
      { length_eq := fun goals _ => length_afterChar _ _ _
        holds_iff := fun goals _ i b => by
          simp only [reach, holds_afterChar, Spans, beq_iff_eq]
          constructor
          · rintro ⟨d, hd, rfl, hb⟩
            exact ⟨i + 1, ⟨hd, rfl⟩, hb⟩
          · rintro ⟨j, ⟨hc, rfl⟩, hb⟩
            exact ⟨c, hc, rfl, hb⟩ }
  | .never =>
      { length_eq := fun goals h => by simpa [reach] using h
        holds_iff := fun goals _ i b => by
          simp only [reach, Spans, false_and, exists_false, iff_false]
          exact holds_map_zero goals i b }
  | .atStart =>
      { length_eq := fun goals h => by rw [reach, length_atFirst, h]
        holds_iff := fun goals _ i b => by
          simp only [reach, holds_atFirst, Spans]
          constructor
          · rintro ⟨hi, hb⟩
            exact ⟨i, ⟨hi, rfl⟩, hb⟩
          · rintro ⟨j, ⟨hi, rfl⟩, hb⟩
            exact ⟨hi, hb⟩ }
  | .atEnd =>
      { length_eq := fun goals h => by rw [reach, length_atLast, h]
        holds_iff := fun goals h i b => by
          simp only [reach, holds_atLast, Spans, h, Nat.add_right_cancel_iff]
          constructor
          · rintro ⟨hi, hb⟩
            exact ⟨i, ⟨hi, rfl⟩, hb⟩
          · rintro ⟨j, ⟨hi, rfl⟩, hb⟩
            exact ⟨hi, hb⟩ }
  | .group r => steered_reach text r
  | .repeated r min none => by
      have hr := steered_reach text r
      have hany := hr.afterAny fun i j h => le_of_spans text r h
      -- At least `min` steps are `min` steps and then any number.
      have hrel : Spans text (.repeated r min none) =
          fun i j => ∃ m, Steps (Spans text r) min i m ∧ ReflTransGen (Spans text r) m j := by
        funext i j
        simp only [Spans, allows_none_iff, reflTransGen_iff_steps]
        apply propext
        constructor
        · rintro ⟨_, ⟨k, rfl⟩, hsteps⟩
          obtain ⟨m, hm, hj⟩ := (steps_add _ _ _ _ _).1 hsteps
          exact ⟨m, hm, k, hj⟩
        · rintro ⟨m, hm, k, hj⟩
          exact ⟨min + k, ⟨k, rfl⟩, (steps_add _ _ _ _ _).2 ⟨m, hm, hj⟩⟩
      rw [hrel]
      exact (hr.iterate min).comp hany
  | .repeated r min (some max) => by
      have hr := steered_reach text r
      -- Between the bounds lie `min` steps and then up to `max - min`.
      have hrel : Spans text (.repeated r min (some max)) = fun i j =>
          ∃ m, Steps (Spans text r) min i m ∧
            ∃ k, k ≤ max - min ∧ Steps (Spans text r) k m j := by
        funext i j
        simp only [Spans, allows_some_iff]
        apply propext
        constructor
        · rintro ⟨_, ⟨k, hk, rfl⟩, hsteps⟩
          obtain ⟨m, hm, hj⟩ := (steps_add _ _ _ _ _).1 hsteps
          exact ⟨m, hm, k, hk, hj⟩
        · rintro ⟨m, hm, k, hk, hj⟩
          exact ⟨min + k, ⟨k, hk, rfl⟩, (steps_add _ _ _ _ _).2 ⟨m, hm, hj⟩⟩
      rw [hrel]
      exact (hr.iterate min).comp (hr.iterate_unite (max - min))
  | .concat rs => steered_reachAll text rs
  | .choice rs => steered_reachAny text rs

theorem steered_reachAll (text : List Char) :
    ∀ rs : List Regex, Steered (text.length + 1) (SpansAll text rs) (reachAll text rs)
  | [] => Steered.id
  | r :: rs => (steered_reach text r).comp (steered_reachAll text rs)

theorem steered_reachAny (text : List Char) :
    ∀ rs : List Regex, Steered (text.length + 1) (SpansAny text rs) (reachAny text rs)
  | [] =>
      { length_eq := fun goals h => by simpa [reachAny] using h
        holds_iff := fun goals _ i b => by
          simp only [reachAny, SpansAny, false_and, exists_false, iff_false]
          exact holds_map_zero goals i b }
  | r :: rs => (steered_reach text r).unite (steered_reachAny text rs)

end

/-! ## The matcher -/

theorem holds_ones (text : List Char) (i b : Nat) :
    Holds (1 :: text.map fun _ => 1) i b ↔ i ≤ text.length ∧ b = 0 := by
  have hone : (1 : Nat).testBit b = true ↔ b = 0 := by simpa using testBit_one_shiftLeft 0 b
  induction text generalizing i with
  | nil => cases i <;> simp [hone]
  | cons a text ih =>
      cases i with
      | zero => simp [hone]
      | succ i =>
          rw [List.map_cons, holds_succ, List.length_cons, Nat.succ_le_succ_iff]
          exact ih i

/-- **The matcher decides the relation**: an expression matches a text when it matches some part
of it. -/
theorem isMatch_iff_spans (r : Regex) (text : List Char) :
    r.isMatch text = true ↔ ∃ i j, Spans text r i j ∧ j ≤ text.length := by
  have hlen : (1 :: text.map fun _ => 1).length = text.length + 1 := by simp
  rw [isMatch, any_ne_zero_iff]
  simp only [(steered_reach text r).holds_iff _ hlen, holds_ones]
  constructor
  · rintro ⟨i, b, j, hj, hle, -⟩
    exact ⟨i, j, hj, hle⟩
  · rintro ⟨i, j, hj, hle⟩
    exact ⟨i, 0, j, hj, hle, rfl⟩

end SpeechGrammar.Regex
