set_option autoImplicit false

/-!
# Outcomes of steps that may fail

A step after another one succeeds when both do; a result that is changed was there before.
-/

namespace SpeechGrammar

variable {ε α β γ : Type}

theorem bind_eq_ok {x : Except ε α} {f : α → Except ε β} {b : β} :
    x.bind f = .ok b ↔ ∃ a, x = .ok a ∧ f a = .ok b := by
  cases x with
  | error e => simp [Except.bind]
  | ok a => simp [Except.bind]

theorem bind_eq_error {x : Except ε α} {f : α → Except ε β} {e : ε} :
    x.bind f = .error e ↔ x = .error e ∨ ∃ a, x = .ok a ∧ f a = .error e := by
  cases x with
  | error e' => simp [Except.bind]
  | ok a => simp [Except.bind]

theorem map_eq_ok {x : Except ε α} {f : α → β} {b : β} :
    x.map f = .ok b ↔ ∃ a, x = .ok a ∧ f a = b := by
  cases x with
  | error e => simp [Except.map]
  | ok a => simp [Except.map]

theorem map_eq_error {x : Except ε α} {f : α → β} {e : ε} :
    x.map f = .error e ↔ x = .error e := by
  cases x with
  | error e' => simp [Except.map]
  | ok a => simp [Except.map]

theorem map_map (x : Except ε α) (f : α → β) (g : β → γ) :
    (x.map f).map g = x.map fun a => g (f a) := by
  cases x with
  | error e => rfl
  | ok a => rfl

/-- A step that does not look at the result of the one before it only depends on its error. -/
theorem bind_forget (x : Except ε α) (y : Except ε β) :
    (x.bind fun _ => y) = (x.map fun _ => ()).bind fun _ => y := by
  cases x with
  | error e => rfl
  | ok a => rfl

/-- Two steps whose results are put together go wrong where the first of them does. -/
theorem forget_bind_map (x : Except ε α) (y : Except ε β) (f : α → β → γ) :
    (x.bind fun a => y.map (f a)).map (fun _ => ()) =
      (x.map fun _ => ()).bind fun _ => y.map fun _ => () := by
  cases x with
  | error e => rfl
  | ok a =>
      cases y with
      | error e => rfl
      | ok b => rfl

end SpeechGrammar
