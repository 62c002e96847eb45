/-
  BubbleStorm.Lib.Outcome — programs that raise exceptions, and when they do not.

  `Ok x`: the program `x` ends without an exception. The rules take it apart along the
  program, so that what is left are the conditions of its single steps.
-/

import Mathlib.Data.List.Basic

namespace BubbleStorm.Lib

variable {ε α β : Type}

def Ok (x : Except ε α) : Prop := ∃ a, x = .ok a

@[simp] theorem ok_ok (a : α) : Ok (.ok a : Except ε α) := ⟨a, rfl⟩

@[simp] theorem ok_pure (a : α) : Ok (pure a : Except ε α) := ⟨a, rfl⟩

@[simp] theorem not_ok_error (e : ε) : ¬ Ok (.error e : Except ε α) := by
  intro ⟨a, ha⟩
  cases ha

theorem Ok.not_error {x : Except ε α} (h : Ok x) (e : ε) : x ≠ .error e := by
  intro same
  subst same
  exact not_ok_error e h

theorem bind_eq_ok {x : Except ε α} {f : α → Except ε β} {b : β} : x >>= f = .ok b ↔ ∃ a, x = .ok a ∧ f a = .ok b := by
  cases x with
  | error e =>
    constructor
    · intro h
      cases h
    · intro ⟨a, ha, _⟩
      cases ha
  | ok a =>
    constructor
    · intro h
      exact ⟨a, rfl, h⟩
    · intro ⟨a', ha, h⟩
      cases ha
      exact h

/-- One step after the other. -/
theorem ok_bind {x : Except ε α} {f : α → Except ε β} : Ok (x >>= f) ↔ ∃ a, x = .ok a ∧ Ok (f a) := by
  constructor
  · intro ⟨b, hb⟩
    obtain ⟨a, ha, hf⟩ := bind_eq_ok.mp hb
    exact ⟨a, ha, b, hf⟩
  · intro ⟨a, ha, b, hf⟩
    exact ⟨b, bind_eq_ok.mpr ⟨a, ha, hf⟩⟩

/-- What comes last raises nothing. -/
theorem ok_bind_pure {x : Except ε α} {f : α → β} : Ok (x >>= fun a => pure (f a)) ↔ Ok x := by
  rw [ok_bind]
  constructor
  · intro ⟨a, ha, _⟩
    exact ⟨a, ha⟩
  · intro ⟨a, ha⟩
    exact ⟨a, ha, ok_pure _⟩

theorem ok_ite {c : Prop} [Decidable c] {x y : Except ε α} : Ok (if c then x else y) ↔ (c → Ok x) ∧ (¬ c → Ok y) := by
  by_cases h : c
  · simp [h]
  · simp [h]

theorem ok_mapM {f : α → Except ε β} {l : List α} : Ok (l.mapM f) ↔ ∀ x ∈ l, Ok (f x) := by
  induction l with
  | nil => simp
  | cons x l ih =>
    rw [List.mapM_cons, ok_bind]
    constructor
    · intro ⟨b, hb, h⟩ y hy
      rw [ok_bind_pure] at h
      cases hy with
      | head => exact ⟨b, hb⟩
      | tail _ hy => exact ih.mp h y hy
    · intro h
      obtain ⟨b, hb⟩ := h x (.head _)
      refine ⟨b, hb, ?_⟩
      rw [ok_bind_pure]
      apply ih.mpr
      intro y hy
      exact h y (.tail _ hy)

/-- `x` ends without an exception exactly under `P`, and then with `Q`. -/
def Exactly (x : Except ε α) (P : Prop) (Q : α → Prop) : Prop := (Ok x → P) ∧ (P → ∃ a, x = .ok a ∧ Q a)

namespace Exactly

variable {x : Except ε α} {P : Prop} {Q : α → Prop}

theorem ok_iff (h : Exactly x P Q) : Ok x ↔ P := by
  constructor
  · exact h.1
  · intro hp
    obtain ⟨a, ha, -⟩ := h.2 hp
    exact ⟨a, ha⟩

theorem value (h : Exactly x P Q) {a : α} (ha : x = .ok a) : Q a := by
  obtain ⟨a', ha', hq⟩ := h.2 (h.1 ⟨a, ha⟩)
  rw [ha] at ha'
  cases ha'
  exact hq

end Exactly

end BubbleStorm.Lib
