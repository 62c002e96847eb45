/-
  BubbleStorm.Lib.Horner — a list of coefficients is told by few points.

  Horner's scheme with a multiplication after every coefficient evaluates a polynomial
  without a constant term. Two lists of nonzero coefficients are two polynomials, and
  their values differ by the same in as many points at most as the longer list has
  coefficients (`few_points`).
-/

import Mathlib.Algebra.Polynomial.Roots
import Mathlib.Data.Set.Card

namespace BubbleStorm.Lib

open Polynomial

variable {F : Type} [CommRing F]

/-- The scheme at a point. -/
def hornerAt (x : F) (l : List F) : F := l.foldl (fun h c => (h + c) * x) 0

noncomputable def horner (l : List F) : F[X] := l.foldl (fun P c => (P + C c) * X) 0

theorem horner_append (l : List F) (c : F) : horner (l ++ [c]) = (horner l + C c) * X := by
  rw [horner, List.foldl_append]
  rfl

theorem eval_horner (x : F) (l : List F) : (horner l).eval x = hornerAt x l := by
  induction l using List.reverseRecOn with
  | nil => simp [horner, hornerAt]
  | append_singleton l c ih =>
    rw [horner_append, eval_mul, eval_add, eval_C, eval_X, ih, hornerAt, hornerAt, List.foldl_append]
    rfl

theorem coeff_zero_horner (l : List F) : (horner l).coeff 0 = 0 := by
  induction l using List.reverseRecOn with
  | nil => simp [horner]
  | append_singleton l c _ => rw [horner_append, mul_coeff_zero, coeff_X_zero, mul_zero]

theorem coeff_one_horner (l : List F) (c : F) : (horner (l ++ [c])).coeff 1 = c := by
  rw [horner_append, coeff_mul_X, coeff_add, coeff_zero_horner, zero_add, coeff_C_zero]

theorem natDegree_horner (l : List F) : (horner l).natDegree ≤ l.length := by
  induction l using List.reverseRecOn with
  | nil => simp [horner]
  | append_singleton l c ih =>
    rw [horner_append, List.length_append, List.length_singleton]
    refine natDegree_mul_le.trans (Nat.add_le_add ?_ natDegree_X_le)
    exact (natDegree_add_le _ _).trans (max_le ih ((natDegree_C c).le.trans (Nat.zero_le _)))

variable [IsDomain F]

/-- The last coefficient is that of `X`, the others are told by what is left of it. -/
theorem horner_injective {l l' : List F} (hl : ∀ c ∈ l, c ≠ 0) (hl' : ∀ c ∈ l', c ≠ 0) (h : horner l = horner l') : l = l' := by
  induction l using List.reverseRecOn generalizing l' with
  | nil =>
    cases l' using List.reverseRecOn with
    | nil => rfl
    | append_singleton l' c =>
      have hone := coeff_one_horner l' c
      rw [← h] at hone
      exact absurd (hone.symm.trans (by simp [horner])) (hl' c (by simp))
  | append_singleton l c ih =>
    cases l' using List.reverseRecOn with
    | nil =>
      have hone := coeff_one_horner l c
      rw [h] at hone
      exact absurd (hone.symm.trans (by simp [horner])) (hl c (by simp))
    | append_singleton l' c' =>
      have hlast : c = c' := by rw [← coeff_one_horner l c, ← coeff_one_horner l' c', h]
      rw [horner_append, horner_append, hlast] at h
      have hrest := add_right_cancel (mul_right_cancel₀ X_ne_zero h)
      rw [ih (fun c hc => hl c (by simp [hc])) (fun c hc => hl' c (by simp [hc])) hrest, hlast]

/-- The values of two lists differ by `d` in few points. -/
theorem few_points {l l' : List F} (hl : ∀ c ∈ l, c ≠ 0) (hl' : ∀ c ∈ l', c ≠ 0) (hne : l ≠ l') (d : F) :
    {x : F | hornerAt x l = hornerAt x l' + d}.Finite ∧
      {x : F | hornerAt x l = hornerAt x l' + d}.ncard ≤ max l.length l'.length := by
  classical
  have hpoly : horner l - horner l' - C d ≠ 0 := by
    intro hzero
    have hd : d = 0 := by
      have := congrArg (coeff · 0) hzero
      simpa [coeff_zero_horner] using this
    rw [hd, C_0, sub_zero] at hzero
    exact hne (horner_injective hl hl' (sub_eq_zero.mp hzero))
  have hset : {x : F | hornerAt x l = hornerAt x l' + d} = ((horner l - horner l' - C d).roots.toFinset : Set F) := by
    ext x
    rw [Set.mem_ofPred_eq, Finset.mem_coe, Multiset.mem_toFinset, mem_roots hpoly, IsRoot.def, eval_sub, eval_sub, eval_C,
      eval_horner, eval_horner, sub_sub, sub_eq_zero]
  have hdegree : (horner l - horner l' - C d).natDegree ≤ max l.length l'.length := by
    refine (natDegree_sub_le _ _).trans (max_le ((natDegree_sub_le _ _).trans ?_) ((natDegree_C d).le.trans (Nat.zero_le _)))
    exact max_le_max (natDegree_horner l) (natDegree_horner l')
  rw [hset]
  refine ⟨Finset.finite_toSet _, ?_⟩
  rw [Set.ncard_coe_finset]
  exact (Multiset.toFinset_card_le _).trans ((card_roots' _).trans hdegree)

end BubbleStorm.Lib
