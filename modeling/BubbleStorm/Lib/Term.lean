/-
  BubbleStorm.Lib.Term — terms in variables, and their partial derivatives by the rules.

  A term has a value over any field in which `exp`, `expm1` and `log` are given; the
  derivative is a term again. Over the reals, with the functions of these names, it is the
  derivative (`hasDerivAt`), and the derivative of a term that is defined is defined again.
-/

import Mathlib

namespace BubbleStorm.Lib

inductive Term (ι K : Type) where
  | const (k : K)
  | var (i : ι)
  | add (s t : Term ι K)
  | sub (s t : Term ι K)
  | mul (s t : Term ι K)
  | neg (t : Term ι K)
  | inv (t : Term ι K)
  | exp (t : Term ι K)
  /-- `exp` less one. -/
  | expm1 (t : Term ι K)
  | log (t : Term ι K)

/-- The functions that a field need not have. -/
structure Elementary (K : Type) where
  exp : K → K
  expm1 : K → K
  log : K → K

namespace Term

variable {ι K : Type} [Field K]

def eval (f : Elementary K) (values : ι → K) : Term ι K → K
  | const k => k
  | var i => values i
  | add s t => eval f values s + eval f values t
  | sub s t => eval f values s - eval f values t
  | mul s t => eval f values s * eval f values t
  | neg t => -eval f values t
  | inv t => (eval f values t)⁻¹
  | exp t => f.exp (eval f values t)
  | expm1 t => f.expm1 (eval f values t)
  | log t => f.log (eval f values t)

/-- The derivative by `v`. -/
def diff [DecidableEq ι] (v : ι) : Term ι K → Term ι K
  | const _ => const 0
  | var i => const (if i = v then 1 else 0)
  | add s t => add (diff v s) (diff v t)
  | sub s t => sub (diff v s) (diff v t)
  | mul s t => add (mul (diff v s) t) (mul s (diff v t))
  | neg t => neg (diff v t)
  | inv t => neg (mul (mul (diff v t) (inv t)) (inv t))
  | exp t => mul (diff v t) (exp t)
  | expm1 t => mul (diff v t) (exp t)
  | log t => mul (diff v t) (inv t)

/-- No inverse and no logarithm of zero is taken. -/
def Defined (f : Elementary K) (values : ι → K) : Term ι K → Prop
  | const _ => True
  | var _ => True
  | add s t => Defined f values s ∧ Defined f values t
  | sub s t => Defined f values s ∧ Defined f values t
  | mul s t => Defined f values s ∧ Defined f values t
  | neg t => Defined f values t
  | inv t => Defined f values t ∧ eval f values t ≠ 0
  | exp t => Defined f values t
  | expm1 t => Defined f values t
  | log t => Defined f values t ∧ eval f values t ≠ 0

theorem Defined.diff [DecidableEq ι] {f : Elementary K} {values : ι → K} {t : Term ι K} (h : Defined f values t) (v : ι) :
    Defined f values (diff v t) := by
  induction t with
  | const k => trivial
  | var i => trivial
  | add s t hs ih => exact ⟨hs h.1, ih h.2⟩
  | sub s t hs ih => exact ⟨hs h.1, ih h.2⟩
  | mul s t hs ih => exact ⟨⟨hs h.1, h.2⟩, h.1, ih h.2⟩
  | neg t ih => exact ih h
  | inv t ih => exact ⟨⟨ih h.1, h⟩, h⟩
  | exp t ih => exact ⟨ih h, h⟩
  | expm1 t ih => exact ⟨ih h, h⟩
  | log t ih => exact ⟨ih h.1, h⟩

noncomputable def real : Elementary ℝ := ⟨Real.exp, fun x => Real.exp x - 1, Real.log⟩

theorem hasDerivAt [DecidableEq ι] (values : ι → ℝ) (v : ι) {t : Term ι ℝ} (ht : Defined real values t) :
    HasDerivAt (fun x => eval real (Function.update values v x) t) (eval real values (diff v t)) (values v) := by
  have hvalue : ∀ t : Term ι ℝ, eval real (Function.update values v (values v)) t = eval real values t := by
    intro t
    rw [Function.update_eq_self]
  induction t with
  | const k => exact hasDerivAt_const _ _
  | var i =>
    by_cases hi : i = v
    · subst hi
      simpa [eval, diff] using hasDerivAt_id' (values i)
    · simpa [eval, diff, hi] using hasDerivAt_const (values v) (values i)
  | add s t hs ih => exact (hs ht.1).add (ih ht.2)
  | sub s t hs ih => exact (hs ht.1).sub (ih ht.2)
  | mul s t hs ih =>
    have h := (hs ht.1).mul (ih ht.2)
    rw [hvalue, hvalue] at h
    exact h
  | neg t ih => exact (ih ht).neg
  | inv t ih =>
    have h := (ih ht.1).inv (by rw [hvalue]; exact ht.2)
    rw [hvalue] at h
    refine h.congr_deriv ?_
    show -eval real values (diff v t) / eval real values t ^ 2 =
      -(eval real values (diff v t) * (eval real values t)⁻¹ * (eval real values t)⁻¹)
    rw [neg_div, div_eq_mul_inv, sq, mul_inv, mul_assoc]
  | exp t ih =>
    have h := (ih ht).exp
    rw [hvalue] at h
    exact h.congr_deriv (mul_comm _ _)
  | expm1 t ih =>
    have h := (ih ht).exp.sub_const 1
    rw [hvalue] at h
    exact h.congr_deriv (mul_comm _ _)
  | log t ih =>
    have h := (ih ht.1).log (by rw [hvalue]; exact ht.2)
    rw [hvalue] at h
    exact h.congr_deriv (div_eq_mul_inv _ _)

/-- The derivative of a sum of terms. -/
theorem hasDerivAt_sum [DecidableEq ι] (values : ι → ℝ) (v : ι) (ts : List (Term ι ℝ)) (hts : ∀ t ∈ ts, Defined real values t) :
    HasDerivAt (fun x => (ts.map fun t => eval real (Function.update values v x) t).sum) (ts.map fun t => eval real values (diff v t)).sum (values v) := by
  induction ts with
  | nil => exact hasDerivAt_const _ _
  | cons t ts ih =>
    have hhere := hasDerivAt values v (hts t List.mem_cons_self)
    have hrest := ih fun s hs => hts s (List.mem_cons_of_mem t hs)
    simp only [List.map_cons, List.sum_cons]
    exact hhere.add hrest

end Term

end BubbleStorm.Lib
