/-
  BubbleStorm.Util.Optimizer.Barrier — the barrier of a constraint as a term, and the
  entries that a constraint adds to the gradient and to the Hessian
  (`src/util/optimizer/gradient.sml`, `src/util/optimizer/hessian.sml`).

  Proved: the entries of a constraint for a variable, or for two, sum up to the first or
  second partial derivative of its barrier (`gradient_sum`, `hessian_sum`), which over the
  reals are its derivatives (`real_derivatives`).
-/

import Mathlib
import BubbleStorm.Lib.Term
import BubbleStorm.Util.Optimizer.Constraint

namespace BubbleStorm.Util.Optimizer.Constraint

open Lib (Term Elementary)

variable {K : Type} [Field K]

/-- A variable that may be absent, as a term. -/
def termOf (v : Option Var) : Term Var K :=
  match v with
  | none => .const 1
  | some i => .var i

/-- The slack as a term. -/
def term : Constraint K → Term Var K
  | sum x y z a b c => .add (.add (.mul (.const a) (termOf x)) (.mul (.const b) (termOf y))) (.mul (.const c) (termOf z))
  | exp x y => .sub (.var x) (.exp (.var y))
  | exp1 x y => .sub (.var x) (.expm1 (.var y))

/-- Minus the logarithm of the slack. -/
def barrier (c : Constraint K) : Term Var K := .neg (.log (term c))

def elementary (e : Exps K) (ln : K → K) : Elementary K := ⟨e.exp, e.f, ln⟩

theorem eval_termOf (e : Exps K) (ln : K → K) (values : Var → K) (v : Option Var) : (termOf v).eval (elementary e ln) values = get values v := by
  cases v with
  | none => rfl
  | some i => rfl

theorem eval_term (e : Exps K) (ln : K → K) (values : Var → K) (c : Constraint K) : (term c).eval (elementary e ln) values = slack e values c := by
  cases c with
  | sum x y z a b c =>
    show a * (termOf x).eval (elementary e ln) values + b * (termOf y).eval (elementary e ln) values + c * (termOf z).eval (elementary e ln) values = _
    rw [eval_termOf, eval_termOf, eval_termOf]
    rfl
  | exp x y => rfl
  | exp1 x y => rfl

/-- `barrier` of `Function.compute`. -/
def barrierAt [LT K] [DecidableLT K] (ln : K → K) (posInf x : K) : K := if 0 < x then -ln x else posInf

def functionCompute [LT K] [DecidableLT K] (e : Exps K) (ln : K → K) (posInf : K) (values : Var → K) (constraints : List (Constraint K)) : K :=
  constraints.foldl (fun out c => out + barrierAt ln posInf (slack e values c)) 0

/-- Inside the boundaries the function is the sum of the terms. -/
theorem functionCompute_eq [LT K] [DecidableLT K] (e : Exps K) (ln : K → K) (posInf : K) (values : Var → K) (constraints : List (Constraint K))
    (hslack : ∀ c ∈ constraints, 0 < slack e values c) :
    functionCompute e ln posInf values constraints = (constraints.map fun c => (barrier c).eval (elementary e ln) values).sum := by
  have hfold : ∀ (cs : List (Constraint K)) out, (∀ c ∈ cs, 0 < slack e values c) →
      cs.foldl (fun out c => out + barrierAt ln posInf (slack e values c)) out = out + (cs.map fun c => (barrier c).eval (elementary e ln) values).sum := by
    intro cs
    induction cs with
    | nil => exact fun out _ => (add_zero out).symm
    | cons c cs ih =>
      intro out hcs
      have hhere : barrierAt ln posInf (slack e values c) = (barrier c).eval (elementary e ln) values := by
        unfold barrierAt
        rw [if_pos (hcs c List.mem_cons_self)]
        show -ln (slack e values c) = -ln ((term c).eval (elementary e ln) values)
        rw [eval_term]
      rw [List.foldl_cons, ih _ fun x hx => hcs x (List.mem_cons_of_mem c hx), hhere, List.map_cons, List.sum_cons, add_assoc]
  unfold functionCompute
  rw [hfold constraints 0 hslack, zero_add]

/-! ## What a constraint adds -/

/-- `addOpt` of the gradient. -/
def optEntry (x : Option Var) (v : K) : List (Var × K) :=
  match x with
  | some x => [(x, v)]
  | none => []

/-- `Gradient.process`, as the list of its calls of `add`. -/
def gradientEntries (e : Exps K) (values : Var → K) : Constraint K → List (Var × K)
  | sum x y z a b c =>
    let divisor := a * get values x + b * get values y + c * get values z
    optEntry x (-a / divisor) ++ optEntry y (-b / divisor) ++ optEntry z (-c / divisor)
  | exp x y =>
    let ey := e.exp (values y)
    let divisor := values x - ey
    [(x, (0 - 1) / divisor), (y, ey / divisor)]
  | exp1 x y =>
    let ey := e.exp (values y)
    let e1y := e.f (values y)
    let divisor := values x - e1y
    [(x, (0 - 1) / divisor), (y, ey / divisor)]

/-- `addOpt` of the Hessian. -/
def optEntry2 (x y : Option Var) (v : K) : List (Var × Var × K) :=
  match x, y with
  | some x, some y => [(x, y, v)]
  | _, _ => []

/-- `Hessian.process`, as the list of its calls of `add`. -/
def hessianEntries (e : Exps K) (values : Var → K) : Constraint K → List (Var × Var × K)
  | sum x y z a b c =>
    let divisor := a * get values x + b * get values y + c * get values z
    let divisor := divisor * divisor
    optEntry2 x x (a * a / divisor) ++ optEntry2 x y (a * b / divisor) ++ optEntry2 x z (a * c / divisor) ++
      optEntry2 y x (a * b / divisor) ++ optEntry2 y y (b * b / divisor) ++ optEntry2 y z (b * c / divisor) ++
      optEntry2 z x (a * c / divisor) ++ optEntry2 z y (b * c / divisor) ++ optEntry2 z z (c * c / divisor)
  | exp x y =>
    let ey := e.exp (values y)
    let divisor := values x - ey
    let divisor := divisor * divisor
    [(x, x, 1 / divisor), (x, y, -ey / divisor), (y, x, -ey / divisor), (y, y, ey * values x / divisor)]
  | exp1 x y =>
    let ey := e.exp (values y)
    let e1y := e.f (values y)
    let divisor := values x - e1y
    let divisor := divisor * divisor
    [(x, x, 1 / divisor), (x, y, -ey / divisor), (y, x, -ey / divisor), (y, y, ey * (values x + 1) / divisor)]

omit [Field K] in
theorem mem_vars_sum {x y z : Option Var} {a b c : K} {v : Var} : v ∈ (sum x y z a b c).vars ↔ (x = some v ∨ y = some v) ∨ z = some v := by
  unfold vars
  rw [List.mem_append, List.mem_append, Option.mem_toList, Option.mem_toList, Option.mem_toList]

omit [Field K] in
theorem mem_optEntry {x : Option Var} {k : K} {p : Var × K} (h : p ∈ optEntry x k) : x = some p.1 := by
  cases x with
  | none => exact absurd h List.not_mem_nil
  | some i =>
    rw [List.mem_singleton.mp h]

omit [Field K] in
theorem mem_optEntry2 {x y : Option Var} {k : K} {p : Var × Var × K} (h : p ∈ optEntry2 x y k) : x = some p.1 ∧ y = some p.2.1 := by
  cases x with
  | none => exact absurd h List.not_mem_nil
  | some i =>
    cases y with
    | none => exact absurd h List.not_mem_nil
    | some j =>
      rw [List.mem_singleton.mp h]
      exact ⟨rfl, rfl⟩

theorem gradientEntries_vars {e : Exps K} {values : Var → K} {c : Constraint K} {p : Var × K} (h : p ∈ gradientEntries e values c) : p.1 ∈ c.vars := by
  cases c with
  | sum x y z a b c =>
    simp only [gradientEntries, List.mem_append] at h
    rw [mem_vars_sum]
    exact h.imp (Or.imp mem_optEntry mem_optEntry) mem_optEntry
  | exp x y =>
    simp only [gradientEntries, List.mem_cons, List.not_mem_nil, or_false] at h
    rcases h with rfl | rfl
    · exact List.mem_cons_self
    · exact List.mem_cons_of_mem x List.mem_cons_self
  | exp1 x y =>
    simp only [gradientEntries, List.mem_cons, List.not_mem_nil, or_false] at h
    rcases h with rfl | rfl
    · exact List.mem_cons_self
    · exact List.mem_cons_of_mem x List.mem_cons_self

theorem hessianEntries_vars {e : Exps K} {values : Var → K} {c : Constraint K} {p : Var × Var × K} (h : p ∈ hessianEntries e values c) :
    p.1 ∈ c.vars ∧ p.2.1 ∈ c.vars := by
  cases c with
  | sum x y z a b c =>
    simp only [hessianEntries, List.mem_append, or_assoc] at h
    rw [mem_vars_sum, mem_vars_sum]
    -- nine places
    rcases h with h | h | h | h | h | h | h | h | h <;> obtain ⟨h1, h2⟩ := mem_optEntry2 h <;> tauto
  | exp x y =>
    simp only [hessianEntries, List.mem_cons, List.not_mem_nil, or_false] at h
    rcases h with rfl | rfl | rfl | rfl <;> simp [vars]
  | exp1 x y =>
    simp only [hessianEntries, List.mem_cons, List.not_mem_nil, or_false] at h
    rcases h with rfl | rfl | rfl | rfl <;> simp [vars]

/-! ## The sums -/

/-- What is added for one variable. -/
def sumAt (v : Var) (entries : List (Var × K)) : K := (entries.map fun x => if x.1 = v then x.2 else 0).sum

/-- What is added for two. -/
def sumAt2 (u v : Var) (entries : List (Var × Var × K)) : K := (entries.map fun x => if x.1 = u ∧ x.2.1 = v then x.2.2 else 0).sum

/-- One for the variable, zero for another and for none. -/
def delta (x : Option Var) (v : Var) : K := if x = some v then 1 else 0

theorem sumAt_opt (v : Var) (x : Option Var) (k : K) : sumAt v (optEntry x k) = delta x v * k := by
  cases x with
  | none => simp [optEntry, sumAt, delta]
  | some i => simp [optEntry, sumAt, delta, ite_mul]

theorem sumAt2_opt (u v : Var) (x y : Option Var) (k : K) : sumAt2 u v (optEntry2 x y k) = delta x u * delta y v * k := by
  cases x with
  | none => simp [optEntry2, sumAt2, delta]
  | some i =>
    cases y with
    | none => simp [optEntry2, sumAt2, delta]
    | some j => by_cases hi : i = u <;> by_cases hj : j = v <;> simp [optEntry2, sumAt2, delta, hi, hj]

theorem sumAt_append (v : Var) (l m : List (Var × K)) : sumAt v (l ++ m) = sumAt v l + sumAt v m := by
  unfold sumAt
  rw [List.map_append, List.sum_append]

theorem sumAt2_append (u v : Var) (l m : List (Var × Var × K)) : sumAt2 u v (l ++ m) = sumAt2 u v l + sumAt2 u v m := by
  unfold sumAt2
  rw [List.map_append, List.sum_append]

variable (e : Exps K) (ln : K → K) (values : Var → K)

/-- The derivative of the slack. -/
def slackBy (v : Var) : Constraint K → K
  | sum x y z a b c => a * delta x v + b * delta y v + c * delta z v
  | exp x y => delta (some x) v - delta (some y) v * e.exp (values y)
  | exp1 x y => delta (some x) v - delta (some y) v * e.exp (values y)

/-- Its derivative. -/
def slackBy2 (u v : Var) : Constraint K → K
  | sum _ _ _ _ _ _ => 0
  | exp _ y => -(delta (some y) u * delta (some y) v * e.exp (values y))
  | exp1 _ y => -(delta (some y) u * delta (some y) v * e.exp (values y))

theorem diff_termOf (v : Var) (x : Option Var) : ((termOf x : Term Var K).diff v).eval (elementary e ln) values = delta x v := by
  cases x with
  | none => simp [termOf, Term.diff, Term.eval, delta]
  | some i => simp [termOf, Term.diff, Term.eval, delta]

theorem diff2_termOf (u v : Var) (x : Option Var) : (((termOf x : Term Var K).diff v).diff u).eval (elementary e ln) values = 0 := by
  cases x with
  | none => rfl
  | some i => rfl

theorem diff_term (v : Var) (c : Constraint K) : ((term c).diff v).eval (elementary e ln) values = slackBy e values v c := by
  cases c with
  | sum x y z a b c => simp only [term, Term.diff, Term.eval, diff_termOf, slackBy, zero_mul, zero_add]
  | exp x y => simp [term, Term.diff, Term.eval, slackBy, delta, elementary]
  | exp1 x y => simp [term, Term.diff, Term.eval, slackBy, delta, elementary]

theorem diff2_term (u v : Var) (c : Constraint K) : (((term c).diff v).diff u).eval (elementary e ln) values = slackBy2 e values u v c := by
  cases c with
  | sum x y z a b c => simp only [term, Term.diff, Term.eval, diff_termOf, diff2_termOf, slackBy2, zero_mul, mul_zero, add_zero]
  | exp x y =>
    simp only [term, Term.diff, Term.eval, slackBy2, delta, elementary, Option.some.injEq]
    ring
  | exp1 x y =>
    simp only [term, Term.diff, Term.eval, slackBy2, delta, elementary, Option.some.injEq]
    ring

theorem diff_barrier (v : Var) (c : Constraint K) : ((barrier c).diff v).eval (elementary e ln) values = -(slackBy e values v c / slack e values c) := by
  show -(((term c).diff v).eval (elementary e ln) values * ((term c).eval (elementary e ln) values)⁻¹) = _
  rw [diff_term, eval_term, div_eq_mul_inv]

theorem diff2_barrier (u v : Var) {c : Constraint K} (hslack : slack e values c ≠ 0) :
    (((barrier c).diff v).diff u).eval (elementary e ln) values =
      (slackBy e values u c * slackBy e values v c - slackBy2 e values u v c * slack e values c) / (slack e values c * slack e values c) := by
  simp only [barrier, Term.diff, Term.eval, diff_term, diff2_term, eval_term]
  field_simp
  ring

theorem gradient_sum (v : Var) {c : Constraint K} :
    sumAt v (gradientEntries e values c) = ((barrier c).diff v).eval (elementary e ln) values := by
  rw [diff_barrier]
  cases c with
  | sum x y z a b c =>
    simp only [gradientEntries, sumAt_append, sumAt_opt, slackBy, slack]
    ring
  | exp x y =>
    have hentries : gradientEntries e values (.exp x y) = optEntry (some x) ((0 - 1) / (values x - e.exp (values y))) ++
        optEntry (some y) (e.exp (values y) / (values x - e.exp (values y))) := rfl
    rw [hentries, sumAt_append, sumAt_opt, sumAt_opt]
    simp only [slackBy, slack]
    ring
  | exp1 x y =>
    have hentries : gradientEntries e values (.exp1 x y) = optEntry (some x) ((0 - 1) / (values x - e.f (values y))) ++
        optEntry (some y) (e.exp (values y) / (values x - e.f (values y))) := rfl
    rw [hentries, sumAt_append, sumAt_opt, sumAt_opt]
    simp only [slackBy, slack]
    ring

theorem hessian_sum (hexp : ∀ y, e.exp y = e.f y + 1) (u v : Var) {c : Constraint K} (hslack : slack e values c ≠ 0) :
    sumAt2 u v (hessianEntries e values c) = (((barrier c).diff v).diff u).eval (elementary e ln) values := by
  rw [diff2_barrier e ln values u v hslack]
  cases c with
  | sum x y z a b c =>
    simp only [hessianEntries, sumAt2_append, sumAt2_opt, slackBy, slackBy2, slack]
    ring
  | exp x y =>
    have hentries : hessianEntries e values (.exp x y) =
        optEntry2 (some x) (some x) (1 / ((values x - e.exp (values y)) * (values x - e.exp (values y)))) ++
        optEntry2 (some x) (some y) (-e.exp (values y) / ((values x - e.exp (values y)) * (values x - e.exp (values y)))) ++
        optEntry2 (some y) (some x) (-e.exp (values y) / ((values x - e.exp (values y)) * (values x - e.exp (values y)))) ++
        optEntry2 (some y) (some y) (e.exp (values y) * values x / ((values x - e.exp (values y)) * (values x - e.exp (values y)))) := rfl
    rw [hentries, sumAt2_append, sumAt2_append, sumAt2_append, sumAt2_opt, sumAt2_opt, sumAt2_opt, sumAt2_opt]
    simp only [slackBy, slackBy2, slack]
    ring
  | exp1 x y =>
    have hentries : hessianEntries e values (.exp1 x y) =
        optEntry2 (some x) (some x) (1 / ((values x - e.f (values y)) * (values x - e.f (values y)))) ++
        optEntry2 (some x) (some y) (-e.exp (values y) / ((values x - e.f (values y)) * (values x - e.f (values y)))) ++
        optEntry2 (some y) (some x) (-e.exp (values y) / ((values x - e.f (values y)) * (values x - e.f (values y)))) ++
        optEntry2 (some y) (some y) (e.exp (values y) * (values x + 1) / ((values x - e.f (values y)) * (values x - e.f (values y)))) := rfl
    rw [hentries, sumAt2_append, sumAt2_append, sumAt2_append, sumAt2_opt, sumAt2_opt, sumAt2_opt, sumAt2_opt]
    simp only [slackBy, slackBy2, slack, hexp]
    ring

/-! ## The reals -/

theorem barrier_defined (values : Var → ℝ) {c : Constraint ℝ} (hslack : slack ⟨Real.exp, fun y => Real.exp y - 1⟩ values c ≠ 0) :
    Term.Defined Term.real values (barrier c) := by
  have hterm : Term.Defined Term.real values (term c) := by
    cases c with
    | sum x y z a b c => cases x <;> cases y <;> cases z <;> simp [term, termOf, Term.Defined]
    | exp x y => exact ⟨trivial, trivial⟩
    | exp1 x y => exact ⟨trivial, trivial⟩
  refine ⟨hterm, ?_⟩
  have heval := eval_term ⟨Real.exp, fun y => Real.exp y - 1⟩ Real.log values c
  rw [← heval] at hslack
  exact hslack

/-- With the functions of the reals, what is summed up are the derivatives of the sum of the
    barriers, and the derivatives of these. -/
theorem real_derivatives (values : Var → ℝ) (u v : Var) (constraints : List (Constraint ℝ))
    (hslack : ∀ c ∈ constraints, slack ⟨Real.exp, fun y => Real.exp y - 1⟩ values c ≠ 0) :
    HasDerivAt (fun x => ((constraints.map barrier).map fun t => t.eval Term.real (Function.update values v x)).sum)
        ((constraints.map barrier).map fun t => (t.diff v).eval Term.real values).sum (values v) ∧
      HasDerivAt (fun x => (((constraints.map barrier).map (Term.diff v)).map fun t => t.eval Term.real (Function.update values u x)).sum)
        (((constraints.map barrier).map (Term.diff v)).map fun t => (t.diff u).eval Term.real values).sum (values u) := by
  have hdefined : ∀ t ∈ constraints.map barrier, Term.Defined Term.real values t := by
    intro t ht
    obtain ⟨c, hc, rfl⟩ := List.mem_map.mp ht
    exact barrier_defined values (hslack c hc)
  refine ⟨Term.hasDerivAt_sum values v _ hdefined, Term.hasDerivAt_sum values u _ fun t ht => ?_⟩
  obtain ⟨s, hs, rfl⟩ := List.mem_map.mp ht
  exact (hdefined s hs).diff v

end BubbleStorm.Util.Optimizer.Constraint
