/-
  BubbleStorm.Util.Optimizer.Constraint — the constraints of the optimizer and their slacks
  (`src/util/optimizer/constraint.sml`, `src/util/optimizer/function.sml`).

  Numbers are exact; `exp` and `Exp1.f` are given values (`Exps`).
-/

import Mathlib.Data.List.Basic
import Mathlib.Algebra.Field.Defs

namespace BubbleStorm.Util.Optimizer

abbrev Var := Nat

inductive Constraint (K : Type) where
  /-- An absent variable stands for one. -/
  | sum (x y z : Option Var) (a b c : K)
  | exp (x y : Var)
  | exp1 (x y : Var)
  deriving DecidableEq, Repr

/-- `Element.Math.exp` and `Exp1.f`. -/
structure Exps (K : Type) where
  exp : K → K
  f : K → K

namespace Constraint

variable {K : Type}

def vars : Constraint K → List Var
  | sum x y z _ _ _ => x.toList ++ y.toList ++ z.toList
  | exp x y => [x, y]
  | exp1 x y => [x, y]

variable [Field K]

/-- `get`: the value of a variable that may be absent. -/
def get (values : Var → K) (v : Option Var) : K := (v.map values).getD 1

/-- The `term` of `Function.process`: how far the constraint is from its boundary. -/
def slack (e : Exps K) (values : Var → K) : Constraint K → K
  | sum x y z a b c => a * get values x + b * get values y + c * get values z
  | exp x y => values x - e.exp (values y)
  | exp1 x y => values x - e.f (values y)

theorem get_congr {u v : Var → K} {x : Option Var} (h : ∀ i ∈ x, u i = v i) : get u x = get v x := by
  cases x with
  | none => rfl
  | some i => exact h i rfl

/-- A slack depends on the variables of the constraint. -/
theorem slack_congr {e : Exps K} {u v : Var → K} {c : Constraint K} (h : ∀ i ∈ c.vars, u i = v i) : slack e u c = slack e v c := by
  cases c with
  | sum x y z a b c =>
    have hx : get u x = get v x := get_congr fun i hi => h i (List.mem_append_left _ (List.mem_append_left _ (Option.mem_toList.mpr hi)))
    have hy : get u y = get v y := get_congr fun i hi => h i (List.mem_append_left _ (List.mem_append_right _ (Option.mem_toList.mpr hi)))
    have hz : get u z = get v z := get_congr fun i hi => h i (List.mem_append_right _ (Option.mem_toList.mpr hi))
    unfold slack
    dsimp only
    rw [hx, hy, hz]
  | exp x y =>
    unfold slack
    dsimp only
    rw [h x List.mem_cons_self, h y (List.mem_cons_of_mem x List.mem_cons_self)]
  | exp1 x y =>
    unfold slack
    dsimp only
    rw [h x List.mem_cons_self, h y (List.mem_cons_of_mem x List.mem_cons_self)]

end Constraint

end BubbleStorm.Util.Optimizer
