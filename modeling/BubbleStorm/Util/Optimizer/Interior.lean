/-
  BubbleStorm.Util.Optimizer.Interior — phase one: the search for a point inside all
  constraints (`interior` of `src/util/optimizer/optimizer.sml`).

  Each constraint is split around a variable of its own, and one more variable `s` is
  added to the second half; minimizing `s` below zero gives a point inside. `solve` adds
  the bounds of all variables (`|x_v| <= bound`).

  Proved: the start is strictly inside (`start_inside`), and a point strictly inside with
  `s < 0` is strictly inside the constraints that were asked for (`inside_of_feasible`).
-/

import Mathlib.Algebra.Order.Field.Basic
import Mathlib.Tactic.Linarith
import BubbleStorm.Util.Optimizer.Constraint

namespace BubbleStorm.Util.Optimizer

open Function (update_of_ne update_self)
open Constraint

variable {K : Type} [Field K] [LinearOrder K]

namespace PhaseOne

def two : K := 1 + 1

def negOne : K := 0 - 1

/-! ## The bounds -/

def limit (s b : K) (v : Var) : Constraint K := .sum (some v) none none s 0 b

/-- The constraints that `solve` works with. -/
def bounded (constraints : List (Constraint K)) (bound : Option K) : List (Constraint K) :=
  let vars := constraints.flatMap vars
  match bound with
  | none => constraints
  | some b => vars.map (limit 1 b) ++ vars.map (limit negOne b) ++ constraints

/-! ## Phase one -/

def term : Option Var → K → K
  | none, a => a
  | some _, _ => 0

def lhs : Constraint K → K
  | .sum x y z a b c => term x a + term y b + term z c
  | .exp _ _ => negOne
  | .exp1 _ _ => 0

def min (x y : K) : K := if x < y then x else y

def s0 (constraints : List (Constraint K)) : K :=
  (0 - constraints.foldl (fun acc c => min (lhs c) acc) 0) + two

/-- The start of the constraint's own variable `q`, and the two halves. -/
def split (s q : Var) : Constraint K → K × List (Constraint K)
  | .sum x y z a b c =>
    (term x a + term y b - 1, [.sum x y (some q) a b negOne, .sum (some q) (some s) z 1 1 c])
  | .exp x y => (two, [.exp q y, .sum (some x) (some s) (some q) 1 1 negOne])
  | .exp1 x y => (1, [.exp1 q y, .sum (some x) (some s) (some q) 1 1 negOne])

/-- `map` over the constraints; `next` is the variable that is new next. -/
def splitAll (s : Var) : Var → List (Constraint K) → (Var → K) → List (Constraint K) × (Var → K)
  | _, [], start => ([], start)
  | next, c :: cs, start =>
    let (value, halves) := split s next c
    let (rest, start) := splitAll s (next + 1) cs (Function.update start next value)
    (halves ++ rest, start)

/-- The constraints and the start that `interior` hands to `solve`; `next` and what follows
    are new variables, and `next` is `s`. -/
def interior (next : Var) (constraints : List (Constraint K)) : List (Constraint K) × (Var → K) :=
  splitAll next (next + 1) constraints (Function.update (fun _ => 0) next (s0 constraints))

/-! ## The start -/

variable [IsStrictOrderedRing K]

omit [Field K] [IsStrictOrderedRing K] in
theorem min_le (x y : K) : min x y ≤ x ∧ min x y ≤ y := by
  unfold min
  split
  next h => exact ⟨le_refl x, le_of_lt h⟩
  next h => exact ⟨not_lt.mp h, le_refl y⟩

omit [IsStrictOrderedRing K] in
theorem foldl_min_le (cs : List (Constraint K)) (acc : K) :
    cs.foldl (fun acc c => min (lhs c) acc) acc ≤ acc ∧ ∀ c ∈ cs, cs.foldl (fun acc c => min (lhs c) acc) acc ≤ lhs c := by
  induction cs generalizing acc with
  | nil => exact ⟨le_refl acc, fun c hc => nomatch hc⟩
  | cons d cs ih =>
    obtain ⟨hle, hall⟩ := ih (min (lhs d) acc)
    obtain ⟨hd, hacc⟩ := min_le (lhs d) acc
    refine ⟨hle.trans hacc, ?_⟩
    intro c hc
    rcases List.mem_cons.mp hc with rfl | hc
    · exact hle.trans hd
    · exact hall c hc

theorem s0_ge (cs : List (Constraint K)) : ∀ c ∈ cs, 2 ≤ lhs c + s0 cs := by
  intro c hc
  have hle := (foldl_min_le cs 0).2 c hc
  unfold s0 two
  linarith

omit [LinearOrder K] [IsStrictOrderedRing K] in
/-- Original variables start at zero, so a term is its constant, or zero. -/
theorem mul_get_zero {start : Var → K} {x : Option Var} (h : ∀ i ∈ x, start i = 0) (a : K) : a * get start x = term x a := by
  cases x with
  | none => exact mul_one a
  | some i =>
    show a * start i = 0
    rw [h i rfl, mul_zero]

variable {e : Exps K}

/-- The halves of one constraint. -/
theorem split_inside (hexp : e.exp 0 = 1) (hf : e.f 0 = 0) {s q : Var} {c : Constraint K} {start : Var → K}
    (hzero : ∀ v ∈ c.vars, start v = 0) (hs : 2 ≤ lhs c + start s) (hq : start q = (split s q c).1) :
    ∀ d ∈ (split s q c).2, 0 < slack e start d := by
  cases c with
  | sum x y z a b c =>
    have hx : ∀ i ∈ x, start i = 0 := fun i hi => hzero i (List.mem_append_left _ (List.mem_append_left _ (Option.mem_toList.mpr hi)))
    have hy : ∀ i ∈ y, start i = 0 := fun i hi => hzero i (List.mem_append_left _ (List.mem_append_right _ (Option.mem_toList.mpr hi)))
    have hz : ∀ i ∈ z, start i = 0 := fun i hi => hzero i (List.mem_append_right _ (Option.mem_toList.mpr hi))
    have hsum : 2 ≤ term x a + term y b + term z c + start s := hs
    have hq' : start q = term x a + term y b - 1 := hq
    intro d hd
    rcases List.mem_cons.mp hd with rfl | hd
    · show 0 < a * get start x + b * get start y + negOne * start q
      rw [mul_get_zero hx, mul_get_zero hy, hq']
      unfold negOne
      linarith
    · cases List.mem_singleton.mp hd
      show 0 < 1 * start q + 1 * start s + c * get start z
      rw [mul_get_zero hz, hq']
      linarith
  | exp x y =>
    have hx : start x = 0 := hzero x List.mem_cons_self
    have hy : start y = 0 := hzero y (List.mem_cons_of_mem x List.mem_cons_self)
    have hsum : 2 ≤ negOne + start s := hs
    have hq' : start q = 1 + 1 := hq
    unfold negOne at hsum
    intro d hd
    rcases List.mem_cons.mp hd with rfl | hd
    · show 0 < start q - e.exp (start y)
      rw [hy, hexp, hq']
      linarith
    · cases List.mem_singleton.mp hd
      show 0 < 1 * start x + 1 * start s + negOne * start q
      rw [hx, hq']
      unfold negOne
      linarith
  | exp1 x y =>
    have hx : start x = 0 := hzero x List.mem_cons_self
    have hy : start y = 0 := hzero y (List.mem_cons_of_mem x List.mem_cons_self)
    have hsum : 2 ≤ 0 + start s := hs
    have hq' : start q = 1 := hq
    intro d hd
    rcases List.mem_cons.mp hd with rfl | hd
    · show 0 < start q - e.f (start y)
      rw [hy, hf, hq']
      linarith
    · cases List.mem_singleton.mp hd
      show 0 < 1 * start x + 1 * start s + negOne * start q
      rw [hx, hq']
      unfold negOne
      linarith

omit [LinearOrder K] [IsStrictOrderedRing K] in
/-- Only new variables get a value. -/
theorem splitAll_old (s : Var) {next : Var} (cs : List (Constraint K)) (start : Var → K) {v : Var} (hv : v < next) :
    (splitAll s next cs start).2 v = start v := by
  induction cs generalizing next start with
  | nil => rfl
  | cons c cs ih =>
    show (splitAll s (next + 1) cs (Function.update start next (split s next c).1)).2 v = start v
    rw [ih _ (Nat.lt_succ_of_lt hv), update_of_ne (Nat.ne_of_lt hv)]

theorem splitAll_inside (hexp : e.exp 0 = 1) (hf : e.f 0 = 0) {s next : Var} {cs : List (Constraint K)} {start : Var → K}
    (hlt : s < next) (hold : ∀ c ∈ cs, ∀ v ∈ c.vars, v < next ∧ start v = 0) (hs : ∀ c ∈ cs, 2 ≤ lhs c + start s) :
    ∀ d ∈ (splitAll s next cs start).1, 0 < slack e (splitAll s next cs start).2 d := by
  induction cs generalizing next start with
  | nil =>
    intro d hd
    cases hd
  | cons c cs ih =>
    have hkeep : ∀ {v : Var}, v < next → (splitAll s next (c :: cs) start).2 v = start v := fun hv => splitAll_old s _ _ hv
    intro d hd
    have hd' : d ∈ (split s next c).2 ++ (splitAll s (next + 1) cs (Function.update start next (split s next c).1)).1 := hd
    rcases List.mem_append.mp hd' with hd' | hd'
    · refine split_inside hexp hf ?_ ?_ ?_ d hd'
      · intro v hv
        obtain ⟨hvlt, hvzero⟩ := hold c List.mem_cons_self v hv
        rw [hkeep hvlt, hvzero]
      · rw [hkeep hlt]
        exact hs c List.mem_cons_self
      · show (splitAll s (next + 1) cs (Function.update start next (split s next c).1)).2 next = (split s next c).1
        rw [splitAll_old s _ _ (Nat.lt_succ_self next), update_self]
    · refine ih (Nat.lt_succ_of_lt hlt) ?_ ?_ d hd'
      · intro c' hc' v hv
        obtain ⟨hvlt, hvzero⟩ := hold c' (List.mem_cons_of_mem c hc') v hv
        refine ⟨Nat.lt_succ_of_lt hvlt, ?_⟩
        rw [update_of_ne (Nat.ne_of_lt hvlt), hvzero]
      · intro c' hc'
        rw [update_of_ne (Nat.ne_of_lt hlt)]
        exact hs c' (List.mem_cons_of_mem c hc')

theorem start_inside (hexp : e.exp 0 = 1) (hf : e.f 0 = 0) {next : Var} {cs : List (Constraint K)}
    (hnew : ∀ c ∈ cs, ∀ v ∈ c.vars, v < next) {bound : K}
    (hbound : ∀ c ∈ (interior next cs).1, ∀ v ∈ c.vars, |(interior next cs).2 v| < bound) :
    ∀ d ∈ bounded (interior next cs).1 (some bound), 0 < slack e (interior next cs).2 d := by
  have hvar : ∀ v ∈ (interior next cs).1.flatMap vars, |(interior next cs).2 v| < bound := by
    intro v hv
    obtain ⟨c, hc, hvc⟩ := List.mem_flatMap.mp hv
    exact hbound c hc v hvc
  intro d hd
  unfold bounded at hd
  rcases List.mem_append.mp hd with hd | hd
  · rcases List.mem_append.mp hd with hd | hd
    · obtain ⟨v, hv, rfl⟩ := List.mem_map.mp hd
      have hlow := neg_lt_of_abs_lt (hvar v hv)
      show 0 < 1 * (interior next cs).2 v + 0 * 1 + bound * 1
      linarith
    · obtain ⟨v, hv, rfl⟩ := List.mem_map.mp hd
      have hhigh := lt_of_abs_lt (hvar v hv)
      show 0 < negOne * (interior next cs).2 v + 0 * 1 + bound * 1
      unfold negOne
      linarith
  · refine splitAll_inside hexp hf (Nat.lt_succ_self next) ?_ ?_ d hd
    · intro c hc v hv
      have hlt := hnew c hc v hv
      exact ⟨Nat.lt_succ_of_lt hlt, update_of_ne (Nat.ne_of_lt hlt) _ _⟩
    · intro c hc
      rw [update_self]
      exact s0_ge cs c hc

/-! ## A point inside -/

/-- The two halves give the constraint back. -/
theorem inside_of_split {s q : Var} {c : Constraint K} {x : Var → K} (h : ∀ d ∈ (split s q c).2, 0 < slack e x d) (hs : x s < 0) :
    0 < slack e x c := by
  cases c with
  | sum v y z a b c =>
    have hfirst : 0 < a * get x v + b * get x y + negOne * x q := h _ List.mem_cons_self
    have hsecond : 0 < 1 * x q + 1 * x s + c * get x z := h _ (List.mem_cons_of_mem _ List.mem_cons_self)
    show 0 < a * get x v + b * get x y + c * get x z
    unfold negOne at hfirst
    linarith
  | exp v y =>
    have hfirst : 0 < x q - e.exp (x y) := h _ List.mem_cons_self
    have hsecond : 0 < 1 * x v + 1 * x s + negOne * x q := h _ (List.mem_cons_of_mem _ List.mem_cons_self)
    show 0 < x v - e.exp (x y)
    unfold negOne at hsecond
    linarith
  | exp1 v y =>
    have hfirst : 0 < x q - e.f (x y) := h _ List.mem_cons_self
    have hsecond : 0 < 1 * x v + 1 * x s + negOne * x q := h _ (List.mem_cons_of_mem _ List.mem_cons_self)
    show 0 < x v - e.f (x y)
    unfold negOne at hsecond
    linarith

theorem inside_of_splitAll {s next : Var} {cs : List (Constraint K)} {start x : Var → K}
    (h : ∀ d ∈ (splitAll s next cs start).1, 0 < slack e x d) (hs : x s < 0) : ∀ c ∈ cs, 0 < slack e x c := by
  induction cs generalizing next start with
  | nil =>
    intro c hc
    cases hc
  | cons d cs ih =>
    have hall : ∀ c ∈ (split s next d).2 ++ (splitAll s (next + 1) cs (Function.update start next (split s next d).1)).1,
        0 < slack e x c := h
    intro c hc
    rcases List.mem_cons.mp hc with rfl | hc
    · exact inside_of_split (fun c hc => hall c (List.mem_append_left _ hc)) hs
    · exact ih (fun c hc => hall c (List.mem_append_right _ hc)) c hc

/-- With what `solve` makes of it: bounds only restrict the point further. -/
theorem inside_of_feasible {next : Var} {cs : List (Constraint K)} {bound : Option K} {x x' : Var → K}
    (h : ∀ d ∈ bounded (interior next cs).1 bound, 0 < slack e x d) (hs : x next < 0)
    (hsame : ∀ c ∈ cs, ∀ v ∈ c.vars, x' v = x v) : ∀ c ∈ cs, 0 < slack e x' c := by
  have hinterior : ∀ d ∈ (interior next cs).1, 0 < slack e x d := by
    intro d hd
    refine h d ?_
    unfold bounded
    cases bound with
    | none => exact hd
    | some b => exact List.mem_append_right _ hd
  intro c hc
  rw [slack_congr (hsame c hc)]
  exact inside_of_splitAll hinterior hs c hc

/-- Both directions of the reduction. Without a bound, or with any, the point is inside. -/
theorem phase_one (hexp : e.exp 0 = 1) (hf : e.f 0 = 0) (next : Var) (cs : List (Constraint K))
    (hnew : ∀ c ∈ cs, ∀ v ∈ c.vars, v < next) :
    (∀ bound, (∀ c ∈ (interior next cs).1, ∀ v ∈ c.vars, |(interior next cs).2 v| < bound) →
      ∀ d ∈ bounded (interior next cs).1 (some bound), 0 < slack e (interior next cs).2 d) ∧
    ∀ bound x x', (∀ d ∈ bounded (interior next cs).1 bound, 0 < slack e x d) → x next < 0 →
      (∀ c ∈ cs, ∀ v ∈ c.vars, x' v = x v) → ∀ c ∈ cs, 0 < slack e x' c :=
  ⟨fun _ hbound => start_inside hexp hf hnew hbound, fun _ _ _ h hs hsame => inside_of_feasible h hs hsame⟩

/-- `x >= 3` and `y >= exp(x)`: the two new variables start at -4 and 2, and `s` at 5. -/
theorem phase_one_two : ((bounded (interior 2 [.sum (some 0) none none 1 (-3) 0, .exp 1 0]).1 (some 10)).all fun d =>
    decide ((0 : ℚ) < slack ⟨fun y => 1 + y, fun y => y⟩ (interior 2 [.sum (some 0) none none 1 (-3) 0, .exp 1 0]).2 d)) = true :=
  List.all_eq_true.mpr fun d hd => decide_eq_true ((phase_one (add_zero 1) rfl 2 _ (by decide)).1 10 (by decide +kernel) d hd)

end PhaseOne

end BubbleStorm.Util.Optimizer
