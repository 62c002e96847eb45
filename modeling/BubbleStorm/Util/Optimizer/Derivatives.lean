/-
  BubbleStorm.Util.Optimizer.Derivatives — the gradient and the sparse Hessian of the sum of
  the barriers (`src/util/optimizer/gradient.sml`, `src/util/optimizer/hessian.sml`).

  Proved: with the labels of `optimize` neither raises, and their entries are the sums over
  the constraints of the first and second partial derivatives of the barriers
  (`derivatives`).
-/

import BubbleStorm.Util.Matrix.Update
import BubbleStorm.Util.Optimizer.Barrier
import BubbleStorm.Util.Optimizer.Labels

namespace BubbleStorm.Util.Optimizer

open Util.Matrix.Algebra (Arr Vec Mat)
open Labels (Labeling Numbers)
open Constraint (sumAt sumAt2 gradientEntries hessianEntries)

variable {α K : Type}

def matrix : Except Matrix.Algebra.Exn α → Except Labels.Exn α
  | .ok x => .ok x
  | .error e => .error (.matrix e)

variable [Field K]

namespace Hessian

def add (index : Var → Except Labels.Exn Int) (out : Mat K) (x y : Var) (v : K) : Except Labels.Exn (Mat K) := do
  let xi ← index x
  let yi ← index y
  let old ← matrix (Mat.sub out xi yi)
  matrix (Mat.update out xi yi (old + v))

def compute (e : Exps K) (values : Var → K) (constraints : List (Constraint K)) (labels : Labeling) : Except Labels.Exn (Mat K) := do
  let out ← matrix (Mat.tabulate (labels.terms, labels.terms) (labels.width, labels.width) true fun _ _ => .ok 0)
  (constraints.flatMap (hessianEntries e values)).foldlM (fun out x => add labels.index out x.1 x.2.1 x.2.2) out

end Hessian

namespace Gradient

def add (index : Var → Except Labels.Exn Int) (out : Arr K) (x : Var) (v : K) : Except Labels.Exn (Arr K) := do
  let xi ← index x
  let old ← matrix (out.sub xi)
  matrix (out.update xi (old + v))

def compute (e : Exps K) (values : Var → K) (constraints : List (Constraint K)) (labels : Labeling) : Except Labels.Exn (Vec K) := do
  let out ← matrix (Arr.array labels.terms (0 : K))
  let out ← (constraints.flatMap (gradientEntries e values)).foldlM (fun out x => add labels.index out x.1 x.2) out
  matrix (Vec.fromArray out labels.terms)

end Gradient

/-! ## The numbers -/

section Numbers

variable {names : List Var} {order : List Nat} {labels : Labeling} (hl : Numbers names order labels)
include hl

theorem number_lt {v : Var} (hv : v ∈ names) : order.idxOf (names.idxOf v) < names.length := by
  rw [← Matrix.CuthillMcKee.order_length hl.perm]
  exact List.idxOf_lt_length_of_mem ((Matrix.CuthillMcKee.order_mem hl.perm).mpr (List.idxOf_lt_length_of_mem hv))

theorem number_inj {u v : Var} (hu : u ∈ names) (h : order.idxOf (names.idxOf u) = order.idxOf (names.idxOf v)) : u = v := by
  have hplace := (List.idxOf_inj ((Matrix.CuthillMcKee.order_mem hl.perm).mpr (List.idxOf_lt_length_of_mem hu))).mp h
  exact (List.idxOf_inj hu).mp hplace

theorem number_onto {i : Nat} (hi : i < names.length) : ∃ v ∈ names, order.idxOf (names.idxOf v) = i := by
  have hlength := Matrix.CuthillMcKee.order_length hl.perm
  obtain ⟨k, hk⟩ : ∃ k, order[i]? = some k := ⟨_, List.getElem?_eq_getElem (by omega)⟩
  obtain ⟨hlt, hidx⟩ := (Matrix.CuthillMcKee.idxOf_iff hl.perm hi).mp hk
  refine ⟨names[k], List.getElem_mem hlt, ?_⟩
  rw [hl.nodup.idxOf_getElem k hlt, hidx]

theorem index_ok {v : Var} {i : Int} : labels.index v = .ok i ↔ v ∈ names ∧ i = order.idxOf (names.idxOf v) := by
  by_cases hv : v ∈ names
  · rw [hl.index v hv]
    constructor
    · intro h
      cases h
      exact ⟨hv, rfl⟩
    · rintro ⟨_, rfl⟩
      rfl
  · rw [hl.unLabeled v hv]
    constructor
    · intro h
      cases h
    · rintro ⟨h, _⟩
      exact absurd h hv

/-! ## The Hessian -/

/-- A matrix with the entries `f`, and the band for the labels. -/
structure Banded (labels : Labeling) (M : Mat K) (f : Int → Int → K) : Prop where
  is : Mat.Is M f
  rows : M.rows = labels.terms
  columns : M.columns = labels.terms
  under : M.under = labels.width
  width : M.width = labels.width + labels.width + 1

theorem hessian_add {M : Mat K} {f : Int → Int → K} (hM : Banded labels M f) {x y : Var} (hx : x ∈ names) (hy : y ∈ names)
    (hnear : (((order.idxOf (names.idxOf x) : Int) - order.idxOf (names.idxOf y)).natAbs : Int) ≤ labels.width) (k : K) :
    ∃ M' f', Hessian.add labels.index M x y k = .ok M' ∧ Banded labels M' f' ∧ ∀ u ∈ names, ∀ v ∈ names,
      f' (order.idxOf (names.idxOf u)) (order.idxOf (names.idxOf v)) =
        f (order.idxOf (names.idxOf u)) (order.idxOf (names.idxOf v)) + if x = u ∧ y = v then k else 0 := by
  have hlx := number_lt hl hx
  have hly := number_lt hl hy
  have hat : M.At (order.idxOf (names.idxOf x)) (order.idxOf (names.idxOf y)) := by
    rw [Mat.at_iff, hM.rows, hM.columns, hM.under, hM.width, hl.terms]
    omega
  obtain ⟨rep, hupdate, his⟩ := Mat.update_is hM.is hat (f (order.idxOf (names.idxOf x)) (order.idxOf (names.idxOf y)) + k)
  refine ⟨_, _, ?_, ⟨his, hM.rows, hM.columns, hM.under, hM.width⟩, fun u hu v hv => ?_⟩
  · simp only [Hessian.add, hl.index x hx, hl.index y hy]
    show (matrix (Mat.sub M (order.idxOf (names.idxOf x)) (order.idxOf (names.idxOf y))) >>= _) = _
    rw [Mat.sub_is hM.is]
    show matrix (Mat.update M (order.idxOf (names.idxOf x)) (order.idxOf (names.idxOf y)) _) = _
    rw [hupdate]
    rfl
  · by_cases hxy : x = u ∧ y = v
    · rw [if_pos hxy, ← hxy.1, ← hxy.2, if_pos ⟨rfl, rfl⟩]
    · rw [if_neg hxy, add_zero, if_neg]
      rintro ⟨hux, hvy⟩
      exact hxy ⟨(number_inj hl hu (by omega)).symm, (number_inj hl hv (by omega)).symm⟩

theorem hessian_adds (entries : List (Var × Var × K)) {M : Mat K} {f : Int → Int → K} (hM : Banded labels M f)
    (hentries : ∀ x ∈ entries, (x.1 ∈ names ∧ x.2.1 ∈ names) ∧
      (((order.idxOf (names.idxOf x.1) : Int) - order.idxOf (names.idxOf x.2.1)).natAbs : Int) ≤ labels.width) :
    ∃ M' f', entries.foldlM (fun out x => Hessian.add labels.index out x.1 x.2.1 x.2.2) M = .ok M' ∧ Banded labels M' f' ∧
      ∀ u ∈ names, ∀ v ∈ names, f' (order.idxOf (names.idxOf u)) (order.idxOf (names.idxOf v)) =
        f (order.idxOf (names.idxOf u)) (order.idxOf (names.idxOf v)) + sumAt2 u v entries := by
  induction entries generalizing M f with
  | nil => exact ⟨M, f, rfl, hM, fun u _ v _ => (add_zero _).symm⟩
  | cons x entries ih =>
    obtain ⟨⟨hx, hy⟩, hnear⟩ := hentries x List.mem_cons_self
    obtain ⟨M1, f1, hadd, hM1, hf1⟩ := hessian_add hl hM hx hy hnear x.2.2
    obtain ⟨M2, f2, hrest, hM2, hf2⟩ := ih hM1 fun z hz => hentries z (List.mem_cons_of_mem x hz)
    refine ⟨M2, f2, ?_, hM2, fun u hu v hv => ?_⟩
    · rw [List.foldlM_cons, hadd]
      exact hrest
    · rw [hf2 u hu v hv, hf1 u hu v hv, add_assoc]
      rfl

/-! ## The gradient -/

theorem gradient_add {A : Arr K} (hA : A.length = labels.terms) {x : Var} (hx : x ∈ names) (k : K) :
    ∃ A' : Arr K, Gradient.add labels.index A x k = .ok A' ∧ A'.length = labels.terms ∧ ∀ u ∈ names,
      A'.elt (order.idxOf (names.idxOf u)) = A.elt (order.idxOf (names.idxOf u)) + if x = u then k else 0 := by
  have hlx := number_lt hl hx
  have hin : (order.idxOf (names.idxOf x) : Int) < A.length := by
    rw [hA, hl.terms]
    omega
  refine ⟨⟨A.length, Function.update A.elt (order.idxOf (names.idxOf x)) (A.elt (order.idxOf (names.idxOf x)) + k)⟩, ?_, hA, fun u hu => ?_⟩
  · simp only [Gradient.add, hl.index x hx]
    show (matrix (A.sub (order.idxOf (names.idxOf x))) >>= _) = _
    rw [Arr.sub_eq (by omega) hin]
    show matrix (A.update (order.idxOf (names.idxOf x)) _) = _
    rw [Arr.update_eq (by omega) hin]
    rfl
  · show Function.update A.elt _ _ _ = _
    by_cases hxu : x = u
    · rw [if_pos hxu, ← hxu, Function.update_self]
    · rw [if_neg hxu, add_zero, Function.update_of_ne]
      intro heq
      exact hxu (number_inj hl hu (by omega)).symm

theorem gradient_adds (entries : List (Var × K)) {A : Arr K} (hA : A.length = labels.terms) (hentries : ∀ x ∈ entries, x.1 ∈ names) :
    ∃ A' : Arr K, entries.foldlM (fun out x => Gradient.add labels.index out x.1 x.2) A = .ok A' ∧ A'.length = labels.terms ∧
      ∀ u ∈ names, A'.elt (order.idxOf (names.idxOf u)) = A.elt (order.idxOf (names.idxOf u)) + sumAt u entries := by
  induction entries generalizing A with
  | nil => exact ⟨A, rfl, hA, fun u _ => (add_zero _).symm⟩
  | cons x entries ih =>
    obtain ⟨A1, hadd, hA1, hsum1⟩ := gradient_add hl hA (hentries x List.mem_cons_self) x.2
    obtain ⟨A2, hrest, hA2, hsum2⟩ := ih hA1 fun z hz => hentries z (List.mem_cons_of_mem x hz)
    refine ⟨A2, ?_, hA2, fun u hu => ?_⟩
    · rw [List.foldlM_cons, hadd]
      exact hrest
    · rw [hsum2 u hu, hsum1 u hu, add_assoc]
      rfl

end Numbers

/-! ## Every list of constraints -/

/-- The labels number the variables of the constraints, and those of one constraint nearly alike. -/
structure Assigns (constraints : List (Constraint K)) (labels : Labeling) : Prop where
  index : ∀ c ∈ constraints, ∀ v ∈ c.vars, ∃ i, labels.index v = .ok i ∧ 0 ≤ i ∧ i < labels.terms
  inj : ∀ u v i, labels.index u = .ok i → labels.index v = .ok i → u = v
  onto : ∀ i, 0 ≤ i → i < labels.terms → ∃ c ∈ constraints, ∃ v ∈ c.vars, labels.index v = .ok i
  near : ∀ c ∈ constraints, ∀ x ∈ c.vars, ∀ y ∈ c.vars, ∀ i j, labels.index x = .ok i → labels.index y = .ok j →
    i - j ≤ labels.width ∧ j - i ≤ labels.width

omit [Field K] in
theorem assigns {constraints : List (Constraint K)} {names : List Var} {order : List Nat} {labels : Labeling} (hl : Numbers names order labels)
    (hvars : ∀ v, v ∈ names ↔ ∃ c ∈ constraints, v ∈ c.vars)
    (hnear : ∀ c ∈ constraints, ∀ x ∈ c.vars, ∀ y ∈ c.vars,
      (((order.idxOf (names.idxOf x) : Int) - order.idxOf (names.idxOf y)).natAbs : Int) ≤ labels.width) : Assigns constraints labels where
  index := by
    intro c hc v hv
    have hname := (hvars v).mpr ⟨c, hc, hv⟩
    have hlt := number_lt hl hname
    refine ⟨_, hl.index v hname, by omega, ?_⟩
    rw [hl.terms]
    omega
  inj := by
    intro u v i hu hv
    obtain ⟨hu', hi⟩ := (index_ok hl).mp hu
    obtain ⟨_, hj⟩ := (index_ok hl).mp hv
    exact number_inj hl hu' (by omega)
  onto := by
    intro i h0 hi
    rw [hl.terms] at hi
    obtain ⟨v, hname, hv⟩ := number_onto hl (show i.toNat < names.length by omega)
    obtain ⟨c, hc, hin⟩ := (hvars v).mp hname
    refine ⟨c, hc, v, hin, ?_⟩
    rw [hl.index v hname, hv, Int.toNat_of_nonneg h0]
  near := by
    intro c hc x hx y hy i j hi hj
    obtain ⟨_, rfl⟩ := (index_ok hl).mp hi
    obtain ⟨_, rfl⟩ := (index_ok hl).mp hj
    have h := hnear c hc x hx y hy
    omega

/-- One constraint after the other. -/
theorem sumAt_flatMap (f : Constraint K → List (Var × K)) (v : Var) (constraints : List (Constraint K)) :
    sumAt v (constraints.flatMap f) = (constraints.map fun c => sumAt v (f c)).sum := by
  induction constraints with
  | nil => rfl
  | cons c constraints ih => rw [List.flatMap_cons, Constraint.sumAt_append, List.map_cons, List.sum_cons, ih]

theorem sumAt2_flatMap (f : Constraint K → List (Var × Var × K)) (u v : Var) (constraints : List (Constraint K)) :
    sumAt2 u v (constraints.flatMap f) = (constraints.map fun c => sumAt2 u v (f c)).sum := by
  induction constraints with
  | nil => rfl
  | cons c constraints ih => rw [List.flatMap_cons, Constraint.sumAt2_append, List.map_cons, List.sum_cons, ih]

/-- The variables of the constraints get the indices below `terms` one to one, two of one
    constraint at most `width` apart; with these labels the Hessian and the gradient are
    computed, and hold the sums of the derivatives of the barriers. -/
theorem derivatives (e : Exps K) (ln : K → K) (hexp : ∀ y, e.exp y = e.f y + 1) (values : Var → K) (constraints : List (Constraint K))
    (hslack : ∀ c ∈ constraints, Constraint.slack e values c ≠ 0) :
    ∃ labels H G, Labels.optimize constraints = .ok labels ∧ Assigns constraints labels ∧
      Hessian.compute e values constraints labels = .ok H ∧ Gradient.compute e values constraints labels = .ok G ∧
      (H.rows = labels.terms ∧ H.columns = labels.terms) ∧ (G.start = 0 ∧ G.finish = labels.terms) ∧
      ∀ u i, labels.index u = .ok i →
        Vec.sub G i = .ok (constraints.map fun c => (c.barrier.diff u).eval (Constraint.elementary e ln) values).sum ∧
        ∀ v j, labels.index v = .ok j →
          Mat.sub H i j = .ok (constraints.map fun c => ((c.barrier.diff v).diff u).eval (Constraint.elementary e ln) values).sum := by
  obtain ⟨labels, names, order, hoptimize, hl, hvars, hnear⟩ := Labels.optimize_spec constraints
  have hterms : 0 ≤ labels.terms := by rw [hl.terms]; omega
  -- the empty matrix and the empty array
  obtain ⟨M, htabulate, his, hrows, hcolumns, hunder, hwidth, _⟩ := Mat.tabulate_is labels.terms labels.terms labels.width labels.width true
    (labels.width, labels.width) (min_self _).symm (min_self _).symm hterms hterms (by have := hl.width; omega) (fun _ _ => .ok (0 : K))
    (f := fun _ _ => 0) (fun _ _ _ _ => rfl) (fun _ r c hat _ => by unfold Mat.Place at *; exact ⟨by omega, rfl⟩) (fun _ _ _ => rfl)
  obtain ⟨H, f, hH, hbanded, hhessian⟩ := hessian_adds hl (constraints.flatMap (hessianEntries e values)) ⟨his, hrows, hcolumns, hunder, hwidth⟩ (by
    intro x hx
    obtain ⟨c, hc, hx⟩ := List.mem_flatMap.mp hx
    obtain ⟨h1, h2⟩ := Constraint.hessianEntries_vars hx
    exact ⟨⟨(hvars _).mpr ⟨c, hc, h1⟩, (hvars _).mpr ⟨c, hc, h2⟩⟩, hnear c hc _ h1 _ h2⟩)
  obtain ⟨A, hA, hlength, hgradient⟩ := gradient_adds hl (constraints.flatMap (gradientEntries e values)) (A := ⟨labels.terms, fun _ => 0⟩) rfl (by
    intro x hx
    obtain ⟨c, hc, hx⟩ := List.mem_flatMap.mp hx
    exact (hvars _).mpr ⟨c, hc, Constraint.gradientEntries_vars hx⟩)
  have hfrom := Vec.fromArray_reads hterms hlength.ge
  refine ⟨labels, H, ⟨0, labels.terms, .vector A⟩, hoptimize, assigns hl hvars hnear, ?_, ?_, ⟨hbanded.rows, hbanded.columns⟩, ⟨rfl, rfl⟩, fun u i hu => ?_⟩
  · simp only [Hessian.compute, htabulate]
    exact hH
  · have harray : Arr.array labels.terms (0 : K) = .ok ⟨labels.terms, fun _ => 0⟩ := if_neg (by omega)
    simp only [Gradient.compute, harray]
    show ((constraints.flatMap (gradientEntries e values)).foldlM (fun out x => Gradient.add labels.index out x.1 x.2) ⟨labels.terms, fun _ => 0⟩ >>= _) = _
    rw [hA]
    show matrix (Vec.fromArray A labels.terms) = _
    rw [hfrom.1]
    rfl
  · obtain ⟨hu', rfl⟩ := (index_ok hl).mp hu
    have hlt := number_lt hl hu'
    constructor
    · have hin : ¬ ((order.idxOf (names.idxOf u) : Int) < 0 ∨ labels.terms ≤ order.idxOf (names.idxOf u)) := by
        rw [hl.terms]
        omega
      have hread := hfrom.2 (order.idxOf (names.idxOf u)) (by show (0 : Int) ≤ _; omega) (by show (_ : Int) < labels.terms; omega)
      unfold Vec.sub
      rw [if_neg hin, hread, hgradient u hu', sumAt_flatMap, zero_add]
      congr 2
      exact List.map_congr_left fun c _ => Constraint.gradient_sum e ln values u
    · intro v j hv
      obtain ⟨hv', rfl⟩ := (index_ok hl).mp hv
      rw [Mat.sub_is hbanded.is, hhessian u hu' v hv', sumAt2_flatMap, zero_add]
      congr 2
      exact List.map_congr_left fun c hc => Constraint.hessian_sum e ln values hexp u v (hslack c hc)

/-- A variable that a constraint has twice, and an absent one; near zero `exp` is one more
    than its argument. -/
theorem derivatives_shared : ∃ labels H, Labels.optimize [.exp1 0 1, .sum (some 0) none (some 0) (1 : ℚ) 1 1] = .ok labels ∧
    Hessian.compute ⟨fun y => y + 1, id⟩ (fun v => if v = 0 then 3 else 0) [.exp1 0 1, .sum (some 0) none (some 0) (1 : ℚ) 1 1] labels = .ok H ∧
    ∃ i, labels.index 0 = .ok i ∧ Mat.sub H i i = .ok (1 / 9 + 4 / 49) := by
  obtain ⟨labels, H, G, hoptimize, hassigns, hH, _, _, _, hall⟩ := derivatives (K := ℚ) ⟨fun y => y + 1, id⟩ id (fun _ => rfl)
    (fun v => if v = 0 then 3 else 0) [.exp1 0 1, .sum (some 0) none (some 0) 1 1 1] (by
      intro c hc
      rcases List.mem_cons.mp hc with rfl | hc
      · norm_num [Constraint.slack]
      · rw [List.mem_singleton.mp hc]
        norm_num [Constraint.slack, Constraint.get])
  obtain ⟨i, hi, _⟩ := hassigns.index (.exp1 0 1) List.mem_cons_self 0 List.mem_cons_self
  refine ⟨labels, H, hoptimize, hH, i, hi, ?_⟩
  rw [(hall 0 i hi).2 0 i hi]
  congr 1
  norm_num [Constraint.barrier, Constraint.term, Constraint.termOf, Lib.Term.diff, Lib.Term.eval, Constraint.elementary]

end BubbleStorm.Util.Optimizer
