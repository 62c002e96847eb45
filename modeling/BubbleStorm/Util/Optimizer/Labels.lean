/-
  BubbleStorm.Util.Optimizer.Labels — the numbers of the variables in the vectors and
  matrices of the optimizer (`src/util/optimizer/labels.sml`).

  A property of variables is a partial function; `get1` and `get2` read two of them.

  Proved: the distinct variables of the constraints have the numbers below their count, one
  each, and two of one constraint are at most the width apart (`optimize_spec`).
-/

import BubbleStorm.Util.Matrix.Bandwidth
import BubbleStorm.Util.Matrix.Algebra
import BubbleStorm.Util.Optimizer.Constraint

namespace BubbleStorm.Util.Optimizer.Labels

open Function (update_of_ne update_self)
open Util.Matrix
open CuthillMcKee (Graph Edge Valid)

inductive Exn where
  | heap (e : Util.Heap.Exn)
  | matrix (e : Matrix.Algebra.Exn)
  | unLabeled
  /-- `Property.setOnce` used twice. -/
  | usedTwice
  deriving DecidableEq, Repr

variable {α K : Type}

def heap : Except Util.Heap.Exn α → Except Exn α
  | .ok x => .ok x
  | .error e => .error (.heap e)

/-! ## Properties -/

/-- Set for some variables, with the constant -1 for the others. -/
abbrev Property := Var → Option Int

def get (p : Property) (v : Var) : Int := (p v).getD (-1)

def set (p : Property) (v : Var) (i : Int) : Except Exn Property :=
  if p v = none then .ok (Function.update p v (some i)) else .error .usedTwice

def remove (p : Property) (v : Var) : Property := Function.update p v none

/-! ## The labels -/

structure Labeling where
  terms : Int
  width : Int
  index : Var → Except Exn Int

/-- The first property, `n` and `distinctVars`. -/
structure Numbering where
  prop : Property
  n : Nat
  distinctVars : List Var

def setIndex (s : Numbering) (v : Var) : Except Exn Numbering :=
  if get s.prop v ≠ -1 then .ok s
  else do
    let prop ← set s.prop v s.n
    .ok ⟨prop, s.n + 1, v :: s.distinctVars⟩

def pairs (c : Constraint K) : List (Var × Var) := c.vars.flatMap fun x => c.vars.map fun y => (x, y)

/-- Every variable of a constraint has a number by now. -/
def edge (prop : Property) (graph : Graph) (p : Var × Var) : Except Exn Graph := do
  let x := get prop p.1
  let y := get prop p.2
  let tail ← heap (CuthillMcKee.sub graph x)
  heap (CuthillMcKee.update graph x (y.toNat :: tail))

def relabel (permute : List Int) (s : Property × Property) (v : Var) : Except Exn (Property × Property) := do
  let i ← heap (CuthillMcKee.sub permute (get s.1 v))
  let prop ← set s.2 v i
  .ok (remove s.1 v, prop)

def index (prop : Property) (v : Var) : Except Exn Int :=
  let i := get prop v
  if i = -1 then .error .unLabeled else .ok i

def optimize (constraints : List (Constraint K)) : Except Exn Labeling := do
  let s ← (constraints.flatMap Constraint.vars).foldlM setIndex ⟨fun _ => none, 0, []⟩
  let graph ← (constraints.flatMap pairs).foldlM (edge s.prop) (List.replicate s.n [])
  let graph ← heap (CuthillMcKee.simplify graph)
  let permute ← heap (CuthillMcKee.optimize graph)
  let graph ← heap (CuthillMcKee.relabel graph permute)
  let width := CuthillMcKee.bandwidth graph
  let props ← s.distinctVars.foldlM (relabel permute) (s.prop, fun _ => none)
  .ok ⟨s.n, width, index props.2⟩

/-! ## Numbering the variables -/

/-- The variables in the order in which they were found. -/
structure Named (names : List Var) (s : Numbering) : Prop where
  prop : ∀ v, s.prop v = if v ∈ names then some (names.idxOf v : Int) else none
  n : s.n = names.length
  distinctVars : s.distinctVars = names.reverse
  nodup : names.Nodup

variable {names : List Var} {s : Numbering}

theorem Named.get (h : Named names s) {v : Var} (hv : v ∈ names) : get s.prop v = names.idxOf v := by
  unfold Labels.get
  rw [h.prop, if_pos hv]
  rfl

theorem setIndex_named (h : Named names s) (v : Var) :
    ∃ s' names', setIndex s v = .ok s' ∧ Named names' s' ∧ ∀ x, x ∈ names' ↔ x ∈ names ∨ x = v := by
  unfold setIndex
  by_cases hv : v ∈ names
  · refine ⟨s, names, if_pos ?_, h, fun x => ⟨.inl, fun hx => ?_⟩⟩
    · rw [h.get hv]
      omega
    · rcases hx with hx | rfl
      · exact hx
      · exact hv
  · have hnone : s.prop v = none := by rw [h.prop, if_neg hv]
    refine ⟨⟨Function.update s.prop v (some s.n), s.n + 1, v :: s.distinctVars⟩, names ++ [v], ?_, ⟨fun x => ?_, ?_, ?_, ?_⟩, fun x => ?_⟩
    · have hget : Labels.get s.prop v = -1 := by
        unfold Labels.get
        rw [hnone]
        rfl
      rw [hget, if_neg (by omega)]
      unfold set
      rw [if_pos hnone]
      rfl
    · show Function.update s.prop v (some (s.n : Int)) x = _
      by_cases hx : x = v
      · rw [hx, update_self, if_pos (List.mem_append_right _ List.mem_cons_self), List.idxOf_append_of_notMem hv, h.n]
        simp
      · rw [update_of_ne hx, h.prop]
        by_cases hin : x ∈ names
        · rw [if_pos hin, if_pos (List.mem_append_left _ hin), List.idxOf_append_of_mem hin]
        · rw [if_neg hin, if_neg]
          rw [List.mem_append, List.mem_singleton]
          exact not_or.mpr ⟨hin, hx⟩
    · rw [List.length_append, h.n]
      rfl
    · rw [List.reverse_append, h.distinctVars]
      rfl
    · rw [List.nodup_append]
      refine ⟨h.nodup, List.nodup_singleton v, fun a ha b hb heq => ?_⟩
      rw [List.mem_singleton] at hb
      exact hv (hb ▸ heq ▸ ha)
    · rw [List.mem_append, List.mem_singleton]

theorem numbering (vs : List Var) (h : Named names s) :
    ∃ s' names', vs.foldlM setIndex s = .ok s' ∧ Named names' s' ∧ ∀ x, x ∈ names' ↔ x ∈ names ∨ x ∈ vs := by
  induction vs generalizing names s with
  | nil => exact ⟨s, names, rfl, h, fun x => by simp⟩
  | cons v vs ih =>
    obtain ⟨s1, names1, hset, h1, hmem1⟩ := setIndex_named h v
    obtain ⟨s2, names2, hrest, h2, hmem2⟩ := ih h1
    refine ⟨s2, names2, ?_, h2, fun x => ?_⟩
    · rw [List.foldlM_cons, hset]
      exact hrest
    · rw [hmem2, hmem1, List.mem_cons, or_assoc]

/-! ## The graph -/

theorem edge_spec (h : Named names s) {g : Graph} (hlength : g.length = names.length) (V : Valid g) {p : Var × Var}
    (hp : p.1 ∈ names ∧ p.2 ∈ names) :
    ∃ g', edge s.prop g p = .ok g' ∧ g'.length = names.length ∧ Valid g' ∧ (∀ a b, Edge g a b → Edge g' a b) ∧
      Edge g' (names.idxOf p.1) (names.idxOf p.2) := by
  have hx := List.idxOf_lt_length_of_mem hp.1
  have hy := List.idxOf_lt_length_of_mem hp.2
  have hget := List.getElem?_eq_getElem (show names.idxOf p.1 < g.length by omega)
  obtain ⟨tail, htail⟩ : ∃ tail, g[names.idxOf p.1]? = some tail := ⟨_, hget⟩
  have hself : (g.set (names.idxOf p.1) (names.idxOf p.2 :: tail))[names.idxOf p.1]? = some (names.idxOf p.2 :: tail) :=
    List.getElem?_set_self (by omega)
  refine ⟨g.set (names.idxOf p.1) (names.idxOf p.2 :: tail), ?_, by rw [List.length_set, hlength], fun l hl x hx' => ?_, fun a b hab => ?_,
    ⟨_, hself, List.mem_cons_self⟩⟩
  · simp only [edge, h.get hp.1, h.get hp.2, CuthillMcKee.sub_eq htail, CuthillMcKee.update_eq _ (show names.idxOf p.1 < g.length by omega),
      Int.toNat_natCast]
    rfl
  · rw [List.length_set]
    rcases List.mem_or_eq_of_mem_set hl with hl | rfl
    · exact V l hl x hx'
    · rcases List.mem_cons.mp hx' with rfl | hx'
      · omega
      · exact V tail (List.mem_of_getElem? htail) x hx'
  · obtain ⟨l, hl, hb⟩ := hab
    by_cases ha : a = names.idxOf p.1
    · subst ha
      rw [htail] at hl
      cases hl
      exact ⟨_, hself, List.mem_cons_of_mem _ hb⟩
    · exact ⟨l, by rw [List.getElem?_set_ne fun heq => ha heq.symm]; exact hl, hb⟩

theorem edges_spec (h : Named names s) (ps : List (Var × Var)) (hps : ∀ p ∈ ps, p.1 ∈ names ∧ p.2 ∈ names) {g : Graph}
    (hlength : g.length = names.length) (V : Valid g) :
    ∃ g', ps.foldlM (edge s.prop) g = .ok g' ∧ g'.length = names.length ∧ Valid g' ∧ (∀ a b, Edge g a b → Edge g' a b) ∧
      ∀ p ∈ ps, Edge g' (names.idxOf p.1) (names.idxOf p.2) := by
  induction ps generalizing g with
  | nil => exact ⟨g, rfl, hlength, V, fun _ _ hab => hab, nofun⟩
  | cons p ps ih =>
    obtain ⟨g1, hedge, hlength1, V1, hkept1, hnew⟩ := edge_spec h hlength V (hps p List.mem_cons_self)
    obtain ⟨g2, hrest, hlength2, V2, hkept2, hall⟩ := ih (fun x hx => hps x (List.mem_cons_of_mem p hx)) hlength1 V1
    refine ⟨g2, ?_, hlength2, V2, fun a b hab => hkept2 a b (hkept1 a b hab), fun x hx => ?_⟩
    · rw [List.foldlM_cons, hedge]
      exact hrest
    · rcases List.mem_cons.mp hx with rfl | hx
      · exact hkept2 _ _ hnew
      · exact hall x hx

/-! ## The new numbers -/

theorem relabel_spec {order : List Nat} (hp : order.Perm (List.range names.length)) (vs : List Var) (hnodup : vs.Nodup) (p1 p2 : Property)
    (hnames : ∀ v ∈ vs, v ∈ names ∧ p1 v = some (names.idxOf v : Int) ∧ p2 v = none) :
    ∃ p1' p2', vs.foldlM (relabel (CuthillMcKee.numbers names.length order)) (p1, p2) = .ok (p1', p2') ∧
      ∀ v, p2' v = if v ∈ vs then some (order.idxOf (names.idxOf v) : Int) else p2 v := by
  induction vs generalizing p1 p2 with
  | nil => exact ⟨p1, p2, rfl, fun v => rfl⟩
  | cons v vs ih =>
    obtain ⟨hin, h1, h2⟩ := hnames v List.mem_cons_self
    obtain ⟨hout, hnodup'⟩ := List.nodup_cons.mp hnodup
    have hlt := List.idxOf_lt_length_of_mem hin
    have hnumber : (CuthillMcKee.numbers names.length order)[names.idxOf v]? = some (order.idxOf (names.idxOf v) : Int) := by
      rw [CuthillMcKee.numbers_order hp, List.getElem?_map, List.getElem?_range hlt]
      rfl
    have hhere : relabel (CuthillMcKee.numbers names.length order) (p1, p2) v =
        .ok (remove p1 v, Function.update p2 v (some (order.idxOf (names.idxOf v) : Int))) := by
      simp only [relabel, get, h1, Option.getD_some, CuthillMcKee.sub_eq hnumber, heap, set, h2, if_true]
      rfl
    obtain ⟨p1', p2', hrest, hall⟩ := ih hnodup' (remove p1 v) (Function.update p2 v (some (order.idxOf (names.idxOf v) : Int))) (by
      intro x hx
      have hne : x ≠ v := fun heq => hout (heq ▸ hx)
      obtain ⟨hin', h1', h2'⟩ := hnames x (List.mem_cons_of_mem v hx)
      unfold remove
      rw [update_of_ne hne, update_of_ne hne]
      exact ⟨hin', h1', h2'⟩)
    refine ⟨p1', p2', ?_, fun x => ?_⟩
    · rw [List.foldlM_cons, hhere]
      exact hrest
    · rw [hall]
      by_cases hx : x = v
      · rw [hx, if_neg hout, if_pos List.mem_cons_self, update_self]
      · by_cases hxs : x ∈ vs
        · rw [if_pos hxs, if_pos (List.mem_cons_of_mem v hxs)]
        · rw [if_neg hxs, if_neg (fun hmem => (List.mem_cons.mp hmem).elim hx hxs), update_of_ne hx]

/-- The number of a variable: its place in an order of the places of the names. -/
structure Numbers (names : List Var) (order : List Nat) (labels : Labeling) : Prop where
  nodup : names.Nodup
  perm : order.Perm (List.range names.length)
  terms : labels.terms = names.length
  width : 0 ≤ labels.width
  index : ∀ v ∈ names, labels.index v = .ok (order.idxOf (names.idxOf v) : Int)
  unLabeled : ∀ v, v ∉ names → labels.index v = .error .unLabeled

theorem optimize_spec (constraints : List (Constraint K)) :
    ∃ labels names order, optimize constraints = .ok labels ∧ Numbers names order labels ∧
      (∀ v, v ∈ names ↔ ∃ c ∈ constraints, v ∈ c.vars) ∧
      ∀ c ∈ constraints, ∀ x ∈ c.vars, ∀ y ∈ c.vars,
        (((order.idxOf (names.idxOf x) : Int) - order.idxOf (names.idxOf y)).natAbs : Int) ≤ labels.width := by
  have hstart : Named [] ⟨fun _ => none, 0, []⟩ := ⟨fun _ => rfl, rfl, rfl, List.nodup_nil⟩
  obtain ⟨s, names, hnumber, h, hmem⟩ := numbering (constraints.flatMap Constraint.vars) hstart
  have hvars : ∀ v, v ∈ names ↔ ∃ c ∈ constraints, v ∈ c.vars := by
    intro v
    rw [hmem, List.mem_flatMap, or_iff_right List.not_mem_nil]
  have hpair : ∀ p, p ∈ constraints.flatMap pairs ↔ ∃ c ∈ constraints, p.1 ∈ c.vars ∧ p.2 ∈ c.vars := by
    intro p
    rw [List.mem_flatMap]
    refine exists_congr fun c => and_congr_right fun _ => ?_
    unfold pairs
    rw [List.mem_flatMap]
    constructor
    · rintro ⟨x, hx, hp⟩
      obtain ⟨y, hy, rfl⟩ := List.mem_map.mp hp
      exact ⟨hx, hy⟩
    · rintro ⟨hx, hy⟩
      exact ⟨p.1, hx, List.mem_map.mpr ⟨p.2, hy, rfl⟩⟩
  obtain ⟨g, hedges, hlength, V, _, hedge⟩ := edges_spec h (constraints.flatMap pairs) (fun p hp => by
    obtain ⟨c, hc, hx, hy⟩ := (hpair p).mp hp
    exact ⟨(hvars p.1).mpr ⟨c, hc, hx⟩, (hvars p.2).mpr ⟨c, hc, hy⟩⟩) (g := List.replicate s.n []) (by rw [List.length_replicate, h.n]) (by
      intro l hl x hx
      rw [List.eq_of_mem_replicate hl] at hx
      exact absurd hx List.not_mem_nil)
  obtain ⟨g', order, relabelled, hsimplify, hp, hoptimize, hrelabel, hpos, hwide⟩ := CuthillMcKee.optimize_width V
  rw [hlength] at hp hoptimize hrelabel
  obtain ⟨p1, p2, hprops, hall⟩ := relabel_spec hp names.reverse (List.nodup_reverse.mpr h.nodup) s.prop (fun _ => none) (by
    intro v hv
    have hv' := List.mem_reverse.mp hv
    exact ⟨hv', by rw [h.prop, if_pos hv'], rfl⟩)
  refine ⟨⟨s.n, CuthillMcKee.bandwidth relabelled, index p2⟩, names, order, ?_, ⟨h.nodup, hp, by rw [h.n], hpos, fun v hv => ?_, fun v hv => ?_⟩,
    hvars, fun c hc x hx y hy => hwide _ _ (hedge (x, y) ((hpair _).mpr ⟨c, hc, hx, hy⟩))⟩
  · simp only [optimize, hnumber]
    show ((constraints.flatMap pairs).foldlM (edge s.prop) (List.replicate s.n []) >>= _) = _
    rw [hedges]
    show (heap (CuthillMcKee.simplify g) >>= _) = _
    rw [hsimplify]
    show (heap (CuthillMcKee.optimize g') >>= _) = _
    rw [hoptimize]
    show (heap (CuthillMcKee.relabel g' (CuthillMcKee.numbers names.length order)) >>= _) = _
    rw [hrelabel]
    show (s.distinctVars.foldlM (relabel (CuthillMcKee.numbers names.length order)) (s.prop, fun _ => none) >>= _) = _
    rw [h.distinctVars, hprops]
    rfl
  · show index p2 v = _
    unfold index get
    rw [hall, if_pos (List.mem_reverse.mpr hv)]
    exact if_neg (by show ¬((order.idxOf (names.idxOf v) : Int) = -1); omega)
  · show index p2 v = _
    unfold index get
    rw [hall, if_neg (fun hmem => hv (List.mem_reverse.mp hmem))]
    exact if_pos rfl

end BubbleStorm.Util.Optimizer.Labels
