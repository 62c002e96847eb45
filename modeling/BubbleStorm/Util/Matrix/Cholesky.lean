/-
  BubbleStorm.Util.Matrix.Cholesky — the factors of a symmetric banded matrix
  (`src/util/matrix/cholesky.fun`).

  The lower factor is filled row by row from its own entries. Beside it the code keeps the
  diagonal and, for the row at hand, the products of its entries with the diagonal; of the
  rows before only the slot that leaves the band is set to zero again.

  Proved: if no pivot of the elimination is zero, what `f` returns is a unit lower
  triangular matrix in the lower band and a diagonal one (`f_is`), whose product is the
  matrix (`product_eq`).
-/

import Mathlib.Algebra.Order.Ring.Int
import Mathlib.Tactic.Ring
import Mathlib.Tactic.FieldSimp
import BubbleStorm.Util.Matrix.AlgebraSpec

namespace BubbleStorm.Util.Matrix.Cholesky

open Function (update_of_ne update_self)
open BubbleStorm.Util.Matrix.Algebra

variable {K : Type} [Field K]

/-! ## The code -/

structure Cache (K : Type) where
  D : Arr K
  DLr : Arr K

def work (A : Mat K) (lower : Int) (s : Cache K) (L : Mat K) (r c : Int) : Except Exn (K × Cache K) :=
  if r = c then do
    let a ← A.sub r c
    let DLr' ← Vec.fromArray s.DLr c
    let known ← Vec.dot (L.row c) DLr'
    let Dc := a - known
    let D ← s.D.update c Dc
    let DLr ← (if c < lower then .ok s.DLr else s.DLr.update (c - lower) 0)
    .ok (1, ⟨D, DLr⟩)
  else do
    let a ← A.sub r c
    let DLr' ← Vec.fromArray s.DLr c
    let known ← Vec.dot (L.row c) DLr'
    let DcLrc := a - known
    let DLr ← s.DLr.update c DcLrc
    let Dc ← s.D.sub c
    .ok (DcLrc / Dc, ⟨s.D, DLr⟩)

/-- The factors `D` and `L`. -/
def f (A : Mat K) : Except Exn (Mat K × Mat K) :=
  if A.symmetric = false ∨ A.rows ≠ A.columns then .error .domain
  else do
    let D ← Arr.array A.rows (0 : K)
    let DLr ← Arr.array A.rows (0 : K)
    let (L, s) ← Mat.unfold (A.rows, A.columns) (A.under, 0) false (work A A.under) ⟨D, DLr⟩
    let D ← Mat.tabulate (A.rows, A.columns) (0, 0) true fun r _ => s.D.sub r
    .ok (D, L)

def inverse (D : Mat K) : Except Exn (Mat K) :=
  if D.bandwidth ≠ (0, 0) then .error .domain
  else Mat.tabulate (D.rows, D.columns) (0, 0) true fun r _ => do
    let d ← D.sub r r
    .ok (1 / d)

/-! ## Elimination -/

/-- What is left of a symmetric matrix after the first columns are eliminated. -/
def schur (h : Int → Int → K) : Nat → Int → Int → K
  | 0 => h
  | k + 1 => fun r c => schur h k r c - schur h k r k * schur h k c k / schur h k k k

/-- The pivot of a column. -/
def pivot (h : Int → Int → K) (k : Nat) : K := schur h k k k

section Elimination

variable {h : Int → Int → K}

theorem schur_symm (hsym : ∀ r c, h r c = h c r) (k : Nat) (r c : Int) : schur h k r c = schur h k c r := by
  induction k generalizing r c with
  | zero => exact hsym r c
  | succ k ih =>
    unfold schur
    rw [ih r c, mul_comm]

theorem schur_sum (h : Int → Int → K) (k : Nat) (r c : Int) :
    schur h k r c = h r c - ∑ j ∈ Finset.range k, schur h j r j * schur h j c j / pivot h j := by
  induction k with
  | zero => simp [schur]
  | succ k ih =>
    rw [Finset.sum_range_succ, ← sub_sub, ← ih]
    rfl

/-- The rows that are eliminated are zero. -/
theorem schur_zero (hsym : ∀ r c, h r c = h c r) {k : Nat} (hpivot : ∀ j < k, pivot h j ≠ 0) {r : Nat} (hr : r < k) (c : Int) : schur h k r c = 0 := by
  induction k generalizing c with
  | zero => omega
  | succ k ih =>
    have hbefore : ∀ j < k, pivot h j ≠ 0 := fun j hj => hpivot j (Nat.lt_succ_of_lt hj)
    show schur h k r c - schur h k r k * schur h k c k / schur h k k k = 0
    rcases Nat.lt_succ_iff_lt_or_eq.mp hr with hlt | rfl
    · rw [ih hbefore hlt c, ih hbefore hlt k, zero_mul, zero_div, sub_zero]
    · have hne : schur h r r r ≠ 0 := hpivot r (Nat.lt_succ_self r)
      rw [mul_comm, mul_div_assoc, div_self hne, mul_one, schur_symm hsym r c, sub_self]

/-- Elimination does not leave the band. -/
theorem schur_band {l : Int} (hband : ∀ r c, l < r - c → h r c = 0) (k : Nat) {r c : Int} (hk : k ≤ c) (hrc : l < r - c) : schur h k r c = 0 := by
  induction k generalizing c with
  | zero => exact hband r c hrc
  | succ k ih =>
    have hkc : ((k : Int) + 1) ≤ c := by exact_mod_cast hk
    show schur h k r c - schur h k r k * schur h k c k / schur h k k k = 0
    rw [ih (by omega) hrc, ih (c := (k : Int)) (le_refl _) (by omega), zero_mul, zero_div, sub_zero]

end Elimination

theorem sum_Ico (F : Int → K) (n : Nat) : ∑ i ∈ Finset.Ico (0 : Int) n, F i = ∑ k ∈ Finset.range n, F k := by
  rw [← Vec.interval_sum]
  unfold interval
  rw [List.map_map, show ((n : Int) - 0).toNat = n by omega]
  induction n with
  | zero => rfl
  | succ n ih =>
    rw [List.range_succ, List.map_append, List.sum_append, ih, Finset.sum_range_succ]
    simp

/-- The entry of a row before it is divided by the pivot. -/
def entry (h : Int → Int → K) (r c : Int) : K := schur h c.toNat r c

section Factors

variable (h : Int → Int → K) (n l : Int)

def lowerFactor (r c : Int) : K := if Mat.Place n n l 0 r c then entry h r c / entry h c c else 0

def diagonal (r c : Int) : K := if Mat.Place n n 0 0 r c then entry h r r else 0

end Factors

section Proofs

variable {A : Mat K} {h : Int → Int → K} {n : Nat} {l : Int} (hsym : ∀ r c, h r c = h c r) (hpivot : ∀ j < n, pivot h j ≠ 0)
  (hband : ∀ r c, l < r - c → h r c = 0)

theorem entry_nat (h : Int → Int → K) (r : Int) (k : Nat) : entry h r k = schur h k r k := rfl

include hpivot in
theorem entry_ne {c : Int} (h0 : 0 ≤ c) (hc : c < n) : entry h c c ≠ 0 := by
  obtain ⟨k, rfl⟩ := Int.eq_ofNat_of_zero_le h0
  exact hpivot k (by omega)

include hband in
theorem entry_band {r c : Int} (h0 : 0 ≤ c) (hrc : l < r - c) : entry h r c = 0 := schur_band hband c.toNat (by omega) hrc

include hsym hpivot hband in
/-- The factor is the eliminated column over its pivot, also where the code has no entry. -/
theorem lowerFactor_eq {r c : Int} (hr0 : 0 ≤ r) (hr : r < n) (hc0 : 0 ≤ c) (hc : c < n) : lowerFactor h n l r c = entry h r c / entry h c c := by
  unfold lowerFactor
  by_cases hat : Mat.Place n n l 0 r c
  · rw [if_pos hat]
  · rw [if_neg hat]
    have hzero : entry h r c = 0 := by
      rcases Int.lt_or_le l (r - c) with hlt | hge
      · exact entry_band hband hc0 hlt
      · have hrc : r < c := by
          unfold Mat.Place at hat
          omega
        obtain ⟨k, rfl⟩ := Int.eq_ofNat_of_zero_le hr0
        obtain ⟨m, rfl⟩ := Int.eq_ofNat_of_zero_le hc0
        exact schur_zero hsym (fun j hj => hpivot j (by omega)) (by omega) _
    rw [hzero, zero_div]

include hsym hpivot hband in
/-- The entry from those before it. -/
theorem entry_eq {r c : Int} (hc0 : 0 ≤ c) (hc : c < n) :
    h r c - ∑ j ∈ Finset.Ico 0 c, lowerFactor h n l c j * entry h r j = entry h r c := by
  obtain ⟨k, rfl⟩ := Int.eq_ofNat_of_zero_le hc0
  have hsum : ∑ j ∈ Finset.Ico 0 (k : Int), lowerFactor h n l k j * entry h r j = ∑ j ∈ Finset.range k, schur h j r j * schur h j k j / pivot h j := by
    rw [sum_Ico]
    refine Finset.sum_congr rfl fun j hj => ?_
    have hjk := Finset.mem_range.mp hj
    rw [lowerFactor_eq hsym hpivot hband (by omega) hc (by omega) (by omega), entry_nat, entry_nat, entry_nat]
    unfold pivot
    rw [div_mul_eq_mul_div, mul_comm]
  rw [hsum]
  exact (schur_sum h k r k).symm

include hsym hpivot hband in
/-- The product of the factors. -/
theorem product_eq {r c : Int} (hr0 : 0 ≤ r) (hr : r < n) (hc0 : 0 ≤ c) (hc : c < n) :
    ∑ j ∈ Finset.Ico (0 : Int) n, lowerFactor h n l r j * diagonal h n j j * lowerFactor h n l c j = h r c := by
  have hsum : ∑ j ∈ Finset.Ico (0 : Int) n, lowerFactor h n l r j * diagonal h n j j * lowerFactor h n l c j =
      ∑ j ∈ Finset.range n, schur h j r j * schur h j c j / pivot h j := by
    rw [sum_Ico]
    refine Finset.sum_congr rfl fun j hj => ?_
    have hjn := Finset.mem_range.mp hj
    have hplace : Mat.Place (n : Int) n 0 0 j j := by
      unfold Mat.Place
      omega
    have hne : schur h j j j ≠ 0 := hpivot j hjn
    rw [lowerFactor_eq hsym hpivot hband hr0 hr (by omega) (by omega), lowerFactor_eq hsym hpivot hband hc0 hc (by omega) (by omega)]
    unfold diagonal pivot
    rw [if_pos hplace, entry_nat, entry_nat, entry_nat, div_mul_cancel₀ _ hne, mul_div_assoc]
  have hlast : schur h n r c = 0 := by
    obtain ⟨k, rfl⟩ := Int.eq_ofNat_of_zero_le hr0
    exact schur_zero hsym hpivot (by omega) c
  have hall := schur_sum h n r c
  rw [hlast] at hall
  rw [hsum]
  exact (sub_eq_zero.mp hall.symm).symm

/-! ## The run -/

/-- Before the entry at `(r, c)`: the entries before it are those of the factor, the diagonal
    has the pivots passed, and the cache those of this row and nothing left of its band. -/
structure Inv (h : Int → Int → K) (n l r c : Int) (s : Cache K) (f : Int → Int → K) : Prop where
  sizeD : s.D.length = n
  sizeDLr : s.DLr.length = n
  done : ∀ r' c', Mat.Place n n l 0 r' c' → f r' c' = if r' < r ∨ r' = r ∧ c' < c then lowerFactor h n l r' c' else 0
  diag : ∀ j, 0 ≤ j → j < n → j < r ∨ j = r ∧ r < c → s.D.elt j = entry h j j
  cached : ∀ j, Mat.Place n n l 0 r j → j < c → c ≤ r → s.DLr.elt j = entry h r j
  cleared : ∀ j, 0 ≤ j → j < n → j < r - l ∨ r < n ∧ r < c ∧ j = r - l → s.DLr.elt j = 0

include hsym hpivot hband in
/-- What the code subtracts. -/
theorem dot_cache {r c : Int} {s : Cache K} {g : Int → Int → K} (hinv : Inv h n l r c s g) (hat : Mat.Place n n l 0 r c) {L : Mat K}
    (hrows : L.rows = n) (hcolumns : L.columns = n) (hunder : L.under = l) (hwidth : L.width = l + 0 + 1) (hreads : Mat.Reads L g) :
    ∃ v x, Vec.fromArray s.DLr c = .ok v ∧ Vec.dot (L.row c) v = .ok x ∧ h r c - x = entry h r c := by
  have hat' := hat
  unfold Mat.Place at hat'
  obtain ⟨hfrom, hvec⟩ := Vec.fromArray_reads (a := s.DLr) (l := c) (by omega) (by rw [hinv.sizeDLr]; omega)
  refine ⟨_, _, hfrom, Vec.dot_reads (Mat.row_reads hreads (by omega)) hvec, ?_⟩
  have hstart : (L.row c).start = max (c - l) 0 := by
    unfold Mat.row
    rw [if_neg (by omega), hunder]
  have hfinish : (L.row c).finish = min (c + L.width - L.under) L.columns := by
    unfold Mat.row
    rw [if_neg (by omega)]
  have hset : Finset.Ico (max (L.row c).start 0) (min (L.row c).finish c) = Finset.Ico (max (c - l) 0) c := by
    rw [hstart, hfinish, hwidth, hunder, hcolumns]
    congr 1 <;> omega
  have hsum : ∑ j ∈ Finset.Ico (max (c - l) 0) c, g c j * s.DLr.elt j = ∑ j ∈ Finset.Ico 0 c, lowerFactor h n l c j * entry h r j := by
    have hsub : Finset.Ico (max (c - l) 0) c ⊆ Finset.Ico 0 c := Finset.Ico_subset_Ico (le_max_right _ _) (le_refl _)
    rw [← Finset.sum_subset hsub fun j hj hout => ?_]
    · refine Finset.sum_congr rfl fun j hj => ?_
      rw [Finset.mem_Ico] at hj
      have hplace : Mat.Place (n : Int) n l 0 c j := by
        unfold Mat.Place
        omega
      rw [hinv.done c j hplace, if_pos (by omega)]
      congr 1
      -- in the band of this row it is cached, left of it it is zero
      by_cases hrj : r - j ≤ l
      · exact hinv.cached j (by unfold Mat.Place; omega) hj.2 (by omega)
      · rw [hinv.cleared j (by omega) (by omega) (.inl (by omega)), entry_band hband (by omega) (by omega)]
    · rw [Finset.mem_Ico] at hj hout
      unfold lowerFactor
      rw [if_neg (by unfold Mat.Place; omega), zero_mul]
  show h r c - ∑ j ∈ Finset.Ico (max (L.row c).start 0) (min (L.row c).finish c), g c j * s.DLr.elt j = _
  rw [hset, hsum]
  exact entry_eq hsym hpivot hband (by omega) (by omega)

/-- One entry, and what is kept beside it. -/
theorem work_step (hA : A.Is h) (hsym : ∀ r c, h r c = h c r) (hpivot : ∀ j < n, pivot h j ≠ 0)
    (hband : ∀ r c, l < r - c → h r c = 0) {r c : Int} {s : Cache K} {g : Int → Int → K} (hinv : Inv h n l r c s g) (hat : Mat.Place n n l 0 r c)
    {L : Mat K} (hrows : L.rows = n) (hcolumns : L.columns = n) (hunder : L.under = l) (hwidth : L.width = l + 0 + 1) (hreads : Mat.Reads L g) :
    ∃ x s', work A l s L r c = .ok (x, s') ∧ Inv h n l r (c + 1) s' (fun r' c' => if r' = r ∧ c' = c then x else g r' c') := by
  obtain ⟨v, x, hfrom, hdot, hx⟩ := dot_cache hsym hpivot hband hinv hat hrows hcolumns hunder hwidth hreads
  have hat' := hat
  unfold Mat.Place at hat'
  have hdone : ∀ y, y = lowerFactor h n l r c → ∀ r' c', Mat.Place (n : Int) n l 0 r' c' →
      (if r' = r ∧ c' = c then y else g r' c') = if r' < r ∨ r' = r ∧ c' < c + 1 then lowerFactor h n l r' c' else 0 := by
    intro y hy r' c' hplace
    by_cases hsame : r' = r ∧ c' = c
    · rw [if_pos hsame, if_pos (by omega), hsame.1, hsame.2]
      exact hy
    · rw [if_neg hsame, hinv.done r' c' hplace]
      exact if_congr (by omega) rfl rfl
  have hne := entry_ne hpivot (c := c) (by omega) (by omega)
  by_cases hrc : r = c
  · subst hrc
    have hclear : ∃ a, (if r < l then Except.ok s.DLr else s.DLr.update (r - l) 0) = .ok a ∧ a.length = n ∧
        (∀ j, j < r → ¬ j = r - l → a.elt j = s.DLr.elt j) ∧ (0 ≤ r - l → a.elt (r - l) = 0) := by
      by_cases hrl : r < l
      · exact ⟨s.DLr, if_pos hrl, hinv.sizeDLr, fun _ _ _ => rfl, fun h0 => by omega⟩
      · rw [if_neg hrl, Arr.update_eq (by omega) (by rw [hinv.sizeDLr]; omega)]
        exact ⟨_, rfl, hinv.sizeDLr, fun j _ hj => update_of_ne hj _ _, fun _ => update_self _ _ _⟩
    obtain ⟨a, ha, hsize, hkeep, hzero⟩ := hclear
    refine ⟨1, ⟨{ s.D with elt := Function.update s.D.elt r (entry h r r) }, a⟩, ?_, hinv.sizeD, hsize, hdone 1 ?_, fun j h0 hj hpast => ?_,
      fun j hplace hjc hjr => by omega, fun j h0 hj hpast => ?_⟩
    · unfold work
      rw [if_pos rfl, Mat.sub_is hA, hfrom]
      show (do let known ← Vec.dot (L.row r) v; let D ← s.D.update r (h r r - known); let DLr ← (if r < l then Except.ok s.DLr else s.DLr.update (r - l) 0); Except.ok ((1 : K), (⟨D, DLr⟩ : Cache K))) = _
      rw [hdot]
      show (do let D ← s.D.update r (h r r - x); let DLr ← (if r < l then Except.ok s.DLr else s.DLr.update (r - l) 0); Except.ok ((1 : K), (⟨D, DLr⟩ : Cache K))) = _
      rw [hx, Arr.update_eq (by omega) (by rw [hinv.sizeD]; omega), ha]
      rfl
    · unfold lowerFactor
      rw [if_pos hat, div_self hne]
    · show Function.update s.D.elt r (entry h r r) j = _
      by_cases hjr : j = r
      · rw [hjr, update_self]
      · rw [update_of_ne hjr]
        exact hinv.diag j h0 hj (by omega)
    · show a.elt j = 0
      by_cases hjl : j = r - l
      · rw [hjl]
        exact hzero (by omega)
      · rw [hkeep j (by omega) hjl]
        exact hinv.cleared j h0 hj (by omega)
  · refine ⟨entry h r c / entry h c c, ⟨s.D, { s.DLr with elt := Function.update s.DLr.elt c (entry h r c) }⟩, ?_, hinv.sizeD, hinv.sizeDLr,
      hdone _ ?_, fun j h0 hj hpast => hinv.diag j h0 hj (by omega), fun j hplace hjc hjr => ?_, fun j h0 hj hpast => ?_⟩
    · unfold work
      rw [if_neg hrc, Mat.sub_is hA, hfrom]
      show (do let known ← Vec.dot (L.row c) v; let DLr ← s.DLr.update c (h r c - known); let Dc ← s.D.sub c; Except.ok ((h r c - known) / Dc, (⟨s.D, DLr⟩ : Cache K))) = _
      rw [hdot]
      show (do let DLr ← s.DLr.update c (h r c - x); let Dc ← s.D.sub c; Except.ok ((h r c - x) / Dc, (⟨s.D, DLr⟩ : Cache K))) = _
      rw [hx, Arr.update_eq (by omega) (by rw [hinv.sizeDLr]; omega), Arr.sub_eq (by omega) (by rw [hinv.sizeD]; omega),
        hinv.diag c (by omega) (by omega) (by omega)]
      rfl
    · unfold lowerFactor
      rw [if_pos hat]
    · show Function.update s.DLr.elt c (entry h r c) j = _
      by_cases hjc' : j = c
      · rw [hjc', update_self]
      · rw [update_of_ne hjc']
        exact hinv.cached j hplace (by omega) (by omega)
    · show Function.update s.DLr.elt c (entry h r c) j = 0
      rw [update_of_ne (by omega)]
      exact hinv.cleared j h0 hj (by omega)

/-- A place out of the band is passed over. -/
theorem inv_skip {r c : Int} {s : Cache K} {g : Int → Int → K} (hl : 0 ≤ l) (hr0 : 0 ≤ r) (hr : r < n) (hat : ¬ Mat.Place n n l 0 r c)
    (hinv : Inv h n l r c s g) : Inv h n l r (c + 1) s g := by
  have hne : r ≠ c := by
    intro heq
    apply hat
    unfold Mat.Place
    omega
  refine ⟨hinv.sizeD, hinv.sizeDLr, fun r' c' hplace => ?_, fun j h0 hj hpast => hinv.diag j h0 hj (by omega),
    fun j hplace hjc hcr => ?_, fun j h0 hj hpast => hinv.cleared j h0 hj (by omega)⟩
  · rw [hinv.done r' c' hplace]
    refine if_congr ?_ rfl rfl
    constructor
    · omega
    · intro hpast
      by_contra hnot
      have hsame : r' = r ∧ c' = c := by omega
      rw [hsame.1, hsame.2] at hplace
      exact hat hplace
  · have hjne : j ≠ c := by
      intro heq
      rw [heq] at hplace
      exact hat hplace
    exact hinv.cached j hplace (by omega) (by omega)

/-- The next row, with what is left in the cache out of its band. -/
theorem inv_wrap {r c c' : Int} {s : Cache K} {g : Int → Int → K} (hl : 0 ≤ l) (hr0 : 0 ≤ r) (hr : r < n) (hend : ∀ k, c ≤ k → ¬ Mat.Place n n l 0 r k)
    (hbegin : ∀ k, k < c' → ¬ Mat.Place n n l 0 (r + 1) k) (hinv : Inv h n l r c s g) : Inv h n l (r + 1) c' s g := by
  have hdiag : r < c := by
    by_contra hnot
    refine hend r (by omega) ?_
    unfold Mat.Place
    omega
  have hnext : r + 1 < n → c' ≤ r + 1 := by
    intro hlt
    by_contra hnot
    refine hbegin (r + 1) (by omega) ?_
    unfold Mat.Place
    omega
  refine ⟨hinv.sizeD, hinv.sizeDLr, fun r' k hplace => ?_, fun j h0 hj hpast => hinv.diag j h0 hj (by omega), fun j hplace hjc _ => ?_,
    fun j h0 hj hpast => hinv.cleared j h0 hj (by omega)⟩
  · rw [hinv.done r' k hplace]
    refine if_congr ?_ rfl rfl
    constructor
    · omega
    · intro hpast
      by_contra hnot
      rcases Int.lt_or_le r' (r + 1) with hlt | hge
      · have hsame : r' = r := by omega
        subst hsame
        exact hend k (by omega) hplace
      · have hsame : r' = r + 1 := by omega
        subst hsame
        exact hbegin k (by omega) hplace
  · exact absurd hplace (hbegin j hjc)

/-- The factors: a unit lower triangular matrix in the lower band, and the pivots. -/
theorem f_is (hA : A.Is h) (hsymmetric : A.symmetric = true) (hrows : A.rows = n) (hcolumns : A.columns = n) (hsym : ∀ r c, h r c = h c r)
    (hpivot : ∀ j < n, pivot h j ≠ 0) : ∃ D L, f A = .ok (D, L) ∧ L.Is (lowerFactor h n A.under) ∧ D.Is (diagonal h n) ∧
      (L.rows = n ∧ L.columns = n ∧ L.under = A.under ∧ L.width = A.under + 1 ∧ L.symmetric = false) ∧
      D.rows = n ∧ D.columns = n ∧ D.under = 0 ∧ D.width = 1 := by
  have hband : ∀ r c, A.under < r - c → h r c = 0 := by
    intro r c hrc
    refine hA.outside r c fun hat => ?_
    rw [Mat.at_iff] at hat
    omega
  have hl : 0 < n → 0 ≤ A.under := by
    intro hn
    by_contra hneg
    exact hpivot 0 hn (hband 0 0 (by omega))
  obtain ⟨L, s, g, r, c, hunfold, hLr, hLc, hLu, hLw, hLs, hreads, hinv, hall⟩ := Mat.unfold_rule n n A.under 0 false (A.under, 0) rfl rfl
    (by omega) (by omega) (by omega) (work A A.under)
    (P := Inv h n A.under)
    (fun r c s M g hat hr hc hu hw hreads hinv => by
      obtain ⟨x, s', hwork, hinv'⟩ := work_step hA hsym hpivot hband hinv hat hr hc hu hw hreads
      exact ⟨x, s', hwork, hinv'⟩)
    (fun r c s g h0 hr hat hinv => inv_skip (hl (by omega)) h0 hr hat hinv)
    (fun r c c' s g h0 hr hend hbegin hinv => inv_wrap (hl (by omega)) h0 hr hend hbegin hinv)
    (s := ⟨⟨n, fun _ => 0⟩, ⟨n, fun _ => 0⟩⟩) (fun c hbegin => ⟨rfl, rfl, fun r' c' hplace => by
      rw [if_neg]
      intro hpast
      have hr0 := hplace.1.1
      have hr' : r' = 0 := by omega
      subst hr'
      exact hbegin c' (by omega) hplace, fun j h0 hj hpast => by
        exfalso
        refine hbegin 0 (by omega) ?_
        have := hl (by omega)
        unfold Mat.Place
        omega, fun j hplace hjc _ => absurd hplace (hbegin j hjc), fun _ _ _ _ => rfl⟩)
  have hdiag : ∀ j : Int, 0 ≤ j → j < n → s.D.elt j = entry h j j := by
    intro j h0 hj
    have hnonneg := hl (by omega)
    refine hinv.diag j h0 hj ?_
    have hpast := hall j j (Mat.at_iff.mpr (by omega))
    omega
  obtain ⟨D, htabulate, hD, hDr, hDc, hDu, hDw, _⟩ := Mat.tabulate_is n n 0 0 true (0, 0) rfl rfl (by omega) (by omega) (by omega)
    (fun r _ => s.D.sub r) (f := diagonal h n)
    (fun r c hplace _ => by
      have hplace' := hplace
      unfold Mat.Place at hplace'
      show s.D.sub r = _
      rw [Arr.sub_eq hplace'.1.1 (by rw [hinv.sizeD]; exact hplace'.1.2), hdiag r hplace'.1.1 hplace'.1.2]
      unfold diagonal
      rw [if_pos hplace])
    (fun _ r c hplace hlt => by
      unfold Mat.Place at hplace
      omega)
    (fun r c hplace => if_neg hplace)
  refine ⟨D, L, ?_, ⟨fun r' c' hat => ?_, fun r' c' hat => ?_⟩, hD, ⟨hLr, hLc, hLu, by omega, hLs⟩, hDr, hDc, hDu, by omega⟩
  · unfold f
    rw [if_neg (by simp [hsymmetric, hrows, hcolumns]), hrows, hcolumns]
    unfold Arr.array
    rw [if_neg (by omega)]
    show (do let p ← Mat.unfold ((n : Int), (n : Int)) (A.under, 0) false (work A A.under) ⟨⟨n, fun _ => 0⟩, ⟨n, fun _ => 0⟩⟩; let D ← Mat.tabulate ((n : Int), (n : Int)) (0, 0) true fun r _ => p.2.D.sub r; Except.ok (D, p.1)) = _
    rw [hunfold]
    show (do let D ← Mat.tabulate ((n : Int), (n : Int)) (0, 0) true fun r _ => s.D.sub r; Except.ok (D, L)) = _
    rw [htabulate]
    rfl
  · have hplace : Mat.Place n n A.under 0 r' c' := by
      rw [Mat.at_iff] at hat
      unfold Mat.Place
      omega
    rw [hreads r' c' hat, hinv.done r' c' hplace, if_pos (hall r' c' hat)]
  · refine if_neg fun hplace => hat ?_
    unfold Mat.Place at hplace
    exact Mat.at_iff.mpr (by omega)

theorem inverse_is {D : Mat K} {d : Int → Int → K} (hD : D.Is d) (hrows : D.rows = n) (hcolumns : D.columns = n) (hunder : D.under = 0)
    (hwidth : D.width = 1) : ∃ D1, inverse D = .ok D1 ∧ D1.Is (fun r c => if Mat.Place n n 0 0 r c then 1 / d r r else 0) ∧
      D1.rows = n ∧ D1.columns = n ∧ D1.under = 0 ∧ D1.width = 1 := by
  obtain ⟨D1, htabulate, his, hr, hc, hu, hw, _⟩ := Mat.tabulate_is n n 0 0 true (0, 0) rfl rfl (by omega) (by omega) (by omega)
    (fun r _ => do let d ← D.sub r r; Except.ok (1 / d))
    (f := fun r c => if Mat.Place n n 0 0 r c then 1 / d r r else 0)
    (fun r c hplace _ => by
      rw [if_pos hplace, Mat.sub_is hD]
      rfl)
    (fun _ r c hplace hlt => by
      unfold Mat.Place at hplace
      omega)
    (fun r c hplace => if_neg hplace)
  refine ⟨D1, ?_, his, hr, hc, hu, by omega⟩
  have hbandwidth : D.bandwidth = (0, 0) := by
    unfold Mat.bandwidth
    rw [hunder, hwidth]
    rfl
  unfold inverse
  rw [if_neg (fun hne => hne hbandwidth), hrows, hcolumns]
  exact htabulate

end Proofs

end BubbleStorm.Util.Matrix.Cholesky
