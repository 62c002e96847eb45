/-
  BubbleStorm.Util.Matrix.Newton — triangular systems (`src/util/matrix/solve.fun`) and the
  step of Newton's method (`src/util/matrix/newton.fun`).

  Both solutions are written into the vector they are computed from, one from the top, one
  from the bottom.

  Proved: they solve their systems (`forward_is`, `backward_is`), and so the direction
  of a step solves the linear system with the Hessian, as long as no pivot is zero
  (`newton_step`).
-/

import Mathlib.Algebra.BigOperators.Group.Finset.Sigma
import BubbleStorm.Util.Matrix.Cholesky

namespace BubbleStorm.Util.Matrix

open Cholesky (diagonal entry_ne f f_is inverse lowerFactor pivot product_eq)
open BubbleStorm.Util.Matrix.Algebra

variable {K : Type} [Field K]

namespace Solve

def build (A : Mat K) (b : Vec K) (V : Vec K) (i : Int) : Except Exn K := do
  let Ai := A.row i
  let AiX ← Vec.dot Ai V
  let b ← Vec.sub b i
  let top := b - AiX
  let bottom ← A.sub i i
  .ok (top / bottom)

def make (order : Vec.Order) (A : Mat K) (b : Vec K) : Except Exn (Vec K) := Vec.unfold 0 A.rows order (build A b)

/-- For a lower triangular matrix. -/
def forward (A : Mat K) (b : Vec K) : Except Exn (Vec K) := if A.bandwidth.2 ≠ 0 then .error .domain else make .topDown A b

/-- For an upper triangular matrix. -/
def backward (A : Mat K) (b : Vec K) : Except Exn (Vec K) := if A.bandwidth.1 ≠ 0 then .error .domain else make .bottomUp A b

/-- The place of a row in the order of the loop. -/
def place (order : Vec.Order) (n i : Int) : Int :=
  match order with
  | .topDown => i
  | .bottomUp => n - 1 - i

section Solution

variable {A : Mat K} {a : Int → Int → K} {n : Nat} {b : Vec K} {g : Int → K}

/-- The entries of an array, and zero elsewhere. -/
def window (n : Int) (f : Int → K) (k : Int) : K := if 0 ≤ k ∧ k < n then f k else 0

theorem window_inside {f : Int → K} {m k : Int} (hk : 0 ≤ k ∧ k < m) : window m f k = f k := if_pos hk

theorem window_outside {f : Int → K} {m k : Int} (hk : ¬ (0 ≤ k ∧ k < m)) : window m f k = 0 := if_neg hk

theorem array_is {V : Arr K} {m : Int} (hlen : V.length = m) : Vec.Is (⟨0, 0 + m, .vector V⟩ : Vec K) (window m V.elt) where
  reads := by
    intro k hk0 hk
    have hk0' : 0 ≤ k := hk0
    have hk' : k < 0 + m := hk
    show V.sub (k - 0) = _
    rw [sub_zero, Arr.sub_eq hk0' (by omega), window_inside (by omega)]
  outside := by
    intro k hk
    have hk' : k < 0 ∨ 0 + m ≤ k := hk
    exact window_outside (by omega)

theorem make_eq {order : Vec.Order} (hrows : A.rows = n) {V : Arr K} {s : Unit}
    (hfill : Arr.fill (place order n) (fun (_ : Unit) V i => do let x ← build A b ⟨0, 0 + (n : Int), .vector V⟩ i; Except.ok (x, ())) n 0 ()
      ⟨n, fun _ => 0⟩ = .ok (V, s)) : make order A b = .ok ⟨0, 0 + (n : Int), .vector V⟩ := by
  unfold make Vec.unfold Arr.array
  rw [hrows, if_neg (by omega)]
  cases order with
  | topDown =>
    show (do let p ← Arr.fill (place .topDown n) _ n 0 () ⟨n, fun _ => (0 : K)⟩; Except.ok (⟨0, 0 + (n : Int), .vector p.1⟩ : Vec K)) = _
    rw [hfill]
    rfl
  | bottomUp =>
    show (do let p ← Arr.fill (place .bottomUp n) _ n 0 () ⟨n, fun _ => (0 : K)⟩; Except.ok (⟨0, 0 + (n : Int), .vector p.1⟩ : Vec K)) = _
    rw [hfill]
    rfl

/-- The rows that are done hold, since their entries at the unknowns to come are zero. -/
theorem make_is (order : Vec.Order) (hA : A.Is a) (hrows : A.rows = n) (hne : ∀ i : Int, 0 ≤ i → i < n → a i i ≠ 0) (hb : Vec.Is b g)
    (htriangle : ∀ i j : Int, 0 ≤ j → j < i → i < n → a (place order n j) (place order n i) = 0) :
    ∃ v x, make order A b = .ok v ∧ Vec.Is v x ∧ v.start = 0 ∧ v.finish = n ∧ ∀ i : Int, 0 ≤ i → i < n → ∑ j ∈ Finset.Ico (0 : Int) n, a i j * x j = g i := by
  have hplace : ∀ i : Int, 0 ≤ i → i < n → 0 ≤ place order n i ∧ place order n i < n := by
    intro i h0 hi
    cases order with
    | topDown => exact ⟨h0, hi⟩
    | bottomUp =>
      show 0 ≤ (n : Int) - 1 - i ∧ (n : Int) - 1 - i < n
      omega
  have hinj : ∀ i j, place order n i = place order n j → i = j := by
    intro i j hij
    cases order with
    | topDown => exact hij
    | bottomUp =>
      have hij' : (n : Int) - 1 - i = n - 1 - j := hij
      omega
  have hback : ∀ i, place order n (place order n i) = i := by
    intro i
    cases order with
    | topDown => rfl
    | bottomUp =>
      show (n : Int) - 1 - (n - 1 - i) = i
      omega
  obtain ⟨V, s, hfill, hlen, hzero, hsolved⟩ := Arr.fill_rule (place order n)
    (fun (_ : Unit) V i => do let x ← build A b ⟨0, 0 + (n : Int), .vector V⟩ i; Except.ok (x, ())) (n := n)
    (P := fun i _ V => V.length = n ∧ (∀ j, i ≤ j → j < n → V.elt (place order n j) = 0) ∧
      ∀ j, 0 ≤ j → j < i → ∑ k ∈ Finset.Ico (0 : Int) n, a (place order n j) k * V.elt k = g (place order n j))
    (fun i s V h0 hi hfilled => by
      obtain ⟨hlen, hzero, hsolved⟩ := hfilled
      obtain ⟨hp0, hpn⟩ := hplace i h0 hi
      have hne' := hne _ hp0 hpn
      have hreads : Vec.Is (⟨0, 0 + (n : Int), .vector V⟩ : Vec K) (window n V.elt) := array_is hlen
      have hdot := Vec.dot_is (Mat.row_is hA hp0) hreads (Finset.Ico (0 : Int) n) (fun k hk => by
        rw [Finset.mem_Ico]
        by_contra hout
        exact hk (by rw [window_outside (by omega), mul_zero]))
      have hsum : ∑ k ∈ Finset.Ico (0 : Int) n, a (place order n i) k * window n V.elt k =
          ∑ k ∈ Finset.Ico (0 : Int) n, a (place order n i) k * V.elt k := by
        refine Finset.sum_congr rfl fun k hk => ?_
        rw [window_inside (Finset.mem_Ico.mp hk)]
      rw [hsum] at hdot
      -- a new unknown adds its own column to a row
      have hupdate : ∀ y r, ∑ k ∈ Finset.Ico (0 : Int) n, a r k * Function.update V.elt (place order n i) y k =
          ∑ k ∈ Finset.Ico (0 : Int) n, a r k * V.elt k + a r (place order n i) * y := by
        intro y r
        have hmem : place order n i ∈ Finset.Ico (0 : Int) n := Finset.mem_Ico.mpr ⟨hp0, hpn⟩
        rw [← Finset.add_sum_erase _ _ hmem, ← Finset.add_sum_erase _ (fun k => a r k * V.elt k) hmem, Function.update_self,
          hzero i (le_refl i) hi, mul_zero, zero_add, add_comm]
        congr 1
        refine Finset.sum_congr rfl fun k hk => ?_
        rw [Function.update_of_ne (Finset.ne_of_mem_erase hk)]
      refine ⟨(g (place order n i) - ∑ k ∈ Finset.Ico (0 : Int) n, a (place order n i) k * V.elt k) / a (place order n i) (place order n i), (),
        ?_, hp0, by rw [hlen]; exact hpn, hlen, fun j hij hj => ?_, fun j hj0 hji => ?_⟩
      · unfold build
        dsimp only
        rw [hdot, Vec.sub_is hb, Mat.sub_is hA]
        rfl
      · show Function.update V.elt (place order n i) _ (place order n j) = 0
        rw [Function.update_of_ne (fun heq => by have := hinj j i heq; omega)]
        exact hzero j (by omega) hj
      · show ∑ k ∈ Finset.Ico (0 : Int) n, a (place order n j) k * Function.update V.elt (place order n i) _ k = _
        rw [hupdate]
        rcases Int.lt_or_le j i with hlt | hge
        · rw [htriangle i j hj0 hlt hi, zero_mul, add_zero]
          exact hsolved j hj0 hlt
        · have hsame : j = i := by omega
          rw [hsame, mul_div_cancel₀ _ hne', add_sub_cancel])
    n 0 () ⟨n, fun _ => 0⟩ (le_refl 0) (by omega) ⟨rfl, fun _ _ _ => rfl, fun j h0 hj => by omega⟩
  refine ⟨⟨0, 0 + (n : Int), .vector V⟩, window n V.elt, ?_, array_is hlen, rfl, by show 0 + (n : Int) = n; omega,
    fun i h0 hi => ?_⟩
  · exact make_eq hrows hfill
  · have hrow := hsolved (place order n i) (hplace i h0 hi).1 (hplace i h0 hi).2
    rw [hback] at hrow
    rw [← hrow]
    refine Finset.sum_congr rfl fun k hk => ?_
    rw [window_inside (Finset.mem_Ico.mp hk)]

theorem forward_is (hA : A.Is a) (hrows : A.rows = n) (hupper : A.bandwidth.2 = 0) (hne : ∀ i : Int, 0 ≤ i → i < n → a i i ≠ 0) (hb : Vec.Is b g) :
    ∃ v x, forward A b = .ok v ∧ Vec.Is v x ∧ v.start = 0 ∧ v.finish = n ∧ ∀ i : Int, 0 ≤ i → i < n → ∑ j ∈ Finset.Ico (0 : Int) n, a i j * x j = g i := by
  have hupper' : A.width - A.under - 1 = 0 := hupper
  obtain ⟨v, x, hmake, hv⟩ := make_is .topDown hA hrows hne hb fun i j h0 hji hi => hA.outside j i fun hat => by
    rw [Mat.at_iff] at hat
    omega
  exact ⟨v, x, (if_neg (fun h => h hupper)).trans hmake, hv⟩

theorem backward_is (hA : A.Is a) (hrows : A.rows = n) (hlower : A.bandwidth.1 = 0) (hne : ∀ i : Int, 0 ≤ i → i < n → a i i ≠ 0) (hb : Vec.Is b g) :
    ∃ v x, backward A b = .ok v ∧ Vec.Is v x ∧ v.start = 0 ∧ v.finish = n ∧ ∀ i : Int, 0 ≤ i → i < n → ∑ j ∈ Finset.Ico (0 : Int) n, a i j * x j = g i := by
  have hlower' : A.under = 0 := hlower
  obtain ⟨v, x, hmake, hv⟩ := make_is .bottomUp hA hrows hne hb fun i j h0 hji hi => hA.outside _ _ fun hat => by
    rw [Mat.at_iff] at hat
    unfold place at hat
    dsimp only at hat
    omega
  exact ⟨v, x, (if_neg (fun h => h hlower)).trans hmake, hv⟩

end Solution

end Solve

namespace Newton

def negOne : K := 0 - 1

/-- The direction of a step, from `loop` of `f`. -/
def direction (hessian : Mat K) (gradient : Vec K) : Except Exn (Vec K) := do
  let (D, L) ← f hessian
  let g' ← Solve.forward L gradient
  let D1 ← inverse D
  let g'' ← Mat.map D1 g'
  let LT ← Mat.transpose L
  let g''' ← Solve.backward LT g''
  Vec.scale g''' negOne

section Step

variable {n : Nat}

/-- A square diagonal matrix scales the vector. -/
theorem map_diagonal {D : Mat K} {d : Int → Int → K} (hD : D.Is d) (hrows : D.rows = n) (hcolumns : D.columns = n) (hunder : D.under = 0)
    (hwidth : D.width = 1) {v : Vec K} {x : Int → K} (hv : Vec.Is v x) (hstart : v.start = 0) (hfinish : v.finish = n) :
    ∃ w, Mat.map D v = .ok w ∧ Vec.Is w (fun i => d i i * x i) ∧ w.start = 0 ∧ w.finish = n := by
  have hzero : ∀ i j, i ≠ j → d i j = 0 := by
    intro i j hij
    refine hD.outside i j fun hat => ?_
    rw [Mat.at_iff] at hat
    omega
  have hout : ∀ i : Int, ¬ (0 ≤ i ∧ i < n) → d i i = 0 := by
    intro i hi
    refine hD.outside i i fun hat => ?_
    rw [Mat.at_iff] at hat
    omega
  obtain ⟨w, htabulate, hw, hs, hf⟩ := Vec.tabulate_is 0 n (fun i => Vec.dot (D.row i) v) (f := fun i => d i i * x i)
    (by omega) (fun i h0 hi => by
      rw [Vec.dot_is (Mat.row_is hD h0) hv {i} (fun j hj => by
        rw [Finset.mem_singleton]
        by_contra hne
        exact hj (by rw [hzero i j (fun heq => hne heq.symm), zero_mul])), Finset.sum_singleton])
    (fun i hi => by rw [hout i (by omega), zero_mul])
  refine ⟨w, ?_, hw, hs, by omega⟩
  unfold Mat.map Mat.bandwidth
  dsimp only
  rw [hunder, hwidth, hstart, hfinish, hrows, show max (0 : Int) (0 - 0) = 0 by omega, show min (n : Int) (n + (1 - 0 - 1)) - 0 = n by omega]
  exact htabulate

theorem transpose_is {L : Mat K} {l : Int → Int → K} (hL : L.Is l) (hrows : 0 ≤ L.rows) (hcolumns : 0 ≤ L.columns)
    (hwidth : 0 ≤ L.width ∨ L.columns = 0) (hflag : L.symmetric = false) :
    ∃ T, Mat.transpose L = .ok T ∧ T.Is (fun r c => l c r) ∧ T.rows = L.columns ∧ T.columns = L.rows ∧ T.under = L.width - L.under - 1 ∧
      T.width = L.width := by
  have hplace : ∀ r c, Mat.Place L.columns L.rows (L.width - L.under - 1) L.under r c ↔ L.At c r := by
    intro r c
    rw [Mat.at_iff]
    unfold Mat.Place
    constructor <;> rintro ⟨h1, h2, h3, h4⟩ <;> exact ⟨h2, h1, by omega, by omega⟩
  obtain ⟨T, htabulate, hT, hr, hc, hu, hw, _⟩ := Mat.tabulate_is L.columns L.rows (L.width - L.under - 1) L.under false
    (L.width - L.under - 1, L.under) rfl rfl hcolumns hrows (by omega) (fun r c => Mat.subRep L c r) (f := fun r c => l c r) (fun r c hat _ => hL.reads c r ((hplace r c).mp hat)) (fun h => absurd h Bool.false_ne_true)
    (fun r c hat => hL.outside c r fun h => hat ((hplace r c).mpr h))
  refine ⟨T, ?_, hT, hr, hc, hu, by omega⟩
  unfold Mat.transpose
  rw [hflag]
  exact htabulate

/-- The diagonal is in the narrowest band. -/
theorem place_self {i : Int} (h0 : 0 ≤ i) (hi : i < n) : Mat.Place (n : Int) n 0 0 i i := by
  unfold Mat.Place
  omega

/-- The factors, the two solutions, and the direction that they give. -/
theorem newton_step {H : Mat K} {h : Int → Int → K} {gradient : Vec K} {g : Int → K} (hH : H.Is h) (hg : Vec.Is gradient g)
    (hsymmetric : H.symmetric = true) (hrows : H.rows = n) (hcolumns : H.columns = n) (hsym : ∀ r c, h r c = h c r)
    (hpivot : ∀ j < n, pivot h j ≠ 0) :
    -- the factors
    (∃ D L d l, f H = .ok (D, L) ∧ L.Is l ∧ D.Is d ∧ (∀ i : Int, 0 ≤ i → i < n → l i i = 1) ∧
      (∀ r c, r < c ∨ H.bandwidth.1 < r - c → l r c = 0) ∧ (∀ r c, r ≠ c → d r c = 0) ∧
      ∀ r c : Int, 0 ≤ r → r < n → 0 ≤ c → c < n →
        ∑ i ∈ Finset.Ico (0 : Int) n, ∑ j ∈ Finset.Ico (0 : Int) n, l r i * d i j * l c j = h r c) ∧
    -- triangular systems
    (∀ (A : Mat K) a (b : Vec K) y, A.Is a → Vec.Is b y → A.rows = n → A.columns = n → (∀ i : Int, 0 ≤ i → i < n → a i i ≠ 0) →
      (A.bandwidth.2 = 0 → ∃ v x, Solve.forward A b = .ok v ∧ Vec.Is v x ∧
        ∀ i : Int, 0 ≤ i → i < n → ∑ j ∈ Finset.Ico (0 : Int) n, a i j * x j = y i) ∧
      (A.bandwidth.1 = 0 → ∃ v x, Solve.backward A b = .ok v ∧ Vec.Is v x ∧
        ∀ i : Int, 0 ≤ i → i < n → ∑ j ∈ Finset.Ico (0 : Int) n, a i j * x j = y i)) ∧
    -- the direction
    ∃ v dx, direction H gradient = .ok v ∧ Vec.Is v dx ∧ ∀ i : Int, 0 ≤ i → i < n → ∑ j ∈ Finset.Ico (0 : Int) n, h i j * dx j = -g i := by
  obtain ⟨D, L, hf, hL, hD, ⟨hLr, hLc, hLu, hLw, hLs⟩, hDr, hDc, hDu, hDw⟩ := f_is hH hsymmetric hrows hcolumns hsym hpivot
  have hband : ∀ r c, H.under < r - c → h r c = 0 := by
    intro r c hrc
    refine hH.outside r c fun hat => ?_
    rw [Mat.at_iff] at hat
    omega
  have hl : 0 < n → 0 ≤ H.under := by
    intro hn
    by_contra hneg
    exact hpivot 0 hn (hband 0 0 (by omega))
  have hupper : L.width - L.under - 1 = 0 := by
    rw [hLw, hLu]
    ring
  have hwidth : 0 ≤ L.width ∨ L.columns = 0 := by
    rcases Nat.eq_zero_or_pos n with hzero | hn
    · exact .inr (by rw [hLc, hzero]; rfl)
    · exact .inl (by rw [hLw]; exact Int.le_add_one (hl hn))
  have hunit : ∀ i : Int, 0 ≤ i → i < n → lowerFactor h n H.under i i = 1 := by
    intro i h0 hi
    rw [Cholesky.lowerFactor_eq hsym hpivot hband h0 hi h0 hi, div_self (entry_ne hpivot h0 hi)]
  have hdiagonal : ∀ r c, r ≠ c → diagonal h n r c = 0 := fun r c hrc => if_neg fun hplace => by
    unfold Mat.Place at hplace
    omega
  have hpos : ∀ i : Int, 0 ≤ i → i < n → diagonal h n i i ≠ 0 := by
    intro i h0 hi
    unfold diagonal
    rw [if_pos (place_self h0 hi)]
    exact entry_ne hpivot h0 hi
  refine ⟨⟨D, L, _, _, hf, hL, hD, hunit, fun r c hrc => ?_, hdiagonal, fun r c hr0 hr hc0 hc => ?_⟩, fun A a b y hA hb hAr _ hne => ⟨fun hupper => ?_, fun hlower => ?_⟩, ?_⟩
  · refine if_neg fun hplace => ?_
    have hrc' : r < c ∨ H.under < r - c := hrc
    unfold Mat.Place at hplace
    omega
  · rw [← product_eq hsym hpivot hband hr0 hr hc0 hc]
    refine Finset.sum_congr rfl fun i hi => Finset.sum_eq_single i (fun j _ hji => ?_) (fun hout => absurd hi hout)
    rw [hdiagonal i j hji.symm, mul_zero, zero_mul]
  · obtain ⟨v, x, hforward, hv, _, _, hx⟩ := Solve.forward_is hA hAr hupper hne hb
    exact ⟨v, x, hforward, hv, hx⟩
  · obtain ⟨v, x, hbackward, hv, _, _, hx⟩ := Solve.backward_is hA hAr hlower hne hb
    exact ⟨v, x, hbackward, hv, hx⟩
  · obtain ⟨y, yv, hforward, hy, hys, hyf, hyx⟩ := Solve.forward_is hL hLr hupper
      (fun i h0 hi => by rw [hunit i h0 hi]; exact one_ne_zero) hg
    obtain ⟨D1, hinverse, hD1, hD1r, hD1c, hD1u, hD1w⟩ := Cholesky.inverse_is hD hDr hDc hDu hDw
    obtain ⟨z, hmap, hz, hzs, hzf⟩ := map_diagonal hD1 hD1r hD1c hD1u hD1w hy hys hyf
    obtain ⟨T, htranspose, hT, hTr, hTc, hTu, hTw⟩ := transpose_is hL (hLr.symm ▸ Int.natCast_nonneg n) (hLc.symm ▸ Int.natCast_nonneg n) hwidth hLs
    obtain ⟨w, wv, hbackward, hw, hws, hwf, hwx⟩ := Solve.backward_is hT (hTr.trans hLc) (hTu.trans hupper)
      (fun i h0 hi => by rw [hunit i h0 hi]; exact one_ne_zero) hz
    obtain ⟨dx, hscale, hdx, _, _⟩ := Vec.scale_is hw (by rw [hws, hwf]; exact Int.natCast_nonneg n) (negOne : K)
    refine ⟨dx, _, ?_, hdx, fun i h0 hi => ?_⟩
    · unfold direction
      rw [hf]
      show (do let g' ← Solve.forward L gradient; let D1 ← inverse D; let g'' ← Mat.map D1 g'; let LT ← Mat.transpose L; let g''' ← Solve.backward LT g''; Vec.scale g''' negOne) = _
      rw [hforward]
      show (do let D1 ← inverse D; let g'' ← Mat.map D1 y; let LT ← Mat.transpose L; let g''' ← Solve.backward LT g''; Vec.scale g''' negOne) = _
      rw [hinverse]
      show (do let g'' ← Mat.map D1 y; let LT ← Mat.transpose L; let g''' ← Solve.backward LT g''; Vec.scale g''' negOne) = _
      rw [hmap]
      show (do let LT ← Mat.transpose L; let g''' ← Solve.backward LT z; Vec.scale g''' negOne) = _
      rw [htranspose]
      show (do let g''' ← Solve.backward T z; Vec.scale g''' negOne) = _
      rw [hbackward]
      exact hscale
    · -- the columns of the transpose are the rows of the factor
      have hcolumn : ∀ j ∈ Finset.Ico (0 : Int) n, diagonal h n j j * ∑ k ∈ Finset.Ico (0 : Int) n, lowerFactor h n H.under k j * wv k = yv j := by
        intro j hj
        rw [Finset.mem_Ico] at hj
        rw [hwx j hj.1 hj.2, if_pos (place_self hj.1 hj.2), ← mul_assoc, mul_one_div_cancel (hpos j hj.1 hj.2), one_mul]
      calc ∑ j ∈ Finset.Ico (0 : Int) n, h i j * (wv j * negOne)
          = -∑ k ∈ Finset.Ico (0 : Int) n, h i k * wv k := by
            rw [← Finset.sum_neg_distrib]
            refine Finset.sum_congr rfl fun j _ => ?_
            unfold negOne
            ring
        _ = -∑ k ∈ Finset.Ico (0 : Int) n, ∑ j ∈ Finset.Ico (0 : Int) n,
              lowerFactor h n H.under i j * (diagonal h n j j * (lowerFactor h n H.under k j * wv k)) := by
            congr 1
            refine Finset.sum_congr rfl fun k hk => ?_
            rw [Finset.mem_Ico] at hk
            rw [← product_eq hsym hpivot hband h0 hi hk.1 hk.2, Finset.sum_mul]
            exact Finset.sum_congr rfl fun j _ => by ring
        _ = -∑ j ∈ Finset.Ico (0 : Int) n, lowerFactor h n H.under i j * yv j := by
            rw [Finset.sum_comm]
            congr 1
            refine Finset.sum_congr rfl fun j hj => ?_
            rw [← Finset.mul_sum, ← Finset.mul_sum, hcolumn j hj]
        _ = -g i := by rw [hyx i h0 hi]

/-- The Hessian of two rows with 2 on the diagonal and 1 beside it, whose pivots are 2 and 3/2. -/
def twoRows : Mat ℚ := ⟨2, 2, 3, 1, true, .full ⟨4, fun i => if i = 0 ∨ i = 3 then 2 else 1⟩⟩

def twoEntries (r c : Int) : ℚ := if Mat.Place 2 2 1 1 r c then if r = c then 2 else 1 else 0

theorem twoRows_is : twoRows.Is twoEntries where
  reads := by
    have hall : ∀ r c : Fin 2, Mat.subRep twoRows r.val c.val = .ok (twoEntries r.val c.val) := by decide +kernel
    intro r c hat
    rw [Mat.at_iff] at hat
    obtain ⟨⟨hr0, hr⟩, ⟨hc0, hc⟩, _⟩ := hat
    obtain ⟨i, rfl⟩ := Int.eq_ofNat_of_zero_le hr0
    obtain ⟨j, rfl⟩ := Int.eq_ofNat_of_zero_le hc0
    have hi : (i : Int) < 2 := hr
    have hj : (j : Int) < 2 := hc
    exact hall ⟨i, by omega⟩ ⟨j, by omega⟩
  outside := by
    intro r c hat
    have hplace : ¬ Mat.Place 2 2 1 1 r c := by
      rintro ⟨hr, hc, hlow, hup⟩
      have hup' : c - r < (3 : Int) - 1 := by omega
      exact hat (Mat.at_iff.mpr ⟨hr, hc, hlow, hup'⟩)
    exact if_neg hplace

theorem twoEntries_symm (r c : Int) : twoEntries r c = twoEntries c r := by
  have hplace : Mat.Place 2 2 1 1 r c ↔ Mat.Place 2 2 1 1 c r := by
    unfold Mat.Place
    omega
  unfold twoEntries
  exact if_congr hplace (if_congr eq_comm rfl rfl) rfl

theorem twoEntries_pivot : ∀ j < 2, pivot twoEntries j ≠ 0 := by decide +kernel

theorem newton_step_two : ∃ v, direction twoRows ⟨0, 0 + 2, .vector ⟨2, fun i => i⟩⟩ = .ok v := by
  have hgradient : Vec.Is (⟨0, 0 + 2, .vector ⟨2, fun i => i⟩⟩ : Vec ℚ) (Solve.window 2 fun i => i) := Solve.array_is rfl
  have hstep := newton_step (n := 2) twoRows_is hgradient rfl rfl rfl twoEntries_symm twoEntries_pivot
  obtain ⟨v, _, hv, _⟩ := hstep.2.2
  exact ⟨v, hv⟩

end Step

end Newton

end BubbleStorm.Util.Matrix
