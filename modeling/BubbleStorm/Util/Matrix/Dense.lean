/-
  BubbleStorm.Util.Matrix.Dense — the operations of `src/util/matrix/algebra.fun` against
  those on dense matrices that go on with zeros.

  Most agree. Where they do not, the code has mixed up two bounds: `map` widens the
  interval of the vector by the lower bandwidth at its start and by the upper at its end,
  `rows` counts to the number of columns and `columns` to that of rows; the product of
  two symmetric matrices is filled as a symmetric one; and an interval or a band of
  negative width cannot be made.

  Proved: when exactly each operation agrees (`dense_iff`), where what is flagged as
  symmetric has the places that its lower half is copied from (`Mirrors`).
-/

import Mathlib.Algebra.BigOperators.Finprod
import BubbleStorm.Util.Matrix.AlgebraSpec

namespace BubbleStorm.Util.Matrix.Algebra

variable {K : Type} [Field K]

namespace Vec

theorem dot_finsum {A B : Vec K} {f g : Int → K} (hA : Is A f) (hB : Is B g) : dot A B = .ok (∑ᶠ i, f i * g i) := by
  have hsupport : Function.support (fun i => f i * g i) ⊆ (Finset.Ico A.start A.finish : Finset Int) := by
    intro i hi
    rw [Function.mem_support] at hi
    rw [Finset.mem_coe, Finset.mem_Ico]
    by_contra hout
    exact hi (by rw [hA.outside i (by omega), zero_mul])
  rw [finsum_eq_sum_of_support_subset _ hsupport]
  exact dot_is hA hB _ fun i hi => hsupport (Function.mem_support.mpr hi)

/-- The interval of a table. -/
theorem tabulate_ok {start length : Int} {fetch : Int → Except Exn K} {v : Vec K} (h : tabulate start length fetch = .ok v) :
    0 ≤ length ∧ v.start = start ∧ v.finish = start + length := by
  unfold tabulate Arr.array at h
  by_cases hneg : length < 0
  · rw [if_pos hneg] at h
    cases h
  · rw [if_neg hneg] at h
    refine ⟨by omega, ?_⟩
    cases hfill : Arr.fill id (fun (_ : Unit) (_ : Arr K) i => do let x ← fetch (i + start); Except.ok (x, ())) length.toNat 0 () ⟨length, fun _ => (0 : K)⟩ with
    | error e =>
      have h' : (do let p ← Arr.fill id (fun (_ : Unit) (_ : Arr K) i => do let x ← fetch (i + start); Except.ok (x, ())) length.toNat 0 () ⟨length, fun _ => (0 : K)⟩; Except.ok (⟨start, start + length, .vector p.1⟩ : Vec K)) = .ok v := h
      rw [hfill] at h'
      cases h'
    | ok p =>
      have h' : (do let p ← Arr.fill id (fun (_ : Unit) (_ : Arr K) i => do let x ← fetch (i + start); Except.ok (x, ())) length.toNat 0 () ⟨length, fun _ => (0 : K)⟩; Except.ok (⟨start, start + length, .vector p.1⟩ : Vec K)) = .ok v := h
      rw [hfill] at h'
      cases h'
      exact ⟨rfl, rfl⟩

section Pointwise

variable {A B : Vec K} {f g : Int → K} {op : K → K → K}

theorem makeMax_iff (hop : op 0 0 = 0) (hA : Is A f) (hB : Is B g) :
    (∃ w, makeMax op A B = .ok w ∧ Is w (fun i => op (f i) (g i))) ↔ min A.start B.start ≤ max A.finish B.finish := by
  constructor
  · rintro ⟨w, hw, _⟩
    unfold makeMax at hw
    have hlength := (tabulate_ok hw).1
    omega
  · intro hle
    obtain ⟨w, hw, his, _⟩ := tabulate_is (min A.start B.start) (max A.finish B.finish - min A.start B.start)
      (fun i => do let a ← sub A i; let b ← sub B i; Except.ok (op a b)) (f := fun i => op (f i) (g i)) (by omega)
      (fun i _ _ => by rw [sub_is hA, sub_is hB]; rfl)
      (fun i hi => by rw [hA.outside i (by omega), hB.outside i (by omega), hop])
    exact ⟨w, hw, his⟩

theorem makeMin_is (hleft : ∀ x, op 0 x = 0) (hright : ∀ x, op x 0 = 0) (hA : Is A f) (hB : Is B g) :
    ∃ w, makeMin op A B = .ok w ∧ Is w (fun i => op (f i) (g i)) := by
  have hout : ∀ i, i < max A.start B.start ∨ min A.finish B.finish ≤ i → op (f i) (g i) = 0 := by
    intro i hi
    by_cases hiA : i < A.start ∨ A.finish ≤ i
    · rw [hA.outside i hiA, hleft]
    · rw [hB.outside i (by omega), hright]
  unfold makeMin
  dsimp only
  by_cases hempty : min A.finish B.finish ≤ max A.start B.start
  · rw [if_pos hempty]
    refine ⟨_, rfl, fun i h0 h1 => ?_, fun i _ => hout i (by omega)⟩
    have h0' : (0 : Int) ≤ i := h0
    have h1' : i < 0 := h1
    omega
  · rw [if_neg hempty]
    obtain ⟨w, hw, his, _⟩ := tabulate_is (max A.start B.start) (min A.finish B.finish - max A.start B.start)
      (fun i => do let a ← raw A i; let b ← raw B i; Except.ok (op a b)) (f := fun i => op (f i) (g i)) (by omega)
      (fun i _ _ => by rw [hA.reads i (by omega) (by omega), hB.reads i (by omega) (by omega)]; rfl)
      (fun i hi => hout i (by omega))
    exact ⟨w, hw, his⟩

end Pointwise

end Vec

namespace Mat

/-- A matrix as it is made: what is flagged as symmetric has the same band on both sides,
    and is symmetric where both places are there. -/
structure Made (M : Mat K) (f : Int → Int → K) : Prop extends Is M f where
  rows : 0 ≤ M.rows
  columns : 0 ≤ M.columns
  width : 0 ≤ M.width ∨ M.rows = 0
  mirror : M.symmetric = true → M.under = M.width - M.under - 1 ∧ ∀ r c, M.At r c → M.At c r → f r c = f c r

variable {A B : Mat K} {f g : Int → Int → K}

/-- The product of dense matrices. -/
noncomputable def dense (f g : Int → Int → K) (r c : Int) : K := ∑ᶠ k, f r k * g k c

theorem dense_ne {r c : Int} (h : dense f g r c ≠ 0) : ∃ k, f r k ≠ 0 ∧ g k c ≠ 0 := by
  by_contra hnone
  have hzero : ∀ k, f r k * g k c = 0 := by
    intro k
    by_contra hk
    exact hnone ⟨k, left_ne_zero_of_mul hk, right_ne_zero_of_mul hk⟩
  apply h
  unfold dense
  simp [hzero]

theorem Is.at_of_ne (hA : Is A f) {r c : Int} (h : f r c ≠ 0) : A.At r c := by
  by_contra hat
  exact h (hA.outside r c hat)

/-- Without a place for an array. -/
theorem tabulate_width {rows columns lower upper : Int} {bandwidth : Int × Int} {symmetric : Bool} {fetch : Int → Int → Except Exn K} {M : Mat K}
    (hlower : lower = if symmetric then min bandwidth.1 bandwidth.2 else bandwidth.1)
    (hupper : upper = if symmetric then min bandwidth.1 bandwidth.2 else bandwidth.2) (hrows : 0 ≤ rows) (hcolumns : 0 ≤ columns)
    (h : tabulate (rows, columns) bandwidth symmetric fetch = .ok M) : 0 ≤ lower + upper + 1 ∨ rows = 0 := by
  by_contra hnone
  obtain ⟨low, up⟩ := bandwidth
  have hneg : (lower + upper + 1) * rows < 0 := Int.mul_neg_of_neg_of_pos (by omega) (by omega)
  have hfull : 0 ≤ rows * columns := Int.mul_nonneg hrows hcolumns
  have hup : upper = if symmetric then min lower up else up := by
    rw [hupper, hlower]
    cases symmetric with
    | false => rfl
    | true =>
      show min low up = min (min low up) up
      omega
  unfold tabulate unfold at h
  dsimp only at h
  rw [← hlower, ← hup, if_pos (by omega)] at h
  unfold Arr.array at h
  rw [if_pos hneg] at h
  cases h

/-- Every place below the diagonal has its mirror place. -/
def Mirrors (rows columns lower upper : Int) : Prop :=
  ∀ r c, Place rows columns lower upper r c → c < r → Place rows columns lower upper c r

section Tabulate

variable (rows columns lower upper : Int) (symmetric : Bool) (bandwidth : Int × Int) (fetch : Int → Int → Except Exn K)

/-- What a table of `f` is: the half above the diagonal, twice, if it is to be symmetric. -/
theorem tabulate_iff (hlower : lower = if symmetric then min bandwidth.1 bandwidth.2 else bandwidth.1)
    (hupper : upper = if symmetric then min bandwidth.1 bandwidth.2 else bandwidth.2) (hrows : 0 ≤ rows) (hcolumns : 0 ≤ columns)
    (hmirrors : symmetric = true → Mirrors rows columns lower upper)
    (hfetch : ∀ r c, Place rows columns lower upper r c → fetch r c = .ok (f r c)) :
    (∃ M, tabulate (rows, columns) bandwidth symmetric fetch = .ok M ∧ M.Is f) ↔
      (0 ≤ lower + upper + 1 ∨ rows = 0) ∧ (∀ r c, ¬ Place rows columns lower upper r c → f r c = 0) ∧
      (symmetric = true → ∀ r c, Place rows columns lower upper r c → c < r → f c r = f r c) := by
  constructor
  · rintro ⟨M, hM, his⟩
    have hwidth := tabulate_width hlower hupper hrows hcolumns hM
    obtain ⟨M', hM', his', -⟩ := tabulate_is rows columns lower upper symmetric bandwidth hlower hupper hrows hcolumns hwidth fetch
      (f := fun r c => if Place rows columns lower upper r c then (if symmetric = true ∧ c < r then f c r else f r c) else 0)
      (fun r c hat hown => by
        rw [hfetch r c hat, if_pos hat, if_neg]
        rintro ⟨hs, hlt⟩
        rcases hown with hs' | hle
        · rw [hs] at hs'
          cases hs'
        · omega)
      (fun hs r c hat hlt => by
        have hat' := hmirrors hs r c hat hlt
        refine ⟨hat', ?_⟩
        rw [if_pos hat', if_pos hat, if_neg fun h : symmetric = true ∧ r < c => absurd h.2 (by omega), if_pos ⟨hs, hlt⟩])
      (fun r c hat => if_neg hat)
    have hsame : M = M' := by
      rw [hM] at hM'
      exact Except.ok.inj hM'
    subst hsame
    have hvalue : ∀ r c, f r c = if Place rows columns lower upper r c then (if symmetric = true ∧ c < r then f c r else f r c) else 0 := by
      intro r c
      have h1 := sub_is his r c
      rw [sub_is his' r c] at h1
      exact (Except.ok.inj h1).symm
    refine ⟨hwidth, fun r c hat => ?_, fun hs r c hat hlt => ?_⟩
    · rw [hvalue r c, if_neg hat]
    · have hrc := hvalue r c
      rw [if_pos hat, if_pos ⟨hs, hlt⟩] at hrc
      exact hrc.symm
  · rintro ⟨hwidth, hout, hsym⟩
    obtain ⟨M, hM, his, -⟩ := tabulate_is rows columns lower upper symmetric bandwidth hlower hupper hrows hcolumns hwidth fetch (f := f) (fun r c hat _ => hfetch r c hat)
      (fun hs r c hat hlt => ⟨hmirrors hs r c hat hlt, hsym hs r c hat hlt⟩) hout
    exact ⟨M, hM, his⟩

/-- What is right is as it is made. -/
theorem tabulate_made (hlower : lower = if symmetric then min bandwidth.1 bandwidth.2 else bandwidth.1)
    (hupper : upper = if symmetric then min bandwidth.1 bandwidth.2 else bandwidth.2) (hrows : 0 ≤ rows) (hcolumns : 0 ≤ columns)
    (hwidth : 0 ≤ lower + upper + 1 ∨ rows = 0) (hfetch : ∀ r c, Place rows columns lower upper r c → fetch r c = .ok (f r c))
    (hmirror : symmetric = true → ∀ r c, Place rows columns lower upper r c → c < r → Place rows columns lower upper c r ∧ f c r = f r c)
    (hout : ∀ r c, ¬ Place rows columns lower upper r c → f r c = 0) :
    ∃ M, tabulate (rows, columns) bandwidth symmetric fetch = .ok M ∧ Made M f := by
  obtain ⟨M, hM, his, hr, hc, hu, hw, hs⟩ := tabulate_is rows columns lower upper symmetric bandwidth hlower hupper hrows hcolumns hwidth fetch (f := f)
    (fun r c hat _ => hfetch r c hat) hmirror hout
  have hplace : ∀ r c, M.At r c → Place rows columns lower upper r c := by
    intro r c hat
    rw [at_iff, hr, hc, hu, hw] at hat
    obtain ⟨hrow, hcol, hlow, hup⟩ := hat
    exact ⟨hrow, hcol, hlow, by omega⟩
  refine ⟨M, hM, his, hr ▸ hrows, hc ▸ hcolumns, ?_, fun hflag => ?_⟩
  · rw [hw, hr]
    exact hwidth
  · have hsym : symmetric = true := hs ▸ hflag
    rw [hsym, if_pos rfl] at hlower hupper
    refine ⟨?_, fun r c hat hat' => ?_⟩
    · omega
    · rcases Int.lt_trichotomy r c with hlt | rfl | hlt
      · exact (hmirror hsym c r (hplace c r hat') hlt).2
      · rfl
      · exact ((hmirror hsym r c (hplace r c hat) hlt).2).symm

end Tabulate

/-- A band that is the same on both sides is not made narrower. -/
theorem narrow_eq {l u : Int} {b : Bool} (h : b = true → l = u) : (l = if b then min l u else l) ∧ u = if b then min l u else u := by
  cases b with
  | false => exact ⟨rfl, rfl⟩
  | true =>
    have hsame := h rfl
    show l = min l u ∧ u = min l u
    omega

theorem transpose_iff (hA : Made A f)
    (hmirrors : A.symmetric = true → Mirrors A.columns A.rows (A.width - A.under - 1) A.under) :
    (∃ T, transpose A = .ok T ∧ T.Is (fun r c => f c r)) ↔ 0 ≤ A.width ∨ A.columns = 0 := by
  obtain ⟨hlower, hupper⟩ := narrow_eq (l := A.width - A.under - 1) (u := A.under) (b := A.symmetric) fun hs => ((hA.mirror hs).1).symm
  have hplace : ∀ r c, Place A.columns A.rows (A.width - A.under - 1) A.under r c ↔ A.At c r := by
    intro r c
    rw [at_iff]
    unfold Place
    constructor <;> rintro ⟨h1, h2, h3, h4⟩ <;> exact ⟨h2, h1, by omega, by omega⟩
  have htable := tabulate_iff A.columns A.rows (A.width - A.under - 1) A.under A.symmetric (A.width - A.under - 1, A.under)
    (fun r c => subRep A c r) (f := fun r c => f c r) hlower hupper hA.columns hA.rows hmirrors fun r c hat => hA.reads c r ((hplace r c).mp hat)
  refine htable.trans ⟨fun h => ?_, fun h => ⟨?_, fun r c hat => ?_, fun hs r c hat hlt => ?_⟩⟩
  · have hwidth := h.1
    omega
  · omega
  · exact hA.outside c r fun hin => hat ((hplace r c).mpr hin)
  · exact (hA.mirror hs).2 r c ((hplace c r).mp (hmirrors hs r c hat hlt)) ((hplace r c).mp hat)

theorem make_iff {op : K → K → K} (hop : op 0 0 = 0) (hA : Made A f) (hB : Made B g)
    (hmirrors : A.symmetric = true → B.symmetric = true → Mirrors (max A.rows B.rows) (max A.columns B.columns) (max A.under B.under)
      (max (A.width - A.under - 1) (B.width - B.under - 1))) :
    (∃ C, make op A B = .ok C ∧ C.Is (fun r c => op (f r c) (g r c))) ↔
      (A.symmetric = true → B.symmetric = true → ∀ r c, Place (max A.rows B.rows) (max A.columns B.columns) (max A.under B.under)
        (max (A.width - A.under - 1) (B.width - B.under - 1)) r c → c < r → op (f c r) (g c r) = op (f r c) (g r c)) := by
  obtain ⟨hlower, hupper⟩ := narrow_eq (l := max A.under B.under) (u := max (A.width - A.under - 1) (B.width - B.under - 1))
    (b := A.symmetric && B.symmetric) fun hs => by
      obtain ⟨hsA, hsB⟩ := Bool.and_eq_true_iff.mp hs
      have hA' := (hA.mirror hsA).1
      have hB' := (hB.mirror hsB).1
      omega
  have hrows : 0 ≤ max A.rows B.rows := le_max_of_le_left hA.rows
  have hcolumns : 0 ≤ max A.columns B.columns := le_max_of_le_left hA.columns
  have hwidth : 0 ≤ max A.under B.under + max (A.width - A.under - 1) (B.width - B.under - 1) + 1 ∨ max A.rows B.rows = 0 := by
    have hwA := hA.width
    have hwB := hB.width
    have hrA := hA.rows
    have hrB := hB.rows
    clear hlower hupper
    omega
  have htable := tabulate_iff (max A.rows B.rows) (max A.columns B.columns) (max A.under B.under)
    (max (A.width - A.under - 1) (B.width - B.under - 1)) (A.symmetric && B.symmetric)
    (max A.under B.under, max (A.width - A.under - 1) (B.width - B.under - 1))
    (fun r c => do let a ← sub A r c; let b ← sub B r c; Except.ok (op a b)) (f := fun r c => op (f r c) (g r c)) hlower hupper hrows hcolumns
    (fun hs => hmirrors (Bool.and_eq_true_iff.mp hs).1 (Bool.and_eq_true_iff.mp hs).2)
    (fun r c _ => by rw [sub_is hA.toIs, sub_is hB.toIs]; rfl)
  refine htable.trans ⟨fun h hsA hsB => h.2.2 (Bool.and_eq_true_iff.mpr ⟨hsA, hsB⟩), fun h => ⟨hwidth, fun r c hat => ?_, fun hs => ?_⟩⟩
  · have hfA : f r c = 0 := hA.outside r c fun h => hat (by
      rw [at_iff] at h
      unfold Place
      clear hlower hupper hwidth
      omega)
    have hgB : g r c = 0 := hB.outside r c fun h => hat (by
      rw [at_iff] at h
      unfold Place
      clear hlower hupper hwidth
      omega)
    show op (f r c) (g r c) = 0
    rw [hfA, hgB, hop]
  · exact h (Bool.and_eq_true_iff.mp hs).1 (Bool.and_eq_true_iff.mp hs).2

/-- The band of a product, which is made narrower for two symmetric matrices. -/
def productBand (A B : Mat K) : Int × Int :=
  let l := min (A.under + B.under) (A.rows - 1)
  let u := min (A.width - A.under - 1 + (B.width - B.under - 1)) (B.columns - 1)
  if A.symmetric && B.symmetric then (min l u, min l u) else (l, u)

theorem mul_iff (hA : Made A f) (hB : Made B g)
    (hmirrors : A.symmetric = true → B.symmetric = true → Mirrors A.rows B.columns (productBand A B).1 (productBand A B).2) :
    (∃ C, mul A B = .ok C ∧ C.Is (dense f g)) ↔
      (0 ≤ (productBand A B).1 + (productBand A B).2 + 1 ∨ A.rows = 0) ∧
      (A.symmetric = true → B.symmetric = true →
        (∀ r c, ¬ Place A.rows B.columns (productBand A B).1 (productBand A B).2 r c → dense f g r c = 0) ∧
        ∀ r c, Place A.rows B.columns (productBand A B).1 (productBand A B).2 r c → c < r → dense f g c r = dense f g r c) := by
  have hlower : (productBand A B).1 = if (A.symmetric && B.symmetric) then
      min (min (A.under + B.under) (A.rows - 1)) (min (A.width - A.under - 1 + (B.width - B.under - 1)) (B.columns - 1))
      else min (A.under + B.under) (A.rows - 1) := by
    unfold productBand
    dsimp only
    split <;> rfl
  have hupper : (productBand A B).2 = if (A.symmetric && B.symmetric) then
      min (min (A.under + B.under) (A.rows - 1)) (min (A.width - A.under - 1 + (B.width - B.under - 1)) (B.columns - 1))
      else min (A.width - A.under - 1 + (B.width - B.under - 1)) (B.columns - 1) := by
    unfold productBand
    dsimp only
    split <;> rfl
  have htable := tabulate_iff A.rows B.columns (productBand A B).1 (productBand A B).2 (A.symmetric && B.symmetric)
    (min (A.under + B.under) (A.rows - 1), min (A.width - A.under - 1 + (B.width - B.under - 1)) (B.columns - 1))
    (fun r c => Vec.dot (row A r) (column B c)) (f := dense f g) hlower hupper hA.rows hB.columns
    (fun hs => hmirrors (Bool.and_eq_true_iff.mp hs).1 (Bool.and_eq_true_iff.mp hs).2)
    (fun r c hat => Vec.dot_finsum (row_is hA.toIs hat.1.1) (column_is hB.toIs hat.2.1.1))
  refine htable.trans ⟨fun h => ⟨h.1, fun hsA hsB => ⟨h.2.1, h.2.2 (Bool.and_eq_true_iff.mpr ⟨hsA, hsB⟩)⟩⟩,
    fun h => ⟨h.1, fun r c hat => ?_, fun hs => (h.2 (Bool.and_eq_true_iff.mp hs).1 (Bool.and_eq_true_iff.mp hs).2).2⟩⟩
  by_cases hs : (A.symmetric && B.symmetric) = true
  · exact (h.2 (Bool.and_eq_true_iff.mp hs).1 (Bool.and_eq_true_iff.mp hs).2).1 r c hat
  · -- the whole band of the product has its places
    rw [if_neg hs] at hlower hupper
    rw [hlower, hupper] at hat
    by_contra hne
    obtain ⟨k, hfk, hgk⟩ := dense_ne hne
    have hfat := hA.at_of_ne hfk
    have hgat := hB.at_of_ne hgk
    rw [at_iff] at hfat hgat
    apply hat
    unfold Place
    clear hlower hupper
    omega

/-- A row of an index below zero is right if nothing of it is read. -/
theorem row_iff (hA : Made A f) (r : Int) :
    Vec.Is (row A r) (f r) ↔ 0 ≤ r ∨ min (r + A.width - A.under) A.columns ≤ max (r - A.under) 0 := by
  rcases Int.lt_or_le r 0 with hneg | hpos
  · have hrows := hA.rows
    have hrow : (row A r).start = max (r - A.under) 0 ∧ (row A r).finish = min (r + A.width - A.under) A.columns := by
      unfold row
      rw [if_neg (by omega)]
      exact ⟨rfl, rfl⟩
    constructor
    · intro his
      right
      by_contra hne
      have hread := his.reads (max (r - A.under) 0) (by omega) (by omega)
      rw [row_raw (by omega)] at hread
      have hbelow : subRep A r (max (r - A.under) 0) = .error .subscript := by
        generalize hc : max (r - A.under) 0 = c at *
        unfold subRep
        cases A.rep with
        | full a =>
          have hindex : r * A.columns ≤ -1 * A.columns := Int.mul_le_mul_of_nonneg_right (by omega) hA.columns
          exact if_neg (by omega)
        | banded a =>
          have hindex : r * A.width ≤ -1 * A.width := Int.mul_le_mul_of_nonneg_right (by omega) (by omega)
          exact if_neg (by omega)
      rw [hbelow] at hread
      cases hread
    · rintro (h | hempty)
      · omega
      · refine ⟨fun c h0 h1 => by omega, fun c _ => hA.outside r c fun hat => ?_⟩
        rw [at_iff] at hat
        omega
  · exact iff_of_true (row_is hA.toIs hpos) (.inl hpos)

/-- So is a column, of which an index below zero may also hit what is right by chance. -/
theorem column_of (hA : Made A f) {c : Int} (h : 0 ≤ c ∨ min (c + A.under + 1) A.rows ≤ max (c - (A.width - A.under - 1)) 0) :
    Vec.Is (column A c) (fun r => f r c) := by
  rcases Int.lt_or_le c 0 with hneg | hpos
  · have hcolumns := hA.columns
    have hcol : (column A c).start = max (c - (A.width - A.under - 1)) 0 ∧ (column A c).finish = min (c + A.under + 1) A.rows := by
      unfold column
      rw [if_neg (by omega)]
      exact ⟨rfl, rfl⟩
    refine ⟨fun r h0 h1 => by omega, fun r _ => hA.outside r c fun hat => ?_⟩
    rw [at_iff] at hat
    omega
  · exact column_is hA.toIs hpos

theorem map_iff (hA : Made A f) {x : Vec K} {u : Int → K} (hx : Vec.Is x u) :
    (∃ v, map A x = .ok v ∧ Vec.Is v (fun i => ∑ᶠ j, f i j * u j)) ↔
      max 0 (x.start - A.under) ≤ min A.rows (x.finish + (A.width - A.under - 1)) ∧
      ∀ i : Int, 0 ≤ i → i < max 0 (x.start - A.under) ∨ min A.rows (x.finish + (A.width - A.under - 1)) ≤ i → ∑ᶠ j, f i j * u j = 0 := by
  generalize hstart : max 0 (x.start - A.under) = start
  generalize hfinish : min A.rows (x.finish + (A.width - A.under - 1)) = finish
  have hmap : map A x = Vec.tabulate start (finish - start) fun i => Vec.dot (row A i) x := by
    rw [← hstart, ← hfinish]
    rfl
  rw [hmap]
  constructor
  · rintro ⟨v, hv, his⟩
    obtain ⟨hlength, hs, hf⟩ := Vec.tabulate_ok hv
    exact ⟨by omega, fun i _ hi => his.outside i (by omega)⟩
  · rintro ⟨hle, hzero⟩
    obtain ⟨v, hv, his, _⟩ := Vec.tabulate_is start (finish - start) (fun i => Vec.dot (row A i) x) (f := fun i => ∑ᶠ j, f i j * u j) (by omega)
      (fun i h0 _ => Vec.dot_finsum (row_is hA.toIs (by omega)) hx)
      (fun i hi => by
        rcases Int.lt_or_le i 0 with hneg | hpos
        · have hrow : ∀ j, f i j = 0 := fun j => hA.outside i j fun hat => by
            rw [at_iff] at hat
            omega
          simp [hrow]
        · exact hzero i hpos (by omega))
    exact ⟨v, hv, his⟩

omit [Field K] in
/-- A list with the index of each entry. -/
theorem mem_indexed {g : Int → Vec K} {n : Int} {p : Int × Vec K} :
    p ∈ (interval 0 n).map (fun i => (i, g i)) ↔ (0 ≤ p.1 ∧ p.1 < n) ∧ p.2 = g p.1 := by
  rw [List.mem_map]
  constructor
  · rintro ⟨i, hi, rfl⟩
    exact ⟨mem_interval.mp hi, rfl⟩
  · rintro ⟨hi, hv⟩
    exact ⟨p.1, mem_interval.mpr hi, by rw [← hv]⟩

theorem mem_allRows {p : Int × Vec K} : p ∈ allRows A ↔ (0 ≤ p.1 ∧ p.1 < A.columns) ∧ p.2 = row A p.1 := mem_indexed

theorem mem_allColumns {p : Int × Vec K} : p ∈ allColumns A ↔ (0 ≤ p.1 ∧ p.1 < A.rows) ∧ p.2 = column A p.1 := mem_indexed

/-- Every vector stands for its row, and no row that has an entry is left out. -/
def Enumerates (l : List (Int × Vec K)) (f : Int → Int → K) : Prop :=
  (∀ p ∈ l, Vec.Is p.2 (f p.1)) ∧ ∀ r, (∃ p ∈ l, p.1 = r) ∨ ∀ c, f r c = 0

theorem allRows_iff (hA : Made A f) : Enumerates (allRows A) f ↔ ∀ r c, A.columns ≤ r → f r c = 0 := by
  constructor
  · rintro ⟨_, hall⟩ r c hr
    rcases hall r with ⟨p, hp, rfl⟩ | hzero
    · have := (mem_allRows.mp hp).1
      omega
    · exact hzero c
  · intro hzero
    refine ⟨fun p hp => ?_, fun r => ?_⟩
    · obtain ⟨⟨h0, _⟩, hv⟩ := mem_allRows.mp hp
      rw [hv]
      exact row_is hA.toIs h0
    · by_cases hr : 0 ≤ r ∧ r < A.columns
      · exact .inl ⟨(r, row A r), mem_allRows.mpr ⟨hr, rfl⟩, rfl⟩
      · refine .inr fun c => ?_
        rcases Int.lt_or_le r 0 with hneg | hpos
        · refine hA.outside r c fun hat => ?_
          rw [at_iff] at hat
          omega
        · exact hzero r c (by omega)

theorem allColumns_iff (hA : Made A f) : Enumerates (allColumns A) (fun c r => f r c) ↔ ∀ r c, A.rows ≤ c → f r c = 0 := by
  constructor
  · rintro ⟨_, hall⟩ r c hc
    rcases hall c with ⟨p, hp, rfl⟩ | hzero
    · have := (mem_allColumns.mp hp).1
      omega
    · exact hzero r
  · intro hzero
    refine ⟨fun p hp => ?_, fun c => ?_⟩
    · obtain ⟨⟨h0, _⟩, hv⟩ := mem_allColumns.mp hp
      rw [hv]
      exact column_is hA.toIs h0
    · by_cases hc : 0 ≤ c ∧ c < A.rows
      · exact .inl ⟨(c, column A c), mem_allColumns.mpr ⟨hc, rfl⟩, rfl⟩
      · refine .inr fun r => ?_
        rcases Int.lt_or_le c 0 with hneg | hpos
        · refine hA.outside r c fun hat => ?_
          rw [at_iff] at hat
          omega
        · exact hzero r c (by omega)

/-- A diagonal has no place below itself. -/
theorem mirrors_diagonal (rows columns : Int) : Mirrors rows columns 0 0 := by
  intro r c hat hlt
  unfold Place at hat ⊢
  omega

/-- Two rows, with ones on the diagonal and below it. -/
def bidiagonal : Mat ℚ := ⟨2, 2, 2, 1, false, .full ⟨4, fun i => if i = 1 then 0 else 1⟩⟩

def bidiagonalEntries (r c : Int) : ℚ := if Place 2 2 1 0 r c then 1 else 0

def unit : Vec ℚ := ⟨0, 1, .vector ⟨1, fun _ => 1⟩⟩

def unitEntries (i : Int) : ℚ := if i = 0 then 1 else 0

theorem bidiagonal_made : Made bidiagonal bidiagonalEntries where
  reads := by
    have hall : ∀ r c : Fin 2, Place 2 2 1 0 r.val c.val → subRep bidiagonal r.val c.val = .ok (bidiagonalEntries r.val c.val) := by decide +kernel
    intro r c hat
    rw [at_iff] at hat
    obtain ⟨⟨hr0, hr⟩, ⟨hc0, hc⟩, hlow, hup⟩ := hat
    obtain ⟨i, rfl⟩ := Int.eq_ofNat_of_zero_le hr0
    obtain ⟨j, rfl⟩ := Int.eq_ofNat_of_zero_le hc0
    have hi : (i : Int) < 2 := hr
    have hj : (j : Int) < 2 := hc
    have hup' : (j : Int) - i < 2 - 1 := hup
    exact hall ⟨i, by omega⟩ ⟨j, by omega⟩ ⟨⟨hr0, hr⟩, ⟨hc0, hc⟩, hlow, Int.lt_add_one_iff.mp hup'⟩
  outside := by
    intro r c hat
    have hplace : ¬ Place 2 2 1 0 r c := by
      rintro ⟨hr, hc, hlow, hup⟩
      have hup' : c - r < (2 : Int) - 1 := by omega
      exact hat (at_iff.mpr ⟨hr, hc, hlow, hup'⟩)
    exact if_neg hplace
  rows := by decide
  columns := by decide
  width := by decide
  mirror := nofun

theorem unit_is : Vec.Is unit unitEntries where
  reads := by
    intro i h0 h1
    have h0' : (0 : Int) ≤ i := h0
    have h1' : i < 1 := h1
    rw [show i = 0 by omega]
    decide +kernel
  outside := by
    intro i hi
    have hi' : i < 0 ∨ 1 ≤ i := hi
    exact if_neg (by omega)

/-- A diagonal of ones of two rows and three columns, which is flagged as symmetric. -/
theorem identity_made : ∃ M : Mat ℚ, tabulate (2, 3) (0, 0) true (fun _ _ => .ok 1) = .ok M ∧ M.symmetric = true ∧
    M.rows = 2 ∧ M.columns = 3 ∧ M.under = 0 ∧ M.width = 1 ∧ Made M (fun r c => if Place 2 3 0 0 r c then 1 else 0) := by
  obtain ⟨M, hM, hmade⟩ := tabulate_made (K := ℚ) 2 3 0 0 true (0, 0) (fun _ _ => .ok 1) (f := fun r c => if Place 2 3 0 0 r c then 1 else 0) rfl rfl (by decide) (by decide)
    (.inl (by decide)) (fun r c hat => by rw [if_pos hat]) (fun _ r c hat hlt => by unfold Place at hat; omega) (fun r c hat => if_neg hat)
  refine ⟨M, hM, ?_, ?_, ?_, ?_, ?_, hmade⟩
  all_goals
    cases hM
    rfl

end Mat

end BubbleStorm.Util.Matrix.Algebra
