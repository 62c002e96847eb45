/-
  BubbleStorm.Util.Matrix.AlgebraSpec — what the operations on vectors and matrices do to
  the entries.

  `Reads`: every entry of the interval or of the band can be read, and is the one of a
  function; `Is`: that function is zero elsewhere.
-/

import Mathlib
import BubbleStorm.Util.Matrix.Algebra

namespace BubbleStorm.Util.Matrix.Algebra

open Function (update_of_ne update_self)

variable {K σ : Type}

/-! ## Arrays -/

namespace Arr

theorem sub_eq {a : Arr K} {i : Int} (h0 : 0 ≤ i) (hi : i < a.length) : a.sub i = .ok (a.elt i) := if_pos ⟨h0, hi⟩

theorem update_eq {a : Arr K} {i : Int} (h0 : 0 ≤ i) (hi : i < a.length) (x : K) :
    a.update i x = .ok { a with elt := Function.update a.elt i x } := if_pos ⟨h0, hi⟩

/-- An invariant of the loop. -/
theorem fill_rule (order : Int → Int) (fetch : σ → Arr K → Int → Except Exn (K × σ)) {n : Int} {P : Int → σ → Arr K → Prop}
    (hstep : ∀ i s a, 0 ≤ i → i < n → P i s a → ∃ x s', fetch s a (order i) = .ok (x, s') ∧ 0 ≤ order i ∧ order i < a.length ∧
      P (i + 1) s' { a with elt := Function.update a.elt (order i) x }) :
    ∀ (left : Nat) (i : Int) (s : σ) (a : Arr K), 0 ≤ i → i + left = n → P i s a → ∃ a' s', fill order fetch left i s a = .ok (a', s') ∧ P n s' a' := by
  intro left
  induction left with
  | zero =>
    intro i s a _ hn h
    have hi : i = n := by simpa using hn
    subst hi
    exact ⟨a, s, rfl, h⟩
  | succ left ih =>
    intro i s a h0 hn h
    obtain ⟨x, s', hfetch, hlow, hhigh, h'⟩ := hstep i s a h0 (by omega) h
    obtain ⟨a', s'', hfill, hend⟩ := ih (i + 1) s' _ (by omega) (by omega) h'
    refine ⟨a', s'', ?_, hend⟩
    unfold fill
    rw [hfetch]
    show (do let a ← update a (order i) x; fill order fetch left (i + 1) s' a) = _
    rw [update_eq hlow hhigh]
    exact hfill

end Arr

theorem mem_interval {start stop i : Int} : i ∈ interval start stop ↔ start ≤ i ∧ i < stop := by
  unfold interval
  rw [List.mem_map]
  constructor
  · rintro ⟨k, hk, rfl⟩
    have := List.mem_range.mp hk
    omega
  · rintro ⟨h1, h2⟩
    exact ⟨(i - start).toNat, List.mem_range.mpr (by omega), by omega⟩

theorem interval_nodup (start stop : Int) : (interval start stop).Nodup := by
  refine List.Nodup.map ?_ List.nodup_range
  intro i j hij
  simpa using hij

/-! ## Vectors -/

namespace Vec

def Reads (v : Vec K) (f : Int → K) : Prop := ∀ i, v.start ≤ i → i < v.finish → raw v i = .ok (f i)

variable [Field K]

structure Is (v : Vec K) (f : Int → K) : Prop where
  reads : Reads v f
  outside : ∀ i, i < v.start ∨ v.finish ≤ i → f i = 0

theorem sub_is {v : Vec K} {f : Int → K} (h : Is v f) (i : Int) : sub v i = .ok (f i) := by
  unfold sub
  by_cases hi : i < v.start ∨ v.finish ≤ i
  · rw [if_pos hi, h.outside i hi]
  · rw [if_neg hi]
    exact h.reads i (by omega) (by omega)

theorem tabulate_is (start length : Int) (fetch : Int → Except Exn K) {f : Int → K} (hlength : 0 ≤ length)
    (hfetch : ∀ i, start ≤ i → i < start + length → fetch i = .ok (f i)) (hout : ∀ i, i < start ∨ start + length ≤ i → f i = 0) :
    ∃ v, tabulate start length fetch = .ok v ∧ Is v f ∧ v.start = start ∧ v.finish = start + length := by
  obtain ⟨a, s, hfill, hlen, hentries⟩ := Arr.fill_rule id
    (fun (_ : Unit) (_ : Arr K) i => do let x ← fetch (i + start); Except.ok (x, ())) (n := length)
    (P := fun i _ a => a.length = length ∧ ∀ j, 0 ≤ j → j < i → a.elt j = f (j + start)) (fun i s a h0 hi h => by
      refine ⟨f (i + start), (), ?_, h0, by rw [h.1]; exact hi, h.1, fun j hj0 hj => ?_⟩
      · show (do let x ← fetch (i + start); Except.ok (x, ())) = _
        rw [hfetch (i + start) (by omega) (by omega)]
        rfl
      · show Function.update a.elt i _ j = _
        by_cases hji : j = i
        · rw [hji, update_self]
        · rw [update_of_ne hji]
          exact h.2 j hj0 (by omega)) length.toNat 0 () ⟨length, fun _ => 0⟩ (le_refl 0) (by omega) ⟨rfl, fun j h0 h1 => by omega⟩
  refine ⟨⟨start, start + length, .vector a⟩, ?_, ⟨fun i h0 h1 => ?_, hout⟩, rfl, rfl⟩
  · unfold tabulate Arr.array
    rw [if_neg (by omega)]
    show (do let p ← Arr.fill id _ length.toNat 0 () ⟨length, fun _ => (0 : K)⟩; Except.ok (⟨start, start + length, .vector p.1⟩ : Vec K)) = _
    rw [hfill]
    rfl
  · show a.sub (i - start) = _
    have h0' : start ≤ i := h0
    have h1' : i < start + length := h1
    rw [Arr.sub_eq (by omega) (by omega), hentries (i - start) (by omega) (by omega)]
    rw [sub_add_cancel]

theorem foldlM_sum {A B : Int → Except Exn K} {f g : Int → K} (l : List Int) (hA : ∀ i ∈ l, A i = .ok (f i)) (hB : ∀ i ∈ l, B i = .ok (g i)) (r : K) :
    l.foldlM (fun r i => do let a ← A i; let b ← B i; Except.ok (r + a * b)) r = .ok (r + (l.map fun i => f i * g i).sum) := by
  induction l generalizing r with
  | nil => simp [pure, Except.pure]
  | cons i l ih =>
    rw [List.foldlM_cons, hA i List.mem_cons_self, hB i List.mem_cons_self]
    show l.foldlM _ (r + f i * g i) = _
    rw [ih (fun j hj => hA j (List.mem_cons_of_mem i hj)) (fun j hj => hB j (List.mem_cons_of_mem i hj)), List.map_cons, List.sum_cons, add_assoc]

theorem interval_sum (f : Int → K) (start stop : Int) : ((interval start stop).map f).sum = ∑ i ∈ Finset.Ico start stop, f i := by
  have hset : Finset.Ico start stop = (interval start stop).toFinset := by
    ext i
    rw [List.mem_toFinset, mem_interval, Finset.mem_Ico]
  rw [hset, List.sum_toFinset _ (interval_nodup start stop)]

theorem dot_reads {A B : Vec K} {f g : Int → K} (hA : Reads A f) (hB : Reads B g) :
    dot A B = .ok (∑ i ∈ Finset.Ico (max A.start B.start) (min A.finish B.finish), f i * g i) := by
  unfold dot
  have hsum := foldlM_sum (A := raw A) (B := raw B) (f := f) (g := g) (interval (max A.start B.start) (min A.finish B.finish))
    (fun i hi => hA i (by have := mem_interval.mp hi; omega) (by have := mem_interval.mp hi; omega))
    (fun i hi => hB i (by have := mem_interval.mp hi; omega) (by have := mem_interval.mp hi; omega)) 0
  rw [zero_add, interval_sum] at hsum
  exact hsum

/-- The product over any set that has the common entries. -/
theorem dot_is {A B : Vec K} {f g : Int → K} (hA : Is A f) (hB : Is B g) (s : Finset Int) (hs : ∀ i, f i * g i ≠ 0 → i ∈ s) :
    dot A B = .ok (∑ i ∈ s, f i * g i) := by
  classical
  rw [dot_reads hA.reads hB.reads]
  congr 1
  have hsub : ∀ i, f i * g i ≠ 0 → i ∈ Finset.Ico (max A.start B.start) (min A.finish B.finish) := by
    intro i hi
    rw [Finset.mem_Ico]
    by_contra hout
    have hzero : f i = 0 ∨ g i = 0 := by
      by_cases hfi : i < A.start ∨ A.finish ≤ i
      · exact .inl (hA.outside i hfi)
      · exact .inr (hB.outside i (by omega))
    rcases hzero with hz | hz <;> simp [hz] at hi
  rw [← Finset.sum_filter_ne_zero, ← Finset.sum_filter_ne_zero s]
  congr 1
  ext i
  rw [Finset.mem_filter, Finset.mem_filter]
  exact ⟨fun h => ⟨hs i h.2, h.2⟩, fun h => ⟨hsub i h.2, h.2⟩⟩

theorem fromArray_reads {a : Arr K} {l : Int} (h0 : 0 ≤ l) (hl : l ≤ a.length) :
    fromArray a l = .ok ⟨0, l, .vector a⟩ ∧ Reads ⟨0, l, .vector a⟩ a.elt := by
  refine ⟨?_, fun i hi hl' => ?_⟩
  · unfold fromArray
    rw [if_neg (by omega), if_neg (by omega)]
  · have hi' : 0 ≤ i := hi
    have hl'' : i < l := hl'
    show a.sub (i - 0) = _
    rw [sub_zero]
    exact Arr.sub_eq hi' (by omega)

theorem scale_is {v : Vec K} {f : Int → K} (h : Is v f) (hv : v.start ≤ v.finish) (k : K) : ∃ w, scale v k = .ok w ∧ Is w (fun i => f i * k) ∧
    w.start = v.start ∧ w.finish = v.finish := by
  obtain ⟨w, hw, his, hs, hf⟩ := tabulate_is v.start (v.finish - v.start)
    (fun i => do let x ← raw v i; Except.ok (x * k)) (f := fun i => f i * k) (by omega)
    (fun i h0 h1 => by rw [h.reads i h0 (by omega)]; rfl) (fun i hi => by rw [h.outside i (by omega), zero_mul])
  exact ⟨w, hw, his, hs, by omega⟩

end Vec

/-! ## Matrices -/

namespace Mat

/-- In bounds and in the band. -/
def At (M : Mat K) (r c : Int) : Prop := M.inBounds r c ∧ M.inBand r c

instance (M : Mat K) (r c : Int) : Decidable (M.At r c) := inferInstanceAs (Decidable (_ ∧ _))

theorem at_iff {M : Mat K} {r c : Int} : M.At r c ↔
    (0 ≤ r ∧ r < M.rows) ∧ (0 ≤ c ∧ c < M.columns) ∧ r - c ≤ M.under ∧ c - r < M.width - M.under := by
  unfold At inBounds inBand
  tauto

def Reads (M : Mat K) (f : Int → Int → K) : Prop := ∀ r c, M.At r c → subRep M r c = .ok (f r c)

variable [Field K]

structure Is (M : Mat K) (f : Int → Int → K) : Prop where
  reads : Reads M f
  outside : ∀ r c, ¬ M.At r c → f r c = 0

theorem sub_is {M : Mat K} {f : Int → Int → K} (h : Is M f) (r c : Int) : sub M r c = .ok (f r c) := by
  unfold sub
  by_cases hat : M.At r c
  · exact (if_pos hat).trans (h.reads r c hat)
  · exact (if_neg hat).trans (by rw [h.outside r c hat])

theorem row_raw {M : Mat K} {r : Int} (hr : r < M.rows) (c : Int) : Vec.raw (row M r) c = subRep M r c := by
  unfold row
  rw [if_neg (by omega)]
  unfold subRep Vec.raw
  cases M.rep with
  | full A => rfl
  | banded A =>
    show A.sub (r * M.width + M.under - r + c) = _
    congr 1
    omega

theorem row_reads {M : Mat K} {f : Int → Int → K} (h : Reads M f) {r : Int} (h0 : 0 ≤ r) : Vec.Reads (row M r) (f r) := by
  intro c hs hf
  by_cases hr : M.rows ≤ r
  · unfold row at hs hf
    rw [if_pos hr] at hs hf
    have hs' : (0 : Int) ≤ c := hs
    have hf' : c < 0 := hf
    omega
  · rw [row_raw (by omega)]
    unfold row at hs hf
    rw [if_neg hr] at hs hf
    have hs' : max (r - M.under) 0 ≤ c := hs
    have hf' : c < min (r + M.width - M.under) M.columns := hf
    exact h r c (at_iff.mpr (by omega))

theorem row_is {M : Mat K} {f : Int → Int → K} (h : Is M f) {r : Int} (h0 : 0 ≤ r) : Vec.Is (row M r) (f r) where
  reads := row_reads h.reads h0
  outside := by
    intro c hc
    refine h.outside r c fun hat => ?_
    rw [at_iff] at hat
    unfold row at hc
    rw [if_neg (by omega)] at hc
    have hc' : c < max (r - M.under) 0 ∨ min (r + M.width - M.under) M.columns ≤ c := hc
    omega

theorem column_raw {M : Mat K} {c : Int} (hc : c < M.columns) (r : Int) : Vec.raw (column M c) r = subRep M r c := by
  unfold column
  rw [if_neg (by omega)]
  unfold subRep Vec.raw
  cases M.rep with
  | full A =>
    show A.sub (c + r * M.columns) = _
    rw [add_comm]
  | banded A =>
    show A.sub (c + M.under + r * (M.width - 1)) = _
    congr 1
    rw [mul_sub, mul_one]
    omega

theorem column_is {M : Mat K} {f : Int → Int → K} (h : Is M f) {c : Int} (h0 : 0 ≤ c) : Vec.Is (column M c) (fun r => f r c) where
  reads := by
    intro r hs hf
    by_cases hc : M.columns ≤ c
    · unfold column at hs hf
      rw [if_pos hc] at hs hf
      have hs' : (0 : Int) ≤ r := hs
      have hf' : r < 0 := hf
      omega
    · rw [column_raw (by omega)]
      unfold column at hs hf
      rw [if_neg hc] at hs hf
      have hs' : max (c - (M.width - M.under - 1)) 0 ≤ r := hs
      have hf' : r < min (c + M.under + 1) M.rows := hf
      exact h.reads r c (at_iff.mpr (by omega))
  outside := by
    intro r hr
    refine h.outside r c fun hat => ?_
    rw [at_iff] at hat
    unfold column at hr
    rw [if_neg (by omega)] at hr
    have hr' : r < max (c - (M.width - M.under - 1)) 0 ∨ min (c + M.under + 1) M.rows ≤ r := hr
    omega

/-! ## Filling a matrix -/

section Unfold

variable {rows columns lower upper : Int} {symmetric : Bool}

/-- The places that an array with `w` entries for a row has, from column `sh r` on. -/
theorem fill_cells (rows w : Int) (sh : Int → Int) (At : Int → Int → Prop) [∀ r c, Decidable (At r c)] (M : Arr K → Mat K)
    (fetch : σ → Mat K → Int → Int → Except Exn (K × σ)) (set : σ → Arr K → Int → Except Exn (K × σ)) (hrows : 0 ≤ rows * w) (hw : 0 ≤ w ∨ rows = 0)
    (hplace : ∀ r c, At r c → (0 ≤ r ∧ r < rows) ∧ 0 ≤ c - sh r ∧ c - sh r < w)
    (hset : ∀ s A i, 0 ≤ i / w → i / w < rows → 0 < w →
      set s A i = if At (i / w) (i % w + sh (i / w)) then fetch s (M A) (i / w) (i % w + sh (i / w)) else .ok (0, s))
    {P : Int → Int → σ → (Int → Int → K) → Prop}
    (hstep : ∀ r c s A f, At r c → A.length = rows * w → (∀ r c, At r c → A.elt (r * w + (c - sh r)) = f r c) → P r c s f →
      ∃ x s', fetch s (M A) r c = .ok (x, s') ∧ P r (c + 1) s' (fun r' c' => if r' = r ∧ c' = c then x else f r' c'))
    (hskip : ∀ r c s f, 0 ≤ r → r < rows → ¬ At r c → P r c s f → P r (c + 1) s f)
    (hwrap : ∀ r c c' s f, 0 ≤ r → r < rows → (∀ k, c ≤ k → ¬ At r k) → (∀ k, k < c' → ¬ At (r + 1) k) → P r c s f → P (r + 1) c' s f)
    {s : σ} (hstart : P 0 (sh 0) s (fun _ _ => 0)) :
    ∃ A s' f r c, Arr.fill id set (rows * w).toNat 0 s ⟨rows * w, fun _ => 0⟩ = .ok (A, s') ∧ A.length = rows * w ∧
      (∀ r c, At r c → A.elt (r * w + (c - sh r)) = f r c) ∧ P r c s' f ∧ ∀ r' c', At r' c' → r' < r ∨ r' = r ∧ c' < c := by
  rcases Int.lt_or_le 0 w with hpos | hnon
  · obtain ⟨A, s', hfill, hlen, f, hcells, hP⟩ := Arr.fill_rule id set (n := rows * w)
      (P := fun i s A => A.length = rows * w ∧ ∃ f, (∀ r c, At r c → A.elt (r * w + (c - sh r)) = f r c) ∧ P (i / w) (i % w + sh (i / w)) s f)
      (fun i s A h0 hi h => by
        obtain ⟨hlen, f, hcells, hP⟩ := h
        have hr0 : 0 ≤ i / w := Int.ediv_nonneg h0 hpos.le
        have hr1 : i / w < rows := Int.ediv_lt_of_lt_mul hpos hi
        have hm0 : 0 ≤ i % w := Int.emod_nonneg i hpos.ne'
        have hm1 : i % w < w := Int.emod_lt_of_pos i hpos
        have hidx : i / w * w + i % w = i := by
          rw [mul_comm]
          exact Int.mul_ediv_add_emod i w
        -- from the next place of the row to the place of the next entry
        have hnext : ∀ s f, P (i / w) (i % w + sh (i / w) + 1) s f → P ((i + 1) / w) ((i + 1) % w + sh ((i + 1) / w)) s f := by
          intro s f hP
          rcases Int.lt_or_le (i % w + 1) w with hin | hend
          · have hdiv : (i + 1) / w = i / w := by
              rw [← hidx, add_assoc, add_comm, Int.add_mul_ediv_right _ _ hpos.ne', Int.ediv_eq_zero_of_lt (by omega) hin, zero_add, hidx]
            have hmod : (i + 1) % w = i % w + 1 := by
              rw [← hidx, add_assoc, add_comm, Int.add_mul_emod_self_right, Int.emod_eq_of_lt (by omega) hin, hidx]
            rw [hdiv, hmod]
            rwa [show i % w + 1 + sh (i / w) = i % w + sh (i / w) + 1 by omega]
          · have hwm : i % w + 1 = w := by omega
            have hi1 : i + 1 = (i / w + 1) * w := by
              rw [add_mul, one_mul]
              omega
            have hdiv : (i + 1) / w = i / w + 1 := by
              rw [hi1, Int.mul_ediv_cancel _ hpos.ne']
            have hmod : (i + 1) % w = 0 := by
              rw [hi1, Int.mul_emod_left]
            rw [hdiv, hmod]
            refine hwrap (i / w) _ _ s f hr0 hr1 (fun k hk hat => ?_) (fun k hk hat => ?_) hP
            · have := hplace _ _ hat
              omega
            · have := hplace _ _ hat
              omega
        have hset' := hset s A i hr0 hr1 hpos
        by_cases hat : At (i / w) (i % w + sh (i / w))
        · rw [if_pos hat] at hset'
          obtain ⟨x, s', hfetch, hP'⟩ := hstep _ _ s A f hat hlen hcells hP
          refine ⟨x, s', hset'.trans hfetch, h0, by rw [hlen]; exact hi, hlen, _, fun r c hrc => ?_, hnext _ _ hP'⟩
          show Function.update A.elt i x (r * w + (c - sh r)) = _
          obtain ⟨hr, hc0, hc1⟩ := hplace r c hrc
          by_cases hsame : r = i / w ∧ c = i % w + sh (i / w)
          · obtain ⟨h1, h2⟩ := hsame
            have hplace' : r * w + (c - sh r) = i := by
              rw [h2, h1, add_sub_cancel_right]
              exact hidx
            rw [if_pos ⟨h1, h2⟩, hplace', update_self]
          · have hne : r * w + (c - sh r) ≠ i := by
              intro heq
              apply hsame
              have hdiv : i / w = r := by
                rw [← heq, add_comm, Int.add_mul_ediv_right _ _ hpos.ne', Int.ediv_eq_zero_of_lt hc0 hc1, zero_add]
              have hmod : i % w = c - sh r := by
                rw [← heq, add_comm, Int.add_mul_emod_self_right, Int.emod_eq_of_lt hc0 hc1]
              rw [hdiv, hmod]
              omega
            rw [if_neg hsame, update_of_ne hne]
            exact hcells r c hrc
        · rw [if_neg hat] at hset'
          refine ⟨0, s, hset', h0, by rw [hlen]; exact hi, hlen, f, fun r c hrc => ?_, hnext _ _ (hskip _ _ s f hr0 hr1 hat hP)⟩
          show Function.update A.elt i 0 (r * w + (c - sh r)) = _
          obtain ⟨hr, hc0, hc1⟩ := hplace r c hrc
          have hne : r * w + (c - sh r) ≠ i := by
            intro heq
            apply hat
            have hdiv : i / w = r := by
              rw [← heq, add_comm, Int.add_mul_ediv_right _ _ hpos.ne', Int.ediv_eq_zero_of_lt hc0 hc1, zero_add]
            have hmod : i % w = c - sh r := by
              rw [← heq, add_comm, Int.add_mul_emod_self_right, Int.emod_eq_of_lt hc0 hc1]
            rw [hdiv, hmod, sub_add_cancel]
            exact hrc
          rw [update_of_ne hne]
          exact hcells r c hrc) (rows * w).toNat 0 s ⟨rows * w, fun _ => 0⟩ (le_refl 0) (by omega)
      ⟨rfl, fun _ _ => 0, fun _ _ _ => rfl, by rwa [Int.zero_ediv, Int.zero_emod, zero_add]⟩
    rw [Int.mul_ediv_cancel _ hpos.ne'] at hP
    exact ⟨A, s', f, rows, _, hfill, hlen, hcells, hP, fun r' c' hat => .inl (hplace r' c' hat).1.2⟩
  · -- no place at all
    have hnone : ∀ r c, ¬ At r c := by
      intro r c hat
      have := hplace r c hat
      omega
    have hzero : (rows * w).toNat = 0 := by
      rcases hw with hw | hw
      · rw [show w = 0 by omega, mul_zero]
        rfl
      · rw [hw, zero_mul]
        rfl
    rw [hzero]
    exact ⟨_, s, fun _ _ => 0, 0, _, rfl, rfl, fun r c hat => absurd hat (hnone r c), hstart, fun r c hat => absurd hat (hnone r c)⟩

/-- The places that are filled. -/
def Place (rows columns lower upper r c : Int) : Prop := (0 ≤ r ∧ r < rows) ∧ (0 ≤ c ∧ c < columns) ∧ r - c ≤ lower ∧ c - r ≤ upper

instance (rows columns lower upper r c : Int) : Decidable (Place rows columns lower upper r c) := inferInstanceAs (Decidable (_ ∧ _))

omit [Field K] in
theorem at_out (A : Arr K) (r c : Int) : (out rows columns lower upper symmetric A).At r c ↔ Place rows columns lower upper r c := by
  rw [at_iff]
  show _ ∧ _ ∧ _ ∧ c - r < lower + upper + 1 - lower ↔ _
  unfold Place
  constructor <;> rintro ⟨h1, h2, h3, h4⟩ <;> exact ⟨h1, h2, h3, by omega⟩

theorem place_lt {rows w r o : Int} (hr : 0 ≤ r ∧ r < rows) (ho : 0 ≤ o ∧ o < w) : 0 ≤ r * w + o ∧ r * w + o < rows * w := by
  have hlow : 0 ≤ r * w := Int.mul_nonneg hr.1 (by omega)
  have hhigh : (r + 1) * w ≤ rows * w := Int.mul_le_mul_of_nonneg_right (by omega) (by omega)
  rw [add_mul, one_mul] at hhigh
  omega

variable (rows columns lower upper symmetric) in
/-- An invariant of `unfold`: it has the next place, the state of `fetch` and the entries so far. -/
theorem unfold_rule (bandwidth : Int × Int) (hlower : lower = if symmetric then min bandwidth.1 bandwidth.2 else bandwidth.1)
    (hupper : upper = if symmetric then min bandwidth.1 bandwidth.2 else bandwidth.2) (hrows : 0 ≤ rows) (hcolumns : 0 ≤ columns)
    (hwidth : 0 ≤ lower + upper + 1 ∨ rows = 0) (fetch : σ → Mat K → Int → Int → Except Exn (K × σ))
    {P : Int → Int → σ → (Int → Int → K) → Prop}
    (hstep : ∀ r c s M f, Place rows columns lower upper r c → M.rows = rows → M.columns = columns → M.under = lower → M.width = lower + upper + 1 →
      Reads M f → P r c s f → ∃ x s', (if symmetric = false ∨ r ≤ c then fetch s M r c else do let x ← subRep M c r; .ok (x, s)) = .ok (x, s') ∧
        P r (c + 1) s' (fun r' c' => if r' = r ∧ c' = c then x else f r' c'))
    (hskip : ∀ r c s f, 0 ≤ r → r < rows → ¬ Place rows columns lower upper r c → P r c s f → P r (c + 1) s f)
    (hwrap : ∀ r c c' s f, 0 ≤ r → r < rows → (∀ k, c ≤ k → ¬ Place rows columns lower upper r k) →
      (∀ k, k < c' → ¬ Place rows columns lower upper (r + 1) k) → P r c s f → P (r + 1) c' s f)
    {s : σ} (hstart : ∀ c, (∀ k, k < c → ¬ Place rows columns lower upper 0 k) → P 0 c s (fun _ _ => 0)) :
    ∃ M s' f r c, unfold (rows, columns) bandwidth symmetric fetch s = .ok (M, s') ∧ M.rows = rows ∧ M.columns = columns ∧ M.under = lower ∧
      M.width = lower + upper + 1 ∧ M.symmetric = symmetric ∧ Reads M f ∧ P r c s' f ∧ ∀ r' c', M.At r' c' → r' < r ∨ r' = r ∧ c' < c := by
  obtain ⟨low, up⟩ := bandwidth
  have hup : upper = if symmetric then min lower up else up := by
    rw [hupper, hlower]
    cases symmetric with
    | false => rfl
    | true =>
      show min low up = min (min low up) up
      omega
  have hunfold : unfold (rows, columns) (low, up) symmetric fetch s = (do
      let M := out rows columns lower upper symmetric
      let fetch := fun s (N : Mat K) r c =>
        if symmetric = false ∨ r ≤ c then fetch s N r c
        else do
          let x ← subRep N c r
          .ok (x, s)
      if (lower + upper + 1) * rows * 2 < rows * columns then do
        let A ← Arr.array ((lower + upper + 1) * rows) (0 : K)
        let p ← A.fill id (setBanded M columns (lower + upper + 1) lower fetch) ((lower + upper + 1) * rows).toNat 0 s
        .ok (M p.1, p.2)
      else do
        let A ← Arr.array (rows * columns) (0 : K)
        let p ← A.fill id (setFull M columns fetch) (rows * columns).toNat 0 s
        .ok (M p.1, p.2)) := by
    rw [hup, hlower]
    rfl
  rw [hunfold]
  dsimp only
  by_cases hband : (lower + upper + 1) * rows * 2 < rows * columns
  · have hout : ∀ A : Arr K, (out rows columns lower upper symmetric A).rep = .banded A := fun A => if_pos hband
    have hplace : ∀ r c, Place rows columns lower upper r c → (0 ≤ r ∧ r < rows) ∧ 0 ≤ c - (r - lower) ∧ c - (r - lower) < lower + upper + 1 := by
      intro r c hat
      unfold Place at hat
      omega
    have hreads : ∀ (A : Arr K) (f : Int → Int → K), A.length = rows * (lower + upper + 1) →
        (∀ r c, Place rows columns lower upper r c → A.elt (r * (lower + upper + 1) + (c - (r - lower))) = f r c) →
        Reads (out rows columns lower upper symmetric A) f := by
      intro A f hlen hcells r c hat
      have hat' := (at_out A r c).mp hat
      have hidx := place_lt (hplace r c hat').1 (hplace r c hat').2
      unfold subRep
      rw [hout]
      show A.sub (r * (lower + upper + 1) + lower + (c - r)) = _
      rw [show r * (lower + upper + 1) + lower + (c - r) = r * (lower + upper + 1) + (c - (r - lower)) by omega,
        Arr.sub_eq hidx.1 (by omega), hcells r c hat']
    obtain ⟨A, s', f, r, c, hfill, hlen, hcells, hP, hall⟩ := fill_cells rows (lower + upper + 1) (fun r => r - lower)
      (Place rows columns lower upper) (out rows columns lower upper symmetric)
      (fun s (N : Mat K) r c => if symmetric = false ∨ r ≤ c then fetch s N r c else do let x ← subRep N c r; .ok (x, s))
      (setBanded (out rows columns lower upper symmetric) columns (lower + upper + 1) lower
        fun s (N : Mat K) r c => if symmetric = false ∨ r ≤ c then fetch s N r c else do let x ← subRep N c r; .ok (x, s)) (by
        rcases hwidth with hw | hw
        · exact Int.mul_nonneg hrows hw
        · rw [hw, zero_mul]) hwidth hplace (fun s A i hr0 hr1 hpos => by
        have hm0 : 0 ≤ i % (lower + upper + 1) := Int.emod_nonneg i hpos.ne'
        have hm1 : i % (lower + upper + 1) < lower + upper + 1 := Int.emod_lt_of_pos i hpos
        unfold setBanded
        dsimp only
        rw [show i / (lower + upper + 1) + i % (lower + upper + 1) - lower = i % (lower + upper + 1) + (i / (lower + upper + 1) - lower) by omega]
        refine if_congr ?_ rfl rfl
        unfold Place
        omega) (fun r c s A f hat hlen hcells hP => hstep r c s _ f hat rfl rfl rfl rfl (hreads A f hlen hcells) hP) hskip hwrap
      (hstart _ fun k hk hat => by have := hplace 0 k hat; omega)
    refine ⟨_, s', f, r, c, ?_, rfl, rfl, rfl, rfl, rfl, hreads A f hlen hcells, hP, fun r' c' hat => hall r' c' ((at_out A r' c').mp hat)⟩
    have hsize : ¬ (lower + upper + 1) * rows < 0 := by
      rcases hwidth with hw | hw
      · exact not_lt.mpr (Int.mul_nonneg hw hrows)
      · rw [hw, mul_zero]
        exact lt_irrefl 0
    rw [if_pos hband]
    unfold Arr.array
    rw [if_neg hsize]
    rw [mul_comm rows] at hfill
    show (do let p ← Arr.fill id _ _ 0 s ⟨(lower + upper + 1) * rows, fun _ => (0 : K)⟩; Except.ok (out rows columns lower upper symmetric p.1, p.2)) = _
    rw [hfill]
    rfl
  · have hout : ∀ A : Arr K, (out rows columns lower upper symmetric A).rep = .full A := fun A => if_neg hband
    have hplace : ∀ r c, Place rows columns lower upper r c → (0 ≤ r ∧ r < rows) ∧ 0 ≤ c - 0 ∧ c - 0 < columns := by
      intro r c hat
      unfold Place at hat
      omega
    have hreads : ∀ (A : Arr K) (f : Int → Int → K), A.length = rows * columns →
        (∀ r c, Place rows columns lower upper r c → A.elt (r * columns + (c - 0)) = f r c) →
        Reads (out rows columns lower upper symmetric A) f := by
      intro A f hlen hcells r c hat
      have hat' := (at_out A r c).mp hat
      have hidx := place_lt (hplace r c hat').1 (hplace r c hat').2
      unfold subRep
      rw [hout]
      show A.sub (r * columns + c) = _
      rw [sub_zero] at hidx
      have hcell := hcells r c hat'
      rw [sub_zero] at hcell
      rw [Arr.sub_eq hidx.1 (by omega), hcell]
    obtain ⟨A, s', f, r, c, hfill, hlen, hcells, hP, hall⟩ := fill_cells rows columns (fun _ => 0)
      (Place rows columns lower upper) (out rows columns lower upper symmetric)
      (fun s (N : Mat K) r c => if symmetric = false ∨ r ≤ c then fetch s N r c else do let x ← subRep N c r; .ok (x, s))
      (setFull (out rows columns lower upper symmetric) columns
        fun s (N : Mat K) r c => if symmetric = false ∨ r ≤ c then fetch s N r c else do let x ← subRep N c r; .ok (x, s)) (Int.mul_nonneg hrows hcolumns) (.inl hcolumns) hplace (fun s A i hr0 hr1 hpos => by
        have hm0 : 0 ≤ i % columns := Int.emod_nonneg i hpos.ne'
        have hm1 : i % columns < columns := Int.emod_lt_of_pos i hpos
        unfold setFull
        dsimp only
        rw [add_zero]
        refine if_congr ?_ rfl rfl
        exact ⟨fun h => (at_out A _ _).mp ⟨⟨⟨hr0, hr1⟩, hm0, hm1⟩, h⟩, fun h => ((at_out A _ _).mpr h).2⟩)
      (fun r c s A f hat hlen hcells hP => hstep r c s _ f hat rfl rfl rfl rfl (hreads A f hlen hcells) hP) hskip hwrap
      (hstart _ fun k hk hat => by have := hplace 0 k hat; omega)
    refine ⟨_, s', f, r, c, ?_, rfl, rfl, rfl, rfl, rfl, hreads A f hlen hcells, hP, fun r' c' hat => hall r' c' ((at_out A r' c').mp hat)⟩
    have hsize : ¬ rows * columns < 0 := not_lt.mpr (Int.mul_nonneg hrows hcolumns)
    rw [if_neg hband]
    unfold Arr.array
    rw [if_neg hsize]
    show (do let p ← Arr.fill id _ _ 0 s ⟨rows * columns, fun _ => (0 : K)⟩; Except.ok (out rows columns lower upper symmetric p.1, p.2)) = _
    rw [hfill]
    rfl

variable (rows columns lower upper symmetric) in
/-- The entries of a table are those of `fetch`, and of a symmetric one those above the diagonal. -/
theorem tabulate_is (bandwidth : Int × Int) (hlower : lower = if symmetric then min bandwidth.1 bandwidth.2 else bandwidth.1)
    (hupper : upper = if symmetric then min bandwidth.1 bandwidth.2 else bandwidth.2) (hrows : 0 ≤ rows) (hcolumns : 0 ≤ columns)
    (hwidth : 0 ≤ lower + upper + 1 ∨ rows = 0) (fetch : Int → Int → Except Exn K) {f : Int → Int → K}
    (hfetch : ∀ r c, Place rows columns lower upper r c → symmetric = false ∨ r ≤ c → fetch r c = .ok (f r c))
    (hmirror : symmetric = true → ∀ r c, Place rows columns lower upper r c → c < r → Place rows columns lower upper c r ∧ f c r = f r c)
    (hout : ∀ r c, ¬ Place rows columns lower upper r c → f r c = 0) :
    ∃ M, tabulate (rows, columns) bandwidth symmetric fetch = .ok M ∧ Is M f ∧ M.rows = rows ∧ M.columns = columns ∧ M.under = lower ∧
      M.width = lower + upper + 1 ∧ M.symmetric = symmetric := by
  obtain ⟨M, s', g, r, c, hunfold, hr, hc, hu, hw, hs, hreads, hP, hall⟩ := unfold_rule rows columns lower upper symmetric bandwidth
    hlower hupper hrows hcolumns hwidth (fun (_ : Unit) _ r c => do let x ← fetch r c; Except.ok (x, ()))
    (P := fun r c _ g => ∀ r' c', Place rows columns lower upper r' c' → r' < r ∨ r' = r ∧ c' < c → g r' c' = f r' c')
    (fun r c s M g hat hMr hMc hMu hMw hreads hP => by
      refine ⟨f r c, (), ?_, fun r' c' hat' hpast => ?_⟩
      · by_cases hown : symmetric = false ∨ r ≤ c
        · rw [if_pos hown, hfetch r c hat hown]
          rfl
        · rw [if_neg hown]
          have hsym : symmetric = true := by simpa using fun h => hown (.inl h)
          have hlt : c < r := not_le.mp fun h => hown (.inr h)
          obtain ⟨hat', hsame⟩ := hmirror hsym r c hat hlt
          have hatM : M.At c r := by
            rw [at_iff, hMr, hMc, hMu, hMw]
            unfold Place at hat'
            omega
          rw [hreads c r hatM, hP c r hat' (.inl hlt), hsame]
          rfl
      · show (if r' = r ∧ c' = c then f r c else g r' c') = f r' c'
        by_cases hsame : r' = r ∧ c' = c
        · rw [if_pos hsame, hsame.1, hsame.2]
        · rw [if_neg hsame]
          exact hP r' c' hat' (by omega))
    (fun r c s g _ _ hat hP r' c' hat' hpast => hP r' c' hat' (by
      by_contra hnot
      have hsame : r' = r ∧ c' = c := by omega
      rw [hsame.1, hsame.2] at hat'
      exact hat hat'))
    (fun r c c' s g _ _ hend hbegin hP r' k hat' hpast => hP r' k hat' (by
      by_contra hnot
      rcases Int.lt_or_le r' (r + 1) with hlt | hge
      · have hsame : r' = r := by omega
        subst hsame
        exact hend k (by omega) hat'
      · have hsame : r' = r + 1 := by omega
        subst hsame
        exact hbegin k (by omega) hat'))
    (s := ()) (fun c hbegin r' c' hat' hpast => by
      have hr0 : 0 ≤ r' := hat'.1.1
      have hsame : r' = 0 := by omega
      subst hsame
      exact absurd hat' (hbegin c' (by omega)))
  have hiff : ∀ r c, M.At r c ↔ Place rows columns lower upper r c := by
    intro r c
    rw [at_iff, hr, hc, hu, hw]
    unfold Place
    constructor <;> rintro ⟨h1, h2, h3, h4⟩ <;> exact ⟨h1, h2, h3, by omega⟩
  refine ⟨M, ?_, ⟨fun r' c' hat => ?_, fun r' c' hat => hout r' c' fun h => hat ((hiff r' c').mpr h)⟩, hr, hc, hu, hw, hs⟩
  · unfold tabulate
    rw [hunfold]
    rfl
  · rw [hreads r' c' hat]
    exact congrArg Except.ok (hP r' c' ((hiff r' c').mp hat) (hall r' c' hat))

end Unfold

end Mat

end BubbleStorm.Util.Matrix.Algebra
