/-
  BubbleStorm.Util.Matrix.Update — writing one entry of a matrix
  (`src/util/matrix/algebra.fun`).
-/

import BubbleStorm.Util.Matrix.AlgebraSpec

namespace BubbleStorm.Util.Matrix.Algebra.Mat

variable {K : Type}

def subUpdate (M : Mat K) (row column : Int) (v : K) : Except Exn (Mat K) :=
  match M.rep with
  | .full A => (A.update (row * M.columns + column) v).map fun A => { M with rep := .full A }
  | .banded A => (A.update (row * M.width + M.under + (column - row)) v).map fun A => { M with rep := .banded A }

def update (M : Mat K) (row column : Int) (v : K) : Except Exn (Mat K) :=
  if M.inBounds row column ∧ M.inBand row column then subUpdate M row column v else .error .subscript

/-- Two cells of rows of one length. -/
theorem cell_inj {w r r' o o' : Int} (ho : 0 ≤ o ∧ o < w) (ho' : 0 ≤ o' ∧ o' < w) (h : r * w + o = r' * w + o') : r = r' ∧ o = o' := by
  have hrow : ∀ {r o : Int}, 0 ≤ o ∧ o < w → (r * w + o) / w = r := by
    intro r o ho
    rw [add_comm, Int.add_mul_ediv_right _ _ (by omega), Int.ediv_eq_zero_of_lt ho.1 ho.2, zero_add]
  have hr : r = r' := by rw [← hrow (r := r) ho, h, hrow ho']
  refine ⟨hr, ?_⟩
  rw [hr] at h
  omega

theorem arr_sub_ok {A : Arr K} {i : Int} {x : K} (h : A.sub i = .ok x) : (0 ≤ i ∧ i < A.length) ∧ A.elt i = x := by
  unfold Arr.sub at h
  by_cases hi : 0 ≤ i ∧ i < A.length
  · rw [if_pos hi] at h
    cases h
    exact ⟨hi, rfl⟩
  · rw [if_neg hi] at h
    cases h

/-- Another cell keeps its entry. -/
theorem arr_update {A : Arr K} {i : Int} {x : K} (h : A.sub i = .ok x) (v : K) :
    ∃ A', A.update i v = .ok A' ∧ A'.sub i = .ok v ∧ ∀ j, j ≠ i → A'.sub j = A.sub j := by
  obtain ⟨hi, _⟩ := arr_sub_ok h
  refine ⟨_, Arr.update_eq hi.1 hi.2 v, ?_, fun j hj => ?_⟩
  · have hread : (⟨A.length, Function.update A.elt i v⟩ : Arr K).sub i = .ok (Function.update A.elt i v i) := Arr.sub_eq hi.1 hi.2
    rw [Function.update_self] at hread
    exact hread
  · have hsame : Function.update A.elt i v j = A.elt j := Function.update_of_ne hj v A.elt
    simp only [Arr.sub, hsame]

theorem update_reads {M : Mat K} {f : Int → Int → K} (h : Reads M f) {r c : Int} (hat : M.At r c) (v : K) :
    ∃ rep, update M r c v = .ok { M with rep := rep } ∧ Reads { M with rep := rep } (fun r' c' => if r' = r ∧ c' = c then v else f r' c') := by
  have hhere := h r c hat
  have hplace := at_iff.mp hat
  have hinside : update M r c v = subUpdate M r c v := if_pos hat
  rw [hinside]
  unfold subUpdate
  unfold subRep at hhere
  cases hrep : M.rep with
  | full A =>
    rw [hrep] at hhere
    obtain ⟨A', hupdate, hself, hother⟩ := arr_update hhere v
    refine ⟨.full A', by simp only [hupdate]; rfl, fun r' c' hat' => ?_⟩
    have hplace' : (0 ≤ r' ∧ r' < M.rows) ∧ (0 ≤ c' ∧ c' < M.columns) ∧ r' - c' ≤ M.under ∧ c' - r' < M.width - M.under := at_iff.mp hat'
    show A'.sub (r' * M.columns + c') = .ok (if r' = r ∧ c' = c then v else f r' c')
    by_cases hcell : r' = r ∧ c' = c
    · rw [if_pos hcell, hcell.1, hcell.2]
      exact hself
    · rw [if_neg hcell, hother _ fun heq => hcell (cell_inj hplace'.2.1 hplace.2.1 heq)]
      have hread := h r' c' hat'
      unfold subRep at hread
      rw [hrep] at hread
      exact hread
  | banded A =>
    rw [hrep] at hhere
    obtain ⟨A', hupdate, hself, hother⟩ := arr_update hhere v
    refine ⟨.banded A', by simp only [hupdate]; rfl, fun r' c' hat' => ?_⟩
    have hplace' : (0 ≤ r' ∧ r' < M.rows) ∧ (0 ≤ c' ∧ c' < M.columns) ∧ r' - c' ≤ M.under ∧ c' - r' < M.width - M.under := at_iff.mp hat'
    show A'.sub (r' * M.width + M.under + (c' - r')) = .ok (if r' = r ∧ c' = c then v else f r' c')
    by_cases hcell : r' = r ∧ c' = c
    · rw [if_pos hcell, hcell.1, hcell.2]
      exact hself
    · have hne : r' * M.width + M.under + (c' - r') ≠ r * M.width + M.under + (c - r) := by
        intro heq
        rw [add_assoc, add_assoc] at heq
        have hwide : 0 ≤ M.under + (c - r) ∧ M.under + (c - r) < M.width := by omega
        have hwide' : 0 ≤ M.under + (c' - r') ∧ M.under + (c' - r') < M.width := by omega
        obtain ⟨hr, ho⟩ := cell_inj hwide' hwide heq
        exact hcell ⟨hr, by omega⟩
      rw [if_neg hcell, hother _ hne]
      have hread := h r' c' hat'
      unfold subRep at hread
      rw [hrep] at hread
      exact hread

theorem update_is [Field K] {M : Mat K} {f : Int → Int → K} (h : Is M f) {r c : Int} (hat : M.At r c) (v : K) :
    ∃ rep, update M r c v = .ok { M with rep := rep } ∧ Is { M with rep := rep } (fun r' c' => if r' = r ∧ c' = c then v else f r' c') := by
  obtain ⟨rep, hupdate, hreads⟩ := update_reads h.reads hat v
  refine ⟨rep, hupdate, hreads, fun r' c' hat' => ?_⟩
  rw [if_neg (fun hcell => hat' (by rw [hcell.1, hcell.2]; exact hat))]
  exact h.outside r' c' hat'

end BubbleStorm.Util.Matrix.Algebra.Mat
