/-
  BubbleStorm.Lib.Newest — the newest of what was heard.

  A value with a key is kept if its key is greater than the one held. What is held after
  a list of values depends on which values were heard only, not on their order or their
  number, as long as a key tells the value.
-/

import Mathlib.Order.Lattice

namespace BubbleStorm.Lib

variable {κ δ : Type} [LinearOrder κ]

def newer (held : Option (κ × δ)) (x : κ × δ) : Option (κ × δ) :=
  match held with
  | none => some x
  | some h => if x.1 ≤ h.1 then some h else some x

/-- The greatest key of the values and of what was held, with its value. -/
def Newest (held : Option (κ × δ)) (l : List (κ × δ)) (y : κ × δ) : Prop :=
  (y ∈ l ∨ held = some y) ∧ (∀ x ∈ l, x.1 ≤ y.1) ∧ ∀ x, held = some x → x.1 ≤ y.1

theorem foldl_newer (held : Option (κ × δ)) (l : List (κ × δ)) :
    (l = [] ∧ held = none ∧ l.foldl newer held = none) ∨ ∃ y, l.foldl newer held = some y ∧ Newest held l y := by
  induction l generalizing held with
  | nil =>
    cases held with
    | none => exact .inl ⟨rfl, rfl, rfl⟩
    | some h =>
      refine .inr ⟨h, rfl, .inr rfl, ?_, ?_⟩
      · intro x hx
        cases hx
      · intro x hx
        cases hx
        exact le_refl _
  | cons z l ih =>
    refine .inr ?_
    rw [List.foldl_cons]
    rcases ih (newer held z) with ⟨-, hnone, -⟩ | ⟨y, hy, hmem, hle, hheld⟩
    · unfold newer at hnone
      split at hnone
      · cases hnone
      · split at hnone
        · cases hnone
        · cases hnone
    · -- what is held after `z` is `z` or what was held, and both are not newer
      have hz : z.1 ≤ y.1 ∧ (∀ x, held = some x → x.1 ≤ y.1) ∧ (newer held z = some y → y = z ∨ held = some y) := by
        cases held with
        | none =>
          refine ⟨hheld z rfl, ?_, ?_⟩
          · intro x hx
            cases hx
          · intro heq
            cases heq
            exact .inl rfl
        | some h =>
          unfold newer at hheld ⊢
          dsimp only at hheld ⊢
          split
          · rename_i hzh
            rw [if_pos hzh] at hheld
            have hh := hheld h rfl
            refine ⟨le_trans hzh hh, ?_, ?_⟩
            · intro x hx
              cases hx
              exact hh
            · intro heq
              cases heq
              exact .inr rfl
          · rename_i hzh
            rw [if_neg hzh] at hheld
            have hh := hheld z rfl
            refine ⟨hh, ?_, ?_⟩
            · intro x hx
              cases hx
              exact le_trans (le_of_not_ge hzh) hh
            · intro heq
              cases heq
              exact .inl rfl
      obtain ⟨hzy, hold, hcase⟩ := hz
      refine ⟨y, hy, ?_, ?_, hold⟩
      · rcases hmem with hmem | hmem
        · exact .inl (.tail _ hmem)
        · rcases hcase hmem with rfl | hheldy
          · exact .inl (.head _)
          · exact .inr hheldy
      · intro x hx
        rcases List.mem_cons.mp hx with rfl | hx
        · exact hzy
        · exact hle x hx

theorem Newest.mem {l : List (κ × δ)} {y : κ × δ} (h : Newest none l y) : y ∈ l := by
  rcases h.1 with hmem | hnone
  · exact hmem
  · cases hnone

/-- Which values were heard decides what is held. -/
theorem foldl_newer_congr {l l' : List (κ × δ)} (hmem : ∀ x, x ∈ l ↔ x ∈ l')
    (hagree : ∀ x ∈ l, ∀ y ∈ l, x.1 = y.1 → x = y) : l.foldl newer none = l'.foldl newer none := by
  rcases foldl_newer none l with ⟨rfl, -, h⟩ | ⟨y, h, hy⟩
  · rcases foldl_newer none l' with ⟨-, -, h'⟩ | ⟨y', -, hy'⟩
    · rw [h, h']
    · simpa using (hmem y').mpr hy'.mem
  · rcases foldl_newer none l' with ⟨rfl, -, -⟩ | ⟨y', h', hy'⟩
    · simpa using (hmem y).mp hy.mem
    · have hin' := (hmem y').mpr hy'.mem
      have hkey : y.1 = y'.1 := le_antisymm (hy'.2.1 y ((hmem y).mp hy.mem)) (hy.2.1 y' hin')
      rw [h, h', hagree y hy.mem y' hin' hkey]

end BubbleStorm.Lib
