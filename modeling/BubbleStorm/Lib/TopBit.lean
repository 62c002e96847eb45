/-
  BubbleStorm.Lib.TopBit — the highest bit that is one, and how it orders bit vectors.

  Two vectors compare as the highest bit they differ in says (`lt_iff_of_top`). With the
  distance of two vectors their exclusive or, that bit sorts all vectors by their distance
  to one: what differs from it in bit `b` first is nearer to `z` than what differs in a
  lower bit exactly if `z` differs in `b` too (`nearer_iff`).
-/

import Mathlib.Data.Nat.Bitwise

namespace BubbleStorm.Lib

variable {w : Nat}

/-- The distance of two vectors is that of their distances to a third. -/
theorem xor_through (m z x : BitVec w) : z ^^^ x = (m ^^^ z) ^^^ (m ^^^ x) := by
  rw [BitVec.xor_comm m z, BitVec.xor_assoc, ← BitVec.xor_assoc m, BitVec.xor_self, BitVec.zero_xor]

structure IsTop (x : BitVec w) (b : Nat) : Prop where
  one : x.getLsbD b = true
  above : ∀ j, b < j → x.getLsbD j = false

/-- Only bits below `b`. -/
def Under (x : BitVec w) (b : Nat) : Prop := ∀ j, b ≤ j → x.getLsbD j = false

theorem under_zero (b : Nat) : Under (0 : BitVec w) b := by
  intro j _
  simp

namespace IsTop

variable {x y : BitVec w} {b c : Nat}

theorem unique (hb : IsTop x b) (hc : IsTop x c) : b = c := by
  rcases Nat.lt_trichotomy b c with h | h | h
  · have := hb.above c h
    rw [hc.one] at this
    cases this
  · exact h
  · have := hc.above b h
    rw [hb.one] at this
    cases this

theorem lt_iff_of_top (h : IsTop (x ^^^ y) b) : x < y ↔ y.getLsbD b = true := by
  have hone := h.one
  have hsame : ∀ j, b < j → x.getLsbD j = y.getLsbD j := by
    intro j hj
    have := h.above j hj
    rw [BitVec.getLsbD_xor] at this
    simpa using this
  rw [BitVec.getLsbD_xor] at hone
  rw [BitVec.lt_def]
  constructor
  · intro hlt
    by_contra hy
    rw [Bool.not_eq_true] at hy
    rw [hy, Bool.xor_false] at hone
    have hgt : y.toNat < x.toNat := Nat.lt_of_testBit b hy hone fun j hj => (hsame j hj).symm
    omega
  · intro hy
    rw [hy, Bool.xor_true, Bool.not_eq_true'] at hone
    exact Nat.lt_of_testBit b hone hy hsame

theorem under (h : IsTop x c) (hlt : c < b) : Under x b := fun j hj => h.above j (by omega)

/-- What is under it does not change the highest bit. -/
theorem xor_of_under (hx : IsTop x b) (hy : Under y b) : IsTop (x ^^^ y) b where
  one := by rw [BitVec.getLsbD_xor, hx.one, hy b (Nat.le_refl b), Bool.xor_false]
  above := by
    intro j hj
    rw [BitVec.getLsbD_xor, hx.above j hj, hy j (Nat.le_of_lt hj), Bool.xor_false]

/-- `x` and `y` are what two vectors differ from a third in, `z` what the target does. -/
theorem nearer_iff {z : BitVec w} (hx : IsTop x b) (hy : Under y b) : z ^^^ x < z ^^^ y ↔ z.getLsbD b = true := by
  have hxor : (z ^^^ x) ^^^ (z ^^^ y) = x ^^^ y := by
    apply BitVec.eq_of_getLsbD_eq
    intro i _
    simp only [BitVec.getLsbD_xor]
    cases z.getLsbD i <;> simp
  have htop : IsTop ((z ^^^ x) ^^^ (z ^^^ y)) b := hxor ▸ hx.xor_of_under hy
  rw [lt_iff_of_top htop, BitVec.getLsbD_xor, hy b (Nat.le_refl b), Bool.xor_false]

theorem not_nearer {z : BitVec w} (hx : IsTop x b) (hy : Under y b) : z ^^^ y < z ^^^ x ↔ z.getLsbD b = false := by
  have hxor : (z ^^^ y) ^^^ (z ^^^ x) = x ^^^ y := by
    apply BitVec.eq_of_getLsbD_eq
    intro i _
    simp only [BitVec.getLsbD_xor]
    cases z.getLsbD i <;> simp [Bool.xor_comm]
  have htop : IsTop ((z ^^^ y) ^^^ (z ^^^ x)) b := hxor ▸ hx.xor_of_under hy
  rw [lt_iff_of_top htop, BitVec.getLsbD_xor, hx.one, Bool.xor_true, Bool.not_eq_true']

end IsTop

end BubbleStorm.Lib
