/-
  BubbleStorm.Util.Crypto.Field25519ML — the portable field of the curve
  (`src/util/crypto/field25519ml.sml`).

  An element is an `IntInf`, and nothing keeps it below `p`: `fromVector` only masks its
  255 bits, and `sub` of two equal elements is `p`. A computation is a tree of the
  operations over elements that were read (`Expr`).

  Proved: every operation is right modulo `p`; its result is canonical in every
  computation that neither adds two elements to `2 * p` or more nor subtracts an element
  from itself, or across `p` (`right_iff`); and `load` itself subtracts zero from `p`
  (`p_minus_zero`).
-/

import Mathlib.Data.Int.ModEq
import BubbleStorm.Util.Crypto.Hmqv

namespace BubbleStorm.Util.Crypto.Field25519ML

open BubbleStorm.Cusp (Bytes)

def p : Int := 2 ^ 255 - 19

/-- `~>>` by 255. -/
def shift (z : Int) : Int := z / 2 ^ 255

/-- `andb` with the mask of 255 ones. -/
def andMask (z : Int) : Int := z % 2 ^ 255

def add (x y : Int) : Int :=
  let z := x + y
  if p ≤ z then z - p else z

def sub (x y : Int) : Int := if y < x then x - y else p + x - y

/-- The bits from 255 on count 19 times. -/
def fold (z : Int) : Int := shift z * 19 + andMask z

def mul (x y : Int) : Int :=
  let step1 := fold (x * y)
  let step2 := fold step1
  if p ≤ step2 then step2 - p else step2

def sqr (x : Int) : Int := mul x x

def mulC (x : Int) (c : Int) : Int :=
  let z := fold (x * c)
  if p ≤ z then z - p else z

def fromVector (v : Bytes) : Int := andMask (ofLittle v)

/-! ## One operation -/

/-- The representative in `[0, p)` of an exact result. -/
structure Canonical (exact z : Int) : Prop where
  nonneg : 0 ≤ z
  lt : z < p
  congr : z ≡ exact [ZMOD p]

/-- What is read, and what a canonical element is, has 255 bits. -/
def Bits (z : Int) : Prop := 0 ≤ z ∧ z < 2 ^ 255

theorem Canonical.bits {exact z : Int} (h : Canonical exact z) : Bits z := by
  refine ⟨h.nonneg, h.lt.trans ?_⟩
  unfold p
  omega

theorem fromVector_bits (v : Bytes) : Bits (fromVector v) := by
  unfold fromVector andMask Bits
  omega

theorem sub_p_congr (z : Int) : z - p ≡ z [ZMOD p] := by
  simp [Int.ModEq]

theorem fold_congr (z : Int) : fold z ≡ z [ZMOD p] := by
  have hz : fold z = z - p * shift z := by
    unfold fold shift andMask p
    omega
  rw [hz]
  simp [Int.ModEq]

theorem add_congr (x y : Int) : add x y ≡ x + y [ZMOD p] := by
  unfold add
  dsimp only
  split
  · exact sub_p_congr _
  · exact Int.ModEq.refl _

theorem sub_congr (x y : Int) : sub x y ≡ x - y [ZMOD p] := by
  unfold sub
  split
  · exact Int.ModEq.refl _
  · have h : p + x - y = x - y + p := by omega
    rw [h]
    simp [Int.ModEq]

theorem mul_congr (x y : Int) : mul x y ≡ x * y [ZMOD p] := by
  have h : fold (fold (x * y)) ≡ x * y [ZMOD p] := (fold_congr _).trans (fold_congr _)
  unfold mul
  dsimp only
  split
  · exact (sub_p_congr _).trans h
  · exact h

theorem mulC_congr (x c : Int) : mulC x c ≡ x * c [ZMOD p] := by
  unfold mulC
  dsimp only
  split
  · exact (sub_p_congr _).trans (fold_congr _)
  · exact fold_congr _

theorem add_canonical_iff {x y : Int} (hx : Bits x) (hy : Bits y) : Canonical (x + y) (add x y) ↔ x + y < 2 * p := by
  obtain ⟨hx0, hx1⟩ := hx
  obtain ⟨hy0, hy1⟩ := hy
  have hcongr := add_congr x y
  unfold add at hcongr ⊢
  dsimp only at hcongr ⊢
  constructor
  · intro ⟨_, hlt, _⟩
    split at hlt
    · omega
    · omega
  · intro h
    refine ⟨?_, ?_, hcongr⟩
    · split <;> omega
    · split <;> omega

/-- Neither equal, nor further apart than the field is wide. -/
def Apart (x y : Int) : Prop := x ≠ y ∧ x - y < p ∧ y - x ≤ p

theorem sub_canonical_iff (x y : Int) : Canonical (x - y) (sub x y) ↔ Apart x y := by
  have hcongr := sub_congr x y
  have hp : 0 < p := by decide
  unfold sub Apart at *
  constructor
  · intro ⟨h0, hlt, _⟩
    split at h0 <;> split at hlt <;> omega
  · intro ⟨hne, hlt, hle⟩
    refine ⟨?_, ?_, hcongr⟩
    · split <;> omega
    · split <;> omega

/-- Twice folded, a product is below `2 * p`. -/
theorem mul_canonical {x y : Int} (hx : Bits x) (hy : Bits y) : Canonical (x * y) (mul x y) := by
  obtain ⟨hx0, hx1⟩ := hx
  obtain ⟨hy0, hy1⟩ := hy
  have h0 : 0 ≤ x * y := Int.mul_nonneg hx0 hy0
  have h1 : x * y ≤ (2 ^ 255 - 1) * (2 ^ 255 - 1) := Int.mul_le_mul (by omega) (by omega) hy0 (by omega)
  have hcongr := mul_congr x y
  unfold mul at hcongr ⊢
  dsimp only at hcongr ⊢
  generalize x * y = z at *
  have hs : 0 ≤ fold z ∧ fold z < 20 * 2 ^ 255 := by
    unfold fold shift andMask
    omega
  have ht : 0 ≤ fold (fold z) ∧ fold (fold z) < 2 * p := by
    generalize fold z = s at hs
    unfold fold shift andMask p
    omega
  refine ⟨?_, ?_, hcongr⟩
  · split <;> omega
  · split <;> omega

theorem mulC_canonical {x c : Int} (hx : Bits x) (hc0 : 0 ≤ c) (hc1 : c < 2 ^ 63) : Canonical (x * c) (mulC x c) := by
  obtain ⟨hx0, hx1⟩ := hx
  have h0 : 0 ≤ x * c := Int.mul_nonneg hx0 hc0
  have h1 : x * c ≤ (2 ^ 255 - 1) * (2 ^ 63 - 1) := Int.mul_le_mul (by omega) (by omega) hc0 (by omega)
  have hcongr := mulC_congr x c
  unfold mulC at hcongr ⊢
  dsimp only at hcongr ⊢
  generalize x * c = z at *
  have ht : 0 ≤ fold z ∧ fold z < 2 * p := by
    unfold fold shift andMask p
    omega
  refine ⟨?_, ?_, hcongr⟩
  · split <;> omega
  · split <;> omega

/-! ## Computations -/

/-- The constants of `mulC` are not negative. -/
inductive Expr where
  | fromVector (v : Bytes)
  | add (a b : Expr)
  | sub (a b : Expr)
  | mul (a b : Expr)
  | sqr (a : Expr)
  | mulC (a : Expr) (c : Fin (2 ^ 63))

namespace Expr

def eval : Expr → Int
  | fromVector v => Field25519ML.fromVector v
  | add a b => Field25519ML.add a.eval b.eval
  | sub a b => Field25519ML.sub a.eval b.eval
  | mul a b => Field25519ML.mul a.eval b.eval
  | sqr a => Field25519ML.sqr a.eval
  | mulC a c => Field25519ML.mulC a.eval (c : Nat)

/-- The result of every operation is canonical. -/
def Right : Expr → Prop
  | fromVector _ => True
  | add a b => a.Right ∧ b.Right ∧ Canonical (a.eval + b.eval) (add a b).eval
  | sub a b => a.Right ∧ b.Right ∧ Canonical (a.eval - b.eval) (sub a b).eval
  | mul a b => a.Right ∧ b.Right ∧ Canonical (a.eval * b.eval) (mul a b).eval
  | sqr a => a.Right ∧ Canonical (a.eval * a.eval) (sqr a).eval
  | mulC a c => a.Right ∧ Canonical (a.eval * (c : Nat)) (mulC a c).eval

/-- The operands every `add` and every `sub` can reduce. -/
def Reducible : Expr → Prop
  | fromVector _ => True
  | add a b => a.Reducible ∧ b.Reducible ∧ a.eval + b.eval < 2 * p
  | sub a b => a.Reducible ∧ b.Reducible ∧ Apart a.eval b.eval
  | mul a b => a.Reducible ∧ b.Reducible
  | sqr a => a.Reducible
  | mulC a _ => a.Reducible

theorem bits {e : Expr} (h : e.Right) : Bits e.eval := by
  cases e with
  | fromVector v => exact fromVector_bits v
  | add a b => exact h.2.2.bits
  | sub a b => exact h.2.2.bits
  | mul a b => exact h.2.2.bits
  | sqr a => exact h.2.bits
  | mulC a c => exact h.2.bits

theorem right_iff (e : Expr) : e.Right ↔ e.Reducible := by
  induction e with
  | fromVector v => exact Iff.rfl
  | add a b iha ihb =>
    constructor
    · intro ⟨ha, hb, h⟩
      exact ⟨iha.mp ha, ihb.mp hb, (add_canonical_iff (bits ha) (bits hb)).mp h⟩
    · intro ⟨ha, hb, h⟩
      have ha := iha.mpr ha
      have hb := ihb.mpr hb
      exact ⟨ha, hb, (add_canonical_iff (bits ha) (bits hb)).mpr h⟩
  | sub a b iha ihb =>
    constructor
    · intro ⟨ha, hb, h⟩
      exact ⟨iha.mp ha, ihb.mp hb, (sub_canonical_iff _ _).mp h⟩
    · intro ⟨ha, hb, h⟩
      exact ⟨iha.mpr ha, ihb.mpr hb, (sub_canonical_iff _ _).mpr h⟩
  | mul a b iha ihb =>
    constructor
    · intro ⟨ha, hb, _⟩
      exact ⟨iha.mp ha, ihb.mp hb⟩
    · intro ⟨ha, hb⟩
      have ha := iha.mpr ha
      have hb := ihb.mpr hb
      exact ⟨ha, hb, mul_canonical (bits ha) (bits hb)⟩
  | sqr a iha =>
    constructor
    · intro ⟨ha, _⟩
      exact iha.mp ha
    · intro ha
      have ha := iha.mpr ha
      exact ⟨ha, mul_canonical (bits ha) (bits ha)⟩
  | mulC a c iha =>
    constructor
    · intro ⟨ha, _⟩
      exact iha.mp ha
    · intro ha
      have ha := iha.mpr ha
      have hc := c.isLt
      exact ⟨ha, mulC_canonical (bits ha) (by omega) (by omega)⟩

/-- The bytes of `p`, which `fP` holds. -/
def pBytes : Bytes := 237 :: List.replicate 30 255 ++ [127]

/-- `load` of a point with `x = 0` and the sign bit: `fP - y`, and `y` is zero. -/
theorem p_minus_zero : ¬ ∀ e : Expr, e.Right := by
  intro h
  obtain ⟨-, -, hc⟩ := h (sub (fromVector pBytes) (fromVector (List.replicate 32 0)))
  have hlt := hc.lt
  revert hlt
  decide

end Expr

end BubbleStorm.Util.Crypto.Field25519ML
