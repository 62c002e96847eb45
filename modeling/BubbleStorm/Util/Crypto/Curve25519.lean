/-
  BubbleStorm.Util.Crypto.Curve25519 — points of the curve and their 32 bytes
  (`src/util/crypto/curve25519.fun`), with exact arithmetic modulo `p`.

  A point is stored as its `x` with the sign of `y` in the highest bit; `load` computes
  the root and takes the one of that sign. Powers are chains of squarings.

  Proved: the chains have the exponents `p - 2` and `2 ^ 252 - 3` (`inv_eq`, `powq_eq`),
  `sqrt` gives a root of every square (`sqrt_square`), and `load` gives back every point
  that was stored; but `load` rejects nothing: where `x` has no point the result is off
  the curve (`codec`).
-/

import Mathlib.FieldTheory.Finite.Basic
import Mathlib.Tactic.LinearCombination
import Mathlib.Tactic.NormNum.Prime
import BubbleStorm.Lib.Lucas
import BubbleStorm.Util.Crypto.Counter
import BubbleStorm.Util.Crypto.Hmqv

namespace BubbleStorm.Util.Crypto.Curve25519

open BubbleStorm.Cusp (Bytes Exn)
open BubbleStorm.Lib
open BubbleStorm.Util.Crypto.Counter (little)

/-! ## The prime -/

def p : ℕ := 2 ^ 255 - 19

/-- What Lucas's test says of the prime, and of the large factors it rests on. -/
theorem lucas_tests : lucas 2773320623 5 [2, 2437, 569003] = true ∧ lucas 72106336199 7 [2, 13, 2773320623] = true ∧
    lucas 1919519569386763 2 [2, 3, 7, 19, 47, 47, 127, 8574133] = true ∧
    lucas 31757755568855353 10 [2, 2, 2, 3, 31, 107, 223, 4153, 430751] = true ∧
    lucas 75445702479781427272750846543864801 7 [2, 2, 2, 2, 2, 3, 3, 5, 5, 75707, 72106336199, 1919519569386763] = true ∧
    lucas 74058212732561358302231226437062788676166966415465897661863160754340907 2
      [2, 3, 353, 57467, 132049, 1923133, 31757755568855353, 75445702479781427272750846543864801] = true ∧
    lucas p 2 [2, 2, 3, 65147, 74058212732561358302231226437062788676166966415465897661863160754340907] = true := by
  decide +kernel

theorem prime_2773320623 : Nat.Prime 2773320623 := by
  refine prime_of_lucas _ _ ?_ lucas_tests.1
  simp only [List.forall_mem_cons, List.not_mem_nil, false_imp_iff, implies_true, and_true]
  norm_num

theorem prime_72106336199 : Nat.Prime 72106336199 := by
  refine prime_of_lucas _ _ ?_ lucas_tests.2.1
  simp only [List.forall_mem_cons, List.not_mem_nil, false_imp_iff, implies_true, and_true]
  exact ⟨by norm_num, by norm_num, prime_2773320623⟩

theorem prime_1919519569386763 : Nat.Prime 1919519569386763 := by
  refine prime_of_lucas _ _ ?_ lucas_tests.2.2.1
  simp only [List.forall_mem_cons, List.not_mem_nil, false_imp_iff, implies_true, and_true]
  norm_num

theorem prime_31757755568855353 : Nat.Prime 31757755568855353 := by
  refine prime_of_lucas _ _ ?_ lucas_tests.2.2.2.1
  simp only [List.forall_mem_cons, List.not_mem_nil, false_imp_iff, implies_true, and_true]
  norm_num

theorem prime_75445702479781427272750846543864801 : Nat.Prime 75445702479781427272750846543864801 := by
  refine prime_of_lucas _ _ ?_ lucas_tests.2.2.2.2.1
  intro q hq
  simp only [List.mem_cons, List.not_mem_nil, or_false] at hq
  rcases hq with rfl | rfl | rfl | rfl | rfl | rfl | rfl | rfl | rfl | rfl | rfl | rfl
  all_goals first | exact prime_72106336199 | exact prime_1919519569386763 | norm_num

theorem prime_cofactor : Nat.Prime 74058212732561358302231226437062788676166966415465897661863160754340907 := by
  refine prime_of_lucas _ _ ?_ lucas_tests.2.2.2.2.2.1
  intro q hq
  simp only [List.mem_cons, List.not_mem_nil, or_false] at hq
  rcases hq with rfl | rfl | rfl | rfl | rfl | rfl | rfl | rfl
  all_goals first | exact prime_31757755568855353 | exact prime_75445702479781427272750846543864801 | norm_num

theorem prime_p : Nat.Prime p := by
  refine prime_of_lucas _ _ ?_ lucas_tests.2.2.2.2.2.2
  intro q hq
  simp only [List.mem_cons, List.not_mem_nil, or_false] at hq
  rcases hq with rfl | rfl | rfl | rfl | rfl
  all_goals first | exact prime_cofactor | norm_num

instance : Fact p.Prime := ⟨prime_p⟩

abbrev Field := ZMod p

/-! ## The field -/

def A : Field := 486662

def sqr (x : Field) : Field := x * x

def sqri : Nat → Field → Field
  | 0, z => z
  | i + 1, z => sqri i (sqr z)

def powtrick (z : Field) : Field × Field :=
  let z2 := sqr z
  let z9 := sqr (sqr z2) * z
  let z11 := z9 * z2
  let z2_5_0 := sqr z11 * z9
  let z2_10_0 := sqri 5 z2_5_0 * z2_5_0
  let z2_20_0 := sqri 10 z2_10_0 * z2_10_0
  let z2_40_0 := sqri 20 z2_20_0 * z2_20_0
  let z2_50_0 := sqri 10 z2_40_0 * z2_10_0
  let z2_100_0 := sqri 50 z2_50_0 * z2_50_0
  let z2_200_0 := sqri 100 z2_100_0 * z2_100_0
  let z2_250_0 := sqri 50 z2_200_0 * z2_50_0
  (z2_250_0, z11)

/-- Power `2 ^ 252 - 3`. -/
def powq (z : Field) : Field :=
  let (z2_250_0, _) := powtrick z
  sqr (sqr z2_250_0) * z

/-- Power `2 ^ 255 - 21`. -/
def inv (z : Field) : Field :=
  let (z2_250_0, z11) := powtrick z
  let z2_255_5 := sqr (sqr (sqr (sqr (sqr z2_250_0))))
  z2_255_5 * z11

def s (two : Field) : Field := sqr (powq two) * two

def U (two : Field) : Field := (s two - 1) * inv two

/-- `fromInt 2`. -/
def two : Field := (2 : Nat)

def fU : Field := U two

def sqrt (z : Field) : Field :=
  let b := powq z
  let b' := b * z
  let test := z * sqr b
  b' * (1 + fU - test * fU)

/-! ## Bytes -/

def length : Nat := 32

def toVector (x : Field) : Bytes := little length x.val

/-- The highest bit does not count. -/
def fromVector (v : Bytes) : Field := (ofLittle v % 2 ^ 255 : ℕ)

def vHalf : Bytes := little length (2 ^ 254 - 10)

/-- `Iterator.collate Word8.compare`. -/
def collate : Bytes → Bytes → Ordering
  | [], [] => .eq
  | [], _ :: _ => .lt
  | _ :: _, [] => .gt
  | a :: as, b :: bs => (compare a b).then (collate as bs)

/-- The bytes are compared from the last one on. -/
def isNegative (x : Field) : Bool := collate (toVector x).reverse vHalf.reverse == .gt

structure Point where
  x : Field
  y : Field

def flip (i : Nat) (w : UInt8) : UInt8 := if i = 31 then 0x80 ||| w else w

def store (P : Point) : Bytes :=
  let v := toVector P.x
  if isNegative P.y then v.mapIdx flip else v

def load (v : Bytes) : Except Exn Point :=
  match v[31]? with
  | none => .error .subscript
  | some w =>
    let positive := decide (0x80 &&& w = 0)
    let x := fromVector v
    let x2 := sqr x
    let y2 := x2 * x + x2 * A + x
    let y := sqrt y2
    let y := if isNegative y = positive then (p : Field) - y else y
    .ok ⟨x, y⟩

def OnCurve (P : Point) : Prop := P.y ^ 2 = P.x ^ 3 + A * P.x ^ 2 + P.x

/-! ## Powers -/

theorem sqr_pow (z : Field) (n : Nat) : sqr (z ^ n) = z ^ (2 * n) := by
  unfold sqr
  rw [← pow_add, two_mul]

theorem sqri_pow (i : Nat) (z : Field) (n : Nat) : sqri i (z ^ n) = z ^ (2 ^ i * n) := by
  induction i generalizing n with
  | zero =>
    rw [pow_zero, one_mul]
    rfl
  | succ i ih =>
    show sqri i (sqr (z ^ n)) = _
    rw [sqr_pow, ih, ← mul_assoc, ← pow_succ]

/-- The next run of ones in the exponent. -/
theorem run_of_ones (z : Field) (i j : Nat) : sqri i (z ^ (2 ^ j - 1)) * z ^ (2 ^ i - 1) = z ^ (2 ^ (j + i) - 1) := by
  have hi : 0 < 2 ^ i := Nat.two_pow_pos i
  have hj : 0 < 2 ^ j := Nat.two_pow_pos j
  have hmul : 2 ^ i * (2 ^ j - 1) = 2 ^ (j + i) - 2 ^ i := by
    rw [Nat.mul_sub, mul_one, pow_add, mul_comm]
  have hle : 2 ^ i ≤ 2 ^ (j + i) := Nat.pow_le_pow_right (by decide) (Nat.le_add_left i j)
  rw [sqri_pow, ← pow_add, hmul]
  congr 1
  omega

theorem powtrick_eq (z : Field) : powtrick z = (z ^ (2 ^ 250 - 1), z ^ 11) := by
  have h2 : sqr z = z ^ 2 := (sq z).symm
  have h9 : sqr (sqr (sqr z)) * z = z ^ 9 := by
    rw [h2, sqr_pow, sqr_pow, ← pow_succ]
  have h11 : z ^ 9 * z ^ 2 = z ^ 11 := (pow_add z 9 2).symm
  have h5 : sqr (z ^ 11) * z ^ 9 = z ^ (2 ^ 5 - 1) := by
    rw [sqr_pow, ← pow_add]
    norm_num
  unfold powtrick
  dsimp only
  rw [h9, h2, h11, h5, run_of_ones, run_of_ones, run_of_ones, run_of_ones, run_of_ones, run_of_ones, run_of_ones]

theorem powq_eq (z : Field) : powq z = z ^ (2 ^ 252 - 3) := by
  unfold powq
  rw [powtrick_eq]
  dsimp only
  have hexp : 2 * (2 * (2 ^ 250 - 1)) + 1 = 2 ^ 252 - 3 := by norm_num
  rw [sqr_pow, sqr_pow, ← pow_succ, hexp]

theorem inv_eq (z : Field) : inv z = z ^ (p - 2) := by
  unfold inv
  rw [powtrick_eq]
  dsimp only
  rw [sqr_pow, sqr_pow, sqr_pow, sqr_pow, sqr_pow, ← pow_add]
  rfl

theorem inv_mul {z : Field} (hz : z ≠ 0) : inv z * z = 1 := by
  rw [inv_eq, ← pow_succ]
  exact ZMod.pow_card_sub_one_eq_one hz

/-! ## Roots -/

/-- What `powMod` computes. -/
theorem natCast_pow (a n : ℕ) (hn : n < 2 ^ 256) : ((a : Field)) ^ n = (powMod p 256 1 a n : ℕ) := by
  rw [powMod_eq p hn, one_mul, ZMod.natCast_mod, Nat.cast_pow]

theorem natCast_pred : ((p - 1 : ℕ) : Field) = -1 := by
  have h : ((p - 1 + 1 : ℕ) : Field) = 0 := ZMod.natCast_self p
  rw [Nat.cast_add, Nat.cast_one] at h
  exact eq_neg_of_add_eq_zero_left h

/-- `s 2` is a root of -1, as 2 is no square. -/
theorem s_two : s 2 * s 2 = -1 := by
  have hpow : s 2 * s 2 = ((2 : ℕ) : Field) ^ (2 ^ 254 - 10) := by
    unfold s
    rw [powq_eq, sqr_pow, ← pow_succ, ← pow_add]
    rfl
  have heval : powMod p 256 1 2 (2 ^ 254 - 10) = p - 1 := by decide +kernel
  rw [hpow, natCast_pow _ _ (by norm_num), heval, natCast_pred]

theorem two_eq : two = 2 := Nat.cast_ofNat

theorem fU_two : 1 + fU + fU = s 2 := by
  have htwo : inv 2 * 2 = 1 := by
    refine inv_mul ?_
    intro h
    have hdvd : ((2 : ℕ) : Field) = 0 := h
    rw [ZMod.natCast_eq_zero_iff] at hdvd
    exact absurd (Nat.le_of_dvd (by decide) hdvd) (by decide)
  unfold fU U
  rw [two_eq]
  linear_combination (s 2 - 1) * htwo

/-- `test` is a root of one. -/
theorem test_square {y : Field} (hy : y ≠ 0) : (y * y * sqr (powq (y * y))) ^ 2 = 1 := by
  have hpow : (y * y * sqr (powq (y * y))) ^ 2 = y ^ (p - 1) := by
    rw [← sq, powq_eq, sqr_pow, ← pow_succ', ← pow_mul, ← pow_mul]
    rfl
  rw [hpow]
  exact ZMod.pow_card_sub_one_eq_one hy

theorem sqrt_square (y : Field) : sqrt (y * y) = y ∨ sqrt (y * y) = -y := by
  rw [← sq_eq_sq_iff_eq_or_eq_neg]
  unfold sqrt
  dsimp only
  by_cases hy : y = 0
  · rw [hy]
    simp
  · have hone := test_square hy
    have hs := s_two
    have hU := fU_two
    generalize htest : y * y * sqr (powq (y * y)) = test at hone ⊢
    have hroot : (powq (y * y) * (y * y)) ^ 2 = test * y ^ 2 := by
      rw [← htest]
      unfold sqr
      ring
    rcases mul_self_eq_one_iff.mp ((sq test).symm.trans hone) with rfl | rfl
    · rw [one_mul, add_sub_cancel_right, mul_one, hroot, one_mul]
    · have hfactor : 1 + fU - -1 * fU = s 2 := by
        rw [← hU]
        ring
      rw [hfactor, mul_pow, hroot, sq (s 2), hs]
      ring

/-! ## Signs -/

theorem ofLittle_cons (b : UInt8) (v : Bytes) : ofLittle (b :: v) = b.toNat + 256 * ofLittle v := rfl

theorem ofLittle_append (v w : Bytes) : ofLittle (v ++ w) = ofLittle v + 256 ^ v.length * ofLittle w := by
  induction v with
  | nil =>
    rw [List.nil_append, List.length_nil, pow_zero, one_mul]
    exact (Nat.zero_add _).symm
  | cons b v ih =>
    rw [List.cons_append, ofLittle_cons, ofLittle_cons, ih, List.length_cons, pow_succ]
    ring

theorem ofLittle_little (n x : Nat) : ofLittle (little n x) = x % 256 ^ n := by
  induction n generalizing x with
  | zero =>
    rw [pow_zero, Nat.mod_one]
    rfl
  | succ n ih =>
    rw [Counter.little_succ, ofLittle_cons, ih, UInt8.toNat_ofNat', pow_succ' 256 n]
    exact (Nat.mod_mul).symm

theorem collate_append {v w : Bytes} (h : v.length = w.length) (a b : UInt8) :
    collate (v ++ [a]) (w ++ [b]) = (collate v w).then (compare a b) := by
  induction v generalizing w with
  | nil =>
    cases w with
    | nil =>
      show (compare a b).then .eq = _
      cases compare a b <;> rfl
    | cons c w => cases h
  | cons c v ih =>
    cases w with
    | nil => cases h
    | cons d w =>
      show (compare c d).then (collate (v ++ [a]) (w ++ [b])) = ((compare c d).then (collate v w)).then (compare a b)
      rw [ih (Nat.succ.inj h)]
      cases compare c d <;> rfl

/-- The last byte of two numbers decides only if the others are the same. -/
theorem compare_digit (a b : UInt8) (m n : Nat) :
    compare (a.toNat + 256 * m) (b.toNat + 256 * n) = (compare m n).then (compare a b) := by
  have ha := a.toNat_lt
  have hb := b.toNat_lt
  have hbytes : compare a b = compare a.toNat b.toNat := by
    show compareOfLessAndEq a b = compareOfLessAndEq a.toNat b.toNat
    unfold compareOfLessAndEq
    simp only [UInt8.lt_iff_toNat_lt, ← UInt8.toNat_inj]
  rw [hbytes]
  rcases Nat.lt_trichotomy m n with h | h | h
  · rw [Nat.compare_eq_lt.mpr h, Nat.compare_eq_lt.mpr (by omega)]
    rfl
  · subst h
    rw [Nat.compare_eq_eq.mpr rfl]
    rcases Nat.lt_trichotomy a.toNat b.toNat with h' | h' | h'
    · rw [Nat.compare_eq_lt.mpr h', Nat.compare_eq_lt.mpr (by omega)]
      rfl
    · rw [h', Nat.compare_eq_eq.mpr rfl, Nat.compare_eq_eq.mpr rfl]
      rfl
    · rw [Nat.compare_eq_gt.mpr h', Nat.compare_eq_gt.mpr (by omega)]
      rfl
  · rw [Nat.compare_eq_gt.mpr h, Nat.compare_eq_gt.mpr (by omega)]
    rfl

theorem collate_reverse {v w : Bytes} (h : v.length = w.length) : collate v.reverse w.reverse = compare (ofLittle v) (ofLittle w) := by
  induction v generalizing w with
  | nil =>
    cases w with
    | nil => rfl
    | cons c w => cases h
  | cons a v ih =>
    cases w with
    | nil => cases h
    | cons b w =>
      have hlen := Nat.succ.inj h
      rw [List.reverse_cons, List.reverse_cons, collate_append (by rw [List.length_reverse, List.length_reverse]; exact hlen),
        ih hlen, ofLittle_cons, ofLittle_cons, compare_digit]

theorem val_lt (x : Field) : x.val < 2 ^ 255 - 19 := ZMod.val_lt x

theorem isNegative_iff (x : Field) : isNegative x = true ↔ 2 ^ 254 - 10 < x.val := by
  have hx := val_lt x
  unfold isNegative toVector vHalf
  rw [collate_reverse (by rw [Counter.length_little, Counter.length_little]), ofLittle_little, ofLittle_little, beq_iff_eq,
    Nat.compare_eq_gt, Nat.mod_eq_of_lt (show x.val < 256 ^ length by unfold length; omega),
    Nat.mod_eq_of_lt (show 2 ^ 254 - 10 < 256 ^ length by unfold length; omega)]

/-- Of two opposite elements one is negative. -/
theorem isNegative_neg {y : Field} (hy : y ≠ 0) : isNegative (-y) = !isNegative y := by
  have hlt := val_lt y
  have hpos : 0 < y.val := Nat.pos_of_ne_zero fun h => hy ((ZMod.val_eq_zero y).mp h)
  have hneg : (-y).val = 2 ^ 255 - 19 - y.val := by
    rw [ZMod.neg_val, if_neg hy]
    rfl
  rw [Bool.eq_iff_iff, Bool.not_eq_true', ← Bool.not_eq_true, isNegative_iff, isNegative_iff, hneg]
  omega

/-! ## The codec -/

/-- A byte of at most 7 bits, with and without the sign. -/
theorem sign_bit {t : Nat} (ht : t < 128) : (0x80 ||| UInt8.ofNat t).toNat = 128 + t ∧ (0x80 &&& (0x80 ||| UInt8.ofNat t)) ≠ 0 ∧
    (0x80 &&& UInt8.ofNat t) = 0 := by
  have hall : ∀ t : Fin 128, (0x80 ||| UInt8.ofNat t).toNat = 128 + t ∧ (0x80 &&& (0x80 ||| UInt8.ofNat t)) ≠ 0 ∧
      (0x80 &&& UInt8.ofNat t) = 0 := by decide +kernel
  exact hall ⟨t, ht⟩

theorem toVector_eq (x : Field) : toVector x = little 31 x.val ++ [UInt8.ofNat (x.val / 256 ^ 31)] := by
  unfold toVector length little
  rw [List.range_succ, List.map_append, List.map_singleton]

theorem last_byte {v : Bytes} (hv : v.length = 31) (w : UInt8) : (v ++ [w])[31]? = some w := by
  rw [← hv]
  exact List.getElem?_concat_length

theorem mapIdx_flip (v : Bytes) (hv : v.length = 31) (w : UInt8) : (v ++ [w]).mapIdx flip = v ++ [0x80 ||| w] := by
  rw [List.mapIdx_append]
  congr 1
  · apply List.ext_getElem?
    intro i
    rw [List.getElem?_mapIdx]
    by_cases hi : i < v.length
    · rw [List.getElem?_eq_getElem hi, Option.map_some]
      unfold flip
      rw [if_neg (by omega)]
    · rw [List.getElem?_eq_none (by omega)]
      rfl
  · rw [hv]
    rfl

/-- What is stored: the number `x`, and the sign of `y`. -/
theorem store_eq (P : Point) : ∃ w : UInt8, (store P)[31]? = some w ∧ decide (0x80 &&& w = 0) = !isNegative P.y ∧
    fromVector (store P) = P.x := by
  have hx := val_lt P.x
  have ht : P.x.val / 256 ^ 31 < 128 := by omega
  obtain ⟨hor, hset, hclear⟩ := sign_bit ht
  have hlow : (little 31 P.x.val).length = 31 := Counter.length_little ..
  have hvalue : ofLittle (little 31 P.x.val) + 256 ^ 31 * (P.x.val / 256 ^ 31) = P.x.val := by
    rw [ofLittle_little]
    exact Nat.mod_add_div _ _
  have hbyte : (UInt8.ofNat (P.x.val / 256 ^ 31)).toNat = P.x.val / 256 ^ 31 := by
    rw [UInt8.toNat_ofNat']
    omega
  unfold store fromVector
  dsimp only
  rw [toVector_eq]
  by_cases hneg : isNegative P.y = true
  · rw [if_pos hneg, mapIdx_flip _ hlow, hneg]
    refine ⟨_, last_byte hlow _, decide_eq_false hset, ?_⟩
    rw [ofLittle_append, hlow, ofLittle_cons, hor]
    have hmod : (ofLittle (little 31 P.x.val) + 256 ^ 31 * (128 + P.x.val / 256 ^ 31 + 256 * ofLittle [])) % 2 ^ 255 = P.x.val := by
      show (ofLittle (little 31 P.x.val) + 256 ^ 31 * (128 + P.x.val / 256 ^ 31 + 256 * 0)) % 2 ^ 255 = P.x.val
      omega
    rw [hmod, ZMod.natCast_zmod_val]
  · rw [if_neg hneg, Bool.eq_false_iff.mpr hneg]
    refine ⟨_, last_byte hlow _, decide_eq_true hclear, ?_⟩
    rw [ofLittle_append, hlow, ofLittle_cons, hbyte]
    have hmod : (ofLittle (little 31 P.x.val) + 256 ^ 31 * (P.x.val / 256 ^ 31 + 256 * ofLittle [])) % 2 ^ 255 = P.x.val := by
      show (ofLittle (little 31 P.x.val) + 256 ^ 31 * (P.x.val / 256 ^ 31 + 256 * 0)) % 2 ^ 255 = P.x.val
      omega
    rw [hmod, ZMod.natCast_zmod_val]

/-- The other side of the curve's equation. -/
def square (x : Field) : Field := sqr x * x + sqr x * A + x

theorem onCurve_iff (P : Point) : OnCurve P ↔ P.y * P.y = square P.x := by
  unfold OnCurve square sqr
  constructor
  · intro h
    linear_combination h
  · intro h
    linear_combination h

/-- `fP` is zero, so the subtraction is the negation. -/
theorem sub_p (y : Field) : (p : Field) - y = -y := by
  rw [ZMod.natCast_self, zero_sub]

theorem load_eq {v : Bytes} {w : UInt8} (hw : v[31]? = some w) : load v = .ok ⟨fromVector v,
    if isNegative (sqrt (square (fromVector v))) = decide (0x80 &&& w = 0) then -sqrt (square (fromVector v))
    else sqrt (square (fromVector v))⟩ := by
  unfold load
  rw [hw]
  dsimp only
  rw [sub_p]
  rfl

theorem load_store {P : Point} (h : OnCurve P) : load (store P) = .ok P := by
  obtain ⟨w, hw, hpositive, hx⟩ := store_eq P
  have hsquare := (onCurve_iff P).mp h
  rw [load_eq hw, hx, hpositive, ← hsquare]
  have hy : (if isNegative (sqrt (P.y * P.y)) = !isNegative P.y then -sqrt (P.y * P.y) else sqrt (P.y * P.y)) = P.y := by
    rcases sqrt_square P.y with hroot | hroot
    · rw [hroot]
      cases isNegative P.y <;> rfl
    · rw [hroot, neg_neg]
      by_cases hzero : P.y = 0
      · rw [hzero, neg_zero]
        split <;> rfl
      · rw [isNegative_neg hzero, if_pos rfl]
  rw [hy]

/-- Every encoding is loaded, and gives a point if its `x` has one. -/
theorem load_onCurve {v : Bytes} (hv : v.length = length) : ∃ P, load v = .ok P ∧ P.x = fromVector v ∧
    (OnCurve P ↔ ∃ y, OnCurve ⟨fromVector v, y⟩) := by
  obtain ⟨w, hw⟩ : ∃ w, v[31]? = some w := ⟨_, List.getElem?_eq_getElem (by rw [hv]; decide)⟩
  refine ⟨_, load_eq hw, rfl, ?_⟩
  constructor
  · intro h
    exact ⟨_, h⟩
  · rintro ⟨y, hy⟩
    have hsquare : y * y = square (fromVector v) := (onCurve_iff ⟨fromVector v, y⟩).mp hy
    rw [onCurve_iff]
    dsimp only
    rw [← hsquare]
    rcases sqrt_square y with hroot | hroot
    · rw [hroot]
      split
      · exact neg_mul_neg y y
      · rfl
    · rw [hroot]
      split
      · rw [neg_neg]
      · exact neg_mul_neg y y

/-- The codec of the curve: the inverse, points that come back, and what `load` accepts. -/
theorem codec : (∀ z : Field, z ≠ 0 → inv z * z = 1) ∧ (∀ P, OnCurve P → load (store P) = .ok P) ∧
    ∀ v : Bytes, v.length = length → ∃ P, load v = .ok P ∧ P.x = fromVector v ∧ (OnCurve P ↔ ∃ y, OnCurve ⟨fromVector v, y⟩) :=
  ⟨fun _ hz => inv_mul hz, fun _ h => load_store h, fun _ hv => load_onCurve hv⟩

/-- No point of the curve has 2 for its `x`, and `load` takes it all the same. -/
theorem two_not_rejected : ¬ ∀ v : Bytes, v.length = length → (∀ y, ¬ OnCurve ⟨fromVector v, y⟩) → ∃ e, load v = .error e := by
  intro h
  have hx : fromVector (2 :: List.replicate 31 0) = (2 : ℕ) := by
    unfold fromVector
    have hvalue : ofLittle (2 :: List.replicate 31 0) % 2 ^ 255 = 2 := by decide +kernel
    rw [hvalue]
  obtain ⟨e, he⟩ := h (2 :: List.replicate 31 0) (by decide) fun y hy => by
    rw [hx, onCurve_iff] at hy
    have hsquare : y * y = ((1946658 : ℕ) : Field) := by
      refine hy.trans ?_
      unfold square sqr A
      push_cast
      ring
    have hne : y ≠ 0 := by
      intro hzero
      rw [hzero, mul_zero] at hsquare
      have hdvd := (ZMod.natCast_eq_zero_iff 1946658 p).mp hsquare.symm
      exact absurd (Nat.le_of_dvd (by decide) hdvd) (by decide)
    have hone : y ^ (p - 1) = 1 := ZMod.pow_card_sub_one_eq_one hne
    have heuler : y ^ (p - 1) = -1 := by
      have heval : powMod p 256 1 1946658 (2 ^ 254 - 10) = p - 1 := by decide +kernel
      have hexp : y ^ (p - 1) = (y * y) ^ (2 ^ 254 - 10) := by
        rw [← sq, ← pow_mul]
        rfl
      rw [hexp, hsquare, natCast_pow _ _ (by norm_num), heval, natCast_pred]
    rw [heuler] at hone
    have htwo : ((2 : ℕ) : Field) = 0 := by
      push_cast
      linear_combination -hone
    rw [ZMod.natCast_eq_zero_iff] at htwo
    exact absurd (Nat.le_of_dvd (by decide) htwo) (by decide)
  obtain ⟨P, hP, -⟩ := load_onCurve (v := 2 :: List.replicate 31 0) (by decide)
  rw [hP] at he
  cases he

end BubbleStorm.Util.Crypto.Curve25519
