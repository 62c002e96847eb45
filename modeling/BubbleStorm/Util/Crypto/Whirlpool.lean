/-
  BubbleStorm.Util.Crypto.Whirlpool — the compression function with its lookup tables
  (`src/util/crypto/whirlpool.sml`), and the block cipher it stands for.

  A state is eight words. As a matrix of bytes a word is a row, its highest byte in the
  first column. The code fuses substitution, shift and diffusion: table `k` has, for a
  byte in column `k`, what that byte adds to a row of the product.

  Proved: on the bytes, the code's round is the cipher's (`bytes_matrix`), for the state
  and for the key, and so `compress` is the Miyaguchi-Preneel compression with that
  cipher (`compress_eq`).
-/

import Mathlib.Data.Fin.VecNotation
import Mathlib.Data.List.FinRange

namespace BubbleStorm.Util.Crypto.Whirlpool

/-! ## The code -/

def sbox : List (BitVec 8) :=
  [0x18, 0x23, 0xc6, 0xe8, 0x87, 0xb8, 0x01, 0x4f, 0x36, 0xa6, 0xd2, 0xf5, 0x79, 0x6f, 0x91, 0x52,
   0x60, 0xbc, 0x9b, 0x8e, 0xa3, 0x0c, 0x7b, 0x35, 0x1d, 0xe0, 0xd7, 0xc2, 0x2e, 0x4b, 0xfe, 0x57,
   0x15, 0x77, 0x37, 0xe5, 0x9f, 0xf0, 0x4a, 0xda, 0x58, 0xc9, 0x29, 0x0a, 0xb1, 0xa0, 0x6b, 0x85,
   0xbd, 0x5d, 0x10, 0xf4, 0xcb, 0x3e, 0x05, 0x67, 0xe4, 0x27, 0x41, 0x8b, 0xa7, 0x7d, 0x95, 0xd8,
   0xfb, 0xee, 0x7c, 0x66, 0xdd, 0x17, 0x47, 0x9e, 0xca, 0x2d, 0xbf, 0x07, 0xad, 0x5a, 0x83, 0x33,
   0x63, 0x02, 0xaa, 0x71, 0xc8, 0x19, 0x49, 0xd9, 0xf2, 0xe3, 0x5b, 0x88, 0x9a, 0x26, 0x32, 0xb0,
   0xe9, 0x0f, 0xd5, 0x80, 0xbe, 0xcd, 0x34, 0x48, 0xff, 0x7a, 0x90, 0x5f, 0x20, 0x68, 0x1a, 0xae,
   0xb4, 0x54, 0x93, 0x22, 0x64, 0xf1, 0x73, 0x12, 0x40, 0x08, 0xc3, 0xec, 0xdb, 0xa1, 0x8d, 0x3d,
   0x97, 0x00, 0xcf, 0x2b, 0x76, 0x82, 0xd6, 0x1b, 0xb5, 0xaf, 0x6a, 0x50, 0x45, 0xf3, 0x30, 0xef,
   0x3f, 0x55, 0xa2, 0xea, 0x65, 0xba, 0x2f, 0xc0, 0xde, 0x1c, 0xfd, 0x4d, 0x92, 0x75, 0x06, 0x8a,
   0xb2, 0xe6, 0x0e, 0x1f, 0x62, 0xd4, 0xa8, 0x96, 0xf9, 0xc5, 0x25, 0x59, 0x84, 0x72, 0x39, 0x4c,
   0x5e, 0x78, 0x38, 0x8c, 0xd1, 0xa5, 0xe2, 0x61, 0xb3, 0x21, 0x9c, 0x1e, 0x43, 0xc7, 0xfc, 0x04,
   0x51, 0x99, 0x6d, 0x0d, 0xfa, 0xdf, 0x7e, 0x24, 0x3b, 0xab, 0xce, 0x11, 0x8f, 0x4e, 0xb7, 0xeb,
   0x3c, 0x81, 0x94, 0xf7, 0xb9, 0x13, 0x2c, 0xd3, 0xe7, 0x6e, 0xc4, 0x03, 0x56, 0x44, 0x7f, 0xa9,
   0x2a, 0xbb, 0xc1, 0x53, 0xdc, 0x0b, 0x9d, 0x6c, 0x31, 0x74, 0xf6, 0x46, 0xac, 0x89, 0x14, 0xe1,
   0x16, 0x3a, 0x69, 0x09, 0x70, 0xb6, 0xd0, 0xed, 0xcc, 0x42, 0x98, 0xa4, 0x28, 0x5c, 0xf8, 0x86]

def dbl (x : BitVec 8) : BitVec 8 := (x <<< 1) ^^^ (if x &&& 0x80 = 0 then 0 else 0x1d)

/-- The word of `C0f` for the byte of the S-box. -/
def word (v1 : BitVec 8) : BitVec 64 :=
  let v2 := dbl v1
  let v4 := dbl v2
  let v5 := v4 ^^^ v1
  let v8 := dbl v4
  let v9 := v8 ^^^ v1
  let f := fun v : BitVec 8 => v.setWidth 64
  f v1 <<< 56 ^^^ f v1 <<< 48 ^^^ f v4 <<< 40 ^^^ f v1 <<< 32 ^^^ f v8 <<< 24 ^^^ f v5 <<< 16 ^^^ f v2 <<< 8 ^^^ f v9

/-- Only bytes are looked up. -/
def C0f (i : Nat) : BitVec 64 := word (sbox.getD i 0)

def ror (shift : Nat) (x : BitVec 64) : BitVec 64 := x >>> shift ^^^ x <<< (64 - shift)

/-- The tables `C0` to `C7`. -/
def C (k i : Nat) : BitVec 64 := if k = 0 then C0f i else ror (8 * k) (C0f i)

def R : Nat := 10

def rc (i : Nat) : BitVec 64 :=
  (C 0 (8 * i + 0) &&& 0xff00000000000000) ^^^ (C 1 (8 * i + 1) &&& 0x00ff000000000000) ^^^
  (C 2 (8 * i + 2) &&& 0x0000ff0000000000) ^^^ (C 3 (8 * i + 3) &&& 0x000000ff00000000) ^^^
  (C 4 (8 * i + 4) &&& 0x00000000ff000000) ^^^ (C 5 (8 * i + 5) &&& 0x0000000000ff0000) ^^^
  (C 6 (8 * i + 6) &&& 0x000000000000ff00) ^^^ (C 7 (8 * i + 7) &&& 0x00000000000000ff)

abbrev State := Fin 8 → BitVec 64

def xor (x y : State) : State := fun i => x i ^^^ y i

def xor0 (x : State) (y : BitVec 64) : State := fun i => if i = 0 then x i ^^^ y else x i

/-- To the lowest byte. -/
def cut (w : BitVec 64) : Nat := (w.setWidth 8).toNat

/-- `f` of `matrix`. -/
def mix (y0 y1 y2 y3 y4 y5 y6 y7 : BitVec 64) : BitVec 64 :=
  C 0 (cut (y0 >>> 56)) ^^^ C 1 (cut (y1 >>> 48)) ^^^ C 2 (cut (y2 >>> 40)) ^^^ C 3 (cut (y3 >>> 32)) ^^^
  C 4 (cut (y4 >>> 24)) ^^^ C 5 (cut (y5 >>> 16)) ^^^ C 6 (cut (y6 >>> 8)) ^^^ C 7 (cut y7)

def matrix (x : State) : State
  | 0 => mix (x 0) (x 7) (x 6) (x 5) (x 4) (x 3) (x 2) (x 1)
  | 1 => mix (x 1) (x 0) (x 7) (x 6) (x 5) (x 4) (x 3) (x 2)
  | 2 => mix (x 2) (x 1) (x 0) (x 7) (x 6) (x 5) (x 4) (x 3)
  | 3 => mix (x 3) (x 2) (x 1) (x 0) (x 7) (x 6) (x 5) (x 4)
  | 4 => mix (x 4) (x 3) (x 2) (x 1) (x 0) (x 7) (x 6) (x 5)
  | 5 => mix (x 5) (x 4) (x 3) (x 2) (x 1) (x 0) (x 7) (x 6)
  | 6 => mix (x 6) (x 5) (x 4) (x 3) (x 2) (x 1) (x 0) (x 7)
  | 7 => mix (x 7) (x 6) (x 5) (x 4) (x 3) (x 2) (x 1) (x 0)

/-- The rounds that are left, of `R`. -/
def round : Nat → State → State → State
  | 0, _, state => state
  | left + 1, K, state =>
    let K := matrix K
    let K := xor0 K (rc (R - (left + 1)))
    let state := matrix state
    let state := xor state K
    round left K state

def compress (hash block : State) : State :=
  let state := round R hash (xor block hash)
  xor hash (xor state block)

/-! ## The cipher -/

/-- A byte as a polynomial over GF(2), the product without carries. -/
def clmul (a b : BitVec 8) : BitVec 16 :=
  [0, 1, 2, 3, 4, 5, 6, 7].foldl (fun acc i => if b.getLsbD i then acc ^^^ (a.setWidth 16 <<< i) else acc) 0

/-- The remainder modulo `x^8 + x^4 + x^3 + x^2 + 1`, from the highest bit down. -/
def reduce (c : BitVec 16) : BitVec 8 :=
  ([7, 6, 5, 4, 3, 2, 1, 0].foldl (fun c i => if c.getLsbD (8 + i) then c ^^^ (0x11d <<< i) else c) c).setWidth 8

/-- The product in GF(2^8) modulo 0x11d. -/
def gmul (a b : BitVec 8) : BitVec 8 := reduce (clmul a b)

def S (x : BitVec 8) : BitVec 8 := sbox.getD x.toNat 0

namespace Cipher

abbrev Matrix := Fin 8 → Fin 8 → BitVec 8

/-- The first row of the circulant. -/
def cir : Fin 8 → BitVec 8 := ![1, 1, 4, 1, 8, 5, 2, 9]

def sum (f : Fin 8 → BitVec 8) : BitVec 8 := f 0 ^^^ f 1 ^^^ f 2 ^^^ f 3 ^^^ f 4 ^^^ f 5 ^^^ f 6 ^^^ f 7

/-- The substitution. -/
def gamma (a : Matrix) : Matrix := fun i j => S (a i j)

/-- Column `j` is moved down by `j` places. -/
def pi (a : Matrix) : Matrix := fun i j => a (i - j) j

/-- The product with the circulant. -/
def theta (a : Matrix) : Matrix := fun i j => sum fun k => gmul (a i k) (cir (j - k))

def sigma (k a : Matrix) : Matrix := fun i j => a i j ^^^ k i j

def rho (k a : Matrix) : Matrix := sigma k (theta (pi (gamma a)))

/-- The constant of round `r + 1`: the next eight bytes of the S-box in the first row. -/
def constant (r : Nat) : Matrix := fun i j => if i = 0 then S (BitVec.ofNat 8 (8 * r + j)) else 0

/-- The key of each round. -/
def key (K : Matrix) : Nat → Matrix
  | 0 => K
  | r + 1 => rho (constant r) (key K r)

/-- The first rounds of the cipher. -/
def rounds (K m : Matrix) : Nat → Matrix
  | 0 => sigma (key K 0) m
  | r + 1 => rho (key K (r + 1)) (rounds K m r)

def W (K m : Matrix) : Matrix := rounds K m 10

def miyaguchiPreneel (hash block : Matrix) : Matrix := fun i j => W hash block i j ^^^ hash i j ^^^ block i j

end Cipher

open Cipher

/-! ## Words as bytes -/

def byte (j : Fin 8) (w : BitVec 64) : BitVec 8 := (w >>> (56 - 8 * j.val)).setWidth 8

def bytes (x : State) : Cipher.Matrix := fun i j => byte j (x i)

theorem byte_xor (j : Fin 8) (v w : BitVec 64) : byte j (v ^^^ w) = byte j v ^^^ byte j w := by
  unfold byte
  rw [BitVec.ushiftRight_xor_distrib, BitVec.setWidth_xor]

theorem bytes_xor (x y : State) : bytes (xor x y) = fun i j => bytes x i j ^^^ bytes y i j := by
  funext i j
  exact byte_xor j _ _

/-! ## The tables -/

theorem byte_ror {k : Fin 8} (hk : k ≠ 0) (j : Fin 8) (w : BitVec 64) : byte j (ror (8 * k.val) w) = byte (j - k) w := by
  have hpos : 0 < k.val := Nat.pos_of_ne_zero fun h => hk (Fin.ext h)
  have hj := j.isLt
  have hk' := k.isLt
  have hsub : (j - k).val = (8 - k.val + j.val) % 8 := Fin.val_sub j k
  apply BitVec.eq_of_getLsbD_eq
  intro i hi
  unfold byte ror
  simp only [BitVec.getLsbD_setWidth, BitVec.getLsbD_ushiftRight, BitVec.getLsbD_xor, BitVec.getLsbD_shiftLeft, hsub]
  rcases Nat.lt_or_ge j.val k.val with hlt | hge
  · -- the byte comes round from the low end
    have hmod : (8 - k.val + j.val) % 8 = 8 - k.val + j.val := Nat.mod_eq_of_lt (by omega)
    have hover : w.getLsbD (8 * k.val + (56 - 8 * j.val + i)) = false := BitVec.getLsbD_of_ge _ _ (by omega)
    have hplace : 56 - 8 * j.val + i - (64 - 8 * k.val) = 56 - 8 * (8 - k.val + j.val) + i := by omega
    rw [hmod, hover, hplace, decide_eq_true (show 56 - 8 * j.val + i < 64 by omega),
      decide_eq_false (show ¬ 56 - 8 * j.val + i < 64 - 8 * k.val by omega)]
    simp
  · have hmod : (8 - k.val + j.val) % 8 = j.val - k.val := by omega
    have hplace : 8 * k.val + (56 - 8 * j.val + i) = 56 - 8 * (j.val - k.val) + i := by omega
    rw [hmod, hplace, decide_eq_true (show 56 - 8 * j.val + i < 64 - 8 * k.val by omega)]
    simp

/-- The first table has the products of a byte with the first row of the circulant. -/
theorem byte_word : ∀ (j : Fin 8) (v : Fin 256), byte j (word (.ofFin v)) = gmul (.ofFin v) (cir j) := by decide +kernel

theorem byte_C (k j : Fin 8) (b : BitVec 8) : byte j (C k b.toNat) = gmul (S b) (cir (j - k)) := by
  unfold C C0f
  by_cases hk : k = 0
  · have hzero : ∀ j : Fin 8, j - 0 = j := by decide
    rw [hk, hzero]
    exact byte_word j (S b).toFin
  · have hne : k.val ≠ 0 := fun h => hk (Fin.ext h)
    rw [if_neg hne, byte_ror hk]
    exact byte_word (j - k) (S b).toFin

/-- The byte a table is asked for. -/
theorem cut_shift (k : Fin 8) (w : BitVec 64) : cut (w >>> (56 - 8 * k.val)) = (byte k w).toNat := rfl

theorem byte_lookup (k j : Fin 8) (w : BitVec 64) : byte j (C k (cut (w >>> (56 - 8 * k.val)))) = gmul (S (byte k w)) (cir (j - k)) := by
  rw [cut_shift]
  exact byte_C k j _

/-- A row of the round from the rows its bytes come from. -/
theorem byte_mix (y : Fin 8 → BitVec 64) (j : Fin 8) :
    byte j (mix (y 0) (y 1) (y 2) (y 3) (y 4) (y 5) (y 6) (y 7)) = sum fun k => gmul (S (byte k (y k))) (cir (j - k)) := by
  have h0 := byte_lookup 0 j (y 0)
  have h1 := byte_lookup 1 j (y 1)
  have h2 := byte_lookup 2 j (y 2)
  have h3 := byte_lookup 3 j (y 3)
  have h4 := byte_lookup 4 j (y 4)
  have h5 := byte_lookup 5 j (y 5)
  have h6 := byte_lookup 6 j (y 6)
  have h7 : byte j (C 7 (cut (y 7))) = _ := byte_lookup 7 j (y 7)
  unfold mix sum
  simp only [byte_xor]
  rw [← h0, ← h1, ← h2, ← h3, ← h4, ← h5, ← h6, ← h7]
  rfl

theorem matrix_eq (x : State) (i : Fin 8) : matrix x i =
    mix (x (i - 0)) (x (i - 1)) (x (i - 2)) (x (i - 3)) (x (i - 4)) (x (i - 5)) (x (i - 6)) (x (i - 7)) := by
  match i with
  | 0 | 1 | 2 | 3 | 4 | 5 | 6 | 7 => rfl

/-- Substitution, shift and diffusion at once. -/
theorem bytes_matrix (x : State) : bytes (matrix x) = theta (pi (gamma (bytes x))) := by
  funext i j
  show byte j (matrix x i) = _
  rw [matrix_eq]
  exact byte_mix (fun k => x (i - k)) j

/-! ## The round constants -/

/-- A mask that keeps one byte. -/
theorem byte_mask (k j : Fin 8) (w : BitVec 64) : byte j (w &&& ((0xff : BitVec 64) <<< (56 - 8 * k.val))) = if j = k then byte j w else 0 := by
  have hj := j.isLt
  have hk := k.isLt
  apply BitVec.eq_of_getLsbD_eq
  intro i hi
  unfold byte
  simp only [BitVec.getLsbD_setWidth, BitVec.getLsbD_ushiftRight, BitVec.getLsbD_and, BitVec.getLsbD_shiftLeft]
  have hff : ∀ n, (0xff : BitVec 64).getLsbD n = decide (n < 8) := by
    intro n
    by_cases hn : n < 64
    · have hall : ∀ n : Fin 64, (0xff : BitVec 64).getLsbD n = decide (n.val < 8) := by decide
      exact hall ⟨n, hn⟩
    · rw [BitVec.getLsbD_of_ge _ _ (by omega), decide_eq_false (by omega)]
  rw [hff]
  by_cases hjk : j = k
  · subst hjk
    rw [if_pos rfl, decide_eq_true hi, decide_eq_true (show 56 - 8 * j.val + i < 64 by omega),
      decide_eq_false (show ¬ 56 - 8 * j.val + i < 56 - 8 * j.val by omega),
      decide_eq_true (show 56 - 8 * j.val + i - (56 - 8 * j.val) < 8 by omega)]
    simp [hi]
  · have hne : j.val ≠ k.val := fun h => hjk (Fin.ext h)
    rw [if_neg hjk]
    rcases Nat.lt_or_ge (56 - 8 * j.val + i) (56 - 8 * k.val) with hlt | hge
    · rw [decide_eq_true hlt]
      simp
    · rw [decide_eq_false (show ¬ 56 - 8 * j.val + i - (56 - 8 * k.val) < 8 by omega)]
      simp

/-- The diagonal of the tables is the S-box itself. -/
theorem byte_diagonal (k : Fin 8) {n : Nat} (hn : n < 256) : byte k (C k n) = S (BitVec.ofNat 8 n) := by
  have hone : ∀ b : Fin 256, gmul (.ofFin b) (cir 0) = .ofFin b := by decide +kernel
  have hbyte := byte_C k k (BitVec.ofNat 8 n)
  rw [BitVec.toNat_ofNat, Nat.mod_eq_of_lt hn, Fin.sub_self] at hbyte
  exact hbyte.trans (hone (S (BitVec.ofNat 8 n)).toFin)

theorem byte_rc {r : Nat} (hr : r < R) (j : Fin 8) : byte j (rc r) = S (BitVec.ofNat 8 (8 * r + j)) := by
  have hsum : byte j (rc r) = Cipher.sum fun k => if j = k then byte j (C k (8 * r + k)) else 0 := by
    unfold rc Cipher.sum
    simp only [byte_xor]
    rw [← byte_mask 0, ← byte_mask 1, ← byte_mask 2, ← byte_mask 3, ← byte_mask 4, ← byte_mask 5, ← byte_mask 6, ← byte_mask 7]
    rfl
  have hlt : 8 * r + j.val < 256 := by
    have hj := j.isLt
    unfold R at hr
    omega
  rw [hsum, ← byte_diagonal j hlt]
  match j with
  | 0 | 1 | 2 | 3 | 4 | 5 | 6 | 7 => simp [Cipher.sum]

/-! ## The compression -/

theorem bytes_key {r : Nat} (hr : r < R) (K : State) : bytes (xor0 (matrix K) (rc r)) = rho (constant r) (bytes K) := by
  funext i j
  show byte j (xor0 (matrix K) (rc r) i) = theta (pi (gamma (bytes K))) i j ^^^ constant r i j
  rw [← bytes_matrix]
  unfold xor0 constant
  by_cases hi : i = 0
  · rw [if_pos hi, if_pos hi, byte_xor, byte_rc hr]
    rfl
  · rw [if_neg hi, if_neg hi]
    exact BitVec.xor_zero.symm

/-- The last rounds from the state the first have led to. -/
theorem bytes_round (hash block : Cipher.Matrix) {left : Nat} (hleft : left ≤ R) {K state : State} (hK : bytes K = key hash (R - left))
    (hstate : bytes state = rounds hash block (R - left)) : bytes (round left K state) = W hash block := by
  induction left generalizing K state with
  | zero => exact hstate
  | succ left ih =>
    have hnext : R - left = R - (left + 1) + 1 := by omega
    have hkey : bytes (xor0 (matrix K) (rc (R - (left + 1)))) = key hash (R - left) := by
      rw [bytes_key (by omega), hK, hnext]
      rfl
    refine ih (by omega) hkey ?_
    rw [bytes_xor, hkey, bytes_matrix, hstate, hnext]
    rfl

theorem compress_eq (hash block : State) : bytes (compress hash block) = miyaguchiPreneel (bytes hash) (bytes block) := by
  have hstart : bytes (xor block hash) = rounds (bytes hash) (bytes block) 0 := bytes_xor block hash
  have hrounds := bytes_round (bytes hash) (bytes block) (Nat.le_refl R) rfl hstart
  unfold compress
  funext i j
  show byte j (hash i ^^^ (round R hash (xor block hash) i ^^^ block i)) = _
  have hbyte : byte j (round R hash (xor block hash) i) = W (bytes hash) (bytes block) i j := congrFun (congrFun hrounds i) j
  rw [byte_xor, byte_xor, hbyte, ← BitVec.xor_assoc, BitVec.xor_comm (byte j (hash i))]
  rfl

end BubbleStorm.Util.Crypto.Whirlpool
