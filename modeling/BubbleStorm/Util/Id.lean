/-
  BubbleStorm.Util.Id — ids byte by byte (`src/util/id/id.sml`), and the bucket refresh
  that builds one (`refreshBucket` of `src/kademlia/node.fun`).

  A vector of 20 bytes is a function of the index; the first byte is the most significant.

  Proved: `fromRandomBits` leaves the top bits zero, as it should, but `setBit` keeps the
  bit (and what is above it in its byte) where it should set it, so the id that is looked
  up never falls into the bucket to be refreshed (`refreshBucket_misses`): it falls below.
-/

import Mathlib.Algebra.Group.Nat.Defs
import Mathlib.Data.List.FinRange
import Mathlib.Order.Fin.Basic

namespace BubbleStorm.Util.Id

def numberOfBytes : Nat := 20
def numberOfBits : Nat := numberOfBytes * 8

abbrev Vec := Fin numberOfBytes → BitVec 8

/-- `random` gives one byte after the other. -/
def fromRandomBits (random : Nat → BitVec 8) (bits : Nat) : Vec :=
  let rBytes := (bits + 7) / 8
  let bitMask : BitVec 8 := (1 <<< (bits % 8)) - 1
  let zBytes := numberOfBytes - rBytes
  fun i => if i < zBytes then 0 else if zBytes < i then random (i - zBytes) else random 0 &&& bitMask

def xor (a b : Vec) : Vec := fun i => a i ^^^ b i

/-- The loop over a byte. -/
def bit (w : BitVec 8) (c : Nat) : Nat := if w ≠ 0 then bit (w >>> 1) (c + 1) else c
termination_by w.toNat
decreasing_by
  have hpos : w.toNat ≠ 0 := fun h => ‹w ≠ 0› (BitVec.eq_of_toNat_eq h)
  rw [BitVec.toNat_ushiftRight, Nat.shiftRight_eq_div_pow]
  omega

def highestOneBit (this : Vec) : Int :=
  match (List.finRange numberOfBytes).find? (fun i => this i != 0) with
  | some i => numberOfBits - 9 - i * 8 + bit (this i) 0
  | none => -1

/-- `Word8.~` is the negative. -/
def setBit (this : Vec) (bit : Nat) : Vec :=
  let modByte := numberOfBytes - bit / 8 - 1
  let andBit : BitVec 8 := -(1 <<< (bit % 8))
  fun i => if i = modByte then this i &&& andBit else this i

def bucketId (myId id : Vec) : Int := highestOneBit (xor myId id)

/-- The id that is looked up. -/
def refreshBucket (myId : Vec) (random : Nat → BitVec 8) (bucketId : Nat) : Vec :=
  xor (setBit (fromRandomBits random bucketId) bucketId) myId

/-! ## The first byte that is not zero -/

theorem bit_le {n : Nat} {w : BitVec 8} (h : w.toNat < 2 ^ n) (c : Nat) : bit w c ≤ c + n := by
  induction n generalizing w c with
  | zero =>
    have hzero : w = 0 := BitVec.eq_of_toNat_eq (Nat.lt_one_iff.mp h)
    rw [bit, if_neg (not_not.mpr hzero)]
    exact Nat.le_refl _
  | succ n ih =>
    rw [bit]
    split
    next =>
      have hhalf : (w >>> 1).toNat < 2 ^ n := by
        rw [BitVec.toNat_ushiftRight, Nat.shiftRight_eq_div_pow]
        omega
      have := ih hhalf (c + 1)
      omega
    next => omega

/-- With zeros in front the highest bit is behind them. -/
theorem highestOneBit_lt {x : Vec} {j : Nat} (hj : j ≤ numberOfBytes) (h : ∀ i : Fin numberOfBytes, i < j → x i = 0) :
    highestOneBit x < 8 * ((numberOfBytes : Int) - j) := by
  unfold highestOneBit
  split
  next i hi =>
    have hne := List.find?_some hi
    have hji : j ≤ i := by
      by_contra hlt
      rw [h i (by omega)] at hne
      simp at hne
    have hbit : bit (x i) 0 ≤ 0 + 8 := bit_le (x i).isLt 0
    have hbits : numberOfBits = numberOfBytes * 8 := rfl
    omega
  next => omega

/-! ## Refreshing -/

theorem xor_xor_self (a b : Vec) : xor a (xor b a) = b := by
  funext i
  unfold xor
  rw [BitVec.xor_comm (b i), ← BitVec.xor_assoc, BitVec.xor_self, BitVec.zero_xor]

/-- A mask of the bits below one has none of the bits from there on. -/
theorem mask_and_neg (w : BitVec 8) (k : Fin 8) : w &&& ((1 <<< k.val) - 1) &&& -(1 <<< k.val : BitVec 8) = 0 := by
  have hmask : ((1 <<< k.val : BitVec 8) - 1) &&& -(1 <<< k.val : BitVec 8) = 0 := by
    revert k
    decide
  rw [BitVec.and_assoc, hmask]
  exact BitVec.and_zero

/-- The bytes down to the one of the bit are zero. -/
theorem front_zero (random : Nat → BitVec 8) {b : Nat} (hb : b < numberOfBits) (i : Fin numberOfBytes)
    (hi : (i : Nat) < numberOfBytes - b / 8) : setBit (fromRandomBits random b) b i = 0 := by
  have hbits : numberOfBits = 160 := rfl
  have hbytes : numberOfBytes = 20 := rfl
  unfold setBit fromRandomBits
  by_cases hz : (i : Nat) < numberOfBytes - (b + 7) / 8
  · rw [if_pos hz]
    split
    · exact BitVec.zero_and
    · rfl
  · -- it is the byte of the bit, and the first random one
    have hmod : (i : Nat) = numberOfBytes - b / 8 - 1 := by omega
    have hfirst : ¬ numberOfBytes - (b + 7) / 8 < (i : Nat) := by omega
    rw [if_pos hmod, if_neg hz, if_neg hfirst]
    exact mask_and_neg (random 0) ⟨b % 8, Nat.mod_lt _ (by decide)⟩

/-- The id that is looked up is below the bucket, whatever the random bytes. -/
theorem refreshBucket_below (myId : Vec) (random : Nat → BitVec 8) {b : Nat} (hb : b < numberOfBits) :
    bucketId myId (refreshBucket myId random b) < b := by
  have hbits : numberOfBits = 160 := rfl
  have hbytes : numberOfBytes = 20 := rfl
  have hlt := highestOneBit_lt (x := setBit (fromRandomBits random b) b) (j := numberOfBytes - b / 8) (by omega)
    (front_zero random hb)
  unfold bucketId refreshBucket
  rw [xor_xor_self]
  omega

/-- A refresh never looks up an id of its bucket. -/
theorem refreshBucket_misses (myId : Vec) (random : Nat → BitVec 8) (b : Fin numberOfBits) :
    bucketId myId (refreshBucket myId random b) ≠ b := by
  have := refreshBucket_below myId random b.isLt
  omega

/-- The refresh of bucket 8, with ones for random bytes, looks up the node's own id. -/
theorem refresh_own_id : ¬ ∀ (myId : Vec) (random : Nat → BitVec 8) (b : Fin numberOfBits),
    bucketId myId (refreshBucket myId random b) = b := by
  intro h
  have heq := h (fun _ => 0) (fun _ => 255) ⟨8, by decide⟩
  have hlt := refreshBucket_below (fun _ => 0) (fun _ => 255) (b := 8) (by decide)
  exact absurd heq (ne_of_lt hlt)

end BubbleStorm.Util.Id
