/-
  BubbleStorm.Durable.Responsibility — which peers keep which documents
  (`src/bubblestorm/durable/routing/routing-metric.sml`).

  A peer multiplies its short id with the document's, and keeps the document if the
  product is below a limit that grows with its capacity and the bubble's density. Short
  ids of peers are odd, so the products of all documents are all words: a peer keeps the
  same share of them, whatever its id (`share`).

  Real numbers are the elements of an ordered field.
-/

import Mathlib.Algebra.Order.Floor.Ring
import Mathlib.Data.Set.Card
import Mathlib.Data.Nat.ModEq
import Mathlib.Data.Nat.Prime.Basic
import Mathlib.Data.Rat.Floor
import Mathlib.Data.BitVec
import BubbleStorm.Util.Serial.Forms

namespace BubbleStorm.Durable

open BubbleStorm.Util.Serial (ofLittle)
open BubbleStorm.Util.Serial.Forms (Id)

/-! ## Short ids -/

/-- The first 64 bits. -/
def shortID (id : Id) : BitVec 64 := ofLittle 8 ((id.take 8).map UInt8.ofBitVec)

def docID (id : Id) : BitVec 64 := shortID id

/-- The short node ID must be odd. -/
def peerID (id : Id) : BitVec 64 := shortID id ||| 1

theorem peerID_odd (id : Id) : (peerID id).toNat % 2 = 1 := by
  rw [peerID, BitVec.toNat_or]
  exact Nat.or_mod_two_eq_one.mpr (.inr rfl)

/-! ## The limit -/

variable {K : Type} [Field K] [LinearOrder K] [IsStrictOrderedRing K] [FloorRing K]

def minDegree : Nat := 16

def maxWord : Int := 2 ^ 64 - 1

def intResponsibility (capacity density : K) : Int := ⌈capacity * minDegree * density * maxWord⌉

/-- No more than all items. -/
def responsibility (capacity density : K) : BitVec 64 := BitVec.ofInt 64 (min (intResponsibility capacity density) maxWord)

def isResponsible (nodeID : BitVec 64) (capacity density : K) (itemID : BitVec 64) : Bool :=
  (nodeID * itemID).ult (responsibility capacity density)

/-- The position is in a bubble of the given size. -/
def iAmResponsible (nodeID : BitVec 64) (capacity density : K) (bubblesize : Int) (id : Id) : Option Int :=
  let random := nodeID * docID id
  if random.ult (responsibility capacity density) then
    some (bubblesize * random.toNat / intResponsibility capacity density)
  else none

theorem intResponsibility_nonneg {capacity density : K} (hc : 0 ≤ capacity) (hd : 0 ≤ density) :
    0 ≤ intResponsibility capacity density := by
  apply Int.ceil_nonneg
  have hmax : (0 : K) ≤ maxWord := by exact_mod_cast (by decide : (0 : Int) ≤ maxWord)
  positivity

theorem responsibility_toNat {capacity density : K} (hc : 0 ≤ capacity) (hd : 0 ≤ density) :
    ((responsibility capacity density).toNat : Int) = min (intResponsibility capacity density) maxWord := by
  have h := intResponsibility_nonneg hc hd
  have hmax : maxWord < 2 ^ 64 := by decide
  have h0 : 0 ≤ maxWord := by decide
  rw [responsibility, BitVec.toNat_ofInt, Int.toNat_of_nonneg (Int.emod_nonneg _ (by decide))]
  exact Int.emod_eq_of_lt (by omega) (by push_cast; omega)

theorem intResponsibility_mono {capacity capacity' density density' : K} (hc : 0 ≤ capacity) (hcc : capacity ≤ capacity')
    (hd : 0 ≤ density) (hdd : density ≤ density') : intResponsibility capacity density ≤ intResponsibility capacity' density' := by
  apply Int.ceil_le_ceil
  have hmax : (0 : K) ≤ maxWord := by exact_mod_cast (by decide : (0 : Int) ≤ maxWord)
  have hc' : 0 ≤ capacity' := hc.trans hcc
  gcongr

/-- A larger capacity or density takes no document away. -/
theorem isResponsible_mono {capacity capacity' density density' : K} (hc : 0 ≤ capacity) (hcc : capacity ≤ capacity')
    (hd : 0 ≤ density) (hdd : density ≤ density') {nodeID itemID : BitVec 64}
    (h : isResponsible nodeID capacity density itemID = true) : isResponsible nodeID capacity' density' itemID = true := by
  unfold isResponsible BitVec.ult at *
  have hmono := intResponsibility_mono hc hcc hd hdd
  have h1 := responsibility_toNat hc hd
  have h2 := responsibility_toNat (hc.trans hcc) (hd.trans hdd)
  simp only [decide_eq_true_eq] at *
  omega

/-! ## The share of a peer -/

theorem mul_injective {n : BitVec 64} (h : n.toNat % 2 = 1) : Function.Injective (n * ·) := by
  intro a b hab
  have hmod : n.toNat * a.toNat ≡ n.toNat * b.toNat [MOD 2 ^ 64] := by
    have := congrArg BitVec.toNat hab
    simp only [BitVec.toNat_mul] at this
    exact this
  have hcop : Nat.Coprime (2 ^ 64) n.toNat := Nat.Coprime.pow_left 64 (Nat.odd_iff.mpr h).coprime_two_left
  have heq := Nat.ModEq.cancel_left_of_coprime hcop hmod
  exact BitVec.eq_of_toNat_eq (heq.eq_of_lt_of_lt a.isLt b.isLt)

theorem ncard_below (r : BitVec 64) : {x : BitVec 64 | x.toNat < r.toNat}.ncard = r.toNat := by
  have himage : BitVec.toNat '' {x : BitVec 64 | x.toNat < r.toNat} = (Finset.range r.toNat : Set Nat) := by
    ext m
    simp only [Set.mem_image, Set.mem_ofPred_eq, Finset.coe_range, Set.mem_Iio]
    constructor
    · rintro ⟨x, hx, rfl⟩
      exact hx
    · intro hm
      have hlt : m < 2 ^ 64 := hm.trans r.isLt
      exact ⟨BitVec.ofNat 64 m, by rwa [BitVec.toNat_ofNat, Nat.mod_eq_of_lt hlt], by rw [BitVec.toNat_ofNat, Nat.mod_eq_of_lt hlt]⟩
  rw [← Set.ncard_image_of_injective _ (fun a b h => BitVec.eq_of_toNat_eq h), himage, Set.ncard_coe_finset, Finset.card_range]

/-- Of all 64-bit document ids, a peer is responsible for as many as its limit says, and a
    position it takes in a bubble is inside it. -/
theorem share (id : Id) {capacity density : K} (hc : 0 ≤ capacity) (hd : 0 ≤ density) :
    ({doc : BitVec 64 | isResponsible (peerID id) capacity density doc = true}.ncard : Int) =
        min (intResponsibility capacity density) maxWord ∧
      ∀ (doc : Id) (bubblesize : Int), 0 < bubblesize → ∀ pos, iAmResponsible (peerID id) capacity density bubblesize doc = some pos →
        0 ≤ pos ∧ pos < bubblesize := by
  constructor
  · have hinj := mul_injective (peerID_odd id)
    have hfin : Finite (BitVec 64) := Finite.of_injective BitVec.toFin fun a b h => by cases a; cases b; cases h; rfl
    have hbij : Function.Bijective (peerID id * ·) := Finite.injective_iff_bijective.mp hinj
    have hset : (peerID id * ·) '' {doc : BitVec 64 | isResponsible (peerID id) capacity density doc = true} =
        {x : BitVec 64 | x.toNat < (responsibility capacity density).toNat} := by
      ext x
      obtain ⟨doc, rfl⟩ := hbij.surjective x
      rw [hinj.mem_set_image]
      simp [isResponsible, BitVec.ult]
    rw [← Set.ncard_image_of_injective _ hinj, hset, ncard_below, responsibility_toNat hc hd]
  · intro doc bubblesize hpos pos h
    unfold iAmResponsible at h
    dsimp only at h
    split at h
    next hlt =>
      cases h
      unfold BitVec.ult at hlt
      simp only [decide_eq_true_eq] at hlt
      have hr := responsibility_toNat hc hd
      have hint : ((peerID id * docID doc).toNat : Int) < intResponsibility capacity density := by omega
      have hlim : 0 < intResponsibility capacity density := by omega
      refine ⟨Int.ediv_nonneg (by positivity) hlim.le, Int.ediv_lt_of_lt_mul hlim ?_⟩
      exact Int.mul_lt_mul_of_pos_left hint hpos
    next => cases h

/-- A peer of capacity one, in a bubble of one in a hundred. -/
theorem share_hundredth :
    ({doc : BitVec 64 | isResponsible (peerID (List.replicate 20 0)) (1 : ℚ) (1 / 100) doc = true}.ncard : Int) =
        min (intResponsibility (1 : ℚ) (1 / 100)) maxWord ∧
      ∀ (doc : Id) (bubblesize : Int), 0 < bubblesize →
        ∀ pos, iAmResponsible (peerID (List.replicate 20 0)) (1 : ℚ) (1 / 100) bubblesize doc = some pos →
          0 ≤ pos ∧ pos < bubblesize :=
  share (List.replicate 20 0) (by norm_num) (by norm_num)

end BubbleStorm.Durable
