/-
  BubbleStorm.Cusp.Crypto.Session — the two ends of a session derive matching keys.

  The points the code computes with are the coordinates of a commutative group, in which
  the order of the code is one: the points of the curve over its field, which are far from
  all pairs. Two elements may have the same coordinates; the neutral one has none of its
  own, and what the code computes for it is left open.

  Under curve25519 both ends come to `g ^ ((x + d a) * (y + e b))`, unless the exponent of
  one, modulo the order, needs more than the 255 bits that `fixedPower` takes of it, or the
  ladder comes to the neutral element.
-/

import Mathlib.Algebra.Group.TypeTags.Finite
import Mathlib.Data.ZMod.Basic
import BubbleStorm.Cusp.Crypto.PublicKey

namespace BubbleStorm.Cusp.Crypto

open Util.Crypto (ofLittle)
open BubbleStorm.Cusp (Exn Bytes)
open BubbleStorm.Lib
open BubbleStorm.Util.Serial
open BubbleStorm.Util.Crypto
open Channel.Suite (Mask)

/-! ## The group -/

variable {F : Type} [DecidableEq F] [Zero F]

variable {Γ : Type} [CommGroup Γ]

/-- The ladder does not give the power: it, or the one behind it, is neutral, or the element is
    its own inverse. -/
def Exceptional (u : Γ) (k : Nat) : Prop := u ^ 2 = 1 ∨ u ^ k = 1 ∨ u ^ (k + 1) = 1

instance [DecidableEq Γ] (u : Γ) (k : Nat) : Decidable (Exceptional u k) :=
  inferInstanceAs (Decidable (u ^ 2 = 1 ∨ u ^ k = 1 ∨ u ^ (k + 1) = 1))

/-- Away from the exceptions the arithmetic of the curve is that of the group, and the ladder
    a power by the bits it is given. -/
structure Lawful (C : Curve F) (coordinates : Γ → Point F) (g : Γ) : Prop where
  generator : C.generator = coordinates g
  chord : ∀ u v, (coordinates u).x ≠ (coordinates v).x → (coordinates u).x ≠ 0 → (coordinates v).x ≠ 0 →
    C.chord (coordinates u) (coordinates v) = coordinates (u * v)
  rawPower : ∀ (u : Γ) (e n : Nat), n ≤ 256 → ¬ Exceptional u (e % 2 ^ n) →
    C.rawPower (coordinates u) (Counter.little Curve.length e) n = coordinates (u ^ (e % 2 ^ n))
  order : ∀ u : Γ, u ^ Curve.order = 1

variable {C : Curve F} {H : Hash (Point F)} {ciphers : Ciphers}

theorem ofLittle_lt (v : Bytes) : ofLittle v < 256 ^ v.length := by
  induction v with
  | nil => exact Nat.one_pos
  | cons b v ih =>
    show b.toNat + 256 * ofLittle v < 256 ^ (v.length + 1)
    have := b.toNat_lt
    rw [Nat.pow_succ]
    omega

theorem halfGroupLength_eq : Hmqv.halfGroupLength C.group = 16 := by
  show 32 / 2 = 16
  decide

theorem exponent_lt (A B : Point F) : Hmqv.exponent C.group H A B < 2 ^ 128 := by
  have h := ofLittle_lt (H.hash (Hmqv.halfGroupLength C.group) A B)
  rw [H.length_hash, halfGroupLength_eq] at h
  have hpow : (256 : Nat) ^ 16 = 2 ^ 128 := by decide
  unfold Hmqv.exponent
  rw [halfGroupLength_eq, ← hpow]
  exact h

variable {coordinates : Γ → Point F} {g : Γ}

theorem Lawful.multiply (hC : Lawful C coordinates g) {u v : Γ} {P : Point F}
    (h : C.multiply (coordinates u) (coordinates v) = .ok P) : P = coordinates (u * v) := by
  have hok : Ok (C.multiply (coordinates u) (coordinates v)) := ⟨P, h⟩
  obtain ⟨hne, hM, hN⟩ := C.ok_multiply.mp hok
  unfold Curve.multiply at h
  rw [if_neg (by simp [hne, hM, hN])] at h
  cases h
  exact hC.chord u v hne hM hN

omit [DecidableEq F] in
theorem Lawful.pow_mod (hC : Lawful C coordinates g) (u : Γ) (e : Nat) : u ^ (e % Curve.order) = u ^ e :=
  calc u ^ (e % Curve.order) = (u ^ Curve.order) ^ (e / Curve.order) * u ^ (e % Curve.order) := by
        rw [hC.order, one_pow, one_mul]
    _ = u ^ e := by rw [← pow_mul, ← pow_add, Nat.div_add_mod]

omit [DecidableEq F] in
theorem Lawful.exceptional_mod (hC : Lawful C coordinates g) (u : Γ) (e : Nat) :
    Exceptional u (e % Curve.order) ↔ Exceptional u e := by
  unfold Exceptional
  rw [pow_succ u (e % Curve.order), pow_succ u e, hC.pow_mod]

omit [DecidableEq F] in
/-- An exponent is taken whole, or modulo the order. -/
theorem Lawful.power (hC : Lawful C coordinates g) {u : Γ} {e : Nat} (h : ¬ Exceptional u e) :
    C.power (coordinates u) e = coordinates (u ^ e) := by
  have taken : ∀ k, k ≤ Curve.order → ¬ Exceptional u k →
      C.rawPower (coordinates u) (Counter.little Curve.length k) (1 + k.log2) = coordinates (u ^ k) := by
    intro k hk hex
    have hbits : 1 + k.log2 ≤ 256 := by
      by_cases hzero : k = 0
      · rw [hzero]
        decide
      · have hlog := (Nat.log2_lt hzero).mpr (Nat.lt_of_le_of_lt hk (by decide : Curve.order < 2 ^ 256))
        omega
    have hlt : k < 2 ^ (1 + k.log2) := by
      rw [Nat.add_comm]
      exact Nat.lt_log2_self
    have hraw := hC.rawPower u k (1 + k.log2) hbits
    rw [Nat.mod_eq_of_lt hlt] at hraw
    exact hraw hex
  unfold Curve.power
  dsimp only
  split
  · rw [taken _ (Nat.le_of_lt (Nat.mod_lt _ (by decide))) (mt (hC.exceptional_mod u e).mp h), hC.pow_mod]
  · rename_i hle
    exact taken e (Nat.not_lt.mp hle) h

/-- An exponent of half the group's length is taken whole. -/
theorem Lawful.power_half (hC : Lawful C coordinates g) {u : Γ} {e : Nat} (he : e < 2 ^ 128) (h : ¬ Exceptional u e) :
    C.fixedPower (coordinates u) e (Hmqv.halfGroupLength C.group * 8) = coordinates (u ^ e) := by
  unfold Curve.fixedPower
  rw [halfGroupLength_eq, if_neg (by decide)]
  dsimp only
  have hraw := hC.rawPower u e 256 (Nat.le_refl _)
  rw [Nat.mod_eq_of_lt (Nat.lt_trans he (by decide))] at hraw
  exact hraw h

/-- A longer one modulo the order, if what is left has no more than 255 bits. -/
theorem Lawful.power_long (hC : Lawful C coordinates g) {u : Γ} {e : Nat} (he : e % Curve.order < 2 ^ 255) (h : ¬ Exceptional u e) :
    C.fixedPower (coordinates u) e (Hmqv.halfGroupLength C.group * 24) = coordinates (u ^ e) := by
  unfold Curve.fixedPower
  rw [halfGroupLength_eq, if_pos (by decide)]
  dsimp only
  have hraw := hC.rawPower u (e % Curve.order) 255 (by decide)
  rw [Nat.mod_eq_of_lt he] at hraw
  rw [hraw (mt (hC.exceptional_mod u e).mp h), hC.pow_mod]

/-! ## Two ends -/

/-- The public keys of a half are those of its private ones. -/
def Honest (C : Curve F) : Half F → Prop
  | .curve25519 a A x X => A = C.power C.generator a ∧ X = C.power C.generator x
  | .xor _ _ => True

/-- What the other end reads of the shares of a half. -/
def Shows (C : Curve F) (half : Half F) (B Y : ArraySlice) : Prop :=
  match half with
  | .curve25519 _ A _ X => C.parse B = .ok A ∧ C.parse Y = .ok X
  | .xor a x => parseSlice fatKey.serial B = .ok a ∧ parseSlice fatKey.serial Y = .ok x

/-- The keys that `symmetric` hands to the suite, for the one direction and the other. -/
def Half.keys (C : Curve F) (H : Hash (Point F)) (half : Half F) (n : Nat) (B Y : ArraySlice) :
    Except Exn (Bytes × Bytes) :=
  match half with
  | .curve25519 a A x X => do
    let B ← C.parse B
    let Y ← C.parse Y
    Hmqv.compute C.group H n a x A B X Y
  | .xor a x => do
    let b ← parseSlice fatKey.serial B
    let y ← parseSlice fatKey.serial Y
    return (fix n (fatVector (a ^^^ y)), fix n (fatVector (b ^^^ x)))

theorem symmetric_keys {half : Half F} {suite : Mask} {n : Nat} (hn : symmetricLength suite = .ok n) {B Y : ArraySlice}
    {full : Full} (h : half.symmetric C H ciphers suite B Y = .ok full) :
    ∃ k1 k2, half.keys C H n B Y = .ok (k1, k2) ∧ symmetric ciphers suite k1 k2 = .ok full := by
  cases half with
  | curve25519 a A x X =>
    obtain ⟨b, hb, h⟩ := bind_eq_ok.mp h
    obtain ⟨y, hy, h⟩ := bind_eq_ok.mp h
    obtain ⟨m, hm, h⟩ := bind_eq_ok.mp h
    cases hn.symm.trans hm
    obtain ⟨⟨k1, k2⟩, hk, h⟩ := bind_eq_ok.mp h
    refine ⟨k1, k2, ?_, h⟩
    unfold Half.keys
    simp only [hb, hy]
    exact hk
  | xor a x =>
    obtain ⟨m, hm, h⟩ := bind_eq_ok.mp h
    cases hn.symm.trans hm
    obtain ⟨b, hb, h⟩ := bind_eq_ok.mp h
    obtain ⟨y, hy, h⟩ := bind_eq_ok.mp h
    refine ⟨_, _, ?_, h⟩
    unfold Half.keys
    simp only [hb, hy]
    rfl

/-- The public keys of a half are no exceptional powers. -/
def Regular (g : Γ) (a x : Nat) : Prop := ¬ Exceptional g a ∧ ¬ Exceptional g x

/-- An end with the private keys `a` and `x` meets no exceptional power with the keys of `b` and
    `y`, and its last exponent is not longer than what is taken of it. -/
structure Computes (g : Γ) (a x b y d e : Nat) : Prop where
  half : ¬ Exceptional (g ^ b) e
  long : ¬ Exceptional (g ^ y * (g ^ b) ^ e) (x + d * a)
  bits : (x + d * a) % Curve.order < 2 ^ 255

/-- Both halves are of one suite, and under curve25519 their powers are what they should be. -/
def Fits (C : Curve F) (H : Hash (Point F)) (g : Γ) : Half F → Half F → Prop
  | .curve25519 a A x X, .curve25519 b B y Y =>
    Regular g a x ∧ Regular g b y ∧
      Computes g a x b y (Hmqv.exponent C.group H X B) (Hmqv.exponent C.group H Y A) ∧
      Computes g b y a x (Hmqv.exponent C.group H Y A) (Hmqv.exponent C.group H X B)
  | .xor _ _, .xor _ _ => True
  | _, _ => False

theorem sigma_comm (g : Γ) (a b x y d e : Nat) :
    (g ^ y * (g ^ b) ^ e) ^ (x + d * a) = (g ^ x * (g ^ a) ^ d) ^ (y + e * b) := by
  rw [← pow_mul, ← pow_mul, ← pow_add, ← pow_add, ← pow_mul, ← pow_mul, Nat.mul_comm b e, Nat.mul_comm a d, Nat.mul_comm]

omit [DecidableEq F] in
theorem Lawful.keys (hC : Lawful C coordinates g) {a x : Nat} {A X : Point F} (h : Honest C (.curve25519 a A x X))
    (hr : Regular g a x) : A = coordinates (g ^ a) ∧ X = coordinates (g ^ x) := by
  obtain ⟨hA, hX⟩ := h
  rw [hC.generator] at hA hX
  exact ⟨hA.trans (hC.power hr.1), hX.trans (hC.power hr.2)⟩

/-- What one end computes. -/
theorem Lawful.compute (hC : Lawful C coordinates g) {n a x b y : Nat} {A B X Y : Point F} {k1 k2 : Bytes}
    (hB : B = coordinates (g ^ b)) (hY : Y = coordinates (g ^ y))
    (hfit : Computes g a x b y (Hmqv.exponent C.group H X B) (Hmqv.exponent C.group H Y A))
    (h : Hmqv.compute C.group H n a x A B X Y = .ok (k1, k2)) :
    let sigma := coordinates ((g ^ y * (g ^ b) ^ Hmqv.exponent C.group H Y A) ^ (x + Hmqv.exponent C.group H X B * a))
    k1 = H.hash n sigma A ∧ k2 = H.hash n sigma B := by
  unfold Hmqv.compute at h
  obtain ⟨YBe, hYBe, h⟩ := bind_eq_ok.mp h
  have hhalf : C.fixedPower B (Hmqv.exponent C.group H Y A) (Hmqv.halfGroupLength C.group * 8) =
      coordinates ((g ^ b) ^ Hmqv.exponent C.group H Y A) := by
    rw [hB] at hfit ⊢
    exact hC.power_half (exponent_lt Y A) hfit.half
  have hproduct : C.multiply (coordinates (g ^ y)) (coordinates ((g ^ b) ^ Hmqv.exponent C.group H Y A)) = .ok YBe := by
    rw [← hhalf, ← hY]
    exact hYBe
  have hp := hC.multiply hproduct
  have hk : (H.hash n (C.fixedPower YBe (x + Hmqv.exponent C.group H X B * a) (Hmqv.halfGroupLength C.group * 24)) A,
      H.hash n (C.fixedPower YBe (x + Hmqv.exponent C.group H X B * a) (Hmqv.halfGroupLength C.group * 24)) B) = (k1, k2) :=
    Except.ok.inj h
  rw [hp, hC.power_long hfit.bits hfit.long] at hk
  cases hk
  exact ⟨rfl, rfl⟩

/-- The keys of the two ends are the same, in the other order. -/
theorem keys_swap (hC : Lawful C coordinates g) {p q : Half F} (hp : Honest C p) (hq : Honest C q) (hfit : Fits C H g p q) {n : Nat}
    {Bp Yp Bq Yq : ArraySlice} (sp : Shows C p Bp Yp) (sq : Shows C q Bq Yq) {k1 k2 l1 l2 : Bytes}
    (hk : p.keys C H n Bq Yq = .ok (k1, k2)) (hl : q.keys C H n Bp Yp = .ok (l1, l2)) : l1 = k2 ∧ l2 = k1 := by
  cases p with
  | curve25519 a A x X =>
    cases q with
    | curve25519 b B y Y =>
      unfold Half.keys at hk hl
      simp only [sq.1, sq.2] at hk
      simp only [sp.1, sp.2] at hl
      obtain ⟨hregp, hregq, hfitp, hfitq⟩ := hfit
      obtain ⟨hA, hX⟩ := hC.keys hp hregp
      obtain ⟨hB, hY⟩ := hC.keys hq hregq
      obtain ⟨hk1, hk2⟩ := hC.compute hB hY hfitp hk
      obtain ⟨hl1, hl2⟩ := hC.compute hA hX hfitq hl
      rw [hk1, hk2, hl1, hl2, sigma_comm]
      exact ⟨rfl, rfl⟩
    | xor b y => exact hfit.elim
  | xor a x =>
    cases q with
    | curve25519 b B y Y => exact hfit.elim
    | xor b y =>
      unfold Half.keys at hk hl
      simp only [sq.1, sq.2] at hk
      simp only [sp.1, sp.2] at hl
      cases hk
      cases hl
      exact ⟨rfl, rfl⟩

/-! ## The suites -/

/-- What one end enciphers the other end restores, under the same MAC. -/
structure Restores (f g : Full) : Prop where
  macLen : f.macLen = g.macLen
  text : ∀ sn text, (g.decipher sn).f ((f.encipher sn).f text) = text
  mac : ∀ sn text, (g.decipher sn).mac text = (f.encipher sn).mac text

theorem crc32_eq {k1 k2 : Bytes} {f : Full} (h : crc32 ciphers k1 k2 = .ok f) :
    ∃ w1 w2, packSub 8 k1 0 = .ok w1 ∧ packSub 8 k2 0 = .ok w2 ∧ f =
      ⟨16, decide (ofLittle 8 w1 = ofLittle 8 w2), fun _ => ⟨id, crcMac ciphers (ofLittle 8 w1) (ofLittle 8 w2)⟩,
        fun _ => ⟨id, crcMac ciphers (ofLittle 8 w2) (ofLittle 8 w1)⟩⟩ := by
  obtain ⟨w1, h1, h⟩ := bind_eq_ok.mp h
  obtain ⟨w2, h2, h⟩ := bind_eq_ok.mp h
  exact ⟨w1, w2, h1, h2, (Except.ok.inj h).symm⟩

theorem poly1305aes_eq {k1 k2 : Bytes} {f : Full} (h : poly1305aes ciphers k1 k2 = .ok f) :
    ∃ key1 key2, fromVector keyForm.serial k1 = .ok key1 ∧ fromVector keyForm.serial k2 = .ok key2 ∧
      f = ⟨16, decide (k1 = k2), poly1305AES ciphers key1, poly1305AES ciphers key2⟩ := by
  obtain ⟨w1, h1, h⟩ := bind_eq_ok.mp h
  obtain ⟨w2, h2, h⟩ := bind_eq_ok.mp h
  exact ⟨w1, w2, h1, h2, (Except.ok.inj h).symm⟩

/-- One end with the keys of the other in the other order. -/
theorem symmetric_restores {suite : Mask} {k1 k2 : Bytes} {f g : Full} (hf : symmetric ciphers suite k1 k2 = .ok f)
    (hg : symmetric ciphers suite k2 k1 = .ok g) : Restores f g := by
  unfold symmetric at hf hg
  split at hf
  · rename_i hs
    rw [if_pos hs] at hg
    obtain ⟨w1, w2, h1, h2, rfl⟩ := crc32_eq hf
    obtain ⟨v2, v1, h2', h1', rfl⟩ := crc32_eq hg
    cases h1.symm.trans h1'
    cases h2.symm.trans h2'
    exact ⟨rfl, fun _ _ => rfl, fun _ _ => rfl⟩
  · rename_i hs
    rw [if_neg hs] at hg
    split at hf
    · rename_i hs'
      rw [if_pos hs'] at hg
      obtain ⟨w1, w2, h1, h2, rfl⟩ := poly1305aes_eq hf
      obtain ⟨v2, v1, h2', h1', rfl⟩ := poly1305aes_eq hg
      cases h1.symm.trans h1'
      cases h2.symm.trans h2'
      exact ⟨rfl, fun sn text => Counter.crypt_crypt ciphers.length_aes128 _ _ text, fun _ _ => rfl⟩
    · cases hf

theorem little_inj {a b : BitVec 64} (h : little 8 a = little 8 b) : a = b := by
  have := congrArg (ofLittle 8) h
  rwa [ofLittle_little, ofLittle_little] at this

theorem packSub_eight {k w : Bytes} (hk : k.length = 8) (h : packSub 8 k 0 = .ok w) : w = k := by
  unfold packSub at h
  rw [if_pos (by omega)] at h
  cases h
  rw [Nat.zero_mul, List.drop_zero, List.take_of_length_le (Nat.le_of_eq hk)]

theorem value_inj {v w : Bytes} (h : v.length = w.length) (he : ofLittle v = ofLittle w) : v = w := by
  induction v generalizing w with
  | nil => exact (List.length_eq_zero_iff.mp h.symm).symm
  | cons b v ih =>
    cases w with
    | nil => cases h
    | cons c w =>
      have he' : b.toNat + 256 * ofLittle v = c.toNat + 256 * ofLittle w := he
      have hb := b.toNat_lt
      have hc := c.toNat_lt
      have hbyte : b = c := UInt8.toNat_inj.mp (by omega)
      rw [hbyte, ih (Nat.succ.inj h) (by omega)]

/-- A word is what its eight bytes say. -/
theorem ofLittle_inj {v w : Bytes} (hv : v.length = 8) (hw : w.length = 8) (h : ofLittle 8 v = ofLittle 8 w) : v = w := by
  have value : ∀ {u : Bytes}, u.length = 8 → (ofLittle 8 u).toNat = ofLittle u := by
    intro u hu
    have hlt := ofLittle_lt u
    rw [hu] at hlt
    show (BitVec.ofNat (8 * 8) (ofLittle u)).toNat = _
    rw [BitVec.toNat_ofNat]
    exact Nat.mod_eq_of_lt hlt
  apply value_inj (hv.trans hw.symm)
  rw [← value hv, ← value hw, h]

theorem loopback_iff {suite : Mask} {n : Nat} (hn : symmetricLength suite = .ok n) {k1 k2 : Bytes} (h1 : k1.length = n)
    (h2 : k2.length = n) {f : Full} (hf : symmetric ciphers suite k1 k2 = .ok f) : f.loopback = true ↔ k1 = k2 := by
  unfold symmetricLength at hn
  unfold symmetric at hf
  split at hf
  · rename_i hs
    rw [if_pos hs] at hn
    cases hn
    obtain ⟨w1, w2, hw1, hw2, rfl⟩ := crc32_eq hf
    rw [packSub_eight h1 hw1, packSub_eight h2 hw2]
    rw [decide_eq_true_iff]
    exact ⟨ofLittle_inj h1 h2, fun h => by rw [h]⟩
  · split at hf
    · obtain ⟨w1, w2, -, -, rfl⟩ := poly1305aes_eq hf
      exact decide_eq_true_iff
    · cases hf

/-! ## Sessions -/

theorem take_fix {n : Nat} (hn : 8 ≤ n) (k : BitVec 64) : (fix n (fatVector k)).take 8 = little 8 k := by
  have hfat : (fatVector k).take 8 = little 8 k := by
    show (little 8 k ++ (little 8 k ++ (little 8 k ++ (little 8 k ++ [])))).take 8 = little 8 k
    exact List.take_left' (little_length 8 k)
  unfold fix
  split
  · rw [List.take_take, Nat.min_eq_left hn, hfat]
  · split
    · rw [List.take_append_of_le_length (by rw [length_fatVector]; decide), hfat]
    · exact hfat

theorem symmetricLength_le {suite : Mask} {n : Nat} (h : symmetricLength suite = .ok n) : 8 ≤ n := by
  unfold symmetricLength at h
  split at h
  · cases h
    exact Nat.le_refl 8
  · split at h
    · cases h
      exact (by decide : 8 ≤ 32)
    · cases h

theorem keys_length {half : Half F} {n : Nat} {B Y : ArraySlice} {k1 k2 : Bytes} (h : half.keys C H n B Y = .ok (k1, k2)) :
    k1.length = n ∧ k2.length = n := by
  cases half with
  | curve25519 a A x X =>
    obtain ⟨b, -, h⟩ := bind_eq_ok.mp h
    obtain ⟨y, -, h⟩ := bind_eq_ok.mp h
    exact Hmqv.compute_length h
  | xor a x =>
    obtain ⟨b, -, h⟩ := bind_eq_ok.mp h
    obtain ⟨y, -, h⟩ := bind_eq_ok.mp h
    cases h
    exact ⟨length_fix .., length_fix ..⟩

/-- The parties' keys coincide: one static key, or, as the xor suite has it, what one adds
    to its static key is what the other does. -/
def Coincide : Half F → Half F → Prop
  | .curve25519 _ A _ _, .curve25519 _ B _ _ => A = B
  | .xor a x, .xor b y => a ^^^ y = b ^^^ x
  | _, _ => False

/-- Two elements with one hash beside a third. -/
def Collision (H : Hash (Point F)) (n : Nat) : Prop := ∃ s A B, A ≠ B ∧ H.hash n s A = H.hash n s B

theorem directions (hC : Lawful C coordinates g) {p q : Half F} (hq : Honest C q) (hfit : Fits C H g p q) {n : Nat} (hn : 8 ≤ n)
    {Bq Yq : ArraySlice} (sq : Shows C q Bq Yq) {k1 k2 : Bytes} (hk : p.keys C H n Bq Yq = .ok (k1, k2)) :
    (Coincide p q → k1 = k2) ∧ (k1 = k2 → Coincide p q ∨ Collision H n) := by
  cases p with
  | curve25519 a A x X =>
    cases q with
    | curve25519 b B y Y =>
      unfold Half.keys at hk
      simp only [sq.1, sq.2] at hk
      obtain ⟨-, hregq, hfitp, -⟩ := hfit
      obtain ⟨hB, hY⟩ := hC.keys hq hregq
      obtain ⟨hk1, hk2⟩ := hC.compute hB hY hfitp hk
      constructor
      · intro h
        have hAB : A = B := h
        rw [hk1, hk2, hAB]
      · intro h
        by_cases hAB : A = B
        · exact .inl hAB
        · exact .inr ⟨_, A, B, hAB, hk1.symm.trans (h.trans hk2)⟩
    | xor b y => exact hfit.elim
  | xor a x =>
    cases q with
    | curve25519 b B y Y => exact hfit.elim
    | xor b y =>
      unfold Half.keys at hk
      simp only [sq.1, sq.2] at hk
      cases hk
      constructor
      · intro h
        have hab : a ^^^ y = b ^^^ x := h
        rw [hab]
      · intro h
        have htake := congrArg (List.take 8) h
        rw [take_fix hn, take_fix hn] at htake
        exact .inl (little_inj htake)

theorem ofLittle_little_mod (n x : Nat) : ofLittle (Counter.little n x) = x % 256 ^ n := by
  induction n generalizing x with
  | zero => exact (Nat.mod_one x).symm
  | succ n ih =>
    rw [Counter.little_succ]
    show (UInt8.ofNat x).toNat + 256 * ofLittle (Counter.little n (x / 256)) = _
    rw [ih, Nat.pow_succ', Nat.mod_mul, UInt8.toNat_ofNat']

def point (x y : Nat) : Point (ZMod 13) := ⟨x, y⟩

/-- Curve25519's equation modulo 13 has eight points, the multiples of (2, 5). -/
def multiples : List (Point (ZMod 13)) :=
  [point 0 0, point 2 5, point 1 3, point 7 11, point 0 0, point 7 2, point 1 10, point 2 8]

abbrev Cyclic : Type := Multiplicative (ZMod 8)

def place (u : Cyclic) : Point (ZMod 13) := multiples.getD u.toAdd.val ⟨0, 0⟩

def smallCurve : Curve (ZMod 13) where
  generator := point 2 5
  -- the first coordinate, and the sign of the other in the last byte
  load v := (multiples.find? fun P => P.x.val == (v.headD 0).toNat && (decide (6 < P.y.val) == decide (128 ≤ v.getLastD 0))).getD ⟨0, 0⟩
  chord M N :=
    let l := (M.y - N.y) * (M.x - N.x) ^ 11
    let x := l ^ 2 - (486662 : Nat) - M.x - N.x
    ⟨x, l * (M.x - x) - M.y⟩
  rawPower P v n :=
    let i := multiples.findIdx fun Q => Q.x == P.x && Q.y == P.y
    multiples.getD (i * (ofLittle v % 2 ^ n) % 8) ⟨0, 0⟩

def oneHash : Hash (Point (ZMod 13)) := ⟨fun n _ _ => (1 :: List.replicate n 0).take n, fun n _ _ => by simp⟩

def plainCiphers : Ciphers :=
  ⟨fun _ => 0#32, fun _ _ => List.replicate 16 (UInt8.ofNat 0), fun _ _ => List.length_replicate, fun _ nonce _ => nonce⟩

theorem findIdx_place (u : Cyclic) (h : u ^ 2 ≠ 1) :
    multiples.findIdx (fun Q => Q.x == (place u).x && Q.y == (place u).y) = u.toAdd.val := by
  revert u
  decide +kernel

theorem place_pow (u : Cyclic) (k : Nat) : place (u ^ k) = multiples.getD (u.toAdd.val * k % 8) ⟨0, 0⟩ := by
  have hpow : (u ^ k).toAdd = ((u.toAdd.val * k : Nat) : ZMod 8) := by
    rw [toAdd_pow, nsmul_eq_mul, Nat.cast_mul, ZMod.natCast_zmod_val, mul_comm]
  unfold place
  rw [hpow, ZMod.val_natCast]

theorem pow_order {u : Γ} (h : u ^ 8 = 1) : u ^ Curve.order = 1 := by
  rw [show Curve.order = 8 * (Curve.order / 8) by decide, pow_mul, h, one_pow]

theorem cyclic_pow (u : Cyclic) : u ^ 8 = 1 := by
  revert u
  decide +kernel

theorem smallCurve_chord : ∀ u v : Cyclic, (place u).x ≠ (place v).x → (place u).x ≠ 0 → (place v).x ≠ 0 →
    smallCurve.chord (place u) (place v) = place (u * v) := by
  decide +kernel

theorem smallCurve_rawPower (u : Cyclic) {e n : Nat} (hn : n ≤ 256) (h : u ^ 2 ≠ 1) :
    smallCurve.rawPower (place u) (Counter.little Curve.length e) n = place (u ^ (e % 2 ^ n)) := by
  have hdvd : 2 ^ n ∣ 256 ^ 32 := by
    rw [show (256 : Nat) ^ 32 = 2 ^ 256 by decide]
    exact Nat.pow_dvd_pow 2 hn
  have hbits : ofLittle (Counter.little Curve.length e) % 2 ^ n = e % 2 ^ n := by
    rw [ofLittle_little_mod]
    exact Nat.mod_mod_of_dvd _ hdvd
  unfold smallCurve
  dsimp only
  rw [hbits, findIdx_place u h, place_pow]

theorem smallCurve_lawful : Lawful smallCurve place (Multiplicative.ofAdd (1 : ZMod 8)) where
  generator := rfl
  chord := smallCurve_chord
  rawPower u _ _ hn hex := smallCurve_rawPower u hn fun h => hex (.inl h)
  order u := pow_order (cyclic_pow u)

def share (x sign : UInt8) : ArraySlice := ⟨x :: List.replicate 30 0 ++ [sign], 0, 32⟩

def near : Half (ZMod 13) := .curve25519 1 (point 2 5) 2 (point 1 3)

def far : Half (ZMod 13) := .curve25519 3 (point 7 11) 6 (point 1 10)

end BubbleStorm.Cusp.Crypto
