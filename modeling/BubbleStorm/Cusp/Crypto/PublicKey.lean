/-
  BubbleStorm.Cusp.Crypto.PublicKey — the public-key suites (`src/cusp/crypto/publickey.sml`)
  over the curve of `src/util/crypto/curve25519.fun`.

  The arithmetic of the curve is a parameter, but for what the code rejects and for the
  bits of an exponent it uses.
-/

import BubbleStorm.Cusp.Crypto.Symmetric
import BubbleStorm.Util.Crypto.Hmqv

namespace BubbleStorm.Cusp.Crypto

open BubbleStorm.Cusp (Exn Bytes)
open BubbleStorm.Lib
open BubbleStorm.Util.Serial
open BubbleStorm.Util.Crypto
open Channel.Suite (Mask)

/-! ## The curve -/

structure Point (F : Type) where
  x : F
  y : F
  deriving DecidableEq

structure Curve (F : Type) where
  generator : Point F
  load : Key → Point F
  /-- The sum of two points the code does not reject. -/
  chord : Point F → Point F → Point F
  /-- The ladder over so many bits of the exponent's bytes. -/
  rawPower : Point F → Bytes → Nat → Point F

namespace Curve

variable {F : Type} [DecidableEq F] [Zero F] (C : Curve F)

def length : Nat := 32

def order : Nat := 57896044618658097711785492504343953926856930875039260848015607506283634007912

def multiply (M N : Point F) : Except Exn (Point F) :=
  if M.x = N.x ∨ M.x = 0 ∨ N.x = 0 then .error (.fail "BadElement") else .ok (C.chord M N)

def power (B : Point F) (e : Nat) : Point F :=
  let e := if order < e then e % order else e
  C.rawPower B (Counter.little length e) (1 + e.log2)

def fixedPower (B : Point F) (e bits : Nat) : Point F :=
  let (bits, e) := if 256 < bits then (255, e % order) else (256, e)
  C.rawPower B (Counter.little length e) bits

/-- 252 ones, 3 zeros. -/
def clamp (x : Nat) : Nat := x &&& ((2 ^ 255 - 1) ^^^ 7) ||| 2 ^ 254

def group : CyclicGroup (Point F) := ⟨C.multiply, C.fixedPower, length⟩

def parse (slice : ArraySlice) : Except Exn (Point F) := do
  return C.load (← parseSlice (Shape.vector Forms.word8 length).serial slice)

theorem ok_multiply {M N : Point F} : Ok (C.multiply M N) ↔ M.x ≠ N.x ∧ M.x ≠ 0 ∧ N.x ≠ 0 := by
  unfold multiply
  rw [ok_ite]
  simp only [not_ok_error, ok_ok, imp_false, implies_true, and_true, not_or, ne_eq]

end Curve

/-! ## Half negotiations -/

/-- The private key of an endpoint. -/
structure PrivateKey (F : Type) where
  xor : BitVec 64
  a : Nat
  A : Point F

/-- What `symmetric` of a half negotiation holds: the static and the ephemeral key. -/
inductive Half (F : Type) where
  | curve25519 (a : Nat) (A : Point F) (x : Nat) (X : Point F)
  | xor (a x : BitVec 64)

/-- A 64-bit value 4 times. -/
def fatKey : Shape (BitVec 64) :=
  .aggregate (fun (a, _, _, _, _) => a) (fun a => (a, a, a, a, ()))
    (.cons Forms.word64l (.cons Forms.word64l (.cons Forms.word64l (.cons Forms.word64l .nil))))

theorem fatKey_length : fatKey.serial.length = 32 := rfl

/-- `toVector` of `fatKey`. -/
def fatVector (k : BitVec 64) : Bytes := (List.replicate 4 (little 8 k)).flatten

/-- `fix`: the key in the length the suite asks for. -/
def fix (outlen : Nat) (k : Bytes) : Bytes :=
  if outlen < fatKey.serial.length then k.take outlen
  else if fatKey.serial.length < outlen then k ++ List.replicate (outlen - fatKey.serial.length) 0
  else k

/-- `publicLength` and `ephemeralLength`. -/
def publicLength (suite : Mask) : Except Exn Nat :=
  if suite = 2 then .ok Curve.length
  else if suite = 1 then .ok fatKey.serial.length
  else .error (.fail "info for non-existant public-key suite requested")

/-- As many random bytes as are asked for. -/
abbrev Entropy := (n : Nat) → { v : Bytes // v.length = n }

variable {F : Type} [DecidableEq F] [Zero F] (C : Curve F) (H : Hash (Point F)) (ciphers : Ciphers)

def publickey (key : PrivateKey F) (entropy : Entropy) (suite : Mask) : Except Exn (Half F) :=
  if suite = 2 then
    let x := Curve.clamp (ofLittle (entropy Curve.length).1)
    .ok (.curve25519 key.a key.A x (C.power C.generator x))
  else if suite = 1 then do
    return .xor key.xor (← fromVector fatKey.serial (entropy fatKey.serial.length).1)
  else .error (.fail "methods for non-existant public-key suite requested")

/-- `symmetric` of a half negotiation. -/
def Half.symmetric (half : Half F) (suite : Mask) (B Y : ArraySlice) : Except Exn Full :=
  match half with
  | .curve25519 a A x X => do
    let B ← C.parse B
    let Y ← C.parse Y
    let (k1, k2) ← Hmqv.compute C.group H (← symmetricLength suite) a x A B X Y
    Crypto.symmetric ciphers suite k1 k2
  | .xor a x => do
    let outlen ← symmetricLength suite
    let b ← parseSlice fatKey.serial B
    let y ← parseSlice fatKey.serial Y
    let k1 := a ^^^ y
    let k2 := b ^^^ x
    Crypto.symmetric ciphers suite (fix outlen (fatVector k1)) (fix outlen (fatVector k2))

/-! ## When a key computation succeeds -/

/-- Neither share is rejected: the ephemeral key and the power of the static key have
    coordinates that are not 0 and not the same. -/
def Accepts (half : Half F) (B Y : ArraySlice) : Prop :=
  match half with
  | .curve25519 _ A _ _ => ∀ b y, C.parse B = .ok b → C.parse Y = .ok y →
    let p := C.fixedPower b (Hmqv.exponent C.group H y A) (Hmqv.halfGroupLength C.group * 8)
    y.x ≠ p.x ∧ y.x ≠ 0 ∧ p.x ≠ 0
  | .xor _ _ => True

variable {C H ciphers}

@[simp] theorem length_fatVector (k : BitVec 64) : (fatVector k).length = 32 := by simp [fatVector, little]

theorem length_fix (outlen : Nat) (k : BitVec 64) : (fix outlen (fatVector k)).length = outlen := by
  unfold fix
  rw [fatKey_length]
  split
  · rw [List.length_take, length_fatVector]
    omega
  · split
    · rw [List.length_append, length_fatVector, List.length_replicate]
      omega
    · rw [length_fatVector]
      omega

/-- A share of a packet: 32 bytes, as aligned as the serializers ask for. -/
structure Share (slice : ArraySlice) : Prop where
  inside : slice.In
  length : slice.n = 32
  aligned : 8 ∣ slice.i

theorem Share.fatKey {slice : ArraySlice} (h : Share slice) : ∃ k, parseSlice fatKey.serial slice = .ok k :=
  (parseSlice_iff Crypto.fatKey h.inside h.aligned).mpr (Nat.le_of_eq h.length.symm)

omit [DecidableEq F] [Zero F] in
theorem Share.parse {slice : ArraySlice} (h : Share slice) : ∃ p, C.parse slice = .ok p := by
  have hbytes : Ok (parseSlice (Shape.vector Forms.word8 Curve.length).serial slice) :=
    (parseSlice_iff (.vector Forms.word8 Curve.length) h.inside (Nat.one_dvd _)).mpr (Nat.le_of_eq h.length.symm)
  unfold Curve.parse
  exact ok_bind_pure.mpr hbytes

theorem symmetric_iff {half : Half F} {suite : Mask} {n : Nat} (hn : symmetricLength suite = .ok n) {B Y : ArraySlice}
    (hB : Share B) (hY : Share Y) : Ok (half.symmetric C H ciphers suite B Y) ↔ Accepts C H half B Y := by
  cases half with
  | curve25519 a A x X =>
    obtain ⟨b, hb⟩ := hB.parse (C := C)
    obtain ⟨y, hy⟩ := hY.parse (C := C)
    have hacc : Accepts C H (.curve25519 a A x X) B Y ↔ Ok (Hmqv.compute C.group H n a x A b X y) := by
      rw [Hmqv.ok_compute]
      show _ ↔ Ok (C.multiply y _)
      rw [C.ok_multiply]
      constructor
      · intro h
        exact h b y hb hy
      · intro h b' y' hb' hy'
        cases hb.symm.trans hb'
        cases hy.symm.trans hy'
        exact h
    rw [hacc]
    unfold Half.symmetric
    simp only [hb, hy, hn]
    show Ok (Hmqv.compute C.group H n a x A b X y >>= fun (k1, k2) => Crypto.symmetric ciphers suite k1 k2) ↔ _
    rw [ok_bind]
    constructor
    · intro h
      obtain ⟨keys, hk, -⟩ := h
      exact ⟨keys, hk⟩
    · intro h
      obtain ⟨⟨k1, k2⟩, hk⟩ := h
      obtain ⟨h1, h2⟩ := Hmqv.compute_length hk
      exact ⟨_, hk, symmetric_ok hn h1 h2⟩
  | xor a x =>
    obtain ⟨b, hb⟩ := hB.fatKey
    obtain ⟨y, hy⟩ := hY.fatKey
    refine iff_of_true ?_ trivial
    unfold Half.symmetric
    simp only [hb, hy, hn]
    exact symmetric_ok hn (length_fix ..) (length_fix ..)

omit [DecidableEq F] [Zero F] in
theorem publickey_ok {key : PrivateKey F} {entropy : Entropy} {suite : Mask} {n : Nat} (h : publicLength suite = .ok n) :
    ∃ half, publickey C key entropy suite = .ok half := by
  unfold publicLength at h
  unfold publickey
  split at h
  · rename_i hs
    rw [if_pos hs]
    exact ⟨_, rfl⟩
  · rename_i hs
    split at h
    · rename_i hs'
      rw [if_neg hs, if_pos hs']
      obtain ⟨x, hx⟩ := fromVector_ok fatKey (Nat.le_of_eq (entropy fatKey.serial.length).2.symm)
      rw [hx]
      exact ⟨_, rfl⟩
    · cases h

end BubbleStorm.Cusp.Crypto
