/-
  BubbleStorm.Cusp.Crypto.Symmetric — the symmetric suites (`src/cusp/crypto/symmetric.sml`).

  The checksum, the block cipher and the MAC under it are parameters.
-/

import BubbleStorm.Cusp.Channel.Suite
import BubbleStorm.Util.Crypto.Counter
import BubbleStorm.Util.Serial.Forms

namespace BubbleStorm.Cusp.Crypto

open BubbleStorm.Cusp (Exn Bytes)
open BubbleStorm.Lib
open BubbleStorm.Util.Serial
open BubbleStorm.Util.Crypto
open Channel.Suite (Mask)

/-- What is done to a text, and the MAC of an enciphered one. -/
structure Cipher where
  f : Bytes → Bytes
  mac : Bytes → Bytes

/-- `full_negotiation`. -/
structure Full where
  macLen : Nat
  loopback : Bool
  encipher : Int → Cipher
  decipher : Int → Cipher

abbrev Key := List (BitVec 8)

structure Ciphers where
  crc32 : Bytes → BitVec 32
  aes128 : Key → Bytes → Bytes
  length_aes128 : ∀ key b, (aes128 key b).length = Counter.blockLength
  /-- By key, nonce and text. -/
  poly1305 : Key → Bytes → Bytes → Bytes

variable (ciphers : Ciphers)

/-- `mac` of `crc32`. -/
def crcMac (k1 k2 : BitVec 64) (a : Bytes) : Bytes :=
  let crc := (ciphers.crc32 a).setWidth 64
  little 8 (k1 ^^^ crc) ++ little 8 (k2 ^^^ crc)

def crc32 (k1 k2 : Bytes) : Except Exn Full := do
  let k1 : BitVec 64 := ofLittle 8 (← packSub 8 k1 0)
  let k2 : BitVec 64 := ofLittle 8 (← packSub 8 k2 0)
  return {
    macLen := 16
    loopback := k1 = k2
    encipher := fun _ => ⟨id, crcMac ciphers k1 k2⟩
    decipher := fun _ => ⟨id, crcMac ciphers k2 k1⟩ }

/-- `Poly1305AES.Key.t`. -/
def keyForm : Shape (Key × Key) := Forms.pair (.vector Forms.word8 16) (.vector Forms.word8 16)

/-- `Poly1305AES.encipher`, and `decipher`, which is the same; the sign of the counter is
    not written. -/
def poly1305AES (key : Key × Key) (counter : Int) : Cipher where
  f := Counter.crypt ciphers.aes128 key.1 counter.natAbs
  mac := ciphers.poly1305 key.2 (ciphers.aes128 key.1 (Counter.rawpad counter.natAbs (-1)))

def poly1305aes (k1 k2 : Bytes) : Except Exn Full := do
  let key1 ← fromVector keyForm.serial k1
  let key2 ← fromVector keyForm.serial k2
  return {
    macLen := 16
    loopback := k1 = k2
    encipher := poly1305AES ciphers key1
    decipher := poly1305AES ciphers key2 }

def symmetricLength (suite : Mask) : Except Exn Nat :=
  if suite = 1 then .ok 8
  else if suite = 2 then .ok keyForm.serial.length
  else .error (.fail "key length for non-existant symmetric suite requested")

def symmetric (suite : Mask) (k1 k2 : Bytes) : Except Exn Full :=
  if suite = 1 then crc32 ciphers k1 k2
  else if suite = 2 then poly1305aes ciphers k1 k2
  else .error (.fail "methods for non-existant symmetric suite requested")

/-! ## When a suite takes its keys -/

variable {ciphers}

theorem fromVector_ok {α : Type} (s : Shape α) {v : Bytes} (h : s.serial.length ≤ v.length) :
    ∃ x, fromVector s.serial v = .ok x := by
  unfold fromVector
  rw [if_neg (Nat.not_lt.mpr h)]
  exact s.read_ok (Nat.dvd_zero _) (by omega)

/-- Keys of the length that a suite asks for. -/
theorem symmetric_ok {suite : Mask} {n : Nat} (hn : symmetricLength suite = .ok n) {k1 k2 : Bytes} (h1 : k1.length = n)
    (h2 : k2.length = n) : Ok (symmetric ciphers suite k1 k2) := by
  unfold symmetricLength at hn
  unfold symmetric
  split at hn
  · rename_i hs
    cases hn
    rw [if_pos hs]
    unfold crc32
    obtain ⟨w1, hw1⟩ := packSub_ok (k := 3) (i := 0) (j := 0) (a := k1) rfl (by omega)
    obtain ⟨w2, hw2⟩ := packSub_ok (k := 3) (i := 0) (j := 0) (a := k2) rfl (by omega)
    have h1' : packSub 8 k1 0 = .ok w1 := hw1
    have h2' : packSub 8 k2 0 = .ok w2 := hw2
    rw [h1', h2']
    exact ok_pure _
  · rename_i hs
    split at hn
    · rename_i hs'
      cases hn
      rw [if_neg hs, if_pos hs']
      unfold poly1305aes
      obtain ⟨key1, hk1⟩ := fromVector_ok keyForm (Nat.le_of_eq h1.symm)
      obtain ⟨key2, hk2⟩ := fromVector_ok keyForm (Nat.le_of_eq h2.symm)
      rw [hk1, hk2]
      exact ok_pure _
    · cases hn

end BubbleStorm.Cusp.Crypto
