/-
  BubbleStorm.Util.Crypto.Hmqv — the key agreement over a group
  (`src/util/crypto/hmqv.fun`).

  `multiply` may reject its arguments; the hash of a pair of elements is as long as it is
  asked to be.
-/

import BubbleStorm.Lib.Outcome
import BubbleStorm.Cusp.Stream.PacketFormat

namespace BubbleStorm.Util.Crypto

open BubbleStorm.Cusp (Exn Bytes)
open BubbleStorm.Lib

/-- What the agreement uses of `CYCLIC_GROUP`. -/
structure CyclicGroup (G : Type) where
  multiply : G → G → Except Exn G
  /-- The last argument bounds the bits of the exponent. -/
  fixedPower : G → Nat → Nat → G
  groupLength : Nat

structure Hash (G : Type) where
  hash : Nat → G → G → Bytes
  length_hash : ∀ n A B, (hash n A B).length = n

/-- `fromVector` of `intinfl`. -/
def ofLittle (v : Bytes) : Nat := v.foldr (fun byte x => byte.toNat + 256 * x) 0

namespace Hmqv

variable {G : Type} (C : CyclicGroup G) (H : Hash G)

def halfGroupLength : Nat := C.groupLength / 2

/-- `H'`, as an exponent. -/
def exponent (A B : G) : Nat := ofLittle (H.hash (halfGroupLength C) A B)

def compute (length : Nat) (a x : Nat) (A B X Y : G) : Except Exn (Bytes × Bytes) := do
  let d := exponent C H X B
  let e := exponent C H Y A
  let Be := C.fixedPower B e (halfGroupLength C * 8)
  let YBe ← C.multiply Y Be
  let sigma := C.fixedPower YBe (x + d * a) (halfGroupLength C * 24)
  return (H.hash length sigma A, H.hash length sigma B)

variable {C H}

theorem compute_length {length a x : Nat} {A B X Y : G} {k1 k2 : Bytes} (h : compute C H length a x A B X Y = .ok (k1, k2)) :
    k1.length = length ∧ k2.length = length := by
  unfold compute at h
  obtain ⟨YBe, -, h⟩ := bind_eq_ok.mp h
  cases h
  exact ⟨H.length_hash .., H.length_hash ..⟩

/-- Only the product is ever rejected. -/
theorem ok_compute {length a x : Nat} {A B X Y : G} :
    Ok (compute C H length a x A B X Y) ↔ Ok (C.multiply Y (C.fixedPower B (exponent C H Y A) (halfGroupLength C * 8))) := by
  unfold compute
  rw [ok_bind_pure]

end Hmqv

end BubbleStorm.Util.Crypto
