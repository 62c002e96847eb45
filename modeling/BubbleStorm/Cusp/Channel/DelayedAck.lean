/-
  BubbleStorm.Cusp.Channel.DelayedAck — which packets are taken, and acknowledged
  (`src/cusp/channel/delayed-ack.fun`).

  `new` is the newest packet taken and a mask of the sixteen up to it; `oop` is an
  out-of-order packet that wants an acknowledgement of its own. The layer above is a
  parameter: it takes a packet or not. When an acknowledgement is sent (the timer and
  the signals) is left out.
-/

import BubbleStorm.Cusp.Stream.Offset

namespace BubbleStorm.Cusp.Channel.DelayedAck

open BubbleStorm.Cusp.Stream

structure Ack where
  /-- Bitmask of the received packets. -/
  mask : BitVec 16
  /-- The sequence number the mask is relative to. -/
  rasn : Int
  deriving DecidableEq, Repr

structure T where
  new : Ack
  oop : Option Ack
  deriving DecidableEq, Repr

def new : T := ⟨⟨1, 0⟩, none⟩

def deBruijnTable : List Nat := [16, 0x1, 0x8, 0x2, 0xe, 0x9, 0xb, 0x3, 0xf, 0x7, 0xd, 0xa, 0x6, 0xc, 0x5, 0x4]

/-- The number of packets in a row to acknowledge: the low bits that are set. -/
def ackCount (mask : BitVec 16) : Nat :=
  deBruijnTable.getD ((0x0f2d#16 * (~~~mask &&& (mask + 1))) >>> 12).toNat 0

/-- `deliver` is the layer above, which tells whether to acknowledge the packet. -/
def recv {σ : Type} (t : T) (deliver : σ → σ × Bool) (base : σ) (empty : Bool) (tsn : Int) : T × σ :=
  let ⟨mask, rasn⟩ := t.new
  if Key.lt rasn tsn then
    -- the newest packet yet
    let shift := (word32 (tsn - rasn)).toNat
    let mask := 1#16 ||| (mask <<< shift)
    let (base, doAck) := deliver base
    ({ t with new := if doAck then ⟨mask, tsn⟩ else t.new }, base)
  else if !Key.lt (rasn - 16) tsn then
    -- so old that the sender sends it again anyway
    (t, base)
  else
    let offset := (word32 (rasn - tsn)).toNat
    let newmask := mask ||| (1#16 <<< offset)
    let cutmask := newmask >>> offset
    if mask = newmask then (t, base)
    else
      let (base, doAck) := deliver base
      let covered := offset < ackCount newmask
      ({ new := if doAck then ⟨newmask, rasn⟩ else t.new,
         oop := if covered || empty || !doAck then t.oop else some ⟨cutmask, tsn⟩ }, base)

/-- What a packet acknowledges: the packets from `asn - acklen` to `asn`. -/
def pull (t : T) : T × Int × Nat :=
  let ack := t.oop.getD t.new
  ({ t with oop := none }, ack.rasn, ackCount ack.mask - 1)

/-- A packet that is handed to the layer above is at most fifteen behind the newest one
    taken, and is not one of those already taken. -/
def takes (t : T) (tsn : Int) : Bool :=
  Key.lt t.new.rasn tsn ||
    (Key.lt (t.new.rasn - 16) tsn && t.new.mask ≠ t.new.mask ||| (1#16 <<< (word32 (t.new.rasn - tsn)).toNat))

theorem recv_cases {σ : Type} (t : T) (deliver : σ → σ × Bool) (base : σ) (empty : Bool) (tsn : Int) :
    (takes t tsn = false ∧ recv t deliver base empty tsn = (t, base)) ∨
    (takes t tsn = true ∧ (recv t deliver base empty tsn).2 = (deliver base).1 ∧
      ((deliver base).2 = false → (recv t deliver base empty tsn).1.new = t.new)) := by
  unfold recv takes
  dsimp only
  by_cases h1 : Key.lt t.new.rasn tsn = true
  · refine .inr ⟨by simp [h1], ?_, fun hd => ?_⟩
    · rw [if_pos h1]
    · rw [if_pos h1, hd]
      rfl
  · rw [if_neg h1]
    by_cases h2 : Key.lt (t.new.rasn - 16) tsn = true
    · simp only [h2, Bool.not_true, Bool.false_eq_true, if_false]
      split
      · rename_i he
        exact .inl ⟨by simp [h1, ← he], rfl⟩
      · rename_i he
        refine .inr ⟨by simp [h1, he], rfl, fun hd => ?_⟩
        rw [hd]
        rfl
    · exact .inl ⟨by simp [h1, h2], by simp [h2]⟩

end BubbleStorm.Cusp.Channel.DelayedAck
