/-
  BubbleStorm.Cusp.Channel.PacketFormat — the header of a DATA packet
  (`src/cusp/channel/packet-format.fun`).

  A sequence number is unbounded; the header holds its low 28 bits, and the receiver
  fills in the rest by a number of its own. Of the other messages only the tag is kept.
-/

import BubbleStorm.Cusp.Stream.Offset

namespace BubbleStorm.Cusp.Channel.PacketFormat

structure DATA where
  acklen : Nat
  finish : Bool
  asn : Int
  tsn : Int
  deriving DecidableEq, Repr

inductive Message where
  | data (d : DATA)
  | other (tag : Nat)
  deriving DecidableEq, Repr

/-- `Word28.toLargeIntX`, of the low 28 bits. -/
def word28X (x : Int) : Int := (x + 2 ^ 27) % 2 ^ 28 - 2 ^ 27

/-- The two words of the header, given the numbers to tell the sequence numbers by. -/
def parse (header : Nat × Nat) (seqs : Int × Int) : Message :=
  let (w1, w2) := header
  let (tsn, asn) := seqs
  let data (finish : Bool) : Message :=
    .data { finish := finish, acklen := w2 / 2 ^ 28, asn := asn + word28X (w2 - asn), tsn := tsn + word28X (w1 - tsn) }
  match w1 / 2 ^ 28 with
  | 6 => data false
  | 7 => data true
  | tag => .other tag

def write (d : DATA) : Nat × Nat :=
  let tag := if d.finish then 7 else 6
  let acklen := min d.acklen 15
  (tag * 2 ^ 28 + (d.tsn % 2 ^ 28).toNat, acklen * 2 ^ 28 + (d.asn % 2 ^ 28).toNat)

/-- A number is told by another one exactly if they are less than half the 28 bits
    apart. -/
theorem word28X_iff (base x y : Int) (hy : (y - x) % 2 ^ 28 = 0) :
    base + word28X (y - base) = x ↔ -2 ^ 27 ≤ x - base ∧ x - base < 2 ^ 27 := by
  unfold word28X
  omega

theorem parse_data {w1 w2 : Nat} {finish : Bool} (h : w1 / 2 ^ 28 = if finish then 7 else 6) (tsn asn : Int) :
    parse (w1, w2) (tsn, asn) =
      .data ⟨w2 / 2 ^ 28, finish, asn + word28X (w2 - asn), tsn + word28X (w1 - tsn)⟩ := by
  cases finish with
  | false =>
    rw [if_neg Bool.false_ne_true] at h
    simp only [parse, h]
  | true =>
    rw [if_pos rfl] at h
    simp only [parse, h]

theorem write_fst (d : DATA) :
    (write d).1 / 2 ^ 28 = (if d.finish then 7 else 6) ∧ (((write d).1 : Int) - d.tsn) % 2 ^ 28 = 0 := by
  simp only [write]
  split
  · omega
  · omega

theorem write_snd (d : DATA) :
    (write d).2 / 2 ^ 28 = min d.acklen 15 ∧ (((write d).2 : Int) - d.asn) % 2 ^ 28 = 0 := by
  simp only [write]
  omega

/-- What is read of a written header. -/
theorem parse_write (d : DATA) (tsn asn : Int) :
    parse (write d) (tsn, asn) = .data ⟨min d.acklen 15, d.finish, asn + word28X ((write d).2 - asn),
      tsn + word28X ((write d).1 - tsn)⟩ := by
  rw [← (write_snd d).1]
  exact parse_data (write_fst d).1 tsn asn

/-- The numbers that are read are those that were written exactly if both are within
    half the 28 bits of the numbers they are told by. -/
theorem parse_write_iff (d : DATA) (tsn asn : Int) :
    (∃ d', parse (write d) (tsn, asn) = .data d' ∧ d'.tsn = d.tsn ∧ d'.asn = d.asn) ↔
      (-2 ^ 27 ≤ d.tsn - tsn ∧ d.tsn - tsn < 2 ^ 27) ∧ -2 ^ 27 ≤ d.asn - asn ∧ d.asn - asn < 2 ^ 27 := by
  rw [← word28X_iff tsn d.tsn _ (write_fst d).2, ← word28X_iff asn d.asn _ (write_snd d).2, parse_write]
  constructor
  · intro h
    obtain ⟨d', hd, ht, ha⟩ := h
    cases hd
    exact ⟨ht, ha⟩
  · intro h
    exact ⟨_, rfl, h⟩

end BubbleStorm.Cusp.Channel.PacketFormat
