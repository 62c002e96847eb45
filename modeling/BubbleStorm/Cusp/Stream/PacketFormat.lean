/-
  BubbleStorm.Cusp.Stream.PacketFormat — the stream layer's segment headers
  (cusp/stream/packet-format.sml) and the slices they are read from.

  A header is one big-endian word: 4 bits of type, 12 bits that hold a length or a
  sequence number, 16 bits of id. `parse` reads it, `write` stores it. A slice knows
  where its first byte lies in the underlying array, since the word loads insist on
  alignment.
-/

import BubbleStorm.Lib.WrapOrder

namespace BubbleStorm.Cusp

/-- The exceptions the modelled code raises. -/
inductive Exn where
  | subscript
  | badAlignment
  | overflow
  | domain
  | raceCondition
  | wrongHeap
  | fail (msg : String)
  deriving DecidableEq, Repr

abbrev Bytes := List UInt8

namespace Stream

/-! ## Slices -/

structure Slice where
  /-- Index of the first byte in the underlying array. -/
  base : Nat
  bytes : Bytes
  deriving DecidableEq, Repr

namespace Slice

def length (s : Slice) : Nat := s.bytes.length

/-- `subslice (s, i, NONE)`. -/
def tail (s : Slice) (i : Nat) : Except Exn Slice :=
  if s.length < i then .error .subscript else .ok ⟨s.base + i, s.bytes.drop i⟩

/-- `subslice (s, i, SOME n)`. -/
def subslice (s : Slice) (i n : Nat) : Except Exn Slice :=
  if s.length < i + n then .error .subscript else .ok ⟨s.base + i, (s.bytes.drop i).take n⟩

end Slice

/-- The big-endian word in the first four bytes. -/
def be32 : Bytes → Nat
  | a :: b :: c :: d :: _ => a.toNat * 2 ^ 24 + b.toNat * 2 ^ 16 + c.toNat * 2 ^ 8 + d.toNat
  | _ => 0

def toBe32 (w : Nat) : Bytes :=
  [UInt8.ofNat (w / 2 ^ 24), UInt8.ofNat (w / 2 ^ 16), UInt8.ofNat (w / 2 ^ 8), UInt8.ofNat w]

/-- `Serial.word32b`'s `parseSlice`. -/
def parseSlice (s : Slice) : Except Exn Nat :=
  if s.base % 4 ≠ 0 then .error .badAlignment
  else if s.length < 4 then .error .subscript
  else .ok (be32 s.bytes)

/-- The queues' `parser`: the word after the header. -/
def parser (s : Slice) : Except Exn Nat := do parseSlice (← s.subslice 4 4)

/-! ## Segments -/

namespace PacketFormat

inductive Reader where
  | data (eof offset : Bool) (length : Nat)
  | writerResets
  deriving DecidableEq, Repr

inductive Writer where
  | readerResets
  | readerBarrier
  deriving DecidableEq, Repr

inductive Segment where
  | reader (msg : Reader) (id : Nat)
  | writer (msg : Writer) (id seq : Nat)
  /-- `CREATE (CONNECT, ..)`. -/
  | connect (service seq : Nat)
  | corrupt
  deriving DecidableEq, Repr

/-- `align`: up to the next multiple of the word size. -/
def align (x : Nat) : Nat := (x + 3) / 4 * 4

/-- The segment a header word announces. -/
def ofWord (command : Nat) : Segment :=
  let seq := command / 2 ^ 24 % 16
  let id := command % 2 ^ 16
  let len := command / 2 ^ 16 % 2 ^ 12
  match command / 2 ^ 28 with
  | 0 => .reader (.data false false len) id
  | 1 => .reader (.data true false len) id
  | 2 => .reader (.data false true len) id
  | 3 => .reader (.data true true len) id
  | 4 => .reader .writerResets id
  | 5 => .writer .readerResets id seq
  | 6 => .writer .readerBarrier id seq
  | 7 => .connect id seq
  | _ => .corrupt

def parse (data : Slice) : Except Exn Segment :=
  if data.length = 0 then .ok .corrupt else do return ofWord (← parseSlice data)

/-- The header word; the fields lie in disjoint bits, so the source's `xorb` adds them. -/
def toWord : Segment → Except Exn Nat
  | .reader (.data eof offset length) id =>
    let ty := match eof, offset with
      | false, false => 0
      | true, false => 1
      | false, true => 2
      | true, true => 3
    if 4096 ≤ length then .error .overflow else .ok (ty * 2 ^ 28 + length * 2 ^ 16 + id)
  | .reader .writerResets id => .ok (4 * 2 ^ 28 + id)
  | .writer .readerResets id seq => if 16 ≤ seq then .error .overflow else .ok (5 * 2 ^ 28 + seq * 2 ^ 24 + id)
  | .writer .readerBarrier id seq => if 16 ≤ seq then .error .overflow else .ok (6 * 2 ^ 28 + seq * 2 ^ 24 + id)
  | .connect service seq => if 16 ≤ seq then .error .overflow else .ok (7 * 2 ^ 28 + seq * 2 ^ 24 + service)
  | .corrupt => .error (.fail "impossible")

/-- The four header bytes `write` stores. -/
def write (s : Segment) : Except Exn Bytes := do return toBe32 (← toWord s)

/-- What `write` can store: 16-bit ids, 12-bit lengths, 4-bit sequence numbers. -/
def Valid : Segment → Prop
  | .reader (.data _ _ length) id => length < 4096 ∧ id < 2 ^ 16
  | .reader .writerResets id => id < 2 ^ 16
  | .writer _ id seq => id < 2 ^ 16 ∧ seq < 16
  | .connect service seq => service < 2 ^ 16 ∧ seq < 16
  | .corrupt => False

end PacketFormat

/-! ## Reading back what was written -/

theorem bind_ok {ε α β : Type} {x : Except ε α} {f : α → Except ε β} {b : β} (h : (x >>= f) = .ok b) :
    ∃ a, x = .ok a ∧ f a = .ok b := by
  cases x with
  | error e => cases h
  | ok a => exact ⟨a, rfl, h⟩

theorem be32_toBe32 (w : Nat) (rest : Bytes) (h : w < 2 ^ 32) : be32 (toBe32 w ++ rest) = w := by
  simp only [toBe32, List.cons_append, List.nil_append, be32, UInt8.toNat_ofNat']
  omega

@[simp] theorem length_toBe32 (w : Nat) : (toBe32 w).length = 4 := rfl

@[simp] theorem align_mod (x : Nat) : PacketFormat.align x % 4 = 0 := by
  unfold PacketFormat.align; omega

theorem le_align (x : Nat) : x ≤ PacketFormat.align x := by unfold PacketFormat.align; omega

/-- A valid segment's header word announces that segment. -/
theorem ofWord_toWord {s : PacketFormat.Segment} (h : PacketFormat.Valid s) :
    ∃ w < 2 ^ 32, PacketFormat.toWord s = .ok w ∧ PacketFormat.ofWord w = s := by
  have go : ∀ ty rest : Nat, rest < 2 ^ 28 → (ty * 2 ^ 28 + rest) / 2 ^ 28 = ty := by intro ty rest h; omega
  rcases s with ⟨⟨eof, offset, length⟩ | _, id⟩ | ⟨_ | _, id, seq⟩ | ⟨service, seq⟩ | _
  · obtain ⟨hl, hi⟩ := h
    cases eof <;> cases offset <;>
    · simp only [PacketFormat.toWord, show ¬ 4096 ≤ length by omega, if_false]
      refine ⟨_, ?_, rfl, ?_⟩
      · omega
      · simp only [PacketFormat.ofWord, Nat.add_assoc]
        rw [go _ _ (by omega)]
        simp only [PacketFormat.Segment.reader.injEq, PacketFormat.Reader.data.injEq, true_and]
        omega
  · simp only [PacketFormat.Valid] at h
    refine ⟨_, ?_, rfl, ?_⟩
    · omega
    · simp only [PacketFormat.ofWord]
      rw [go _ _ (by omega)]
      simp only [PacketFormat.Segment.reader.injEq, true_and]
      omega
  all_goals
    first
    | exact h.elim
    | obtain ⟨hi, hs⟩ := h
      simp only [PacketFormat.toWord, show ¬ 16 ≤ seq by omega, if_false]
      refine ⟨_, ?_, rfl, ?_⟩
      · omega
      · simp only [PacketFormat.ofWord, Nat.add_assoc]
        rw [go _ _ (by omega)]
        simp only [PacketFormat.Segment.writer.injEq, PacketFormat.Segment.connect.injEq, true_and]
        omega

/-- A length field has twelve bits. -/
theorem parse_length {data : Slice} {eof offset : Bool} {length id : Nat}
    (h : PacketFormat.parse data = .ok (.reader (.data eof offset length) id)) : length < 4096 := by
  unfold PacketFormat.parse at h
  split at h
  · cases h
  · obtain ⟨word, -, h⟩ := bind_ok h
    have hlt : word / 2 ^ 16 % 2 ^ 12 < 4096 := Nat.mod_lt _ (by decide)
    simp only [pure, Except.pure, Except.ok.injEq, PacketFormat.ofWord] at h
    split at h
    all_goals first
    | simp only [PacketFormat.Segment.reader.injEq, PacketFormat.Reader.data.injEq] at h
      omega
    | cases h

end Stream

end BubbleStorm.Cusp
