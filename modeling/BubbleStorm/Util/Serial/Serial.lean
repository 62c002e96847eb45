/-
  BubbleStorm.Util.Serial.Serial — serializers and their combinators
  (`src/util/serial/serial.sml`, `src/util/serial/basic-types.sml`).

  A serializer writes at a position that comes in two parts: `i`, known when the
  serializer is built, and `j`, where the value lies in the array. A basic type shifts
  both to an index of words (`shr`). Sizes and positions are natural numbers, since they
  fit in an `int`; the alignment is the mask of the bits that have to be zero.

  An array that is made is not cleared, so `toVector` is told what is in it.
-/

import BubbleStorm.Cusp.Stream.PacketFormat

namespace BubbleStorm.Util.Serial

open BubbleStorm.Cusp (Exn Bytes)

/-- A serializer, once it is built. -/
structure S (α : Type) where
  align : Nat
  length : Nat
  write : Bytes → Nat → Nat → α → Except Exn Bytes
  read : Bytes → Nat → Nat → Except Exn α

/-! ## Basic types -/

def shr (i j x : Nat) : Nat := i >>> x + j >>> x

/-- `Pack.update`: word number `index` of an array of words of `size` bytes. -/
def packUpdate (size : Nat) (a : Bytes) (index : Nat) (word : Bytes) : Except Exn Bytes :=
  if index * size + size ≤ a.length then .ok (a.take (index * size) ++ word ++ a.drop (index * size + size))
  else .error .subscript

def packSub (size : Nat) (a : Bytes) (index : Nat) : Except Exn Bytes :=
  if index * size + size ≤ a.length then .ok ((a.drop (index * size)).take size) else .error .subscript

/-- A type of `2 ^ k` bytes. -/
def basic {α : Type} (k : Nat) (store : α → Bytes) (load : Bytes → α) : S α :=
  { align := 2 ^ k - 1
    length := 2 ^ k
    write := fun a i j x => packUpdate (2 ^ k) a (shr i j k) (store x)
    read := fun a i j => do return load (← packSub (2 ^ k) a (shr i j k)) }

def unit : S Unit :=
  { align := 0, length := 0, write := fun a _ _ _ => .ok a, read := fun _ _ _ => .ok () }

/-- The bytes of a word, the least significant first. -/
def little (n : Nat) (w : BitVec (8 * n)) : Bytes := (List.range n).map fun i => UInt8.ofNat (w.toNat / 256 ^ i)

def ofLittle (n : Nat) (b : Bytes) : BitVec (8 * n) := BitVec.ofNat _ (b.foldr (fun byte w => byte.toNat + 256 * w) 0)

def wordl (k : Nat) : S (BitVec (8 * 2 ^ k)) := basic k (little (2 ^ k)) (ofLittle (2 ^ k))

def wordb (k : Nat) : S (BitVec (8 * 2 ^ k)) :=
  basic k (fun w => (little (2 ^ k) w).reverse) (fun b => ofLittle (2 ^ k) b.reverse)

def word8 : S (BitVec 8) := wordl 0
def word16l : S (BitVec 16) := wordl 1
def word32l : S (BitVec 32) := wordl 2
def word64l : S (BitVec 64) := wordl 3
def word16b : S (BitVec 16) := wordb 1
def word32b : S (BitVec 32) := wordb 2
def word64b : S (BitVec 64) := wordb 3

-- an int is its two's complement
def int8 : S (BitVec 8) := wordl 0
def int16l : S (BitVec 16) := wordl 1
def int32l : S (BitVec 32) := wordl 2
def int64l : S (BitVec 64) := wordl 3
def int16b : S (BitVec 16) := wordb 1
def int32b : S (BitVec 32) := wordb 2
def int64b : S (BitVec 64) := wordb 3

-- a real is its bits
def real32l : S (BitVec 32) := wordl 2
def real64l : S (BitVec 64) := wordl 3
def real32b : S (BitVec 32) := wordb 2
def real64b : S (BitVec 64) := wordb 3

def boolToWord8 (x : Bool) : UInt8 := if x then 1 else 0

def word8ToBool (x : UInt8) : Bool := 0 < x

def bool : S Bool := basic 0 (fun x => [boolToWord8 x]) (fun b => word8ToBool (b.headD 0))

/-! ## Combinators -/

/-- Up to the next multiple of the alignment. -/
def alignTo (i a : Nat) : Nat := (i + a) / (a + 1) * (a + 1)

def map {α β : Type} (store : α → β) (load : β → α) (base : S β) : S α :=
  { align := base.align
    length := base.length
    write := fun a i j x => base.write a i j (store x)
    read := fun a i j => do return load (← base.read a i j) }

/-- A composition that is not closed yet; `γ` are its values, one inside the other. -/
structure A (γ : Type) where
  align : Nat
  offset : Nat → Nat
  store : Bytes → Nat → Nat → γ → Except Exn Bytes
  load : Bytes → Nat → Nat → Except Exn γ

/-- The end of all compositions. -/
def a : A Unit :=
  { align := 0, offset := id, store := fun a _ _ _ => .ok a, load := fun _ _ _ => .ok () }

/-- `write8`, `write16` and `write32` of zero: the padding in front of a component. -/
def zero (k : Nat) (a : Bytes) (i j : Nat) : Except Exn Bytes := packUpdate (2 ^ k) a (shr i j k) (List.replicate (2 ^ k) 0)

/-- One padding word, if its bit of the padding is set. -/
def padStep (k : Nat) (j : Nat) : Bytes × Nat × Nat → Except Exn (Bytes × Nat × Nat)
  | (a, pad, offset) => do
    if pad &&& 2 ^ k ≠ 0 then return (← zero k a offset j, pad - 2 ^ k, offset + 2 ^ k)
    else return (a, pad, offset)

def padding (a : Bytes) (pad offset j : Nat) : Except Exn Bytes := do
  let s ← padStep 0 j (a, pad, offset)
  let s ← padStep 1 j s
  let s ← padStep 2 j s
  return s.1

/-- The source's backquote: a component in front of a composition. -/
def component {β γ : Type} (base : S β) (rest : A γ) : A (β × γ) :=
  { align := max base.align rest.align
    offset := fun off => rest.offset (alignTo off base.align + base.length)
    store := fun a offset i (x, y) => do
      let offset' := alignTo offset base.align
      let a ← padding a (offset' - offset) offset i
      let a ← base.write a offset' i x
      rest.store a (offset' + base.length) i y
    load := fun a offset i => do
      let offset' := alignTo offset base.align
      let x ← base.read a offset' i
      let y ← rest.load a (offset' + base.length) i
      return (x, y) }

/-- `t` makes a value of the components, `f` takes it apart. -/
def aggregate {α γ : Type} (t : γ → α) (f : α → γ) (c : A γ) : S α :=
  { align := c.align
    length := c.offset 0
    write := fun a i j x => c.store a i j (f x)
    read := fun a i j => do return t (← c.load a i j) }

/-- Write the elements of a vector, from element `n` on. -/
def writeAll {α : Type} (base : S α) (i : Nat) : Nat → List α → Bytes → Except Exn Bytes
  | _, [], a => .ok a
  | n, x :: v, a => do writeAll base i (n + 1) v (← base.write a 0 (i + n * base.length) x)

def readAll {α : Type} (base : S α) (a : Bytes) (i : Nat) (n : Nat) : Except Exn (List α) :=
  (List.range n).mapM fun j => base.read a 0 (i + j * base.length)

def vector {α : Type} (base : S α) (len : Nat) : S (List α) :=
  { align := base.align
    length := len * base.length
    write := fun a i j v => if v.length ≠ len then .error .subscript else writeAll base (i + j) 0 v a
    read := fun a i j => readAll base a (i + j) len }

/-! ## Methods -/

/-- `a0` is what the new array holds before it is written. -/
def toVector {α : Type} (s : S α) (a0 : Bytes) (x : α) : Except Exn Bytes := s.write a0 0 0 x

def fromVector {α : Type} (s : S α) (v : Bytes) : Except Exn α :=
  if v.length < s.length then .error .subscript else s.read v 0 0

/-- `n` bytes of the array from index `i`. -/
structure ArraySlice where
  array : Bytes
  i : Nat
  n : Nat

def checkSlice {α : Type} (s : S α) (slice : ArraySlice) : Except Exn Unit :=
  if slice.i &&& s.align ≠ 0 then .error .badAlignment
  else if slice.n < s.length then .error .subscript
  else .ok ()

/-- The array after the write. -/
def writeSlice {α : Type} (s : S α) (slice : ArraySlice) (x : α) : Except Exn Bytes := do
  checkSlice s slice
  s.write slice.array 0 slice.i x

def parseSlice {α : Type} (s : S α) (slice : ArraySlice) : Except Exn α := do
  checkSlice s slice
  s.read slice.array 0 slice.i

/-! ## What serializers are built of -/

inductive Primitive : Type → Type 1
  | unit : Primitive Unit
  | wordl (k : Nat) (h : k < 4) : Primitive (BitVec (8 * 2 ^ k))
  | wordb (k : Nat) (h : k < 4) : Primitive (BitVec (8 * 2 ^ k))
  | bool : Primitive Bool

def Primitive.serial : {α : Type} → Primitive α → S α
  | _, .unit => Util.Serial.unit
  | _, .wordl k _ => Util.Serial.wordl k
  | _, .wordb k _ => Util.Serial.wordb k
  | _, .bool => Util.Serial.bool

mutual

/-- A nesting of the combinators. -/
inductive Shape : Type → Type 1
  | basic {α : Type} : Primitive α → Shape α
  | map {α β : Type} (store : α → β) (load : β → α) : Shape β → Shape α
  | aggregate {α γ : Type} (t : γ → α) (f : α → γ) : Components γ → Shape α
  | vector {α : Type} : Shape α → Nat → Shape (List α)

inductive Components : Type → Type 1
  | nil : Components Unit
  | cons {β γ : Type} : Shape β → Components γ → Components (β × γ)

end

mutual

def Shape.serial : {α : Type} → Shape α → S α
  | _, .basic p => p.serial
  | _, .map store load base => Util.Serial.map store load base.serial
  | _, .aggregate t f c => Util.Serial.aggregate t f c.serial
  | _, .vector base len => Util.Serial.vector base.serial len

def Components.serial : {γ : Type} → Components γ → A γ
  | _, .nil => a
  | _, .cons base rest => component base.serial rest.serial

end

end BubbleStorm.Util.Serial
