/-
  BubbleStorm.Util.Crypto.Compressor — a hash of a stream by its compression function
  (`src/util/crypto/compressor.fun`), for the two hashes that are made with it
  (`src/util/crypto/whirlpool.sml`, `src/util/crypto/ripemd-160.sml`).

  A compression function is any function of a state and the bytes of a block. What a hash
  adds is the format it reads a block with and the one it writes the length with. Both have
  blocks of 64 bytes.

  Proved: the result is the fold of the compression function over the blocks of the padded
  message, however that was cut, if and only if no block that is read straight from a slice
  lies at a place the format of the hash does not take, and the length in bits fits the
  counter where the hash does not cut it itself (`stream_iff`). RIPEMD-160 reads words of
  four bytes, which every slice suits; Whirlpool reads words of eight,
  but only a multiple of four is asked for.
-/

import BubbleStorm.Util.Serial.Forms

namespace BubbleStorm.Util.Crypto.Compressor

open BitVec (ofNat ofNat_add toNat toNat_mul toNat_ofNat toNat_setWidth toNat_umod)
open List (append_assoc append_nil drop_zero flatten_append flatten_cons flatten_nil length_append length_cons length_drop map_map replicate)
open BubbleStorm.Cusp (Exn Bytes)
open BubbleStorm.Lib
open BubbleStorm.Util.Serial

/-! ## The hashes -/

/-- The components of a tuple of one type. -/
def Words (α : Type) : Nat → Type
  | 0 => Unit
  | n + 1 => α × Words α n

def copies {α : Type} (s : Shape α) : (n : Nat) → Components (Words α n)
  | 0 => .nil
  | n + 1 => .cons s (copies s n)

def word64b : Shape (BitVec 64) := .basic (.wordb 3 (Nat.le_refl 4))

def w64x8b : Shape (Words (BitVec 64) 8) := .aggregate id id (copies word64b 8)

def w32x16b : Shape (Words (BitVec 32) 16) := .aggregate id id (copies Forms.word32l 16)

def w64x4 : Shape (Words (BitVec 64) 4) := .aggregate id id (copies word64b 4)

/-- A length counter of 256 bits. -/
def store256 (x : BitVec 64) : Words (BitVec 64) 4 := (0, 0, 0, x * 8, ())

inductive Hash where
  | whirlpool
  | ripemd160
  deriving DecidableEq, Repr

namespace Hash

/-- `Base.length`: how the number of bytes is written. -/
def length : Hash → Shape (BitVec 64)
  | whirlpool => .map store256 (fun x => x.2.2.2.1 / 8) w64x4
  | ripemd160 => .map (fun x => x * 8) (fun x => x / 8) Forms.word64l

/-- The checks of `parseSlice` and `parseVector`. -/
def checkBlock : Hash → ArraySlice → Except Exn Unit
  | whirlpool => checkSlice w64x8b.serial
  | ripemd160 => checkSlice w32x16b.serial

end Hash

def inputLength : Nat := 64

/-- A compression function takes a block by its bytes. -/
structure Compression (σ : Type) where
  initial : σ
  compress : σ → Bytes → σ
  finish : σ → Bytes

section

variable {σ : Type} (h : Hash) (c : Compression σ)

namespace Base

def compressA (s : σ) (a : ArraySlice) : Except Exn σ := do
  h.checkBlock a
  return c.compress s ((a.array.drop a.i).take inputLength)

def compressV (s : σ) (v : VectorSlice) : Except Exn σ := do
  h.checkBlock v
  return c.compress s ((v.array.drop v.i).take inputLength)

end Base

/-! ## The stream -/

structure State (σ : Type) where
  base : σ
  buffer : Bytes
  /-- The bytes so far, in a word of 64 bits. -/
  used : BitVec 64

def inputLengthW : BitVec 64 := ofNat 64 inputLength

def initial : State σ := ⟨c.initial, replicate inputLength 0, 0⟩

/-- `Copy.word8a` and `Copy.word8v` to the buffer from `di` on. -/
def copy (buffer : Bytes) (di : Nat) (src : ArraySlice) : Bytes := splice buffer di ((src.array.drop src.i).take src.n)

theorem have_lt (used : BitVec 64) : (used % inputLengthW).toNat < inputLength := by
  rw [toNat_umod]
  exact Nat.mod_lt _ (by decide)

/-- The body of `compressA` and `compressV`; `front` compresses a block of the slice. -/
def absorb (front : σ → ArraySlice → Except Exn σ) (st : State σ) (data : ArraySlice) : Except Exn (State σ) :=
  let have' := (st.used % inputLengthW).toNat
  if have' + data.n < inputLength then
    -- it will fit into the buffer, but not fill it
    .ok { st with buffer := copy st.buffer have' data, used := st.used + ofNat 64 data.n }
  else if have' = 0 ∧ data.i % 4 = 0 then do
    -- nothing is buffered and the data is an entire block at least
    let base ← front st.base ⟨data.array, data.i, inputLength⟩
    absorb front ⟨base, st.buffer, st.used + inputLengthW⟩ ⟨data.array, data.i + inputLength, data.n - inputLength⟩
  else do
    let space := inputLength - have'
    let buffer := copy st.buffer have' ⟨data.array, data.i, space⟩
    let base ← Base.compressA h c st.base (full buffer)
    absorb front ⟨base, buffer, st.used + ofNat 64 space⟩ ⟨data.array, data.i + space, data.n - space⟩
termination_by data.n
decreasing_by
  · have hlen : inputLength = 64 := rfl
    omega
  · have hlen : inputLength = 64 := rfl
    have hlt := have_lt st.used
    omega

def compressA (st : State σ) (data : ArraySlice) : Except Exn (State σ) := absorb h c (Base.compressA h c) st data

def compressV (st : State σ) (data : VectorSlice) : Except Exn (State σ) := absorb h c (Base.compressV h c) st data

def pad : Bytes := replicate inputLength 0

def highBit : VectorSlice := full [0x80]

def finish (st : State σ) : Except Exn Bytes := do
  let this ← compressV h c st highBit
  let lengthW := ofNat 64 h.length.serial.length
  -- how long it needs to be to fit the length and bit
  let totalLen := st.used + lengthW + 1
  -- round up to a block multiple
  let totalLen := totalLen + inputLengthW - 1
  let totalLen := totalLen / inputLengthW * inputLengthW
  let padLen := (totalLen - lengthW - st.used).toNat
  let this ← compressV h c this (← slice pad 0 padLen)
  -- the length goes over the end of the buffer
  let buffer ← writeSlice h.length.serial ⟨this.buffer, inputLength - h.length.serial.length, h.length.serial.length⟩ st.used
  return c.finish (← Base.compressA h c this.base (full buffer))

/-- What is fed: a slice lies in its array. -/
structure Slice extends ArraySlice where
  within : toArraySlice.In

inductive Chunk where
  | array (s : Slice)
  | vector (s : Slice)

namespace Chunk

def slice : Chunk → ArraySlice
  | array s => s.toArraySlice
  | vector s => s.toArraySlice

end Chunk

def feed (st : State σ) : Chunk → Except Exn (State σ)
  | .array s => compressA h c st s.toArraySlice
  | .vector s => compressV h c st s.toArraySlice

def feedAll : List Chunk → State σ → Except Exn (State σ)
  | [], st => .ok st
  | d :: ds, st => do feedAll ds (← feed h c st d)

def stream (chunks : List Chunk) : Except Exn Bytes := do finish h c (← feedAll h c chunks (initial c))

def hash (v : Bytes) : Except Exn Bytes := do finish h c (← compressV h c (initial c) (full v))

end

/-! ## The padding rule -/

/-- The bytes of a slice. -/
def bytes (s : ArraySlice) : Bytes := (s.array.drop s.i).take s.n

def message (chunks : List Chunk) : Bytes := chunks.flatMap fun d => bytes d.slice

/-- The length in bits, as the hash writes it: Whirlpool in 256 bits, the most significant
    byte first, RIPEMD-160 its lower 64 bits, the least significant first. -/
def bitLength : Hash → Nat → Bytes
  | .whirlpool, n => (little 32 (ofNat 256 (8 * n))).reverse
  | .ripemd160, n => little 8 (ofNat 64 (8 * n))

def lengthBytes : Hash → Nat
  | .whirlpool => 32
  | .ripemd160 => 8

/-- Zeros up to where the length ends a block. -/
def zeros (h : Hash) (n : Nat) : Nat := (inputLength - (n + 1 + lengthBytes h) % inputLength) % inputLength

def padded (h : Hash) (m : Bytes) : Bytes := m ++ 0x80 :: replicate (zeros h m.length) 0 ++ bitLength h m.length

def blocks (m : Bytes) : List Bytes := (List.range (m.length / inputLength)).map fun i => (m.drop (inputLength * i)).take inputLength

/-- For every compression function, the stream has the value of the hash. -/
def Streams (h : Hash) (chunks : List Chunk) : Prop :=
  ∀ (σ : Type) (c : Compression σ),
    stream h c chunks = .ok (c.finish ((blocks (padded h (message chunks))).foldl c.compress c.initial))

/-! ## Where it does -/

/-- The bytes of a word of a block. -/
def wordBytes : Hash → Nat
  | .whirlpool => 8
  | .ripemd160 => 4

/-- What is missing of the block that was started. -/
def missing (n : Nat) : Nat := (inputLength - n % inputLength) % inputLength

/-- After `n` bytes: a block that follows in the slice, at a multiple of four, lies at one of
    the words. -/
def Straight (h : Hash) (n : Nat) (s : ArraySlice) : Prop :=
  missing n + inputLength ≤ s.n → 4 ∣ s.i + missing n → wordBytes h ∣ s.i + missing n

def AllStraight (h : Hash) : Nat → List Chunk → Prop
  | _, [] => True
  | n, d :: ds => Straight h n d.slice ∧ AllStraight h (n + d.slice.n) ds

/-- The length in bits fits the words that are written. -/
def Counts : Hash → Nat → Prop
  | .whirlpool, n => 8 * n % 2 ^ 256 < 2 ^ 64
  | .ripemd160, _ => True

/-! ## Blocks -/

theorem blocks_nil : blocks [] = [] := rfl

theorem blocks_cons {b : Bytes} (hb : b.length = inputLength) (m : Bytes) : blocks (b ++ m) = b :: blocks m := by
  have hdiv : (b ++ m).length / inputLength = m.length / inputLength + 1 := by
    rw [length_append, hb]
    exact Nat.add_div_left _ (by decide)
  unfold blocks
  rw [hdiv, List.range_succ_eq_map, List.map_cons, map_map]
  congr 1
  · rw [Nat.mul_zero, drop_zero, List.take_left' hb]
  · apply List.map_congr_left
    intro i _
    show ((b ++ m).drop (inputLength * (i + 1))).take inputLength = (m.drop (inputLength * i)).take inputLength
    have hsum : inputLength * (i + 1) = b.length + inputLength * i := by
      rw [Nat.mul_add, hb]
      omega
    rw [hsum, ← List.drop_drop, List.drop_left]

theorem blocks_flatten {bs : List Bytes} (hbs : ∀ b ∈ bs, b.length = inputLength) : blocks bs.flatten = bs := by
  induction bs with
  | nil => exact blocks_nil
  | cons b bs ih =>
    rw [flatten_cons, blocks_cons (hbs b (.head _)), ih fun b' hb' => hbs b' (.tail _ hb')]

theorem length_flatten {bs : List Bytes} (hbs : ∀ b ∈ bs, b.length = inputLength) : bs.flatten.length = inputLength * bs.length := by
  induction bs with
  | nil => rfl
  | cons b bs ih =>
    rw [flatten_cons, length_append, hbs b (.head _), ih fun b' hb' => hbs b' (.tail _ hb'), length_cons]
    unfold inputLength
    omega

/-! ## What is buffered -/

/-- `m` was fed: its blocks are compressed, and the rest of it starts the buffer. -/
structure Fed {σ : Type} (c : Compression σ) (st : State σ) (bs : List Bytes) (rest : Bytes) : Prop where
  blocks : ∀ b ∈ bs, b.length = inputLength
  base : st.base = bs.foldl c.compress c.initial
  short : rest.length < inputLength
  size : st.buffer.length = inputLength
  buffer : st.buffer.take rest.length = rest
  used : st.used = ofNat 64 (bs.flatten ++ rest).length

section

variable {σ : Type} {h : Hash} {c : Compression σ}

theorem initial_fed : Fed c (initial c) [] [] where
  blocks := fun _ hb => nomatch hb
  base := rfl
  short := by decide
  size := rfl
  buffer := rfl
  used := rfl

theorem have_eq {st : State σ} {bs : List Bytes} {rest : Bytes} (hst : Fed c st bs rest) :
    (st.used % inputLengthW).toNat = rest.length := by
  have hflat := length_flatten hst.blocks
  have hshort := hst.short
  rw [hst.used, toNat_umod, toNat_ofNat, length_append, hflat]
  show (inputLength * bs.length + rest.length) % 2 ^ 64 % inputLength = rest.length
  unfold inputLength at hshort ⊢
  omega

theorem length_bytes {s : ArraySlice} (hs : s.In) : (bytes s).length = s.n := by
  unfold ArraySlice.In at hs
  unfold bytes
  rw [List.length_take, length_drop]
  omega

/-- The first bytes of a slice and the others. -/
theorem bytes_cut (s : ArraySlice) {k : Nat} (hk : k ≤ s.n) : bytes s = bytes ⟨s.array, s.i, k⟩ ++ bytes ⟨s.array, s.i + k, s.n - k⟩ := by
  unfold bytes
  dsimp only
  rw [← List.drop_drop, ← List.take_add, Nat.add_sub_cancel' hk]

theorem cut_in {s : ArraySlice} (hs : s.In) {k : Nat} (hk : k ≤ s.n) : ArraySlice.In ⟨s.array, s.i, k⟩ := by
  unfold ArraySlice.In at hs ⊢
  dsimp only
  omega

theorem copy_take (buffer : Bytes) (di : Nat) {s : ArraySlice} (hs : s.In) (hdi : di ≤ buffer.length) :
    (copy buffer di s).take (di + s.n) = buffer.take di ++ bytes s := by
  have hlen : (buffer.take di ++ bytes s).length = di + s.n := by
    rw [length_append, length_bytes hs, List.length_take_of_le hdi]
  unfold copy splice
  exact List.take_left' hlen

theorem copy_length {buffer : Bytes} {di : Nat} {s : ArraySlice} (hs : s.In) (hdi : di + s.n ≤ buffer.length) :
    (copy buffer di s).length = buffer.length := by
  refine length_splice ?_
  rw [show ((s.array.drop s.i).take s.n).length = s.n from length_bytes hs]
  exact hdi

/-! ## The checks of a block -/

theorem wordBytes_dvd (h : Hash) : wordBytes h ∣ inputLength := by cases h <;> decide

theorem checkBlock_ok {a : Bytes} {i n : Nat} (hi : wordBytes h ∣ i) (hn : inputLength ≤ n) : h.checkBlock ⟨a, i, n⟩ = .ok () := by
  cases h with
  | whirlpool =>
    show checkSlice w64x8b.serial ⟨a, i, n⟩ = .ok ()
    unfold checkSlice
    rw [if_neg fun hne => hne (and_align w64x8b.mask hi)]
    exact if_neg (Nat.not_lt.mpr hn)
  | ripemd160 =>
    show checkSlice w32x16b.serial ⟨a, i, n⟩ = .ok ()
    unfold checkSlice
    rw [if_neg fun hne => hne (and_align w32x16b.mask hi)]
    exact if_neg (Nat.not_lt.mpr hn)

theorem checkBlock_misaligned {a : Bytes} {i n : Nat} (hi : ¬ wordBytes h ∣ i) : h.checkBlock ⟨a, i, n⟩ = .error .badAlignment := by
  cases h with
  | whirlpool =>
    refine if_pos fun hand => hi ?_
    have hmod : i &&& (2 ^ 3 - 1) = i % 2 ^ 3 := Nat.and_two_pow_sub_one_eq_mod i 3
    exact Nat.dvd_of_mod_eq_zero (hmod.symm.trans hand)
  | ripemd160 =>
    refine if_pos fun hand => hi ?_
    have hmod : i &&& (2 ^ 2 - 1) = i % 2 ^ 2 := Nat.and_two_pow_sub_one_eq_mod i 2
    exact Nat.dvd_of_mod_eq_zero (hmod.symm.trans hand)

theorem full_ok (s : σ) {b : Bytes} (hb : b.length = inputLength) : Base.compressA h c s (full b) = .ok (c.compress s b) := by
  refine bind_eq_ok.mpr ⟨(), checkBlock_ok (Nat.dvd_zero _) (Nat.le_of_eq hb.symm), ?_⟩
  show Except.ok (c.compress s ((b.drop 0).take inputLength)) = _
  rw [drop_zero, List.take_of_length_le (Nat.le_of_eq hb)]

/-- `compressA` and `compressV` of a hash read a block of a slice alike. -/
def Front (h : Hash) (c : Compression σ) (front : σ → ArraySlice → Except Exn σ) : Prop :=
  ∀ s a, front s a = do
    h.checkBlock a
    return c.compress s ((a.array.drop a.i).take inputLength)

theorem frontA : Front h c (Base.compressA h c) := fun _ _ => rfl

theorem frontV : Front h c (Base.compressV h c) := fun _ _ => rfl

/-! ## A slice -/

theorem missing_fed {st : State σ} {bs : List Bytes} {rest : Bytes} (hst : Fed c st bs rest) :
    missing (bs.flatten ++ rest).length = (inputLength - rest.length) % inputLength := by
  have hflat := length_flatten hst.blocks
  have hshort := hst.short
  unfold missing
  rw [length_append, hflat, Nat.mul_add_mod, Nat.mod_eq_of_lt hshort]

/-- One block more, and nothing is left of it. -/
theorem Fed.next {st : State σ} {bs : List Bytes} {rest : Bytes} (hst : Fed c st bs rest) {b : Bytes} (hb : b.length = inputLength)
    {buffer : Bytes} (hbuffer : buffer.length = inputLength) {k : Nat} (hk : rest.length + k = inputLength) :
    Fed c ⟨c.compress st.base b, buffer, st.used + ofNat 64 k⟩ (bs ++ [b]) [] where
  blocks := by
    intro b' hb'
    rcases List.mem_append.mp hb' with hb' | hb'
    · exact hst.blocks b' hb'
    · cases List.mem_singleton.mp hb'
      exact hb
  base := by
    rw [List.foldl_append, ← hst.base]
    rfl
  short := by decide
  size := hbuffer
  buffer := rfl
  used := by
    rw [hst.used, ← ofNat_add, append_nil, flatten_append, length_append, length_append]
    show ofNat 64 (bs.flatten.length + rest.length + k) = ofNat 64 (bs.flatten.length + (b ++ []).length)
    rw [append_nil, hb, Nat.add_assoc, hk]

/-- What fits into the buffer is kept there. -/
theorem Fed.keep {st : State σ} {bs : List Bytes} {rest : Bytes} (hst : Fed c st bs rest) {data : ArraySlice} (hin : data.In)
    (hfit : rest.length + data.n < inputLength) :
    Fed c { st with buffer := copy st.buffer rest.length data, used := st.used + ofNat 64 data.n } bs (rest ++ bytes data) := by
  have hlen : (rest ++ bytes data).length = rest.length + data.n := by
    rw [length_append, length_bytes hin]
  have hsize := hst.size
  refine ⟨hst.blocks, hst.base, hlen ▸ hfit, ?_, ?_, ?_⟩
  · show (copy st.buffer rest.length data).length = inputLength
    rw [copy_length hin (by omega), hsize]
  · show (copy st.buffer rest.length data).take (rest ++ bytes data).length = rest ++ bytes data
    rw [hlen, copy_take _ _ hin (by omega), hst.buffer]
  · have hall : (bs.flatten ++ rest ++ bytes data).length = (bs.flatten ++ rest).length + data.n := by
      rw [length_append, length_bytes hin]
    show st.used + ofNat 64 data.n = _
    rw [hst.used, ← ofNat_add, ← append_assoc, hall]

/-- The buffer is filled to a block. -/
theorem Fed.fill {st : State σ} {bs : List Bytes} {rest : Bytes} (hst : Fed c st bs rest) {data : ArraySlice} (hin : data.In)
    (hfill : rest.length + data.n = inputLength) :
    (copy st.buffer rest.length data).length = inputLength ∧ copy st.buffer rest.length data = rest ++ bytes data := by
  have hsize := hst.size
  have hlen : (copy st.buffer rest.length data).length = inputLength := by
    rw [copy_length hin (by omega), hsize]
  have htake := copy_take st.buffer rest.length hin (by omega)
  rw [List.take_of_length_le (Nat.le_of_eq (hlen.trans hfill.symm)), hst.buffer] at htake
  exact ⟨hlen, htake⟩

/-- With nothing buffered the next block lies at the front of the slice. -/
theorem straight_empty {st : State σ} {bs : List Bytes} (hst : Fed c st bs []) (data : ArraySlice) :
    Straight h (bs.flatten ++ []).length data ↔ (inputLength ≤ data.n → 4 ∣ data.i → wordBytes h ∣ data.i) := by
  have hmissing : missing (bs.flatten ++ []).length = 0 := by
    rw [missing_fed hst]
    rfl
  unfold Straight
  rw [hmissing, Nat.zero_add, Nat.add_zero]

/-- Where a block goes through the buffer, the slice behind it decides. -/
theorem straight_fill {st st' : State σ} {bs bs' : List Bytes} {rest : Bytes} (hst : Fed c st bs rest) (hst' : Fed c st' bs' [])
    {data : ArraySlice} {space : Nat} (hspace : rest.length + space = inputLength) (hdirect : ¬ (rest.length = 0 ∧ data.i % 4 = 0)) :
    Straight h (bs.flatten ++ rest).length data ↔
      Straight h (bs'.flatten ++ []).length ⟨data.array, data.i + space, data.n - space⟩ := by
  have hshort := hst.short
  rw [straight_empty hst']
  unfold Straight
  rw [missing_fed hst]
  by_cases hrest : rest.length = 0
  · -- the place of a block is no multiple of four, here or there
    have hfour : ¬ data.i % 4 = 0 := fun hfour => hdirect ⟨hrest, hfour⟩
    have hspace' : space = 64 := by
      unfold inputLength at hspace
      omega
    constructor
    · intro _ _ hdvd
      have hmod : (data.i + space) % 4 = 0 := Nat.mod_eq_zero_of_dvd hdvd
      omega
    · intro _ _ hdvd
      rw [hrest, Nat.sub_zero, Nat.mod_self] at hdvd
      exact absurd (Nat.mod_eq_zero_of_dvd hdvd) hfour
  · have hmod : (inputLength - rest.length) % inputLength = space := by
      rw [Nat.mod_eq_of_lt (by omega)]
      omega
    have hlong : space + inputLength ≤ data.n ↔ inputLength ≤ data.n - space := by
      have hlen : inputLength = 64 := rfl
      omega
    rw [hmod, hlong]

/-- The slice is fed, or a block of it raises. -/
theorem absorb_spec {front : σ → ArraySlice → Except Exn σ} (hf : Front h c front) (st : State σ) (data : ArraySlice) :
    ∀ {bs : List Bytes} {rest : Bytes}, Fed c st bs rest → data.In →
      (Straight h (bs.flatten ++ rest).length data → ∃ st' bs' rest', absorb h c front st data = .ok st' ∧ Fed c st' bs' rest' ∧
        bs'.flatten ++ rest' = bs.flatten ++ rest ++ bytes data) ∧
      (¬ Straight h (bs.flatten ++ rest).length data → absorb h c front st data = .error .badAlignment) := by
  induction st, data using absorb.induct with
  | case1 st data have' =>
    rename_i hfit
    intro bs rest hst hin
    have hhave : have' = rest.length := have_eq hst
    have hunfold : absorb h c front st data =
        .ok { st with buffer := copy st.buffer have' data, used := st.used + ofNat 64 data.n } := by
      rw [absorb]
      exact if_pos hfit
    rw [hhave] at hfit hunfold
    have hstraight : Straight h (bs.flatten ++ rest).length data := by
      intro hlong
      omega
    exact ⟨fun _ => ⟨_, bs, rest ++ bytes data, hunfold, hst.keep hin hfit, (append_assoc ..).symm⟩, fun hnot => absurd hstraight hnot⟩
  | case2 st data have' hfit hdirect =>
    rename_i ih
    intro bs rest hst hin
    have hhave : have' = rest.length := have_eq hst
    obtain ⟨hzero, hfour⟩ := hdirect
    have hempty : rest = [] := List.eq_nil_of_length_eq_zero (hhave ▸ hzero)
    subst hempty
    have hlong : inputLength ≤ data.n := by omega
    have hunfold : absorb h c front st data = (front st.base ⟨data.array, data.i, inputLength⟩ >>= fun base =>
        absorb h c front ⟨base, st.buffer, st.used + inputLengthW⟩ ⟨data.array, data.i + inputLength, data.n - inputLength⟩) := by
      rw [absorb]
      exact (if_neg hfit).trans (if_pos ⟨hzero, hfour⟩)
    have hcut := bytes_cut data hlong
    have hblock : (bytes ⟨data.array, data.i, inputLength⟩).length = inputLength := length_bytes (cut_in hin hlong)
    rw [straight_empty hst]
    by_cases hword : wordBytes h ∣ data.i
    · have hfront : front st.base ⟨data.array, data.i, inputLength⟩ =
          .ok (c.compress st.base (bytes ⟨data.array, data.i, inputLength⟩)) := by
        rw [hf]
        exact bind_eq_ok.mpr ⟨(), checkBlock_ok hword (Nat.le_refl _), rfl⟩
      rw [hfront] at hunfold
      have hnext := hst.next hblock hst.size (k := inputLength) rfl
      obtain ⟨hok, -⟩ := ih _ hnext (subslice_in hin hlong)
      obtain ⟨st', bs', rest', hrun, hfed, hbytes⟩ := hok ((straight_empty hnext _).mpr fun _ _ => Nat.dvd_add hword (wordBytes_dvd h))
      refine ⟨fun _ => ⟨st', bs', rest', hunfold.trans hrun, hfed, ?_⟩, fun hnot => absurd (fun _ _ => hword) hnot⟩
      rw [hbytes, hcut]
      simp only [flatten_append, flatten_cons, flatten_nil, append_nil, append_assoc]
    · have hfront : front st.base ⟨data.array, data.i, inputLength⟩ = .error .badAlignment := by
        rw [hf, checkBlock_misaligned hword]
        rfl
      refine ⟨fun hstraight => absurd (hstraight hlong (Nat.dvd_of_mod_eq_zero hfour)) hword, fun _ => ?_⟩
      rw [hunfold, hfront]
      rfl
  | case3 st data have' hfit hdirect =>
    rename_i space buffer ih
    intro bs rest hst hin
    have hhave : have' = rest.length := have_eq hst
    have hshort := hst.short
    have hspace : rest.length + space = inputLength := by omega
    have hle : space ≤ data.n := by omega
    have hunfold : absorb h c front st data = (Base.compressA h c st.base (full buffer) >>= fun base =>
        absorb h c front ⟨base, buffer, st.used + ofNat 64 space⟩ ⟨data.array, data.i + space, data.n - space⟩) := by
      rw [absorb]
      exact (if_neg hfit).trans (if_neg hdirect)
    have hcopy : buffer = copy st.buffer rest.length ⟨data.array, data.i, space⟩ := hhave ▸ rfl
    obtain ⟨hbuffer, hblock⟩ := hst.fill (cut_in hin hle) hspace
    rw [← hcopy] at hbuffer hblock
    rw [full_ok st.base hbuffer] at hunfold
    have hnext := hst.next hbuffer hbuffer hspace
    obtain ⟨hok, herror⟩ := ih _ hnext (subslice_in hin hle)
    have hstraight := straight_fill (h := h) hst hnext hspace (hhave ▸ hdirect)
    refine ⟨fun hs => ?_, fun hs => hunfold.trans (herror fun hs' => hs (hstraight.mpr hs'))⟩
    obtain ⟨st', bs', rest', hrun, hfed, hbytes⟩ := hok (hstraight.mp hs)
    refine ⟨st', bs', rest', hunfold.trans hrun, hfed, ?_⟩
    rw [hbytes, bytes_cut data hle, hblock]
    simp only [flatten_append, flatten_cons, flatten_nil, append_nil, append_assoc]

/-! ## The end -/

theorem length_eq (h : Hash) : h.length.serial.length = lengthBytes h := by cases h <;> rfl

/-- One zero more than the rule asks for; the length goes over it. -/
theorem padLen_eq (h : Hash) (n : Nat) :
    ((ofNat 64 n + ofNat 64 (lengthBytes h) + 1 + inputLengthW - 1) / inputLengthW * inputLengthW -
      ofNat 64 (lengthBytes h) - ofNat 64 n).toNat = zeros h n + 1 := by
  have hone : (1 : BitVec 64).toNat = 1 := rfl
  have hinput : inputLengthW.toNat = 64 := rfl
  simp only [BitVec.toNat_sub, toNat_mul, BitVec.toNat_udiv, BitVec.toNat_add, toNat_ofNat, hone, hinput]
  unfold zeros inputLength
  cases h with
  | whirlpool =>
    show _ = (64 - (n + 1 + 32) % 64) % 64 + 1
    have hlength : lengthBytes .whirlpool = 32 := rfl
    rw [hlength]
    omega
  | ripemd160 =>
    show _ = (64 - (n + 1 + 8) % 64) % 64 + 1
    have hlength : lengthBytes .ripemd160 = 8 := rfl
    rw [hlength]
    omega

/-- What is written for the length. -/
def written : Hash → BitVec 64 → Bytes
  | .whirlpool, used => replicate 24 0 ++ (little 8 (used * 8)).reverse
  | .ripemd160, used => little 8 (used * 8)

theorem length_written (h : Hash) (used : BitVec 64) : (written h used).length = lengthBytes h := by
  cases h with
  | whirlpool =>
    show (replicate 24 0 ++ (little 8 (used * 8)).reverse).length = 32
    rw [length_append, List.length_reverse, little_length, List.length_replicate]
  | ripemd160 => exact little_length _ _

theorem bytes_store256 (used : BitVec 64) : w64x4.bytes 0 (store256 used) = written .whirlpool used := by
  show (replicate 0 0 ++ (little 8 0).reverse) ++ ((replicate 0 0 ++ (little 8 0).reverse) ++
    ((replicate 0 0 ++ (little 8 0).reverse) ++ ((replicate 0 0 ++ (little 8 (used * 8)).reverse) ++ []))) = _
  rw [append_nil, show (little 8 0).reverse = replicate 8 0 by decide]
  rfl

theorem checkLength (h : Hash) (buffer : Bytes) :
    checkSlice h.length.serial ⟨buffer, inputLength - lengthBytes h, lengthBytes h⟩ = .ok () := by
  unfold checkSlice
  dsimp only
  cases h with
  | whirlpool => rw [if_neg (by decide), if_neg (by decide)]
  | ripemd160 => rw [if_neg (by decide), if_neg (by decide)]

theorem write_length {buffer : Bytes} (hbuffer : buffer.length = inputLength) (used : BitVec 64) :
    writeSlice h.length.serial ⟨buffer, inputLength - lengthBytes h, lengthBytes h⟩ used =
      .ok (buffer.take (inputLength - lengthBytes h) ++ written h used) := by
  have hsplice : splice buffer (inputLength - lengthBytes h) (written h used) =
      buffer.take (inputLength - lengthBytes h) ++ written h used := by
    unfold splice
    rw [List.drop_eq_nil_of_le, append_nil]
    rw [length_written, hbuffer]
    cases h <;> decide
  rw [← hsplice]
  refine bind_eq_ok.mpr ⟨(), checkLength h buffer, ?_⟩
  cases h with
  | whirlpool =>
    have hputs := w64x4.puts (i := 0) (j := 32) (x := store256 used) (Nat.dvd_zero _)
      ⟨fun _ => rfl, fun _ => rfl, trivial, trivial, trivial, trivial, trivial⟩ (by decide) ⟨trivial, trivial, trivial, trivial, trivial⟩
    rw [bytes_store256] at hputs
    exact hputs.write buffer (by rw [length_written, hbuffer]; decide)
  | ripemd160 =>
    exact packUpdate_splice (k := 3) (i := 0) (j := 56) (v := little 8 (used * 8)) rfl rfl (little_length _ _)
      (by rw [little_length, hbuffer]; decide)

/-- The message with its padding, as the end of the stream makes it. -/
def tailed (h : Hash) (m : Bytes) : Bytes :=
  m ++ 0x80 :: replicate (zeros h m.length) 0 ++ written h (ofNat 64 m.length)

/-- The bit and the zeros, one too many. -/
theorem pad_fed {st : State σ} {bs : List Bytes} {rest : Bytes} (hst : Fed c st bs rest) :
    ∃ st₁ st₂ bs₂ rest₂, compressV h c st highBit = .ok st₁ ∧
      compressV h c st₁ ⟨pad, 0, zeros h (bs.flatten ++ rest).length + 1⟩ = .ok st₂ ∧ Fed c st₂ bs₂ rest₂ ∧
      bs₂.flatten ++ rest₂ = bs.flatten ++ rest ++ 0x80 :: replicate (zeros h (bs.flatten ++ rest).length) 0 ++ [0] := by
  have hbit : Straight h (bs.flatten ++ rest).length highBit := by
    intro hlong
    have hone : inputLength ≤ 1 := le_trans (Nat.le_add_left _ _) hlong
    exact absurd hone (by decide)
  obtain ⟨st₁, bs₁, rest₁, hrun₁, hst₁, hbytes₁⟩ := (absorb_spec (frontV (h := h) (c := c)) st highBit hst (full_in _)).1 hbit
  have hzeros : zeros h (bs.flatten ++ rest).length + 1 ≤ inputLength := Nat.mod_lt _ (by decide)
  have hin : ArraySlice.In ⟨pad, 0, zeros h (bs.flatten ++ rest).length + 1⟩ := by
    show 0 + (zeros h (bs.flatten ++ rest).length + 1) ≤ inputLength
    omega
  have hpad : Straight h (bs₁.flatten ++ rest₁).length ⟨pad, 0, zeros h (bs.flatten ++ rest).length + 1⟩ := by
    intro hlong _
    have hlong' : missing (bs₁.flatten ++ rest₁).length + inputLength ≤ zeros h (bs.flatten ++ rest).length + 1 := hlong
    have hmissing : missing (bs₁.flatten ++ rest₁).length = 0 := by omega
    rw [hmissing]
    exact Nat.dvd_zero _
  obtain ⟨st₂, bs₂, rest₂, hrun₂, hst₂, hbytes₂⟩ := (absorb_spec (frontV (h := h) (c := c)) st₁ _ hst₁ hin).1 hpad
  refine ⟨st₁, st₂, bs₂, rest₂, hrun₁, hrun₂, hst₂, ?_⟩
  have hzero : bytes ⟨pad, 0, zeros h (bs.flatten ++ rest).length + 1⟩ = replicate (zeros h (bs.flatten ++ rest).length) 0 ++ [0] := by
    unfold bytes pad
    dsimp only
    rw [drop_zero, List.take_replicate, Nat.min_eq_left hzeros, List.replicate_succ']
  rw [hbytes₂, hbytes₁, hzero]
  show bs.flatten ++ rest ++ [0x80] ++ _ = _
  simp only [append_assoc, List.cons_append, List.nil_append]

theorem finish_spec {st : State σ} {bs : List Bytes} {rest : Bytes} (hst : Fed c st bs rest) :
    finish h c st = .ok (c.finish ((blocks (tailed h (bs.flatten ++ rest))).foldl c.compress c.initial)) := by
  obtain ⟨st₁, st₂, bs₂, rest₂, hrun₁, hrun₂, hst₂, hbytes₂⟩ := pad_fed (h := h) hst
  have hsize := hst₂.size
  have hshort := hst₂.short
  have hflat := length_flatten hst₂.blocks
  have hlength : inputLength - lengthBytes h < inputLength ∧ lengthBytes h < inputLength := by cases h <;> decide
  -- the last zero lies where the length begins
  have hrest : rest₂.length = inputLength - lengthBytes h + 1 := by
    have htotal := congrArg List.length hbytes₂
    simp only [length_append, length_cons, List.length_replicate, List.length_nil] at htotal
    rw [hflat] at htotal
    unfold zeros at htotal
    unfold inputLength at *
    cases h with
    | whirlpool =>
      simp only [lengthBytes] at *
      omega
    | ripemd160 =>
      simp only [lengthBytes] at *
      omega
  have hmessage : bs₂.flatten ++ rest₂.take (inputLength - lengthBytes h) =
      bs.flatten ++ rest ++ 0x80 :: replicate (zeros h (bs.flatten ++ rest).length) 0 := by
    have hcut : bs₂.flatten ++ rest₂.take (inputLength - lengthBytes h) ++ rest₂.drop (inputLength - lengthBytes h) =
        bs.flatten ++ rest ++ 0x80 :: replicate (zeros h (bs.flatten ++ rest).length) 0 ++ [0] := by
      rw [append_assoc, List.take_append_drop, hbytes₂]
    refine (List.append_inj' hcut ?_).1
    rw [length_drop, hrest]
    exact Nat.add_sub_cancel_left ..
  have hbuffer : st₂.buffer.take (inputLength - lengthBytes h) = rest₂.take (inputLength - lengthBytes h) := by
    have htake := congrArg (List.take (inputLength - lengthBytes h)) hst₂.buffer
    rwa [List.take_take, Nat.min_eq_left (by omega)] at htake
  have hblock : (rest₂.take (inputLength - lengthBytes h) ++ written h st.used).length = inputLength := by
    rw [length_append, length_written, List.length_take_of_le (by omega)]
    omega
  have hall : tailed h (bs.flatten ++ rest) =
      (bs₂ ++ [rest₂.take (inputLength - lengthBytes h) ++ written h st.used]).flatten := by
    unfold tailed
    rw [← hmessage, ← hst.used, flatten_append, append_assoc]
    simp only [flatten_cons, flatten_nil, append_nil]
  have hblocks : blocks (tailed h (bs.flatten ++ rest)) =
      bs₂ ++ [rest₂.take (inputLength - lengthBytes h) ++ written h st.used] := by
    rw [hall]
    apply blocks_flatten
    intro b hb
    rcases List.mem_append.mp hb with hb | hb
    · exact hst₂.blocks b hb
    · cases List.mem_singleton.mp hb
      exact hblock
  rw [hblocks, List.foldl_append, ← hst₂.base]
  have hpadLen := padLen_eq h (bs.flatten ++ rest).length
  rw [← hst.used] at hpadLen
  have hzeros : zeros h (bs.flatten ++ rest).length + 1 ≤ inputLength := Nat.mod_lt _ (by decide)
  have hslice : slice pad 0 (zeros h (bs.flatten ++ rest).length + 1) = .ok ⟨pad, 0, zeros h (bs.flatten ++ rest).length + 1⟩ := by
    refine if_pos ?_
    show 0 + (zeros h (bs.flatten ++ rest).length + 1) ≤ inputLength
    omega
  have hwrite := write_length (h := h) hsize st.used
  rw [hbuffer] at hwrite
  unfold finish
  dsimp only
  rw [length_eq, hpadLen]
  refine bind_eq_ok.mpr ⟨st₁, hrun₁, bind_eq_ok.mpr ⟨_, hslice, bind_eq_ok.mpr ⟨st₂, hrun₂, bind_eq_ok.mpr ⟨_, hwrite, ?_⟩⟩⟩⟩
  exact bind_eq_ok.mpr ⟨_, full_ok st₂.base hblock, rfl⟩

/-! ## The whole stream -/

theorem feed_spec {st : State σ} {bs : List Bytes} {rest : Bytes} (hst : Fed c st bs rest) (d : Chunk) :
    (Straight h (bs.flatten ++ rest).length d.slice → ∃ st' bs' rest', feed h c st d = .ok st' ∧ Fed c st' bs' rest' ∧
      bs'.flatten ++ rest' = bs.flatten ++ rest ++ bytes d.slice) ∧
    (¬ Straight h (bs.flatten ++ rest).length d.slice → feed h c st d = .error .badAlignment) := by
  cases d with
  | array s => exact absorb_spec frontA st s.toArraySlice hst s.within
  | vector s => exact absorb_spec frontV st s.toArraySlice hst s.within

theorem Chunk.within (d : Chunk) : d.slice.In := by
  cases d with
  | array s => exact s.within
  | vector s => exact s.within

theorem feedAll_spec (ds : List Chunk) : ∀ {st : State σ} {bs : List Bytes} {rest : Bytes}, Fed c st bs rest →
    (AllStraight h (bs.flatten ++ rest).length ds → ∃ st' bs' rest', feedAll h c ds st = .ok st' ∧ Fed c st' bs' rest' ∧
      bs'.flatten ++ rest' = bs.flatten ++ rest ++ message ds) ∧
    (¬ AllStraight h (bs.flatten ++ rest).length ds → feedAll h c ds st = .error .badAlignment) := by
  induction ds with
  | nil =>
    intro st bs rest hst
    exact ⟨fun _ => ⟨st, bs, rest, rfl, hst, (append_nil _).symm⟩, fun hnot => absurd trivial hnot⟩
  | cons d ds ih =>
    intro st bs rest hst
    obtain ⟨hok, herror⟩ := feed_spec (h := h) hst d
    by_cases hd : Straight h (bs.flatten ++ rest).length d.slice
    · obtain ⟨st₁, bs₁, rest₁, hrun, hst₁, hbytes⟩ := hok hd
      obtain ⟨hok', herror'⟩ := ih hst₁
      have hlen : (bs₁.flatten ++ rest₁).length = (bs.flatten ++ rest).length + d.slice.n := by
        rw [hbytes, length_append, length_bytes d.within]
      rw [hlen] at hok' herror'
      constructor
      · rintro ⟨-, hds⟩
        obtain ⟨st', bs', rest', hrun', hst', hbytes'⟩ := hok' hds
        refine ⟨st', bs', rest', bind_eq_ok.mpr ⟨st₁, hrun, hrun'⟩, hst', ?_⟩
        rw [hbytes', hbytes, append_assoc]
        rfl
      · intro hnot
        show (feed h c st d >>= fun st => feedAll h c ds st) = _
        rw [hrun]
        exact herror' fun hds => hnot ⟨hd, hds⟩
    · refine ⟨fun hall => absurd hall.1 hd, fun _ => ?_⟩
      show (feed h c st d >>= fun st => feedAll h c ds st) = _
      rw [herror hd]
      rfl

theorem stream_ok {chunks : List Chunk} (hall : AllStraight h 0 chunks) :
    stream h c chunks = .ok (c.finish ((blocks (tailed h (message chunks))).foldl c.compress c.initial)) := by
  obtain ⟨st, bs, rest, hrun, hst, hbytes⟩ := (feedAll_spec chunks initial_fed).1 hall
  have hfinish := finish_spec (h := h) hst
  rw [hbytes] at hfinish
  exact bind_eq_ok.mpr ⟨st, hrun, hfinish⟩

theorem stream_misaligned {chunks : List Chunk} (hall : ¬ AllStraight h 0 chunks) : stream h c chunks = .error .badAlignment := by
  have hrun := (feedAll_spec (h := h) chunks (initial_fed (c := c))).2 hall
  show (feedAll h c chunks (initial c) >>= fun st => finish h c st) = _
  rw [hrun]
  rfl

end

/-! ## The length -/

theorem little_setWidth (w : BitVec 64) : little 32 (w.setWidth 256) = little 8 w ++ replicate 24 0 := by
  have hnat : (w.setWidth 256).toNat = w.toNat := by
    rw [toNat_setWidth]
    exact Nat.mod_eq_of_lt (Nat.lt_trans w.isLt (by decide))
  unfold little
  rw [hnat, show 32 = 8 + 24 from rfl, List.range_add, List.map_append, map_map]
  congr 1
  rw [List.eq_replicate_iff]
  refine ⟨by rw [List.length_map, List.length_range], ?_⟩
  intro b hb
  obtain ⟨i, -, rfl⟩ := List.mem_map.mp hb
  show UInt8.ofNat (w.toNat / 256 ^ (8 + i)) = 0
  have hlt : w.toNat < 256 ^ (8 + i) := by
    refine Nat.lt_of_lt_of_le w.isLt ?_
    rw [Nat.pow_add]
    exact Nat.le_mul_of_pos_right _ (Nat.pow_pos (by decide))
  rw [Nat.div_eq_of_lt hlt]
  rfl

theorem written_iff (h : Hash) (n : Nat) : written h (ofNat 64 n) = bitLength h n ↔ Counts h n := by
  have hnat : (ofNat 64 n * 8).toNat = 8 * n % 2 ^ 64 := by
    rw [toNat_mul, toNat_ofNat]
    show n % 2 ^ 64 * 8 % 2 ^ 64 = 8 * n % 2 ^ 64
    omega
  cases h with
  | whirlpool =>
    have hleft : written .whirlpool (ofNat 64 n) = (little 32 ((ofNat 64 n * 8).setWidth 256)).reverse := by
      rw [little_setWidth, List.reverse_append, List.reverse_replicate]
      rfl
    rw [hleft]
    show _ = (little 32 (ofNat 256 (8 * n))).reverse ↔ 8 * n % 2 ^ 256 < 2 ^ 64
    rw [List.reverse_inj]
    constructor
    · intro heq
      have hwords := congrArg (Serial.ofLittle 32) heq
      rw [ofLittle_little, ofLittle_little] at hwords
      have hnats := congrArg toNat hwords
      rw [toNat_setWidth, toNat_ofNat, hnat] at hnats
      rw [← hnats]
      exact Nat.lt_of_le_of_lt (Nat.mod_le _ _) (Nat.mod_lt _ (by decide))
    · intro hlt
      congr 1
      apply BitVec.eq_of_toNat_eq
      rw [toNat_setWidth, toNat_ofNat, hnat]
      have hmod : 8 * n % 2 ^ 64 = 8 * n % 2 ^ 256 := by
        rw [← Nat.mod_eq_of_lt hlt, Nat.mod_mod_of_dvd _ (by decide)]
      rw [hmod, Nat.mod_mod]
  | ripemd160 =>
    show little 8 (ofNat 64 n * 8) = little 8 (ofNat 64 (8 * n)) ↔ True
    refine iff_true_intro (congrArg (little 8) (BitVec.eq_of_toNat_eq ?_))
    rw [hnat, toNat_ofNat]

theorem length_bitLength (h : Hash) (n : Nat) : (bitLength h n).length = lengthBytes h := by
  cases h with
  | whirlpool =>
    show (little 32 (ofNat 256 (8 * n))).reverse.length = 32
    rw [List.length_reverse, little_length]
  | ripemd160 => exact little_length _ _

theorem tailed_iff (h : Hash) (m : Bytes) : tailed h m = padded h m ↔ Counts h m.length := by
  rw [← written_iff]
  constructor
  · intro heq
    exact (List.append_inj' heq (by rw [length_written, length_bitLength])).2
  · intro heq
    unfold tailed padded
    rw [heq]

theorem flatten_blocks (k : Nat) : ∀ {m : Bytes}, m.length = inputLength * k → (blocks m).flatten = m := by
  induction k with
  | zero =>
    intro m hm
    rw [List.eq_nil_of_length_eq_zero hm]
    rfl
  | succ k ih =>
    intro m hm
    have htake : (m.take inputLength).length = inputLength := List.length_take_of_le (by rw [hm]; exact Nat.le_mul_of_pos_right _ k.succ_pos)
    have hdrop : (m.drop inputLength).length = inputLength * k := by
      rw [length_drop, hm, Nat.mul_succ, Nat.add_sub_cancel]
    have hblocks := blocks_cons htake (m.drop inputLength)
    rw [List.take_append_drop] at hblocks
    rw [hblocks, flatten_cons, ih hdrop, List.take_append_drop]

/-- A padded message has whole blocks. -/
theorem length_padded (h : Hash) (m : Bytes) : ∃ k, (padded h m).length = inputLength * k := by
  have hdvd : inputLength ∣ (padded h m).length := by
    apply Nat.dvd_of_mod_eq_zero
    unfold padded zeros
    simp only [length_append, length_cons, List.length_replicate, length_bitLength]
    unfold inputLength
    omega
  exact hdvd

theorem length_tailed (h : Hash) (m : Bytes) : (tailed h m).length = (padded h m).length := by
  unfold tailed padded
  simp only [length_append, length_written, length_bitLength]

/-- The compression function that keeps the blocks. -/
def keep : Compression (List Bytes) := ⟨[], fun bs b => bs ++ [b], List.flatten⟩

theorem foldl_keep (bs acc : List Bytes) : bs.foldl keep.compress acc = acc ++ bs := by
  induction bs generalizing acc with
  | nil => exact (append_nil _).symm
  | cons b bs ih =>
    rw [List.foldl_cons, ih]
    exact append_assoc ..

theorem streams_of {h : Hash} {chunks : List Chunk} (hall : AllStraight h 0 chunks) (hcounts : Counts h (message chunks).length) :
    Streams h chunks := by
  intro σ c
  rw [stream_ok hall, (tailed_iff h _).mpr hcounts]

theorem Streams.straight {h : Hash} {chunks : List Chunk} (hs : Streams h chunks) : AllStraight h 0 chunks := by
  by_contra hnot
  have hkeep := hs _ keep
  rw [stream_misaligned hnot] at hkeep
  cases hkeep

theorem Streams.counts {h : Hash} {chunks : List Chunk} (hs : Streams h chunks) : Counts h (message chunks).length := by
  have hkeep := hs _ keep
  rw [stream_ok hs.straight] at hkeep
  have hfold : (blocks (tailed h (message chunks))).flatten = (blocks (padded h (message chunks))).flatten := by
    have hfinish := Except.ok.inj hkeep
    rw [foldl_keep, foldl_keep] at hfinish
    exact hfinish
  obtain ⟨k, hk⟩ := length_padded h (message chunks)
  rw [flatten_blocks k hk, flatten_blocks k ((length_tailed h _).trans hk)] at hfold
  exact (tailed_iff h _).mp hfold

theorem stream_iff (h : Hash) (chunks : List Chunk) :
    Streams h chunks ↔ AllStraight h 0 chunks ∧ Counts h (message chunks).length :=
  ⟨fun hs => ⟨hs.straight, hs.counts⟩, fun ⟨hall, hcounts⟩ => streams_of hall hcounts⟩

/-- A block that starts at the fourth byte of an array. -/
theorem block_at_four : ¬ Streams .whirlpool [.array ⟨⟨replicate 68 0, 4, 64⟩, Nat.le_refl 68⟩] := by
  intro hs
  have hword : 8 ∣ 4 := hs.straight.1 (by decide) (by decide)
  exact absurd hword (by decide)

end BubbleStorm.Util.Crypto.Compressor
