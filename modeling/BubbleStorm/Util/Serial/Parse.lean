/-
  BubbleStorm.Util.Serial.Parse — parsing what came from outside
  (`parseVector` of `methods` in `src/util/serial/serial.sml`).

  The two checks of a slice are all a parser needs: behind them no read leaves the array,
  whatever the bytes are.
-/

import BubbleStorm.Lib.Outcome
import BubbleStorm.Util.Serial.RoundTrip

namespace BubbleStorm.Util.Serial

open BubbleStorm.Cusp (Exn Bytes)
open BubbleStorm.Lib

/-- A slice of a vector: `Word8VectorSlice.base`. -/
abbrev VectorSlice := ArraySlice

def full (v : Bytes) : VectorSlice := ⟨v, 0, v.length⟩

/-- `slice (v, i, SOME sz)`. -/
def slice (v : Bytes) (i sz : Nat) : Except Exn VectorSlice :=
  if i + sz ≤ v.length then .ok ⟨v, i, sz⟩ else .error .subscript

/-- `slice (v, i, NONE)`. -/
def sliceFrom (v : Bytes) (i : Nat) : Except Exn VectorSlice :=
  if i ≤ v.length then .ok ⟨v, i, v.length - i⟩ else .error .subscript

/-- `subslice (s, i, NONE)`. -/
def subsliceFrom (s : VectorSlice) (i : Nat) : Except Exn VectorSlice :=
  if i ≤ s.n then .ok ⟨s.array, s.i + i, s.n - i⟩ else .error .subscript

def parseVector {α : Type} (s : S α) (slice : VectorSlice) : Except Exn α := parseSlice s slice

/-- The slice lies in its vector. -/
def ArraySlice.In (s : ArraySlice) : Prop := s.i + s.n ≤ s.array.length

theorem full_in (v : Bytes) : (full v).In := by simp [full, ArraySlice.In]

theorem slice_in {v : Bytes} {i sz : Nat} {s : VectorSlice} (h : slice v i sz = .ok s) : s = ⟨v, i, sz⟩ ∧ s.In := by
  unfold slice at h
  split at h
  next hle => cases h; exact ⟨rfl, hle⟩
  next => cases h

theorem sliceFrom_in {v : Bytes} {i : Nat} {s : VectorSlice} (h : sliceFrom v i = .ok s) :
    s = ⟨v, i, v.length - i⟩ ∧ s.In := by
  unfold sliceFrom at h
  split at h
  next hle => cases h; exact ⟨rfl, by simp only [ArraySlice.In]; omega⟩
  next => cases h

/-! ## Reads stay in the array -/

theorem packSub_ok {k i j : Nat} {a : Bytes} (hi : i % 2 ^ k = 0) (h : i + j + 2 ^ k ≤ a.length) :
    ∃ b, packSub (2 ^ k) a (shr i j k) = .ok b := by
  have := (shr_le i j k hi).1
  exact ⟨_, if_pos (by omega)⟩

theorem basic_ok {α : Type} {k i j : Nat} {store : α → Bytes} {load : Bytes → α} {a : Bytes} (hi : i % 2 ^ k = 0)
    (h : i + j + 2 ^ k ≤ a.length) : ∃ x, (basic k store load).read a i j = .ok x := by
  obtain ⟨b, hb⟩ := packSub_ok (j := j) hi h
  refine ⟨load b, ?_⟩
  show (do return load (← packSub (2 ^ k) a (shr i j k))) = _
  rw [hb]
  rfl

theorem Primitive.read_ok {α : Type} (p : Primitive α) {i j : Nat} {a : Bytes} (h : p.serial.align + 1 ∣ i)
    (hl : i + j + p.serial.length ≤ a.length) : ∃ x, p.serial.read a i j = .ok x := by
  cases p with
  | unit => exact ⟨(), rfl⟩
  | wordl k hk | wordb k hk =>
    have h' : 2 ^ k - 1 + 1 ∣ i := h
    rw [Nat.sub_add_cancel (Nat.two_pow_pos k)] at h'
    exact basic_ok (Nat.mod_eq_zero_of_dvd h') hl
  | bool => exact basic_ok (k := 0) (Nat.mod_one i) hl

theorem readAll_ok {α : Type} {base : S α} {a : Bytes} {p len : Nat}
    (h : ∀ m < len, ∃ x, base.read a 0 (p + m * base.length) = .ok x) : ∃ v, readAll base a p len = .ok v := by
  induction len with
  | zero => exact ⟨[], rfl⟩
  | succ n ih =>
    obtain ⟨v, hv⟩ := ih fun m hm => h m (Nat.lt_succ_of_lt hm)
    obtain ⟨x, hx⟩ := h n (Nat.lt_succ_self n)
    refine ⟨v ++ [x], ?_⟩
    unfold readAll at hv ⊢
    rw [List.range_succ, List.mapM_append, hv]
    simp only [List.mapM_cons, List.mapM_nil, hx]
    rfl

theorem alignTo_le_offset {β γ : Type} (base : Shape β) (rest : Components γ) (off : Nat) :
    alignTo off base.serial.align + base.serial.length ≤ (Components.cons base rest).serial.offset off := by
  have h := (rest.tiles (alignTo off base.serial.align + base.serial.length) 0).cells.1
  rwa [Nat.add_zero, Nat.add_zero] at h

mutual

theorem Shape.read_ok : ∀ {α : Type} (s : Shape α) {i j : Nat} {a : Bytes}, s.serial.align + 1 ∣ i →
    i + j + s.serial.length ≤ a.length → ∃ x, s.serial.read a i j = .ok x
  | _, .basic p, i, j, a, h, hl => p.read_ok h hl
  | _, .map store load base, i, j, a, h, hl => by
    obtain ⟨x, hx⟩ := base.read_ok (j := j) h hl
    refine ⟨load x, ?_⟩
    show (do return load (← base.serial.read a i j)) = _
    rw [hx]
    rfl
  | _, .aggregate t f c, i, j, a, h, hl => by
    have ho := c.offset_add 0 h
    rw [Nat.add_zero] at ho
    have hl' : i + j + c.serial.offset 0 ≤ a.length := hl
    have hload : ∃ x, c.serial.load a i j = .ok x := c.load_ok (by omega)
    obtain ⟨x, hx⟩ := hload
    refine ⟨t x, ?_⟩
    show (do return t (← c.serial.load a i j)) = _
    rw [hx]
    rfl
  | _, .vector base len, i, j, a, h, hl => by
    have hl' : i + j + len * base.serial.length ≤ a.length := hl
    apply readAll_ok
    intro m hm
    apply base.read_ok (Nat.dvd_zero _)
    have := Nat.mul_le_mul_right base.serial.length (Nat.succ_le_of_lt hm)
    rw [Nat.succ_mul] at this
    omega

theorem Components.load_ok : ∀ {γ : Type} (c : Components γ) {off j : Nat} {a : Bytes},
    c.serial.offset off + j ≤ a.length → ∃ x, c.serial.load a off j = .ok x
  | _, .nil, off, j, a, h => ⟨(), rfl⟩
  | _, .cons base rest, off, j, a, h => by
    have hle := alignTo_le_offset base rest off
    obtain ⟨x, hx⟩ := base.read_ok (j := j) (a := a) (dvd_alignTo off base.serial.align) (by omega)
    have hload : ∃ y, rest.serial.load a (alignTo off base.serial.align + base.serial.length) j = .ok y := rest.load_ok h
    obtain ⟨y, hy⟩ := hload
    refine ⟨(x, y), ?_⟩
    show (do
      let x ← base.serial.read a (alignTo off base.serial.align) j
      let y ← rest.serial.load a (alignTo off base.serial.align + base.serial.length) j
      return (x, y)) = _
    rw [hx]
    show (do
      let y ← rest.serial.load a (alignTo off base.serial.align + base.serial.length) j
      return (x, y)) = _
    rw [hy]
    rfl

end

theorem and_align {a i : Nat} (ha : Mask a) (h : a + 1 ∣ i) : i &&& a = 0 := by
  obtain ⟨k, -, hk⟩ := ha
  obtain rfl : a = 2 ^ k - 1 := by omega
  rw [Nat.and_two_pow_sub_one_eq_mod]
  rw [hk] at h
  exact Nat.mod_eq_zero_of_dvd h

/-- Of the exceptions of a parser only those of the two checks are left. -/
theorem parseSlice_iff {α : Type} (s : Shape α) {slice : ArraySlice} (hs : slice.In) (ha : s.serial.align + 1 ∣ slice.i) :
    Ok (parseSlice s.serial slice) ↔ s.serial.length ≤ slice.n := by
  unfold parseSlice checkSlice
  rw [if_neg (fun h => h (and_align s.mask ha))]
  constructor
  · intro ⟨x, hx⟩
    by_contra hlt
    rw [if_pos (Nat.lt_of_not_le hlt)] at hx
    cases hx
  · intro hle
    rw [if_neg (Nat.not_lt.mpr hle)]
    apply s.read_ok (Nat.dvd_zero _)
    unfold ArraySlice.In at hs
    omega

theorem subsliceFrom_ok {s : ArraySlice} {i : Nat} (h : i ≤ s.n) : subsliceFrom s i = .ok ⟨s.array, s.i + i, s.n - i⟩ := if_pos h

theorem ok_subsliceFrom {s : ArraySlice} {i : Nat} : Ok (subsliceFrom s i) ↔ i ≤ s.n := by
  unfold subsliceFrom
  rw [ok_ite]
  simp

theorem subslice_in {s : ArraySlice} {i : Nat} (hs : s.In) (h : i ≤ s.n) : ArraySlice.In ⟨s.array, s.i + i, s.n - i⟩ := by
  unfold ArraySlice.In at hs ⊢
  dsimp only
  omega

end BubbleStorm.Util.Serial
