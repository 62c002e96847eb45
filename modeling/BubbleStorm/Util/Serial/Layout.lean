/-
  BubbleStorm.Util.Serial.Layout — where a serializer puts its words.

  A serializer writes a list of words (`words`), the padding included. Meant as `i + j`
  each, they tile the bytes of the value (`tiles`). A word lands there if its `j` is a
  multiple of its size; then the writer stores `bytes`, and the parser reads them back
  (`writes`, `reads`).
-/

import Mathlib.Tactic.IntervalCases
import Mathlib.Tactic.Set
import BubbleStorm.Util.Serial.Serial

namespace BubbleStorm.Util.Serial

open List (drop_drop flatMap_cons length length_append length_cons range range' replicate)
open BubbleStorm.Cusp (Exn Bytes)
open BubbleStorm.Cusp.Stream (bind_ok)

/-! ## Words -/

/-- A word of `2 ^ k` bytes at `i + j`. -/
structure Word where
  k : Nat
  i : Nat
  j : Nat
  deriving DecidableEq, Repr

/-- The base of the word does not move it. -/
def Word.Straight (w : Word) : Prop := w.j % 2 ^ w.k = 0

instance (w : Word) : Decidable w.Straight := inferInstanceAs (Decidable (_ = _))

/-- The words that pad from `off` on. -/
def padWords (pad off j : Nat) : List Word :=
  (if pad &&& 1 ≠ 0 then [⟨0, off, j⟩] else []) ++ (if pad &&& 2 ≠ 0 then [⟨1, off + (pad &&& 1), j⟩] else []) ++
    (if pad &&& 4 ≠ 0 then [⟨2, off + (pad &&& 3), j⟩] else [])

def Primitive.words : {α : Type} → Primitive α → Nat → Nat → List Word
  | _, .unit, _, _ => []
  | _, .wordl k _, i, j => [⟨k, i, j⟩]
  | _, .wordb k _, i, j => [⟨k, i, j⟩]
  | _, .bool, i, j => [⟨0, i, j⟩]

def Primitive.bytes : {α : Type} → Primitive α → α → Bytes
  | _, .unit, _ => []
  | _, .wordl k _, w => little (2 ^ k) w
  | _, .wordb k _, w => (little (2 ^ k) w).reverse
  | _, .bool, x => [boolToWord8 x]

mutual

/-- The words of a value at `i + j`, in order. -/
def Shape.words : {α : Type} → Shape α → Nat → Nat → List Word
  | _, .basic p, i, j => p.words i j
  | _, .map _ _ base, i, j => base.words i j
  | _, .aggregate _ _ c, i, j => c.words i j
  | _, .vector base len, i, j => (range len).flatMap fun n => base.words 0 (i + j + n * base.serial.length)

def Components.words : {γ : Type} → Components γ → Nat → Nat → List Word
  | _, .nil, _, _ => []
  | _, .cons base rest, off, j =>
    padWords (alignTo off base.serial.align - off) off j ++ base.words (alignTo off base.serial.align) j ++
      rest.words (alignTo off base.serial.align + base.serial.length) j

end

mutual

/-- The bytes of a value at `i`. -/
def Shape.bytes : {α : Type} → Shape α → Nat → α → Bytes
  | _, .basic p, _, x => p.bytes x
  | _, .map store _ base, i, x => base.bytes i (store x)
  | _, .aggregate _ f c, i, x => c.bytes i (f x)
  | _, .vector base _, _, v => v.flatMap (base.bytes 0)

def Components.bytes : {γ : Type} → Components γ → Nat → γ → Bytes
  | _, .nil, _, _ => []
  | _, .cons base rest, off, x =>
    replicate (alignTo off base.serial.align - off) 0 ++ base.bytes (alignTo off base.serial.align) x.1 ++
      rest.bytes (alignTo off base.serial.align + base.serial.length) x.2

end

mutual

/-- The values a serializer takes: vectors have their length. -/
def Shape.Dom : {α : Type} → Shape α → α → Prop
  | _, .basic _, _ => True
  | _, .map store _ base, x => base.Dom (store x)
  | _, .aggregate _ f c, x => c.Dom (f x)
  | _, .vector base len, v => v.length = len ∧ ∀ x ∈ v, base.Dom x

def Components.Dom : {γ : Type} → Components γ → γ → Prop
  | _, .nil, _ => True
  | _, .cons base rest, x => base.Dom x.1 ∧ rest.Dom x.2

end

mutual

/-- What is taken apart is put together again. -/
def Shape.Lawful : {α : Type} → Shape α → Prop
  | _, .basic _ => True
  | _, .map store load base => (∀ x, load (store x) = x) ∧ (∀ y, store (load y) = y) ∧ base.Lawful
  | _, .aggregate t f c => (∀ x, t (f x) = x) ∧ (∀ y, f (t y) = y) ∧ c.Lawful
  | _, .vector base _ => base.Lawful

def Components.Lawful : {γ : Type} → Components γ → Prop
  | _, .nil => True
  | _, .cons base rest => base.Lawful ∧ rest.Lawful

end

/-! ## Alignment -/

/-- A mask of the low bits, at most three. -/
def Mask (a : Nat) : Prop := ∃ k ≤ 3, a + 1 = 2 ^ k

theorem Mask.zero : Mask 0 := ⟨0, by decide, rfl⟩

theorem Mask.max {a b : Nat} (ha : Mask a) (hb : Mask b) : Mask (max a b) := by
  rcases Nat.le_total a b with h | h
  · rwa [Nat.max_eq_right h]
  · rwa [Nat.max_eq_left h]

theorem Mask.dvd {a b : Nat} (ha : Mask a) (hb : Mask b) (h : a ≤ b) : a + 1 ∣ b + 1 := by
  obtain ⟨k, -, hk⟩ := ha
  obtain ⟨m, -, hm⟩ := hb
  rw [hk, hm]
  apply Nat.pow_dvd_pow
  by_contra hlt
  have := Nat.pow_lt_pow_right (a := 2) (by decide) (Nat.lt_of_not_le hlt)
  omega

theorem Primitive.mask {α : Type} (p : Primitive α) : Mask p.serial.align := by
  cases p with
  | unit => exact .zero
  | wordl k h | wordb k h =>
    refine ⟨k, by omega, ?_⟩
    show 2 ^ k - 1 + 1 = 2 ^ k
    have := Nat.two_pow_pos k
    omega
  | bool => exact .zero

mutual

theorem Shape.mask {α : Type} : (s : Shape α) → Mask s.serial.align
  | .basic p => p.mask
  | .map _ _ base => base.mask
  | .aggregate _ _ c => c.mask
  | .vector base _ => base.mask

theorem Components.mask {γ : Type} : (c : Components γ) → Mask c.serial.align
  | .nil => .zero
  | .cons base rest => base.mask.max rest.mask

end

theorem le_alignTo (i a : Nat) : i ≤ alignTo i a := by
  unfold alignTo
  have := Nat.div_add_mod (i + a) (a + 1)
  have hlt : (i + a) % (a + 1) < a + 1 := Nat.mod_lt _ (by omega)
  rw [Nat.mul_comm]
  omega

theorem alignTo_sub_lt (i a : Nat) : alignTo i a - i < a + 1 := by
  unfold alignTo
  have := Nat.div_add_mod (i + a) (a + 1)
  rw [Nat.mul_comm]
  omega

theorem dvd_alignTo (i a : Nat) : a + 1 ∣ alignTo i a := Nat.dvd_mul_left _ _

/-- Aligned bases do not change what is padded. -/
theorem alignTo_add {i a : Nat} (off : Nat) (h : a + 1 ∣ i) : alignTo (i + off) a = i + alignTo off a := by
  obtain ⟨c, rfl⟩ := h
  unfold alignTo
  rw [show (a + 1) * c + off + a = off + a + (a + 1) * c by omega, Nat.add_mul_div_left _ _ (by omega),
    Nat.add_mul, Nat.mul_comm c]
  exact Nat.add_comm _ _

theorem Components.offset_add {γ : Type} (c : Components γ) {i : Nat} (off : Nat) (h : c.serial.align + 1 ∣ i) :
    c.serial.offset (i + off) = i + c.serial.offset off := by
  match c with
  | .nil => rfl
  | .cons base rest =>
    have hb : base.serial.align + 1 ∣ i :=
      Nat.dvd_trans (base.mask.dvd (base.mask.max rest.mask) (Nat.le_max_left _ _)) h
    have hr : rest.serial.align + 1 ∣ i :=
      Nat.dvd_trans (rest.mask.dvd (base.mask.max rest.mask) (Nat.le_max_right _ _)) h
    show rest.serial.offset (alignTo (i + off) base.serial.align + base.serial.length) = _
    rw [alignTo_add off hb, Nat.add_assoc, Components.offset_add rest _ hr]
    rfl

/-! ## The words tile the value -/

/-- Words one behind the other, from byte `p` up to byte `e`. -/
def Tiles : List Word → Nat → Nat → Prop
  | [], p, e => p = e
  | w :: ws, p, e => w.i % 2 ^ w.k = 0 ∧ w.i + w.j = p ∧ Tiles ws (p + 2 ^ w.k) e

theorem Tiles.append {ws ws' : List Word} {p m e : Nat} (h : Tiles ws p m) (h' : Tiles ws' m e) : Tiles (ws ++ ws') p e := by
  induction ws generalizing p with
  | nil =>
    cases h
    exact h'
  | cons w ws ih => exact ⟨h.1, h.2.1, ih h.2.2⟩

theorem Primitive.tiles {α : Type} (p : Primitive α) {i : Nat} (j : Nat) (h : p.serial.align + 1 ∣ i) :
    Tiles (p.words i j) (i + j) (i + j + p.serial.length) := by
  cases p with
  | unit => rfl
  | wordl k hk | wordb k hk =>
    have hpos := Nat.two_pow_pos k
    have hd : 2 ^ k - 1 + 1 ∣ i := h
    rw [Nat.sub_add_cancel hpos] at hd
    exact ⟨Nat.mod_eq_zero_of_dvd hd, rfl, rfl⟩
  | bool => exact ⟨Nat.mod_one i, rfl, rfl⟩

/-- Padding up to a multiple of `2 ^ k`. -/
theorem padWords_tiles {k pad off : Nat} (hk : k ≤ 3) (hpad : pad < 2 ^ k) (h : 2 ^ k ∣ off + pad) (j : Nat) :
    Tiles (padWords pad off j) (off + j) (off + pad + j) := by
  have h8 : pad < 8 := Nat.lt_of_lt_of_le hpad (Nat.pow_le_pow_right (by decide) hk)
  have hmod : ∀ m, m ≤ k → (off + pad) % 2 ^ m = 0 := fun m hm =>
    Nat.mod_eq_zero_of_dvd (Nat.dvd_trans (Nat.pow_dvd_pow 2 hm) h)
  have h1 : 2 ≤ pad → (off + pad) % 4 = 0 := fun hp => hmod 2 (by
    by_contra hlt
    have : 2 ^ k ≤ 2 ^ 1 := Nat.pow_le_pow_right (by decide) (by omega)
    omega)
  have h2 : 4 ≤ pad → (off + pad) % 8 = 0 := fun hp => hmod 3 (by
    by_contra hlt
    have : 2 ^ k ≤ 2 ^ 2 := Nat.pow_le_pow_right (by decide) (by omega)
    omega)
  unfold padWords
  interval_cases pad <;> simp [Tiles, Nat.mod_one] <;> omega

theorem pad_tiles {a : Nat} (ha : Mask a) (off j : Nat) :
    Tiles (padWords (alignTo off a - off) off j) (off + j) (alignTo off a + j) := by
  obtain ⟨k, hk, hp⟩ := ha
  have hle := le_alignTo off a
  have hdvd : 2 ^ k ∣ off + (alignTo off a - off) := by
    rw [Nat.add_sub_cancel' hle, ← hp]
    exact dvd_alignTo off a
  have h := padWords_tiles hk (hp ▸ alignTo_sub_lt off a) hdvd j
  rwa [Nat.add_sub_cancel' hle] at h

mutual

theorem Shape.tiles {α : Type} (s : Shape α) {i : Nat} (j : Nat) (h : s.serial.align + 1 ∣ i) :
    Tiles (s.words i j) (i + j) (i + j + s.serial.length) := by
  match s with
  | .basic p => exact p.tiles j h
  | .map _ _ base => exact base.tiles j h
  | .aggregate _ _ c =>
    have ht := c.tiles i j
    have ho := c.offset_add 0 h
    rw [Nat.add_zero] at ho
    rw [ho] at ht
    have e : i + j + c.serial.offset 0 = i + c.serial.offset 0 + j := by omega
    show Tiles (c.words i j) (i + j) (i + j + c.serial.offset 0)
    rw [e]
    exact ht
  | .vector base len =>
    -- element after element
    have go : ∀ n ≤ len, Tiles ((range n).flatMap fun m => base.words 0 (i + j + m * base.serial.length)) (i + j)
        (i + j + n * base.serial.length) := by
      intro n
      induction n with
      | zero =>
        intro _
        rw [Nat.zero_mul]
        rfl
      | succ n ih =>
        intro hn
        have hlast := base.tiles (i + j + n * base.serial.length) (Nat.dvd_zero _)
        rw [Nat.zero_add] at hlast
        rw [List.range_succ, List.flatMap_append, List.flatMap_singleton, Nat.succ_mul, ← Nat.add_assoc]
        exact (ih (by omega)).append hlast
    exact go len (Nat.le_refl _)

theorem Components.tiles {γ : Type} (c : Components γ) (off j : Nat) :
    Tiles (c.words off j) (off + j) (c.serial.offset off + j) := by
  match c with
  | .nil => rfl
  | .cons base rest =>
    have h1 := pad_tiles base.mask off j
    have h2 := base.tiles j (dvd_alignTo off base.serial.align)
    have h3 := rest.tiles (alignTo off base.serial.align + base.serial.length) j
    rw [show alignTo off base.serial.align + j + base.serial.length =
      alignTo off base.serial.align + base.serial.length + j by omega] at h2
    exact (h1.append h2).append h3

end

/-! ## Straight words are stored, and read back -/

/-- Replace the bytes from `p` on. -/
def splice (a : Bytes) (p : Nat) (v : Bytes) : Bytes := a.take p ++ v ++ a.drop (p + v.length)

theorem splice_nil (a : Bytes) (p : Nat) : splice a p [] = a := by simp [splice]

theorem length_splice {a v : Bytes} {p : Nat} (h : p + v.length ≤ a.length) : (splice a p v).length = a.length := by
  simp only [splice, length_append, List.length_take, List.length_drop]
  omega

theorem splice_splice {a v w : Bytes} {p : Nat} (h : p + v.length ≤ a.length) :
    splice (splice a p v) (p + v.length) w = splice a p (v ++ w) := by
  have hp : (a.take p).length = p := List.length_take_of_le (by omega)
  have hpv : (a.take p ++ v).length = p + v.length := by rw [length_append, hp]
  unfold splice
  rw [List.take_left' hpv, ← drop_drop (i := w.length) (j := p + v.length), List.drop_left' hpv, drop_drop,
    length_append, List.append_assoc (a.take p), ← Nat.add_assoc]

/-- The bytes at `p`. -/
def holds (a : Bytes) (p : Nat) (v : Bytes) : Prop := (a.drop p).take v.length = v

theorem holds_append {a v w : Bytes} {p : Nat} : holds a p (v ++ w) ↔ holds a p v ∧ holds a (p + v.length) w := by
  unfold holds
  rw [length_append, List.take_add, drop_drop]
  constructor
  · intro h
    have hlen : ((a.drop p).take v.length).length ≤ v.length := List.length_take_le _ _
    have htot := congrArg length h
    rw [length_append, length_append] at htot
    have hlen' : ((a.drop (p + v.length)).take w.length).length ≤ w.length := List.length_take_le _ _
    exact List.append_inj h (by omega)
  · intro ⟨h1, h2⟩
    rw [h1, h2]

theorem holds_splice {a v : Bytes} {p : Nat} (h : p + v.length ≤ a.length) : holds (splice a p v) p v := by
  have hp : (a.take p).length = p := List.length_take_of_le (by omega)
  unfold holds splice
  rw [List.append_assoc, List.drop_left' hp, List.take_left' rfl]

theorem holds_le {a v : Bytes} {p : Nat} (h : holds a p v) (hv : 0 < v.length) : p + v.length ≤ a.length := by
  have := congrArg length h
  rw [List.length_take, List.length_drop] at this
  omega

theorem shr_mul {k i j : Nat} (hi : i % 2 ^ k = 0) (hj : j % 2 ^ k = 0) : shr i j k * 2 ^ k = i + j := by
  unfold shr
  rw [Nat.shiftRight_eq_div_pow, Nat.shiftRight_eq_div_pow, Nat.add_mul,
    Nat.div_mul_cancel (Nat.dvd_of_mod_eq_zero hi), Nat.div_mul_cancel (Nat.dvd_of_mod_eq_zero hj)]

theorem packUpdate_splice {k i j : Nat} {a v : Bytes} (hi : i % 2 ^ k = 0) (hj : j % 2 ^ k = 0) (hv : v.length = 2 ^ k)
    (ha : i + j + v.length ≤ a.length) : packUpdate (2 ^ k) a (shr i j k) v = .ok (splice a (i + j) v) := by
  unfold packUpdate
  rw [shr_mul hi hj, if_pos (hv ▸ ha), ← hv]
  rfl

theorem packSub_holds {k i j : Nat} {a v : Bytes} (hi : i % 2 ^ k = 0) (hj : j % 2 ^ k = 0) (hv : v.length = 2 ^ k)
    (ha : holds a (i + j) v) : packSub (2 ^ k) a (shr i j k) = .ok v := by
  have hle := holds_le ha (hv ▸ Nat.two_pow_pos k)
  unfold packSub
  rw [shr_mul hi hj, if_pos (hv ▸ hle), ← hv]
  exact congrArg Except.ok ha

theorem little_length (n : Nat) (w : BitVec (8 * n)) : (little n w).length = n := by simp [little]

theorem ofLittle_little (n : Nat) (w : BitVec (8 * n)) : ofLittle n (little n w) = w := by
  have go : ∀ (n x : Nat), (((range n).map fun i => UInt8.ofNat (x / 256 ^ i)).foldr
      (fun byte w => byte.toNat + 256 * w) 0) = x % 256 ^ n := by
    intro n
    induction n with
    | zero => intro x; simp [Nat.mod_one]
    | succ n ih =>
      intro x
      rw [List.range_succ_eq_map, List.map_cons, List.foldr_cons, List.map_map]
      have hshift : ((range n).map ((fun i => UInt8.ofNat (x / 256 ^ i)) ∘ Nat.succ)) =
          (range n).map fun i => UInt8.ofNat (x / 256 / 256 ^ i) := by
        apply List.map_congr_left
        intro i _
        simp only [Function.comp, Nat.pow_succ']
        rw [Nat.div_div_eq_div_mul]
      have hmod : x % 256 ^ (n + 1) = x % 256 + 256 * (x / 256 % 256 ^ n) := by rw [Nat.pow_succ', Nat.mod_mul]
      rw [hshift, ih, Nat.pow_zero, Nat.div_one, UInt8.toNat_ofNat', hmod]
  unfold ofLittle little
  rw [go, Nat.mod_eq_of_lt]
  · rw [BitVec.ofNat_toNat, BitVec.setWidth_eq]
  · have := w.isLt
    rwa [Nat.pow_mul] at this

/-- At `i + j`, the serializer stores `v` for `x`, and reads `x` where `v` is. -/
structure Puts {α : Type} (s : S α) (i j : Nat) (x : α) (v : Bytes) : Prop where
  length : v.length = s.length
  write : ∀ a : Bytes, i + j + v.length ≤ a.length → s.write a i j x = .ok (splice a (i + j) v)
  read : ∀ a : Bytes, holds a (i + j) v → s.read a i j = .ok x

theorem basic_puts {α : Type} {k i j : Nat} {s : α → Bytes} {load : Bytes → α} (hi : i % 2 ^ k = 0)
    (hj : j % 2 ^ k = 0) {x : α} (hlen : (s x).length = 2 ^ k) (hload : load (s x) = x) :
    Puts (basic k s load) i j x (s x) where
  length := hlen
  write a ha := packUpdate_splice hi hj hlen ha
  read a ha := by
    show (do return load (← packSub (2 ^ k) a (shr i j k))) = _
    rw [packSub_holds hi hj hlen ha]
    exact congrArg Except.ok hload

theorem Primitive.puts {α : Type} (p : Primitive α) {i j : Nat} (h : p.serial.align + 1 ∣ i)
    (hs : ∀ w ∈ p.words i j, w.Straight) (x : α) : Puts p.serial i j x (p.bytes x) := by
  cases p with
  | unit => exact ⟨rfl, fun a _ => congrArg Except.ok (splice_nil a _).symm, fun _ _ => rfl⟩
  | wordl k hk =>
    have hd : 2 ^ k - 1 + 1 ∣ i := h
    rw [Nat.sub_add_cancel (Nat.two_pow_pos k)] at hd
    exact basic_puts (Nat.mod_eq_zero_of_dvd hd) (hs _ (.head _)) (little_length _ _) (ofLittle_little _ _)
  | wordb k hk =>
    have hd : 2 ^ k - 1 + 1 ∣ i := h
    rw [Nat.sub_add_cancel (Nat.two_pow_pos k)] at hd
    refine basic_puts (s := fun w => (little (2 ^ k) w).reverse) (Nat.mod_eq_zero_of_dvd hd) (hs _ (.head _)) ?_ ?_
    · rw [List.length_reverse, little_length]
    · rw [List.reverse_reverse, ofLittle_little]
  | bool =>
    refine basic_puts (s := fun x => [boolToWord8 x]) (Nat.mod_one i) (Nat.mod_one j) rfl ?_
    cases x <;> rfl

/-- The padding in front of a component. -/
theorem padding_eq {pad : Nat} (hp : pad < 8) (a : Bytes) (off j : Nat) :
    padding a pad off j = (padWords pad off j).foldlM (fun a w => zero w.k a w.i w.j) a := by
  have one : ∀ x : Except Exn Bytes, (x >>= fun y => pure y) = x := fun x => by cases x <;> rfl
  interval_cases pad <;> simp [padding, padStep, padWords, one]

/-- Straight padding words store zeroes. -/
theorem zeros_splice {ws : List Word} {p e : Nat} {a : Bytes} (ht : Tiles ws p e) (hs : ∀ w ∈ ws, w.Straight)
    (he : e ≤ a.length) :
    ws.foldlM (fun a w => zero w.k a w.i w.j) a = .ok (splice a p (replicate (e - p) 0)) := by
  induction ws generalizing p a with
  | nil =>
    cases ht
    rw [Nat.sub_self]
    exact congrArg Except.ok (splice_nil a _).symm
  | cons w ws ih =>
    obtain ⟨hi, hij, ht⟩ := ht
    have hle : p + 2 ^ w.k ≤ e := by
      clear ih hs
      revert ht
      generalize p + 2 ^ w.k = m
      intro ht
      induction ws generalizing m with
      | nil => exact Nat.le_of_eq ht
      | cons w' ws ih' => exact Nat.le_trans (Nat.le_add_right _ _) (ih' _ ht.2.2)
    have hlen : (replicate (2 ^ w.k) (0 : UInt8)).length = 2 ^ w.k := List.length_replicate
    have hzero : zero w.k a w.i w.j = .ok (splice a p (replicate (2 ^ w.k) 0)) := by
      have := packUpdate_splice (a := a) hi (hs w (.head _)) hlen (by rw [hlen, hij]; omega)
      rwa [hij] at this
    rw [List.foldlM_cons, hzero]
    show ws.foldlM _ (splice a p (replicate (2 ^ w.k) 0)) = _
    rw [ih ht (fun x hx => hs x (.tail _ hx)) (by rw [length_splice (by rw [hlen]; omega)]; exact he)]
    have hp := splice_splice (a := a) (p := p) (v := replicate (2 ^ w.k) (0 : UInt8))
      (w := replicate (e - (p + 2 ^ w.k)) 0) (by rw [hlen]; omega)
    rw [hlen] at hp
    rw [hp, List.replicate_append_replicate]
    congr 3
    omega

/-- A composition stores `v` for `x` from `off` on, and reads it back. -/
structure PutsAll {γ : Type} (c : A γ) (off j : Nat) (x : γ) (v : Bytes) : Prop where
  length : off + v.length = c.offset off
  store : ∀ a : Bytes, off + j + v.length ≤ a.length → c.store a off j x = .ok (splice a (off + j) v)
  load : ∀ a : Bytes, holds a (off + j) v → c.load a off j = .ok x

/-- A component after its padding, and the rest. -/
theorem component_puts {β γ : Type} {base : S β} {rest : A γ} {off j : Nat} {x : β} {y : γ} {v w : Bytes}
    (hm : Mask base.align) (hpad : ∀ u ∈ padWords (alignTo off base.align - off) off j, u.Straight)
    (hb : Puts base (alignTo off base.align) j x v) (hr : PutsAll rest (alignTo off base.align + base.length) j y w) :
    PutsAll (component base rest) off j (x, y) (replicate (alignTo off base.align - off) 0 ++ v ++ w) := by
  have hle := le_alignTo off base.align
  have h8 : alignTo off base.align - off < 8 := by
    obtain ⟨k, hk, hp⟩ := hm
    have := alignTo_sub_lt off base.align
    have : 2 ^ k ≤ 2 ^ 3 := Nat.pow_le_pow_right (by decide) hk
    omega
  have ht := pad_tiles hm off j
  have hlen := hb.length
  have hlen' := hr.length
  set off' := alignTo off base.align
  have hz : (replicate (off' - off) (0 : UInt8)).length = off' - off := List.length_replicate
  have hpos : off' + j = off + j + (off' - off) := by omega
  have hsub : off' + j - (off + j) = off' - off := by omega
  have hpos' : off' + base.length + j = off + j + (off' - off + v.length) := by omega
  refine ⟨?_, fun a ha => ?_, fun a ha => ?_⟩
  · rw [length_append, length_append, hz]
    show _ = rest.offset (off' + base.length)
    omega
  · rw [length_append, length_append, hz] at ha
    show (do
      let a ← padding a (off' - off) off j
      let a ← base.write a off' j x
      rest.store a (off' + base.length) j y) = _
    have h1 : padding a (off' - off) off j = .ok (splice a (off + j) (replicate (off' - off) 0)) := by
      rw [padding_eq h8, zeros_splice ht hpad (by omega), hsub]
    have hl1 : (splice a (off + j) (replicate (off' - off) 0)).length = a.length := length_splice (by rw [hz]; omega)
    have h2 := hb.write (splice a (off + j) (replicate (off' - off) 0)) (by rw [hl1]; omega)
    have hs2 := splice_splice (a := a) (p := off + j) (v := replicate (off' - off) 0) (w := v) (by rw [hz]; omega)
    rw [hz, ← hpos] at hs2
    rw [hs2] at h2
    have hl2 : (splice a (off + j) (replicate (off' - off) 0 ++ v)).length = a.length :=
      length_splice (by rw [length_append, hz]; omega)
    have h3 := hr.store (splice a (off + j) (replicate (off' - off) 0 ++ v)) (by rw [hl2]; omega)
    have hs3 := splice_splice (a := a) (p := off + j) (v := replicate (off' - off) 0 ++ v) (w := w)
      (by rw [length_append, hz]; omega)
    rw [length_append, hz, ← hpos'] at hs3
    rw [hs3] at h3
    rw [h1]
    show (do
      let a ← base.write (splice a (off + j) (replicate (off' - off) 0)) off' j x
      rest.store a (off' + base.length) j y) = _
    rw [h2]
    exact h3
  · rw [holds_append, holds_append, hz, length_append, hz, ← hpos, ← hpos'] at ha
    show (do
      let x ← base.read a off' j
      let y ← rest.load a (off' + base.length) j
      return (x, y)) = _
    rw [hb.read a ha.1.2]
    show (do
      let y ← rest.load a (off' + base.length) j
      return (x, y)) = _
    rw [hr.load a ha.2]
    rfl

/-- The elements of a vector, from number `n` on. -/
theorem writeAll_splice {α : Type} {base : S α} {p : Nat} {bytes : α → Bytes} (v : List α) (n : Nat) (a : Bytes)
    (hb : ∀ m x, v[m]? = some x → Puts base 0 (p + (n + m) * base.length) x (bytes x))
    (ha : p + (n + v.length) * base.length ≤ a.length) :
    writeAll base p n v a = .ok (splice a (p + n * base.length) (v.flatMap bytes)) ∧
      (v.flatMap bytes).length = v.length * base.length := by
  induction v generalizing n a with
  | nil => exact ⟨congrArg Except.ok (splice_nil a _).symm, by simp⟩
  | cons x v ih =>
    have hx := hb 0 x rfl
    rw [Nat.add_zero] at hx
    have hmul : (n + (v.length + 1)) * base.length = n * base.length + base.length + v.length * base.length := by
      rw [Nat.add_mul, Nat.succ_mul]
      omega
    have hmul' : (n + 1) * base.length = n * base.length + base.length := Nat.succ_mul _ _
    rw [length_cons, hmul] at ha
    have hlen := hx.length
    have hfit : p + n * base.length + (bytes x).length ≤ a.length := by omega
    have hwrite := hx.write a (by rw [Nat.zero_add]; exact hfit)
    rw [Nat.zero_add] at hwrite
    obtain ⟨h1, h2⟩ := ih (n + 1) (splice a (p + n * base.length) (bytes x))
      (fun m y hy => by
        have := hb (m + 1) y hy
        rwa [show n + (m + 1) = n + 1 + m by omega] at this)
      (by rw [length_splice hfit, show n + 1 + v.length = n + (v.length + 1) by omega, hmul]; omega)
    refine ⟨?_, ?_⟩
    · show (do writeAll base p (n + 1) v (← base.write a 0 (p + n * base.length) x)) = _
      rw [hwrite]
      show writeAll base p (n + 1) v (splice a (p + n * base.length) (bytes x)) = _
      rw [h1, hmul', flatMap_cons, ← splice_splice hfit, hlen, Nat.add_assoc]
    · rw [flatMap_cons, length_append, h2, hlen, length_cons, Nat.succ_mul]
      omega

theorem readAll_holds {α : Type} {base : S α} {p : Nat} {bytes : α → Bytes} (v : List α) (a : Bytes)
    (hb : ∀ m x, v[m]? = some x → Puts base 0 (p + m * base.length) x (bytes x)) (ha : holds a p (v.flatMap bytes)) :
    readAll base a p v.length = .ok v := by
  have go : ∀ (v : List α) (n : Nat), (∀ m x, v[m]? = some x → Puts base 0 (p + (n + m) * base.length) x (bytes x)) →
      holds a (p + n * base.length) (v.flatMap bytes) →
      (range' n v.length).mapM (fun j => base.read a 0 (p + j * base.length)) = .ok v := by
    intro v
    induction v with
    | nil => exact fun _ _ _ => rfl
    | cons x v ih =>
      intro n hb ha
      have hx := hb 0 x rfl
      rw [Nat.add_zero] at hx
      rw [flatMap_cons, holds_append, hx.length, Nat.add_assoc, ← Nat.succ_mul] at ha
      have hrest := ih (n + 1) (fun m y hy => by
        have := hb (m + 1) y hy
        rwa [show n + (m + 1) = n + 1 + m by omega] at this) ha.2
      have hread := hx.read a (by rw [Nat.zero_add]; exact ha.1)
      rw [length_cons, List.range'_succ, List.mapM_cons, hread]
      show (do
        let v ← (range' (n + 1) v.length).mapM (fun j => base.read a 0 (p + j * base.length))
        return x :: v) = _
      rw [hrest]
      rfl
  unfold readAll
  rw [List.range_eq_range']
  refine go v 0 (fun m x hx => ?_) ?_
  · rw [Nat.zero_add]
    exact hb m x hx
  · rwa [Nat.zero_mul]

mutual

/-- Where its words are straight, a serializer stores `bytes` and reads them back. -/
theorem Shape.puts : ∀ {α : Type} (s : Shape α) {i j : Nat}, s.serial.align + 1 ∣ i → s.Lawful →
    (∀ w ∈ s.words i j, w.Straight) → ∀ {x : α}, s.Dom x → Puts s.serial i j x (s.bytes i x)
  | _, .basic p, i, j, h, hl, hs, x, hx => p.puts h hs x
  | _, .map store load base, i, j, h, hl, hs, x, hx => by
    have hb := base.puts (x := store x) h hl.2.2 hs hx
    refine ⟨hb.length, hb.write, fun a ha => ?_⟩
    show (do return load (← base.serial.read a i j)) = _
    rw [hb.read a ha]
    exact congrArg Except.ok (hl.1 x)
  | _, .aggregate t f c, i, j, h, hl, hs, x, hx => by
    have hc := c.puts (i := i) (j := j) (x := f x) hl.2.2 hs hx
    have ho := c.offset_add 0 h
    rw [Nat.add_zero] at ho
    refine ⟨?_, hc.store, fun a ha => ?_⟩
    · have hlen := hc.length
      rw [ho] at hlen
      exact Nat.add_left_cancel hlen
    · show (do return t (← c.serial.load a i j)) = _
      rw [hc.load a ha]
      exact congrArg Except.ok (hl.1 x)
  | _, .vector base len, i, j, h, hl, hs, x, hx => by
    obtain ⟨hlen, hx⟩ := hx
    have hb : ∀ m y, x[m]? = some y → Puts base.serial 0 (i + j + m * base.serial.length) y (base.bytes 0 y) := by
      intro m y hy
      obtain ⟨hm, hy⟩ := List.getElem?_eq_some_iff.mp hy
      refine base.puts (Nat.dvd_zero _) hl (fun w hw => hs w ?_) (hx y (hy ▸ List.getElem_mem hm))
      exact List.mem_flatMap.mpr ⟨m, List.mem_range.mpr (hlen ▸ hm), hw⟩
    have hbytes : (x.flatMap (base.bytes 0)).length = len * base.serial.length := by
      have hflat : ∀ v : List _, (∀ y ∈ v, (base.bytes 0 y).length = base.serial.length) →
          (v.flatMap (base.bytes 0)).length = v.length * base.serial.length := by
        intro v
        induction v with
        | nil => exact fun _ => by simp
        | cons y v ih =>
          intro hv
          rw [flatMap_cons, length_append, ih fun z hz => hv z (.tail _ hz), hv y (.head _), length_cons,
            Nat.succ_mul]
          omega
      rw [hflat x fun y hy => ?_, hlen]
      obtain ⟨m, hm, he⟩ := List.getElem_of_mem hy
      exact (hb m y (List.getElem?_eq_some_iff.mpr ⟨hm, he⟩)).length
    refine ⟨hbytes, fun a ha => ?_, fun a ha => ?_⟩
    · show (if x.length ≠ len then Except.error Exn.subscript else writeAll base.serial (i + j) 0 x a) = _
      rw [if_neg (by simp [hlen])]
      have ha' : i + j + (x.flatMap (base.bytes 0)).length ≤ a.length := ha
      rw [hbytes] at ha'
      have hw := (writeAll_splice (p := i + j) x 0 a (fun m y hy => by rw [Nat.zero_add]; exact hb m y hy)
        (by rw [Nat.zero_add, hlen]; exact ha')).1
      rwa [Nat.zero_mul] at hw
    · show readAll base.serial a (i + j) len = _
      rw [← hlen]
      exact readAll_holds x a hb ha

theorem Components.puts : ∀ {γ : Type} (c : Components γ) {i j : Nat}, c.Lawful →
    (∀ w ∈ c.words i j, w.Straight) → ∀ {x : γ}, c.Dom x → PutsAll c.serial i j x (c.bytes i x)
  | _, .nil, i, j, hl, hs, x, hx => ⟨rfl, fun a _ => congrArg Except.ok (splice_nil a _).symm, fun _ _ => rfl⟩
  | _, .cons base rest, i, j, hl, hs, x, hx => by
    have hb := base.puts (j := j) (dvd_alignTo i base.serial.align) hl.1
      (fun w hw => hs w (List.mem_append.mpr (.inl (List.mem_append.mpr (.inr hw))))) hx.1
    have hr := rest.puts (i := alignTo i base.serial.align + base.serial.length) (j := j) hl.2
      (fun w hw => hs w (List.mem_append.mpr (.inr hw))) hx.2
    exact component_puts base.mask (fun w hw => hs w (List.mem_append.mpr (.inl (List.mem_append.mpr (.inl hw))))) hb hr

end

end BubbleStorm.Util.Serial
