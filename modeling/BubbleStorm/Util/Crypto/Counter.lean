/-
  BubbleStorm.Util.Crypto.Counter — a block cipher in counter mode, and the MAC over its
  text (`src/util/crypto/counter.fun`).

  The cipher's block is 16 bytes: the number of the packet, of which the last word makes
  way for the number of the block. Block ~1 is the nonce of the MAC.
-/

import Mathlib.Data.List.Nodup
import BubbleStorm.Cusp.Stream.PacketFormat

namespace BubbleStorm.Util.Crypto.Counter

open BubbleStorm.Cusp (Bytes)

/-- `x` in `n` bytes, the lowest in front. -/
def little (n x : Nat) : Bytes := (List.range n).map fun k => UInt8.ofNat (x / 256 ^ k)

/-- `PackWord32Little.update (a, i, LargeWord.fromInt w)`. -/
def updateWord32 (a : Bytes) (i : Nat) (w : Int) : Bytes :=
  a.take (4 * i) ++ little 4 (w % 2 ^ 32).toNat ++ a.drop (4 * i + 4)

/-- `Cipher.length`. -/
def blockLength : Nat := 16

def counterOff : Nat := blockLength / 4 - 1

/-- The plain block of `pad i`. -/
def rawpad (counter : Nat) (i : Int) : Bytes := updateWord32 (little blockLength counter) counterOff i

variable {κ : Type} (E : κ → Bytes → Bytes)

def xor (text cipher : Bytes) : Bytes := List.zipWith (· ^^^ ·) text cipher

/-- The text from block `i` on. -/
def loop (key : κ) (counter i : Nat) (text : Bytes) : Bytes :=
  if _h : text = [] then []
  else
    xor (text.take blockLength) (E key (rawpad counter i)) ++ loop key counter (i + 1) (text.drop blockLength)
termination_by text.length
decreasing_by
  have : text.length ≠ 0 := fun h0 => _h (List.length_eq_zero_iff.mp h0)
  simp only [List.length_drop, blockLength]
  omega

def crypt (key : κ) (counter : Nat) (text : Bytes) : Bytes := loop E key counter 0 text

/-- What `Mac.Nonce` parses, of 16 bytes too. -/
def nonce (key : κ) (counter : Nat) : Bytes := E key (rawpad counter (-1))

/-- How many blocks `loop` makes pads of. -/
def blocks (text : Bytes) : Nat := (text.length + 15) / blockLength

/-- What the cipher is put to for a packet: the blocks of the text, and the nonce. -/
def inputs (counter : Nat) (text : Bytes) : List Bytes :=
  rawpad counter (-1) :: (List.range (blocks text)).map fun i : Nat => rawpad counter i

theorem loop_eq (key : κ) (counter i : Nat) (text : Bytes) :
    loop E key counter i text = ((List.range (blocks text)).map fun j =>
      xor ((text.drop (16 * j)).take 16) (E key (rawpad counter ((i + j : Nat) : Int)))).flatten := by
  induction i, text using loop.induct with
  | case1 i =>
    rw [loop, dif_pos rfl]
    rfl
  | case2 i text h ih =>
    have hlen : 0 < text.length := List.length_pos_of_ne_nil h
    have hblocks : blocks text = blocks (text.drop blockLength) + 1 := by
      simp only [blocks, blockLength, List.length_drop]
      omega
    rw [loop, dif_neg h, ih, hblocks, List.range_succ_eq_map, List.map_cons, List.map_map, List.flatten_cons]
    congr 3
    funext j
    simp only [Function.comp_apply, List.drop_drop, blockLength, Nat.succ_eq_add_one]
    rw [show 16 * (j + 1) = 16 + 16 * j by omega, show i + (j + 1) = i + 1 + j by omega]

/-- The cipher is asked for nothing but the blocks of `inputs`. -/
theorem crypt_congr {E E' : κ → Bytes → Bytes} {key : κ} {counter : Nat} {text : Bytes}
    (h : ∀ b ∈ inputs counter text, E key b = E' key b) :
    crypt E key counter text = crypt E' key counter text ∧ nonce E key counter = nonce E' key counter := by
  obtain ⟨hnonce, hblocks⟩ := List.forall_mem_cons.mp h
  refine ⟨?_, hnonce⟩
  rw [crypt, crypt, loop_eq, loop_eq]
  congr 1
  refine List.map_congr_left fun j hj => ?_
  rw [Nat.zero_add, hblocks _ (List.mem_map.mpr ⟨j, hj, rfl⟩)]

/-! ## The blocks are different ones -/

theorem little_succ (n x : Nat) : little (n + 1) x = UInt8.ofNat x :: little n (x / 256) := by
  unfold little
  rw [List.range_succ_eq_map, List.map_cons, List.map_map]
  congr 1
  · simp
  · apply List.map_congr_left
    intro k _
    show UInt8.ofNat (x / 256 ^ (k + 1)) = UInt8.ofNat (x / 256 / 256 ^ k)
    rw [Nat.div_div_eq_div_mul, Nat.pow_succ, Nat.mul_comm]

@[simp] theorem length_little (n x : Nat) : (little n x).length = n := by simp [little]

theorem little_inj {n x y : Nat} (hx : x < 256 ^ n) (hy : y < 256 ^ n) (h : little n x = little n y) : x = y := by
  induction n generalizing x y with
  | zero =>
    rw [Nat.pow_zero] at hx hy
    omega
  | succ n ih =>
    rw [little_succ, little_succ] at h
    obtain ⟨hhead, htail⟩ := List.cons.inj h
    rw [Nat.pow_succ] at hx hy
    have hdiv : x / 256 = y / 256 := ih (by omega) (by omega) htail
    have hmod : x % 256 = y % 256 := by simpa using congrArg UInt8.toNat hhead
    omega

theorem take_little {m n : Nat} (h : m ≤ n) (x : Nat) : (little n x).take m = little m x := by
  unfold little
  rw [← List.map_take, List.take_range, Nat.min_eq_left h]

theorem rawpad_eq (counter : Nat) (i : Int) : rawpad counter i = little 12 counter ++ little 4 (i % 2 ^ 32).toNat := by
  show (little 16 counter).take 12 ++ little 4 (i % 2 ^ 32).toNat ++ (little 16 counter).drop 16 = _
  rw [take_little (by decide), List.drop_of_length_le (by simp), List.append_nil]

/-- The numbers of the blocks, from the nonce's on. -/
def Index (i : Int) : Prop := -1 ≤ i ∧ i < 2 ^ 32 - 1

theorem rawpad_inj {c c' : Nat} {i i' : Int} (hc : c < 2 ^ 96) (hc' : c' < 2 ^ 96) (hi : Index i) (hi' : Index i')
    (h : rawpad c i = rawpad c' i') : c = c' ∧ i = i' := by
  rw [rawpad_eq, rawpad_eq] at h
  obtain ⟨hcounter, hblock⟩ := List.append_inj h (by rw [length_little, length_little])
  have hword := little_inj (by omega) (by omega) hblock
  unfold Index at hi hi'
  exact ⟨little_inj (Nat.lt_of_lt_of_le hc (by decide)) (Nat.lt_of_lt_of_le hc' (by decide)) hcounter, by omega⟩

theorem mem_inputs {counter : Nat} {text b : Bytes} (hb : blocks text < 2 ^ 32 - 1) (h : b ∈ inputs counter text) :
    ∃ i, Index i ∧ b = rawpad counter i := by
  unfold Index
  rcases List.mem_cons.mp h with rfl | h
  · exact ⟨-1, by omega, rfl⟩
  · obtain ⟨i, hi, rfl⟩ := List.mem_map.mp h
    have := List.mem_range.mp hi
    exact ⟨i, by omega, rfl⟩

theorem inputs_nodup {counter : Nat} {text : Bytes} (hc : counter < 2 ^ 96) (hb : blocks text < 2 ^ 32 - 1) :
    (inputs counter text).Nodup := by
  have index : ∀ i : Nat, i ∈ List.range (blocks text) → Index i := by
    intro i hi
    have := List.mem_range.mp hi
    unfold Index
    omega
  refine List.nodup_cons.mpr ⟨fun h => ?_, List.Nodup.map_on (fun i hi j hj hij => ?_) List.nodup_range⟩
  · obtain ⟨i, hi, he⟩ := List.mem_map.mp h
    have := (rawpad_inj hc hc (index i hi) (by unfold Index; omega) he).2
    omega
  · exact Int.ofNat.inj (rawpad_inj hc hc (index i hi) (index j hj) hij).2

theorem inputs_disjoint {c c' : Nat} {text text' : Bytes} (hc : c < 2 ^ 96) (hc' : c' < 2 ^ 96)
    (hb : blocks text < 2 ^ 32 - 1) (hb' : blocks text' < 2 ^ 32 - 1) (h : c ≠ c') :
    List.Disjoint (inputs c text) (inputs c' text') := by
  intro b hmem hmem'
  obtain ⟨i, hi, rfl⟩ := mem_inputs hb hmem
  obtain ⟨i', hi', he⟩ := mem_inputs hb' hmem'
  exact h (rawpad_inj hc hc' hi hi' he).1

theorem blocks_drop {text : Bytes} (h : text ≠ []) : blocks text = blocks (text.drop blockLength) + 1 := by
  have : text.length ≠ 0 := fun h0 => h (List.length_eq_zero_iff.mp h0)
  unfold blocks blockLength
  rw [List.length_drop]
  omega

variable {E : κ → Bytes → Bytes}

/-! ## Counter mode undoes itself -/

theorem length_xor (t p : Bytes) : (xor t p).length = min t.length p.length := List.length_zipWith

theorem xor_xor {t p : Bytes} (h : t.length ≤ p.length) : xor (xor t p) p = t := by
  induction t generalizing p with
  | nil => rfl
  | cons b t ih =>
    cases p with
    | nil => exact absurd h (Nat.not_succ_le_zero _)
    | cons c p =>
      show (b ^^^ c ^^^ c) :: xor (xor t p) p = b :: t
      rw [ih (Nat.le_of_succ_le_succ h), UInt8.xor_assoc, UInt8.xor_self, UInt8.xor_zero]

theorem loop_nil (E : κ → Bytes → Bytes) (key : κ) (counter i : Nat) : loop E key counter i [] = [] := by
  unfold loop
  rfl

theorem loop_block {key : κ} {counter i : Nat} {text : Bytes} (h : text ≠ []) :
    loop E key counter i text = xor (text.take blockLength) (E key (rawpad counter i)) ++
      loop E key counter (i + 1) (text.drop blockLength) := by
  rw [loop, dif_neg h]

theorem loop_loop (hE : ∀ key b, (E key b).length = blockLength) {key : κ} {counter : Nat} (n : Nat) :
    ∀ {i : Nat} {text : Bytes}, blocks text = n → loop E key counter i (loop E key counter i text) = text := by
  induction n with
  | zero =>
    intro i text hn
    have h : text = [] := by
      by_contra h
      have := blocks_drop h
      omega
    subst h
    rw [loop_nil, loop_nil]
  | succ n ih =>
    intro i text hn
    by_cases h : text = []
    · subst h
      rw [loop_nil, loop_nil]
    · have hdrop := blocks_drop h
      have hrest : loop E key counter (i + 1) (loop E key counter (i + 1) (text.drop blockLength)) = text.drop blockLength :=
        ih (by omega)
      have hxor := xor_xor (t := text.take blockLength) (p := E key (rawpad counter i)) (by
        rw [hE, List.length_take]
        exact Nat.min_le_left ..)
      have hlen : (xor (text.take blockLength) (E key (rawpad counter i))).length = min blockLength text.length := by
        rw [length_xor, hE, List.length_take]
        omega
      have h0 : text.length ≠ 0 := fun h0 => h (List.length_eq_zero_iff.mp h0)
      rw [loop_block h]
      generalize hfirst : xor (text.take blockLength) (E key (rawpad counter i)) = first at hxor hlen
      have hne : first ++ loop E key counter (i + 1) (text.drop blockLength) ≠ [] := by
        intro he
        rw [(List.append_eq_nil_iff.mp he).1] at hlen
        simp only [List.length_nil, blockLength] at hlen
        omega
      rw [loop_block hne]
      by_cases hfull : blockLength ≤ text.length
      · have hl : first.length = blockLength := by omega
        rw [List.take_left' hl, List.drop_left' hl, hxor, hrest, List.take_append_drop]
      -- the last block is not a whole one
      · have hd : text.drop blockLength = [] := List.drop_eq_nil_of_le (by omega)
        rw [hd, loop_nil, List.append_nil, List.take_of_length_le (by omega), List.drop_eq_nil_of_le (by omega), loop_nil,
          List.append_nil, hxor, List.take_of_length_le (by omega)]

/-- What was enciphered is restored by the same cipher, whatever the length. -/
theorem crypt_crypt (hE : ∀ key b, (E key b).length = blockLength) (key : κ) (counter : Nat) (text : Bytes) :
    crypt E key counter (crypt E key counter text) = text := loop_loop hE (blocks text) rfl

end BubbleStorm.Util.Crypto.Counter
