/-
  BubbleStorm.Util.Crypto.Poly1305ML — the MAC of the packets
  (`src/util/crypto/poly1305ml.sml`).

  A text is cut into blocks of 16 bytes, a block is the number of its bytes with a bit in
  front, and the blocks are the coefficients of a polynomial in the key. A slice is read
  by halves; that is the number of its bytes, the lowest in front (`fromSlice_eq`).

  For two texts, whatever their MACs are, few keys give them these MACs under one nonce
  (`forgeries`): one who sees the MAC of a text makes up another text and its MAC with a
  chance of eight in all keys for each block.
-/

import Mathlib
import BubbleStorm.Lib.Horner
import BubbleStorm.Lib.Lucas
import BubbleStorm.Util.Serial.Layout

namespace BubbleStorm.Util.Crypto.Poly1305ML

open BubbleStorm.Cusp (Bytes)
open Lib (hornerAt prime_of_lucas)

/-! ## The code -/

def p : Nat := 2 ^ 130 - 5

/-- `Key.mask`. -/
def mask : Nat := 0x0ffffffc0ffffffc0ffffffc0fffffff

/-- `load` of `Key.t`. -/
def load (i : Nat) : Nat := mask &&& i

/-- An empty slice is never read; the code would not end on it. -/
def fromSlice (s : Bytes) : Nat :=
  let len := s.length
  let len2 := len / 2
  if _h : len ≤ 1 then (s.headD 0).toNat
  else fromSlice (s.take len2) + fromSlice (s.drop len2) <<< (len2 * 8)
termination_by s.length
decreasing_by
  · simp only [List.length_take]; omega
  · simp only [List.length_drop]; omega

def loop (key : Nat) (text : Bytes) (i h : Nat) : Nat :=
  if _h : text.length ≤ i then h
  else
    let len := min 16 (text.length - i)
    let tail := (text.drop i).take len
    let t := fromSlice tail
    let t' := 1 <<< (len * 8)
    loop key text (i + 16) ((h + t + t') * key % p)
termination_by text.length - i

/-- `Nonce.toVector` keeps the low 16 bytes. -/
def f (key nonce : Nat) (text : Bytes) : Bytes :=
  let h := loop key text 0 0 + nonce
  Serial.little 16 (BitVec.ofNat 128 h)

/-! ## Slices -/

/-- The number of the bytes, the lowest in front. -/
def number (s : Bytes) : Nat := s.foldr (fun b n => b.toNat + 256 * n) 0

theorem number_append (s s' : Bytes) : number (s ++ s') = number s + 256 ^ s.length * number s' := by
  induction s with
  | nil => simp [number]
  | cons b s ih =>
    have hcons : ∀ l : Bytes, number (b :: l) = b.toNat + 256 * number l := fun _ => rfl
    rw [List.cons_append, hcons, hcons, ih, List.length_cons, Nat.pow_succ]
    ring

theorem number_lt (s : Bytes) : number s < 256 ^ s.length := by
  induction s with
  | nil => exact Nat.one_pos
  | cons b s ih =>
    have hb : b.toNat < 256 := b.toNat_lt
    have hcons : number (b :: s) = b.toNat + 256 * number s := rfl
    rw [hcons, List.length_cons, Nat.pow_succ]
    omega

theorem number_injective {s s' : Bytes} (hlen : s.length = s'.length) (h : number s = number s') : s = s' := by
  induction s generalizing s' with
  | nil => exact (List.length_eq_zero_iff.mp hlen.symm).symm
  | cons b s ih =>
    cases s' with
    | nil => cases hlen
    | cons b' s' =>
      have hcons : ∀ (a : UInt8) (l : Bytes), number (a :: l) = a.toNat + 256 * number l := fun _ _ => rfl
      rw [hcons, hcons] at h
      have hb : b.toNat < 256 := b.toNat_lt
      have hb' : b'.toNat < 256 := b'.toNat_lt
      have hfirst : b = b' := UInt8.toNat_inj.mp (by omega)
      rw [hfirst, ih (Nat.succ.inj hlen) (by omega)]

/-- Halves do not matter. -/
theorem fromSlice_eq (s : Bytes) (h : s ≠ []) : fromSlice s = number s := by
  induction hn : s.length using Nat.strong_induction_on generalizing s with
  | _ n ih =>
    rw [fromSlice]
    have hpos : 0 < s.length := List.length_pos_iff.mpr h
    split
    next hle =>
      obtain ⟨b, rfl⟩ := List.length_eq_one_iff.mp (by omega : s.length = 1)
      rfl
    next hle =>
      have htake : (s.take (s.length / 2)).length = s.length / 2 := List.length_take_of_le (by omega)
      have hdrop : (s.drop (s.length / 2)).length = s.length - s.length / 2 := List.length_drop ..
      rw [ih _ (by omega) _ (List.ne_nil_of_length_pos (by omega)) htake,
        ih _ (by omega) _ (List.ne_nil_of_length_pos (by omega)) hdrop]
      conv_rhs => rw [← List.take_append_drop (s.length / 2) s, number_append, htake]
      rw [Nat.shiftLeft_eq, Nat.mul_comm (s.length / 2), Nat.pow_mul, Nat.mul_comm (number _)]

/-! ## Blocks -/

/-- A block with the bit in front. -/
def block (s : Bytes) : Nat := number s + 256 ^ s.length

theorem block_injective {s s' : Bytes} (h : block s = block s') : s = s' := by
  have hlt := number_lt s
  have hlt' := number_lt s'
  unfold block at h
  have hlen : s.length = s'.length := by
    rcases Nat.lt_trichotomy s.length s'.length with hl | hl | hl
    · have := Nat.pow_le_pow_right (by decide : 0 < 256) hl
      rw [Nat.pow_succ] at this
      omega
    · exact hl
    · have := Nat.pow_le_pow_right (by decide : 0 < 256) hl
      rw [Nat.pow_succ] at this
      omega
  rw [hlen] at h
  exact number_injective hlen (by omega)

/-- The blocks of a text. -/
def blocks (text : Bytes) : List Nat :=
  if _h : text = [] then [] else block (text.take 16) :: blocks (text.drop 16)
termination_by text.length
decreasing_by
  have := List.length_pos_iff.mpr _h
  simp only [List.length_drop]
  omega

theorem blocks_nil : blocks [] = [] := by rw [blocks, dif_pos rfl]

theorem blocks_of_ne {text : Bytes} (h : text ≠ []) : blocks text = block (text.take 16) :: blocks (text.drop 16) := by
  rw [blocks, dif_neg h]

theorem blocks_injective {text text' : Bytes} (h : blocks text = blocks text') : text = text' := by
  induction hn : text.length using Nat.strong_induction_on generalizing text text' with
  | _ n ih =>
    by_cases he : text = []
    · by_cases he' : text' = []
      · rw [he, he']
      · rw [he, blocks_nil, blocks_of_ne he'] at h
        cases h
    · by_cases he' : text' = []
      · rw [he', blocks_nil, blocks_of_ne he] at h
        cases h
      · rw [blocks_of_ne he, blocks_of_ne he', List.cons.injEq] at h
        have hpos := List.length_pos_iff.mpr he
        have hrest : text.drop 16 = text'.drop 16 := ih _ (by simp only [List.length_drop]; omega) h.2 rfl
        rw [← List.take_append_drop 16 text, block_injective h.1, hrest, List.take_append_drop]

/-- A block is no multiple of the prime. -/
theorem mem_blocks {text : Bytes} {c : Nat} (h : c ∈ blocks text) : 0 < c ∧ c < p := by
  induction hn : text.length using Nat.strong_induction_on generalizing text with
  | _ n ih =>
    by_cases he : text = []
    · rw [he, blocks_nil] at h
      cases h
    · rw [blocks_of_ne he] at h
      have hpos := List.length_pos_iff.mpr he
      rcases List.mem_cons.mp h with rfl | h
      · have hlt := number_lt (text.take 16)
        have hlen : (text.take 16).length ≤ 16 := List.length_take_le ..
        have hpow : 256 ^ (text.take 16).length ≤ 256 ^ 16 := Nat.pow_le_pow_right (by decide) hlen
        have hp : 256 ^ 16 + 256 ^ 16 < p := by decide
        have hone := Nat.pow_pos (n := (text.take 16).length) (by decide : 0 < 256)
        unfold block
        omega
      · exact ih _ (by simp only [List.length_drop]; omega) h rfl

/-- The loop is Horner's scheme over the blocks. -/
theorem loop_eq (key : Nat) (text : Bytes) (i h : Nat) :
    loop key text i h = (blocks (text.drop i)).foldl (fun h c => (h + c) * key % p) h := by
  induction hn : text.length - i using Nat.strong_induction_on generalizing i h with
  | _ n ih =>
    rw [loop]
    split
    next hle =>
      rw [List.drop_eq_nil_of_le hle, blocks_nil]
      rfl
    next hle =>
      have hne : text.drop i ≠ [] := List.ne_nil_of_length_pos (by simp only [List.length_drop]; omega)
      have hlen : (text.drop i).length = text.length - i := List.length_drop ..
      have htail : (text.drop i).take (min 16 (text.length - i)) = (text.drop i).take 16 := by
        rw [← hlen, ← List.take_take, List.take_length]
      have hblock : (text.drop i).take 16 ≠ [] := List.ne_nil_of_length_pos (by simp only [List.length_take, List.length_drop]; omega)
      have hshift : 1 <<< (min 16 (text.length - i) * 8) = 256 ^ ((text.drop i).take 16).length := by
        rw [List.length_take, hlen, Nat.shiftLeft_eq, Nat.one_mul, Nat.mul_comm, Nat.pow_mul]
      dsimp only
      rw [ih _ (by omega) _ _ rfl, htail, fromSlice_eq _ hblock, hshift, blocks_of_ne hne, List.foldl_cons, List.drop_drop, block,
        Nat.add_assoc]

/-! ## The prime -/

theorem prime_4024685905107147541 : Nat.Prime 4024685905107147541 := by
  refine prime_of_lucas 2 [2, 2, 3, 3, 5, 13, 43, 4889, 37003, 221101] ?_ (by decide +kernel)
  simp only [List.forall_mem_cons, List.not_mem_nil, false_imp_iff, implies_true, and_true]
  norm_num

theorem prime_897064739519922787230182993783 : Nat.Prime 897064739519922787230182993783 := by
  refine prime_of_lucas 5 [2, 73, 487, 3134801, 4024685905107147541] ?_ (by decide +kernel)
  simp only [List.forall_mem_cons, List.not_mem_nil, false_imp_iff, implies_true, and_true]
  exact ⟨by norm_num, by norm_num, by norm_num, by norm_num, prime_4024685905107147541⟩

theorem prime_p : Nat.Prime p := by
  refine prime_of_lucas 2 [2, 23, 32985101, 897064739519922787230182993783] ?_ (by decide +kernel)
  simp only [List.forall_mem_cons, List.not_mem_nil, false_imp_iff, implies_true, and_true]
  exact ⟨by norm_num, by norm_num, by norm_num, prime_897064739519922787230182993783⟩

instance : Fact (Nat.Prime p) := ⟨prime_p⟩

/-! ## Forgeries -/

/-- The coefficients of a text. -/
def coefficients (text : Bytes) : List (ZMod p) := (blocks text).map Nat.cast

theorem coefficients_ne {text : Bytes} : ∀ c ∈ coefficients text, c ≠ 0 := by
  intro c hc
  obtain ⟨n, hn, rfl⟩ := List.mem_map.mp hc
  obtain ⟨hpos, hlt⟩ := mem_blocks hn
  rw [Ne, ZMod.natCast_eq_zero_iff]
  exact Nat.not_dvd_of_pos_of_lt hpos hlt

theorem coefficients_injective {text text' : Bytes} (h : coefficients text = coefficients text') : text = text' := by
  have hval : ∀ t : Bytes, (coefficients t).map ZMod.val = blocks t := by
    intro t
    rw [coefficients, List.map_map]
    refine (List.map_congr_left fun c hc => ?_).trans (List.map_id _)
    exact ZMod.val_natCast_of_lt (mem_blocks hc).2
  apply blocks_injective
  rw [← hval text, ← hval text', h]

theorem loop_cast (key : Nat) (text : Bytes) : (loop key text 0 0 : ZMod p) = hornerAt (key : ZMod p) (coefficients text) := by
  have hfold : ∀ (l : List Nat) (h : Nat), ((l.foldl (fun h c => (h + c) * key % p) h : Nat) : ZMod p) =
      (l.map Nat.cast).foldl (fun (h : ZMod p) c => (h + c) * key) h := by
    intro l
    induction l with
    | nil => exact fun h => rfl
    | cons c l ih =>
      intro h
      rw [List.foldl_cons, ih, List.map_cons, List.foldl_cons, ZMod.natCast_mod, Nat.cast_mul, Nat.cast_add]
  rw [loop_eq, List.drop_zero, hfold, Nat.cast_zero]
  rfl

theorem loop_lt (key : Nat) (text : Bytes) : loop key text 0 0 < p := by
  have hfold : ∀ (l : List Nat) (h : Nat), h < p → l.foldl (fun h c => (h + c) * key % p) h < p := by
    intro l
    induction l with
    | nil => exact fun h hlt => hlt
    | cons c l ih => exact fun h _ => ih _ (Nat.mod_lt _ (by decide))
  rw [loop_eq]
  exact hfold _ _ (by decide)

/-- What two MACs say of the values under one nonce: there are eight ways in which these
    can differ. -/
theorem differ {v v' nonce : Nat} (hv : v < p) (hv' : v' < p) :
    ∃ j ∈ Finset.Ico (-4 : Int) 4,
      (v : Int) = v' + (((v + nonce) % 2 ^ 128 : Nat) - ((v' + nonce) % 2 ^ 128 : Nat)) % 2 ^ 128 + 2 ^ 128 * j := by
  have hp : p = 1361129467683753853853498429727072845819 := by decide
  rw [hp] at hv hv'
  refine ⟨((v : Int) - v' - (((v + nonce) % 2 ^ 128 : Nat) - ((v' + nonce) % 2 ^ 128 : Nat)) % 2 ^ 128) / 2 ^ 128, ?_, ?_⟩
  · rw [Finset.mem_Ico]
    omega
  · omega

/-- Few keys give two texts these MACs under one nonce. -/
theorem forgeries {text text' : Bytes} (hne : text ≠ text') (a a' : Bytes) :
    {key : Nat | key < p ∧ ∃ nonce, f key nonce text = a ∧ f key nonce text' = a'}.ncard ≤
      8 * max (blocks text).length (blocks text').length := by
  let d : Int := ((Serial.ofLittle 16 a).toNat - (Serial.ofLittle 16 a').toNat : Int) % 2 ^ 128
  let keys (j : Int) : Set Nat :=
    {key | key < p ∧ hornerAt (key : ZMod p) (coefficients text) =
      hornerAt (key : ZMod p) (coefficients text') + ((d + 2 ^ 128 * j : Int) : ZMod p)}
  have hfew : ∀ j, (keys j).Finite ∧ (keys j).ncard ≤ max (blocks text).length (blocks text').length := by
    intro j
    obtain ⟨hfinite, hcard⟩ := Lib.few_points coefficients_ne coefficients_ne (fun h => hne (coefficients_injective h))
      ((d + 2 ^ 128 * j : Int) : ZMod p)
    rw [coefficients, coefficients, List.length_map, List.length_map] at hcard
    refine ⟨(Set.finite_lt_nat p).subset fun key hkey => hkey.1, ?_⟩
    refine (Set.ncard_le_ncard_of_injOn (Nat.cast : Nat → ZMod p) (fun key hkey => hkey.2) ?_ hfinite).trans hcard
    intro key hkey key' hkey' heq
    rw [← ZMod.val_natCast_of_lt hkey.1, ← ZMod.val_natCast_of_lt hkey'.1, heq]
  have hsub : {key : Nat | key < p ∧ ∃ nonce, f key nonce text = a ∧ f key nonce text' = a'} ⊆ ⋃ j ∈ Finset.Ico (-4 : Int) 4, keys j := by
    rintro key ⟨hkey, nonce, rfl, rfl⟩
    obtain ⟨j, hj, hdiffer⟩ := @differ _ _ nonce (loop_lt key text) (loop_lt key text')
    refine Set.mem_biUnion hj ⟨hkey, ?_⟩
    have hcast := congrArg (Int.cast : Int → ZMod p) hdiffer
    have htag : ∀ t : Bytes, (Serial.ofLittle 16 (f key nonce t)).toNat = (loop key t 0 0 + nonce) % 2 ^ 128 := by
      intro t
      rw [f, Serial.ofLittle_little, BitVec.toNat_ofNat]
    simp only [d, htag]
    rw [← loop_cast, ← loop_cast]
    push_cast at hcast ⊢
    rw [hcast]
    ring
  calc _ ≤ (⋃ j ∈ Finset.Ico (-4 : Int) 4, keys j).ncard :=
        Set.ncard_le_ncard hsub (Set.Finite.biUnion (Finset.finite_toSet _) fun j _ => (hfew j).1)
    _ ≤ ∑ j ∈ Finset.Ico (-4 : Int) 4, (keys j).ncard := Finset.set_ncard_biUnion_le _ _
    _ ≤ ∑ _j ∈ Finset.Ico (-4 : Int) 4, max (blocks text).length (blocks text').length :=
        Finset.sum_le_sum fun j _ => (hfew j).2
    _ = 8 * max (blocks text).length (blocks text').length := by
        rw [Finset.sum_const, Int.card_Ico]
        rfl

theorem forgeries_one :
    {key : Nat | key < p ∧ ∃ nonce, f key nonce [1] = f 5 7 [1] ∧ f key nonce [2] = f 5 7 [2]}.ncard ≤ 8 := by
  have h := @forgeries [1] [2] (by decide) (f 5 7 [1]) (f 5 7 [2])
  have hone : ∀ b : UInt8, (blocks [b]).length = 1 := by
    intro b
    rw [blocks_of_ne (List.cons_ne_nil _ _), List.length_cons]
    exact congrArg (List.length · + 1) blocks_nil
  rwa [hone, hone] at h

end BubbleStorm.Util.Crypto.Poly1305ML
