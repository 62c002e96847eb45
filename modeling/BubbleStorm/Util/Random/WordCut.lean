/-
  BubbleStorm.Util.Random.WordCut — random words below a bound (`WordCut` of
  `src/util/random/random.fun`).

  Words are drawn until one, cut to the bits of the bound, is below it. Every word below
  the bound is hit by as many runs of the generator as any other, and at least every
  second word ends the loop (`pick_uniform`).

  For the bound zero nothing is below it, and the loop never ends, where the signature
  says that an exception is raised. So `loop` takes the number of words that it may draw.
-/

import Mathlib.Data.Set.Card
import BubbleStorm.Lib.TopBit

namespace BubbleStorm.Util.Random

open Lib (IsTop Under)

variable {w : Nat}

/-! ## The cut -/

/-- One line of `mask`. -/
def smear (x : BitVec w) (s : Nat) : BitVec w := if s < w then x ||| x >>> s else x

def mask (x : BitVec w) : BitVec w :=
  let x := smear x 1
  let x := smear x 2
  let x := smear x 4
  let x := smear x 8
  let x := smear x 16
  let x := smear x 32
  let x := smear x 64
  x

/-- `loop ()`, for at most `fuel` words of the generator. -/
def loop {T : Type} (f : T → BitVec w × T) (x : BitVec w) : Nat → T → Option (BitVec w × T)
  | 0, _ => none
  | fuel + 1, t =>
    let (v, t) := f t
    let r := v &&& mask x
    if r.ult x then some (r, t) else loop f x fuel t

def pick {T : Type} (f : T → BitVec w × T) (fuel : Nat) (t : T) : Option (BitVec w) → Option (BitVec w × T)
  | none => some (f t)
  | some x => loop f x fuel t

/-! ## The mask -/

/-- A bit of `y` is set if one of the `s` bits of `x` from there on is. -/
def Smeared (x y : BitVec w) (s : Nat) : Prop := ∀ j, y.getLsbD j = true ↔ ∃ i, j ≤ i ∧ i < j + s ∧ x.getLsbD i = true

theorem smeared_one (x : BitVec w) : Smeared x x 1 := by
  intro j
  constructor
  · intro h
    exact ⟨j, Nat.le_refl j, Nat.lt_succ_self j, h⟩
  · rintro ⟨i, hle, hlt, h⟩
    have heq : i = j := by omega
    exact heq ▸ h

theorem Smeared.double {x y : BitVec w} {s : Nat} (h : Smeared x y s) : Smeared x (smear y s) (s + s) := by
  intro j
  unfold smear
  split
  · rw [BitVec.getLsbD_or, BitVec.getLsbD_ushiftRight, Bool.or_eq_true, h, h]
    constructor
    · rintro (⟨i, hle, hlt, hi⟩ | ⟨i, hle, hlt, hi⟩)
      · exact ⟨i, hle, by omega, hi⟩
      · exact ⟨i, by omega, by omega, hi⟩
    · rintro ⟨i, hle, hlt, hi⟩
      by_cases hnear : i < j + s
      · exact .inl ⟨i, hle, hnear, hi⟩
      · exact .inr ⟨i, by omega, by omega, hi⟩
  · rw [h]
    constructor
    · rintro ⟨i, hle, hlt, hi⟩
      exact ⟨i, hle, by omega, hi⟩
    · rintro ⟨i, hle, hlt, hi⟩
      have hw := BitVec.lt_of_getLsbD hi
      exact ⟨i, hle, by omega, hi⟩

/-- The mask is the bits up to the highest of the bound. -/
theorem mask_top {x : BitVec w} {b : Nat} (hw : w ≤ 128) (h : IsTop x b) (j : Nat) : (mask x).getLsbD j = decide (j ≤ b) := by
  have hsmeared : Smeared x (mask x) 128 := (smeared_one x).double.double.double.double.double.double.double
  rw [Bool.eq_iff_iff, hsmeared, decide_eq_true_iff]
  constructor
  · rintro ⟨i, hle, -, hi⟩
    by_contra hj
    have := h.above i (by omega)
    rw [this] at hi
    cases hi
  · intro hj
    have hb := BitVec.lt_of_getLsbD h.one
    exact ⟨b, hj, by omega, h.one⟩

theorem isTop_of_ne {x : BitVec w} (hx : x ≠ 0) : IsTop x (Nat.log2 x.toNat) := by
  have hne : x.toNat ≠ 0 := fun h => hx (BitVec.eq_of_toNat_eq h)
  refine ⟨?_, fun j hj => ?_⟩
  · rw [BitVec.getLsbD]
    exact Nat.testBit_log2 hne
  · rw [BitVec.getLsbD]
    exact Nat.testBit_lt_two_pow ((Nat.log2_lt hne).mp hj)

/-- The mask leaves what is below the bound as it is. -/
theorem and_mask {x r : BitVec w} (hw : w ≤ 128) (hr : r.ult x = true) : r &&& mask x = r := by
  have hlt : r.toNat < x.toNat := by simpa [BitVec.ult] using hr
  have hne : x ≠ 0 := by
    rintro rfl
    simp at hlt
  have htop := isTop_of_ne hne
  apply BitVec.eq_of_getLsbD_eq
  intro j _
  rw [BitVec.getLsbD_and, mask_top hw htop]
  by_cases hj : j ≤ Nat.log2 x.toNat
  · simp [hj]
  · have hbig : x.toNat < 2 ^ j := (Nat.log2_lt (by omega)).mp (by omega)
    have hbit : r.getLsbD j = false := by
      rw [BitVec.getLsbD]
      exact Nat.testBit_lt_two_pow (by omega)
    simp [hbit]

/-! ## Which word is picked -/

/-- The first words of a generator. -/
def words {T : Type} (f : T → BitVec w × T) : Nat → T → List (BitVec w)
  | 0, _ => []
  | fuel + 1, t => (f t).1 :: words f fuel (f t).2

/-- The first word that is below the bound when it is cut. -/
def firstBelow (x : BitVec w) (l : List (BitVec w)) : Option (BitVec w) := (l.map (· &&& mask x)).find? fun r => r.ult x

theorem firstBelow_ult {x r : BitVec w} {l : List (BitVec w)} (h : firstBelow x l = some r) : r.ult x = true := by
  have hsome := List.find?_eq_some_iff_append.mp h
  exact hsome.1

theorem loop_words {T : Type} (f : T → BitVec w × T) (x : BitVec w) (fuel : Nat) (t : T) :
    (loop f x fuel t).map (·.1) = firstBelow x (words f fuel t) := by
  induction fuel generalizing t with
  | zero => rfl
  | succ fuel ih =>
    unfold loop words firstBelow
    dsimp only
    rw [List.map_cons, List.find?_cons]
    by_cases h : ((f t).1 &&& mask x).ult x = true
    · rw [if_pos h, h]
      rfl
    · rw [if_neg h, ih, Bool.eq_false_iff.mpr h]
      rfl

section Uniform

variable {x : BitVec w}

theorem xor_and (a b c : BitVec w) : (a ^^^ b) &&& c = (a &&& c) ^^^ (b &&& c) := by
  apply BitVec.eq_of_getLsbD_eq
  intro i _
  simp only [BitVec.getLsbD_and, BitVec.getLsbD_xor]
  exact Bool.and_xor_distrib_right ..

/-- Words that are cut to `r` become words that are cut to `r'`, and back. -/
def exchange (x r r' v : BitVec w) : BitVec w := if v &&& mask x = r ∨ v &&& mask x = r' then v ^^^ (r ^^^ r') else v

theorem exchange_cut {r r' : BitVec w} (hr : r &&& mask x = r) (hr' : r' &&& mask x = r') (v : BitVec w) :
    exchange x r r' v &&& mask x = Equiv.swap r r' (v &&& mask x) := by
  have hcut : (v ^^^ (r ^^^ r')) &&& mask x = (v &&& mask x) ^^^ (r ^^^ r') := by
    rw [xor_and, xor_and, hr, hr']
  unfold exchange
  split
  next h =>
    rw [hcut]
    rcases h with h | h
    · rw [h, Equiv.swap_apply_left, ← BitVec.xor_assoc, BitVec.xor_self, BitVec.zero_xor]
    · rw [h, Equiv.swap_apply_right, BitVec.xor_comm r, ← BitVec.xor_assoc, BitVec.xor_self, BitVec.zero_xor]
  next h =>
    rw [not_or] at h
    exact (Equiv.swap_apply_of_ne_of_ne h.1 h.2).symm

theorem exchange_self {r r' : BitVec w} (hr : r &&& mask x = r) (hr' : r' &&& mask x = r') (v : BitVec w) :
    exchange x r r' (exchange x r r' v) = v := by
  have hcut := exchange_cut hr hr' v
  by_cases h : v &&& mask x = r ∨ v &&& mask x = r'
  · have hagain : exchange x r r' v &&& mask x = r ∨ exchange x r r' v &&& mask x = r' := by
      rw [hcut]
      rcases h with h | h
      · exact .inr (h ▸ Equiv.swap_apply_left ..)
      · exact .inl (h ▸ Equiv.swap_apply_right ..)
    rw [exchange, if_pos hagain, exchange, if_pos h, BitVec.xor_assoc, BitVec.xor_self, BitVec.xor_zero]
  · rw [exchange, exchange, if_neg h, if_neg h]

theorem firstBelow_exchange {r r' : BitVec w} (hw : w ≤ 128) (hr : r.ult x = true) (hr' : r'.ult x = true) (l : List (BitVec w)) :
    firstBelow x (l.map (exchange x r r')) = (firstBelow x l).map (Equiv.swap r r') := by
  have hbelow : ∀ v, (Equiv.swap r r' v).ult x = v.ult x := by
    intro v
    by_cases h : v = r
    · rw [h, Equiv.swap_apply_left, hr, hr']
    · by_cases h' : v = r'
      · rw [h', Equiv.swap_apply_right, hr, hr']
      · rw [Equiv.swap_apply_of_ne_of_ne h h']
  induction l with
  | nil => rfl
  | cons v l ih =>
    unfold firstBelow at ih ⊢
    rw [List.map_cons, List.map_cons, List.map_cons, List.find?_cons, List.find?_cons,
      exchange_cut (and_mask hw hr) (and_mask hw hr'), hbelow]
    cases (v &&& mask x).ult x with
    | true => rfl
    | false => exact ih

/-- The runs of `n` words that pick `r` are as many as those that pick `r'`. -/
theorem runs_equal (hw : w ≤ 128) (n : Nat) {r r' : BitVec w} (hr : r.ult x = true) (hr' : r'.ult x = true) :
    {ws : Fin n → BitVec w | firstBelow x (List.ofFn ws) = some r}.ncard =
      {ws : Fin n → BitVec w | firstBelow x (List.ofFn ws) = some r'}.ncard := by
  have hself := exchange_self (and_mask hw hr) (and_mask hw hr')
  have hinj : Function.Injective fun ws : Fin n → BitVec w => exchange x r r' ∘ ws := by
    intro ws ws' h
    funext i
    have := congrArg (exchange x r r') (congrFun h i)
    simpa only [Function.comp_apply, hself] using this
  have hmap : ∀ ws : Fin n → BitVec w,
      firstBelow x (List.ofFn (exchange x r r' ∘ ws)) = (firstBelow x (List.ofFn ws)).map (Equiv.swap r r') := by
    intro ws
    rw [← firstBelow_exchange hw hr hr', List.map_ofFn]
  rw [← Set.ncard_image_of_injective _ hinj]
  congr 1
  ext ws
  constructor
  · rintro ⟨ws', hws', rfl⟩
    show firstBelow x (List.ofFn (exchange x r r' ∘ ws')) = some r'
    rw [hmap, show firstBelow x (List.ofFn ws') = some r from hws', Option.map_some, Equiv.swap_apply_left]
  · intro hws
    refine ⟨exchange x r r' ∘ ws, ?_, ?_⟩
    · show firstBelow x (List.ofFn (exchange x r r' ∘ ws)) = some r
      rw [hmap, show firstBelow x (List.ofFn ws) = some r' from hws, Option.map_some, Equiv.swap_apply_right]
    · funext i
      exact hself (ws i)

/-- A word that is not taken would be with the highest bit of the bound turned over. -/
theorem half_taken (hw : w ≤ 128) (hx : x ≠ 0) :
    {v : BitVec w | ¬ (v &&& mask x).ult x = true}.ncard ≤ {v : BitVec w | (v &&& mask x).ult x = true}.ncard := by
  have htop := isTop_of_ne hx
  have hb := BitVec.lt_of_getLsbD htop.one
  have hfin : Finite (BitVec w) := Finite.of_injective BitVec.toFin fun a b h => by cases a; cases b; cases h; rfl
  have hlower : ∀ u : BitVec w, Under u (Nat.log2 x.toNat) → u.ult x = true := by
    intro u hu
    have hxor : IsTop (u ^^^ x) (Nat.log2 x.toNat) := BitVec.xor_comm x u ▸ htop.xor_of_under hu
    have := (hxor.lt_iff_of_top).mpr htop.one
    simpa [BitVec.ult, BitVec.lt_def] using this
  refine Set.ncard_le_ncard_of_injOn (· ^^^ BitVec.twoPow w (Nat.log2 x.toNat)) (fun v hv => ?_) (fun v _ v' _ h => ?_) (Set.toFinite _)
  · refine hlower _ fun j hj => ?_
    rw [BitVec.getLsbD_and, mask_top hw htop, BitVec.getLsbD_xor, BitVec.getLsbD_twoPow]
    by_cases heq : j = Nat.log2 x.toNat
    · subst heq
      have hone : v.getLsbD (Nat.log2 x.toNat) = true := by
        by_contra hzero
        refine hv (hlower _ fun j hj => ?_)
        rw [BitVec.getLsbD_and, mask_top hw htop]
        by_cases heq : j = Nat.log2 x.toNat
        · rw [heq, Bool.eq_false_iff.mpr hzero, Bool.false_and]
        · have habove : decide (j ≤ Nat.log2 x.toNat) = false := decide_eq_false (by omega)
          rw [habove, Bool.and_false]
      simp [hone, hb]
    · have habove : decide (j ≤ Nat.log2 x.toNat) = false := decide_eq_false (by omega)
      rw [habove, Bool.and_false]
  · have := congrArg (· ^^^ BitVec.twoPow w (Nat.log2 x.toNat)) h
    simpa only [BitVec.xor_assoc, BitVec.xor_self, BitVec.xor_zero] using this

end Uniform

/-- For a bound above zero: what is picked is the first of the words that is below the
    bound when it is cut; every word below the bound is picked by as many runs of the
    generator as any other; and at least every second word ends the loop. -/
theorem pick_uniform (hw : w ≤ 128) (x : BitVec w) (hx : x ≠ 0) :
    (∀ (T : Type) (f : T → BitVec w × T) (fuel : Nat) (t : T),
        (pick f fuel t (some x)).map (·.1) = firstBelow x (words f fuel t)) ∧
      (∀ l r, firstBelow x l = some r → r.ult x = true) ∧
      (∀ n r r', r.ult x = true → r'.ult x = true → {ws : Fin n → BitVec w | firstBelow x (List.ofFn ws) = some r}.ncard =
        {ws : Fin n → BitVec w | firstBelow x (List.ofFn ws) = some r'}.ncard) ∧
      {v : BitVec w | ¬ (v &&& mask x).ult x = true}.ncard ≤ {v : BitVec w | (v &&& mask x).ult x = true}.ncard :=
  ⟨fun _ f fuel t => loop_words f x fuel t, fun _ _ h => firstBelow_ult h, fun n _ _ hr hr' => runs_equal hw n hr hr',
    half_taken hw hx⟩

theorem pick_uniform_ten :
    {ws : Fin 3 → BitVec 32 | firstBelow 10 (List.ofFn ws) = some 0}.ncard =
      {ws : Fin 3 → BitVec 32 | firstBelow 10 (List.ofFn ws) = some 9}.ncard :=
  (pick_uniform (by decide) 10 (by decide)).2.2.1 3 0 9 (by decide) (by decide)

end BubbleStorm.Util.Random
