/-
  BubbleStorm.Util.Random.MersenneTwister — the random words
  (`src/util/random/mersenne-twister.sml`).

  The generator keeps 624 words of a sequence of words that starts from the seed and goes
  on by a recurrence over the last 624 (`word`). The next 624 are made in the array that
  holds the last ones, each over the word that is no longer needed. So the words that are
  drawn are the sequence from 624 on, tempered, in order (`rand_nth`).

  The calls are counted in an `int`, and the call that would make the count 2^31 raises
  `Overflow`, as every later one does.

  An index is in the array wherever it is used, so `Subscript` is not raised.
-/

import Mathlib.Algebra.Order.Ring.Int
import Mathlib.Logic.Function.Iterate
import Mathlib.Data.Nat.Init

namespace BubbleStorm.Util.Random

namespace MersenneTwister

/-! ## The generator -/

def n : Nat := 624
def m : Nat := 397

structure T where
  mt : Array (BitVec 32)
  i : Nat
  count : Int

def sub (mt : Array (BitVec 32)) (i : Nat) : BitVec 32 := mt.getD i 0

def seeded (prev : BitVec 32) (i : Nat) : BitVec 32 := 1812433253 * (prev ^^^ prev >>> 30) + BitVec.ofNat 32 i

/-- The `loop` of `new` from `i` on, where `left` is `n - i`. -/
def newLoop : Nat → Array (BitVec 32) → BitVec 32 → Nat → Array (BitVec 32)
  | 0, mt, _, _ => mt
  | left + 1, mt, prev, i =>
    let v := seeded prev i
    newLoop left (mt.setIfInBounds i v) v (i + 1)

def new (seed : BitVec 32) : T := ⟨newLoop (n - 1) ((Array.replicate n 0).setIfInBounds 0 seed) seed 1, n, 0⟩

/-- What `twist` makes of the first bit of one word and the others of the next. -/
def mixed (a b : BitVec 32) : BitVec 32 :=
  let y1 := a &&& 0x80000000
  let y2 := b &&& 0x7fffffff
  let y := y1 ||| y2
  (y >>> 1) ^^^ (if y &&& 1 = 0 then 0 else 0x9908b0df)

def twist (mt : Array (BitVec 32)) (i a b : Nat) : Array (BitVec 32) :=
  mt.setIfInBounds a (sub mt i ^^^ mixed (sub mt a) (sub mt b))

/-- The `loop` of `generate` from `k` on, where `left` is `max - k`; `add` is a word, so it
    wraps. -/
def genLoop (add : BitVec 32) : Nat → Array (BitVec 32) → Nat → Array (BitVec 32)
  | 0, mt, _ => mt
  | left + 1, mt, k => genLoop add left (twist mt (BitVec.ofNat 32 k + add).toNat k (k + 1)) (k + 1)

def generate (mt : Array (BitVec 32)) : Array (BitVec 32) :=
  let mt := genLoop (BitVec.ofNat 32 m) (n - m) mt 0
  let mt := genLoop (BitVec.ofNat 32 m - BitVec.ofNat 32 n) (m - 1) mt (n - m)
  twist mt (m - 1) (n - 1) 0

def temper (y : BitVec 32) : BitVec 32 :=
  let y := y ^^^ y >>> 11
  let y := y ^^^ (y <<< 7 &&& 0x9d2c5680)
  let y := y ^^^ (y <<< 15 &&& 0xefc60000)
  y ^^^ y >>> 18

/-- The word and the state after the call; there is no word where `Int.+` raises `Overflow`. -/
def rand (this : T) : Option (BitVec 32) × T :=
  let (i, mt) := if n ≤ this.i then (0, generate this.mt) else (this.i, this.mt)
  let y := temper (sub mt i)
  -- the array is made anew before the count, and `i` is stored behind it
  if this.count + 1 < 2 ^ 31 then (some y, ⟨mt, i + 1, this.count + 1⟩) else (none, ⟨mt, this.i, this.count⟩)

def callCount (this : T) : Int := this.count

/-! ## The sequence -/

/-- The words of a seed, without end. -/
def word (seed : BitVec 32) : Nat → BitVec 32
  | 0 => seed
  | k + 1 =>
    if k + 1 < n then seeded (word seed k) (k + 1)
    else word seed (k + 1 - n + m) ^^^ mixed (word seed (k + 1 - n)) (word seed (k + 1 - n + 1))
termination_by k => k
decreasing_by all_goals simp only [n, m] at *; omega

theorem word_seeded (seed : BitVec 32) {k : Nat} (h : k + 1 < n) : word seed (k + 1) = seeded (word seed k) (k + 1) := by
  rw [word, if_pos h]

theorem word_mixed (seed : BitVec 32) (k : Nat) :
    word seed (k + n) = word seed (k + m) ^^^ mixed (word seed k) (word seed (k + 1)) := by
  have hsucc : k + n = (k + n - 1) + 1 := by simp only [n]; omega
  have hback : k + n - 1 + 1 - n = k := by simp only [n]; omega
  rw [hsucc, word, if_neg (by omega), hback]

/-! ## The array -/

theorem sub_set {mt : Array (BitVec 32)} (hsize : mt.size = n) {i : Nat} (hi : i < n) (v : BitVec 32) (j : Nat) :
    sub (mt.setIfInBounds i v) j = if j = i then v else sub mt j := by
  unfold sub
  by_cases h : j = i
  · subst h
    simp [Array.getD_eq_getD_getElem?, hsize, hi]
  · rw [if_neg h]
    simp [Array.getD_eq_getD_getElem?, Ne.symm h]

/-- The words of the array, `k` of them already those of the next 624. -/
structure Half (seed : BitVec 32) (base k : Nat) (mt : Array (BitVec 32)) : Prop where
  size : mt.size = n
  next : ∀ j, j < k → sub mt j = word seed (base + n + j)
  rest : ∀ j, k ≤ j → j < n → sub mt j = word seed (base + j)

theorem half_twist {seed : BitVec 32} {base k : Nat} {mt : Array (BitVec 32)} (h : Half seed base k mt) (hk : k < n) {i b : Nat}
    (hi : sub mt i = word seed (base + k + m)) (hb : sub mt b = word seed (base + k + 1)) :
    Half seed base (k + 1) (twist mt i k b) := by
  have hnext : sub mt i ^^^ mixed (sub mt k) (sub mt b) = word seed (base + k + n) := by
    rw [hi, hb, h.rest k (Nat.le_refl k) hk, word_mixed]
  unfold twist
  refine ⟨by rw [Array.size_setIfInBounds, h.size], fun j hj => ?_, fun j hj hn => ?_⟩
  · rw [sub_set h.size hk, hnext]
    split
    next heq =>
      subst heq
      rw [Nat.add_right_comm]
    next hne => exact h.next j (by omega)
  · rw [sub_set h.size hk, if_neg (by omega)]
    exact h.rest j (by omega) hn

theorem half_loop {seed : BitVec 32} {base : Nat} {add : BitVec 32} (left : Nat) :
    ∀ (k : Nat) (mt : Array (BitVec 32)), Half seed base k mt → k + left < n →
      (∀ k' mt', k ≤ k' → k' < k + left → Half seed base k' mt' → sub mt' (BitVec.ofNat 32 k' + add).toNat = word seed (base + k' + m)) →
      Half seed base (k + left) (genLoop add left mt k) := by
  induction left with
  | zero => exact fun k mt h _ _ => h
  | succ left ih =>
    intro k mt h hlt hadd
    have hstep : Half seed base (k + 1) (twist mt (BitVec.ofNat 32 k + add).toNat k (k + 1)) :=
      half_twist h (by omega) (hadd k mt (Nat.le_refl k) (by omega) h) (h.rest (k + 1) (by omega) (by omega))
    have hrest := ih (k + 1) _ hstep (by omega) fun k' mt' hle hlt' => hadd k' mt' (by omega) (by omega)
    rwa [Nat.add_right_comm, Nat.add_assoc] at hrest

theorem index_ahead {k : Nat} (h : k < n - m) : (BitVec.ofNat 32 k + BitVec.ofNat 32 m).toNat = k + m := by
  simp only [n, m] at *
  rw [BitVec.toNat_add, BitVec.toNat_ofNat, BitVec.toNat_ofNat]
  omega

/-- The sum wraps. -/
theorem index_behind {k : Nat} (hle : n - m ≤ k) (h : k < n) :
    (BitVec.ofNat 32 k + (BitVec.ofNat 32 m - BitVec.ofNat 32 n)).toNat = k - (n - m) := by
  simp only [n, m] at *
  rw [BitVec.toNat_add, BitVec.toNat_sub, BitVec.toNat_ofNat, BitVec.toNat_ofNat, BitVec.toNat_ofNat]
  omega

/-- The whole array is moved on by 624. -/
theorem half_generate {seed : BitVec 32} {base : Nat} {mt : Array (BitVec 32)} (h : Half seed base 0 mt) :
    Half seed (base + n) 0 (generate mt) := by
  unfold generate
  dsimp only
  generalize hfirst : genLoop (BitVec.ofNat 32 m) (n - m) mt 0 = first
  generalize hsecond : genLoop (BitVec.ofNat 32 m - BitVec.ofNat 32 n) (m - 1) first (n - m) = second
  -- what is 397 ahead is still the old word, as far as there is one
  have h1 : Half seed base (0 + (n - m)) first := by
    refine hfirst ▸ half_loop (n - m) 0 mt h (by decide) fun k mt' _ hk hhalf => ?_
    rw [Nat.zero_add] at hk
    rw [index_ahead hk, hhalf.rest (k + m) (Nat.le_add_right ..) (by simp only [n, m] at *; omega), Nat.add_assoc]
  rw [Nat.zero_add] at h1
  -- then it is a new one, at the front of the array
  have h2 : Half seed base (n - m + (m - 1)) second := by
    refine hsecond ▸ half_loop (m - 1) (n - m) first h1 (by decide) fun k mt' hle hk hhalf => ?_
    have hlt : k < n := by simp only [n, m] at *; omega
    have hbehind : base + n + (k - (n - m)) = base + k + m := by simp only [n, m] at *; omega
    rw [index_behind hle hlt, hhalf.next _ (by simp only [n, m] at *; omega), hbehind]
  have hlast : n - m + (m - 1) = n - 1 := by decide
  rw [hlast] at h2
  have hall : n - 1 + 1 = n := by decide
  have h3 : Half seed base (n - 1 + 1) (twist second (m - 1) (n - 1) 0) := by
    have hahead : base + n + (m - 1) = base + (n - 1) + m := by simp only [n, m]
    have hnext : base + n + 0 = base + (n - 1) + 1 := by simp only [n]
    refine half_twist h2 (by decide) ?_ ?_
    · rw [h2.next _ (by decide), hahead]
    · rw [h2.next _ (by decide), hnext]
  rw [hall] at h3
  exact ⟨h3.size, fun j hj => absurd hj (Nat.not_lt_zero j), fun j _ hj => h3.next j hj⟩

theorem newLoop_seeded {seed : BitVec 32} (left : Nat) :
    ∀ (mt : Array (BitVec 32)) (i : Nat), mt.size = n → i + 1 + left = n → (∀ j, j ≤ i → sub mt j = word seed j) →
      (newLoop left mt (word seed i) (i + 1)).size = n ∧
        ∀ j, j < n → sub (newLoop left mt (word seed i) (i + 1)) j = word seed j := by
  induction left with
  | zero => exact fun mt i hsize hn h => ⟨hsize, fun j hj => h j (by omega)⟩
  | succ left ih =>
    intro mt i hsize hn h
    have hword : seeded (word seed i) (i + 1) = word seed (i + 1) := (word_seeded seed (by omega)).symm
    rw [newLoop, hword]
    refine ih _ (i + 1) (by rw [Array.size_setIfInBounds, hsize]) (by omega) fun j hj => ?_
    rw [sub_set hsize (by omega)]
    split
    next heq => rw [heq]
    next hne => exact h j (by omega)

/-! ## Runs -/

/-- The next word to be drawn is the one at `i`, or the first of the next 624. -/
structure At (seed : BitVec 32) (drawn : Nat) (this : T) : Prop where
  index : this.i ≤ n
  count : this.count = drawn
  words : ∃ base, base + this.i = n + drawn ∧ Half seed base 0 this.mt

theorem at_of {seed : BitVec 32} {drawn i base : Nat} {count : Int} {mt : Array (BitVec 32)} (hi : i ≤ n) (hcount : count = drawn)
    (hbase : base + i = n + drawn) (h : Half seed base 0 mt) : At seed drawn ⟨mt, i, count⟩ := ⟨hi, hcount, base, hbase, h⟩

theorem at_new (seed : BitVec 32) : At seed 0 (new seed) := by
  have hsize : ((Array.replicate n (0 : BitVec 32)).setIfInBounds 0 seed).size = n := by simp
  have hfirst : ∀ j, j ≤ 0 → sub ((Array.replicate n (0 : BitVec 32)).setIfInBounds 0 seed) j = word seed j := by
    intro j hj
    have hzero : j = 0 := by omega
    rw [hzero, sub_set (by simp) (by decide), if_pos rfl, word]
  have hword : word seed 0 = seed := by rw [word]
  have h := @newLoop_seeded seed (n - 1) _ 0 hsize (by decide) hfirst
  rw [hword, Nat.zero_add] at h
  have hhalf : Half seed 0 0 (newLoop (n - 1) ((Array.replicate n 0).setIfInBounds 0 seed) seed 1) :=
    ⟨h.1, fun j hj => absurd hj (Nat.not_lt_zero j), fun j _ hj => by rw [Nat.zero_add]; exact h.2 j hj⟩
  exact at_of (Nat.le_refl n) rfl (Nat.add_comm 0 n) hhalf

theorem at_rand {seed : BitVec 32} {drawn : Nat} {this : T} (h : At seed drawn this) (hroom : drawn + 1 < 2 ^ 31) :
    (rand this).1 = some (temper (word seed (n + drawn))) ∧ At seed (drawn + 1) (rand this).2 := by
  obtain ⟨hindex, hcount, base, hbase, hhalf⟩ := h
  have hcount' : this.count + 1 = ((drawn + 1 : Nat) : Int) := by rw [hcount]; rfl
  have hfits : this.count + 1 < 2 ^ 31 := by omega
  by_cases hi : n ≤ this.i
  · have hrand : rand this = (some (temper (sub (generate this.mt) 0)), ⟨generate this.mt, 1, this.count + 1⟩) := by
      unfold rand
      rw [if_pos hi]
      exact if_pos hfits
    have hgen := half_generate hhalf
    have hat : base + n = n + drawn := by omega
    rw [hrand]
    refine ⟨?_, at_of (by decide) hcount' (by omega) hgen⟩
    rw [hgen.rest 0 (Nat.le_refl 0) (by decide), Nat.add_zero, hat]
  · have hrand : rand this = (some (temper (sub this.mt this.i)), ⟨this.mt, this.i + 1, this.count + 1⟩) := by
      unfold rand
      rw [if_neg hi]
      exact if_pos hfits
    have hlt : this.i < n := Nat.lt_of_not_le hi
    rw [hrand]
    refine ⟨?_, at_of hlt hcount' (by omega) hhalf⟩
    rw [hhalf.rest this.i (Nat.zero_le _) hlt, hbase]

theorem rand_spent {this : T} (h : this.count = 2 ^ 31 - 1) : (rand this).1 = none ∧ (rand this).2.count = 2 ^ 31 - 1 := by
  have hover : ¬ this.count + 1 < 2 ^ 31 := by omega
  unfold rand
  dsimp only
  rw [if_neg hover]
  exact ⟨rfl, h⟩

/-- The state after so many calls. -/
def drawn (seed : BitVec 32) (k : Nat) : T := (fun this => (rand this).2)^[k] (new seed)

theorem drawn_succ (seed : BitVec 32) (k : Nat) : drawn seed (k + 1) = (rand (drawn seed k)).2 :=
  Function.iterate_succ_apply' ..

theorem at_drawn (seed : BitVec 32) {k : Nat} (h : k < 2 ^ 31) : At seed k (drawn seed k) := by
  induction k with
  | zero => exact at_new seed
  | succ k ih =>
    rw [drawn_succ]
    exact (at_rand (ih (by omega)) h).2

theorem drawn_spent (seed : BitVec 32) (extra : Nat) : (drawn seed (2 ^ 31 - 1 + extra)).count = 2 ^ 31 - 1 := by
  induction extra with
  | zero =>
    have hcount := (at_drawn seed (k := 2 ^ 31 - 1) (by omega)).count
    rw [Nat.add_zero, hcount]
    omega
  | succ extra ih =>
    rw [← Nat.add_assoc, drawn_succ]
    exact (rand_spent ih).2

/-- The words that are drawn are those of the sequence from 624 on, and they are counted,
    until the count is the last `int` there is: from then on every call raises. -/
theorem rand_nth (seed : BitVec 32) (k : Nat) :
    (rand (drawn seed k)).1 = (if k + 1 < 2 ^ 31 then some (temper (word seed (n + k))) else none) ∧
      callCount (drawn seed k) = min (k : Int) (2 ^ 31 - 1) := by
  by_cases hk : k + 1 < 2 ^ 31
  · have hat := at_drawn seed (k := k) (by omega)
    have hmin : min (k : Int) (2 ^ 31 - 1) = k := by omega
    rw [if_pos hk, hmin]
    exact ⟨(at_rand hat hk).1, hat.count⟩
  · obtain ⟨extra, rfl⟩ : ∃ extra, k = 2 ^ 31 - 1 + extra := ⟨k - (2 ^ 31 - 1), by omega⟩
    have hspent := drawn_spent seed extra
    have hmin : min ((2 ^ 31 - 1 + extra : Nat) : Int) (2 ^ 31 - 1) = 2 ^ 31 - 1 := by omega
    rw [if_neg hk, hmin]
    exact ⟨(rand_spent hspent).1, hspent⟩

end MersenneTwister

end BubbleStorm.Util.Random
