/-
  BubbleStorm.Topology.RoundHash — the size of a node's fish
  (`src/bubblestorm/topology/state/round-hash.sml`, `hash` of
  `src/system/udp/ipv4.sml`, `src/util/hash/hash.sml`).

  The hash takes 32-bit words, and mixes its state before every second one. `Hash.int` is
  one word or two, as the compiler's `int` has it; the round comes first, then the
  address's four bytes, then the port.

  Proved: in a round no two addresses have fish of one size (`fish_unique`). A port
  is less than what two mixed words differ by, and the two words that hash to 0 and to 1
  are too far apart for one round.
-/

import BubbleStorm.Topology.Gossip
import Mathlib.Data.Int.ModEq
import Mathlib.Tactic.Linarith
import Mathlib.Tactic.Ring
import Mathlib.Tactic.LinearCombination

namespace BubbleStorm.Topology.RoundHash

open BitVec (eq_of_toNat_eq mul_assoc mul_one toNat toNat_append toNat_mul toNat_setWidth toNat_shiftLeft toNat_xor)
open Gossip (Params Node Pull newRound)

/-- The first factor of `mix`. -/
def factor1 : BitVec 64 := 2454158371928412325

def factor2 : BitVec 64 := 7189172858971738597

/-- The two halves change places. -/
def swap (w : BitVec 64) : BitVec 64 := (w <<< 32) ||| (w >>> 32)

def mix (w : BitVec 64) : BitVec 64 := swap (w * factor1) * factor2

/-- `step0`, `step1` and `step2`: what is done with the next word. -/
inductive Next where
  | step0
  | step1
  | step2

/-- `Hash.S`. -/
structure State where
  w : BitVec 64
  next : Next

def start : State := ⟨0, .step1⟩

def big (a : BitVec 32) : BitVec 64 := a.setWidth 64

def step1 (w : BitVec 64) (a : BitVec 32) : State := ⟨w ^^^ big a, .step2⟩

def step2 (w : BitVec 64) (b : BitVec 32) : State := ⟨w ^^^ big b <<< 32, .step0⟩

/-- `Hash.word32`. -/
def word32 (a : BitVec 32) : State → State
  | ⟨w, .step0⟩ => step1 (mix w) a
  | ⟨w, .step1⟩ => step1 w a
  | ⟨w, .step2⟩ => step2 w a

/-- `Hash.word64`: the high word first. -/
def word64 (a : BitVec 64) (s : State) : State := word32 (a.setWidth 32) (word32 ((a >>> 32).setWidth 32) s)

/-- The sizes of `int`. -/
inductive Precision where
  | bits32
  | bits64

/-- `Hash.int` of a port. -/
def int (precision : Precision) (x : BitVec 16) (s : State) : State :=
  match precision with
  | .bits32 => word32 (x.setWidth 32) s
  | .bits64 => word64 (x.setWidth 64) s

/-- `Hash.word8vector`: words of four bytes, the least significant one first. -/
def word8vector : List (BitVec 8) → State → State
  | [], s => s
  | [a], s => word32 (a.setWidth 32) s
  | [a, b], s => word32 ((b ++ a).setWidth 32) s
  | [a, b, c], s => word32 ((c ++ b ++ a).setWidth 32) s
  | a :: b :: c :: d :: v, s => word8vector v (word32 (d ++ c ++ b ++ a) s)

structure Address where
  ip : BitVec 8 × BitVec 8 × BitVec 8 × BitVec 8
  port : BitVec 16

/-- `Address.hash`. -/
def Address.hash (precision : Precision) (addr : Address) (s : State) : State :=
  int precision addr.port (word8vector [addr.ip.1, addr.ip.2.1, addr.ip.2.2.1, addr.ip.2.2.2] s)

/-- What `newRound` hashes. -/
def hash (precision : Precision) (round : BitVec 32) (addr : Address) : BitVec 64 :=
  mix ((addr.hash precision (word32 round start)).w)

/-! ## Mixing -/

theorem swap_toNat (w : BitVec 64) : (swap w).toNat = w.toNat % 2 ^ 32 * 2 ^ 32 + w.toNat / 2 ^ 32 := by
  have hlt := w.isLt
  have hlow : w.toNat <<< 32 % 2 ^ 64 = (w.toNat % 2 ^ 32) <<< 32 := by
    simp only [Nat.shiftLeft_eq]
    omega
  have hhigh : w.toNat / 2 ^ 32 < 2 ^ 32 := by omega
  unfold swap
  rw [BitVec.toNat_or, toNat_shiftLeft, BitVec.toNat_ushiftRight, hlow, Nat.shiftRight_eq_div_pow,
    ← Nat.shiftLeft_add_eq_or_of_lt hhigh, Nat.shiftLeft_eq]

theorem swap_swap (w : BitVec 64) : swap (swap w) = w := by
  have hlt := w.isLt
  apply eq_of_toNat_eq
  rw [swap_toNat, swap_toNat]
  omega

/-- What undoes `mix`. -/
def unmix (w : BitVec 64) : BitVec 64 := swap (w * 13938157463007986669) * 4352727364662810413

theorem unmix_mix (w : BitVec 64) : unmix (mix w) = w := by
  have h2 : factor2 * 13938157463007986669 = 1#64 := by decide
  have h1 : factor1 * 4352727364662810413 = 1#64 := by decide
  unfold unmix mix
  rw [mul_assoc, h2, mul_one, swap_swap, mul_assoc, h1, mul_one]

theorem mix_injective {a b : BitVec 64} (h : mix a = mix b) : a = b := by
  rw [← unmix_mix a, h, unmix_mix]

/-! ## The state of two nodes -/

/-- The four bytes as a word. -/
def Address.word (addr : Address) : BitVec 32 := addr.ip.2.2.2 ++ addr.ip.2.2.1 ++ addr.ip.2.1 ++ addr.ip.1

/-- The state before the port. -/
def front (round : BitVec 32) (addr : Address) : BitVec 64 := big round ^^^ big addr.word <<< 32

/-- The last state. -/
def last (precision : Precision) (round : BitVec 32) (addr : Address) : BitVec 64 :=
  match precision with
  | .bits32 => mix (front round addr) ^^^ big (addr.port.setWidth 32)
  | .bits64 => mix (front round addr) ^^^ big (addr.port.setWidth 32) <<< 32

theorem hash_eq (precision : Precision) (round : BitVec 32) (addr : Address) :
    hash precision round addr = mix (last precision round addr) := by
  have hstart : (0 : BitVec 64) ^^^ big round = big round := BitVec.zero_xor
  cases precision with
  | bits32 =>
    show mix (mix (((0 : BitVec 64) ^^^ big round) ^^^ big addr.word <<< 32) ^^^ big (addr.port.setWidth 32)) = _
    rw [hstart]
    rfl
  | bits64 =>
    have hhigh : big (((addr.port.setWidth 64) >>> 32).setWidth 32) = 0#64 := by
      apply eq_of_toNat_eq
      have := addr.port.isLt
      simp [big, toNat_setWidth, Nat.shiftRight_eq_div_pow]
      omega
    have hlow : (addr.port.setWidth 64).setWidth 32 = addr.port.setWidth 32 := by
      apply eq_of_toNat_eq
      have := addr.port.isLt
      simp [toNat_setWidth]
    show mix ((mix (((0 : BitVec 64) ^^^ big round) ^^^ big addr.word <<< 32) ^^^
      big (((addr.port.setWidth 64) >>> 32).setWidth 32)) ^^^ big ((addr.port.setWidth 64).setWidth 32) <<< 32) = _
    rw [hstart, hhigh, hlow, BitVec.xor_zero]
    rfl

theorem front_toNat (round : BitVec 32) (addr : Address) :
    (front round addr).toNat = round.toNat + addr.word.toNat * 2 ^ 32 := by
  have happend : front round addr = addr.word ++ round := by
    apply BitVec.eq_of_getLsbD_eq
    intro k hk
    unfold front big
    rw [BitVec.getLsbD_xor, BitVec.getLsbD_shiftLeft, BitVec.getLsbD_setWidth, BitVec.getLsbD_setWidth, BitVec.getLsbD_append]
    by_cases hlow : k < 32
    · simp [hlow, hk]
    · have hround : round.getLsbD k = false := BitVec.getLsbD_of_ge _ _ (by omega)
      have hk' : k - 32 < 64 := by omega
      simp [hlow, hk, hk', hround]
  rw [happend, toNat_append, ← Nat.shiftLeft_add_eq_or_of_lt round.isLt, Nat.shiftLeft_eq]
  omega

/-- The upper half of the state after the first factor, which is the lower one of what the
    second is applied to: it is another one for each address word. -/
def half (round : BitVec 32) (addr : Address) : Nat :=
  (round.toNat * factor1.toNat / 2 ^ 32 + addr.word.toNat * factor1.toNat) % 2 ^ 32

theorem mix_front (round : BitVec 32) (addr : Address) : (mix (front round addr)).toNat =
    (half round addr + round.toNat * factor1.toNat % 2 ^ 32 * 2 ^ 32) * factor2.toNat % 2 ^ 64 := by
  unfold mix half
  rw [toNat_mul, swap_toNat, toNat_mul, front_toNat, Nat.add_mul round.toNat]
  have hmul : addr.word.toNat * 2 ^ 32 * factor1.toNat = addr.word.toNat * factor1.toNat * 2 ^ 32 := Nat.mul_right_comm _ _ _
  rw [hmul]
  generalize round.toNat * factor1.toNat = x
  generalize addr.word.toNat * factor1.toNat = y
  have hhigh : (x + y * 2 ^ 32) % 2 ^ 64 / 2 ^ 32 = (x / 2 ^ 32 + y) % 2 ^ 32 := by omega
  have hlow : (x + y * 2 ^ 32) % 2 ^ 64 % 2 ^ 32 = x % 2 ^ 32 := by omega
  rw [hhigh, hlow, Nat.add_comm (x % 2 ^ 32 * 2 ^ 32)]

theorem odd_cancel {n f c i j : Nat} (hf : Nat.Coprime n f) (hi : i < n) (hj : j < n) (h : (c + i * f) % n = (c + j * f) % n) : i = j := by
  have hadd : c + i * f ≡ c + j * f [MOD n] := h
  have hmul : i * f ≡ j * f [MOD n] := Nat.ModEq.add_left_cancel' c hadd
  have hij : i ≡ j [MOD n] := Nat.ModEq.cancel_right_of_coprime hf hmul
  exact Nat.ModEq.eq_of_lt_of_lt hij hi hj

theorem word_of_half (round : BitVec 32) {a b : Address} (h : half round a = half round b) : a.word = b.word := by
  have hcoprime : Nat.Coprime (2 ^ 32) factor1.toNat := Nat.Coprime.pow_left 32 (by rfl)
  unfold half at h
  generalize factor1.toNat = f at hcoprime h
  apply eq_of_toNat_eq
  exact odd_cancel hcoprime a.word.isLt b.word.isLt h

theorem half_lt (round : BitVec 32) (a : Address) : half round a < 2 ^ 32 := Nat.mod_lt _ (by decide)

theorem eq_zero_of_small {s t : Int} (h : s = 2 ^ 64 * t) (h0 : -2 ^ 64 < s) (h1 : s < 2 ^ 64) : t = 0 := by
  omega

/-- With 32-bit ports in the low half: a difference of two mixed words that fits the port
    is none. The two short vectors of the lattice of such differences are longer. -/
theorem factor2_small {d e k : Int} (hd : d * 7189172858971738597 = e + k * 2 ^ 64) (hd0 : -2 ^ 32 < d) (hd1 : d < 2 ^ 32)
    (he0 : -2 ^ 16 < e) (he1 : e < 2 ^ 16) : d = 0 := by
  have h1 : d * 8131554 - e * 631722217018 = 2 ^ 64 * (d * -246198472687 + k * 631722217018) := by
    linear_combination 631722217018 * hd
  have h2 : d * 14816569 - e * -1117472534331 = 2 ^ 64 * (d * 435507923911 + k * -1117472534331) := by
    linear_combination (-1117472534331) * hd
  have t1 : d * -246198472687 + k * 631722217018 = 0 := eq_zero_of_small h1 (by linarith) (by linarith)
  have t2 : d * 435507923911 + k * -1117472534331 = 0 := eq_zero_of_small h2 (by linarith) (by linarith)
  linear_combination 1117472534331 * t1 + 631722217018 * t2

/-- Nor is there one that is, but for the port, `unmix 1`. -/
theorem factor2_far {d e k : Int} (hd : d * 7189172858971738597 = 13501764749918928896 + e + k * 2 ^ 64) (hd0 : -2 ^ 32 < d)
    (hd1 : d < 2 ^ 32) (he0 : -2 ^ 17 < e) (he1 : e < 2 ^ 17) : False := by
  have h1 : d * 8131554 - (13501764749918928896 + e) * 631722217018 =
      2 ^ 64 * (d * -246198472687 + k * 631722217018) := by
    linear_combination 631722217018 * hd
  generalize d * -246198472687 + k * 631722217018 = t at h1
  have hlow : -462377790216 < t := by linarith
  have hhigh : t < -462377790215 := by linarith
  omega

/-! ## No two fish of one size -/

section Round

variable {precision : Precision} {round : BitVec 32} {a b : Address}

theorem emod_diff (i j l f n : Int) : ∃ k : Int, (i - j) * f = (i + l) * f % n - (j + l) * f % n + k * n := by
  refine ⟨(i + l) * f / n - (j + l) * f / n, ?_⟩
  rw [Int.emod_def, Int.emod_def]
  ring

/-- The mixed words of one round differ by a multiple of the second factor. -/
theorem mix_front_diff (round : BitVec 32) (a b : Address) : ∃ k : Int,
    ((half round a : Int) - half round b) * 7189172858971738597 =
      (mix (front round a)).toNat - (mix (front round b)).toNat + k * 2 ^ 64 := by
  rw [mix_front, mix_front]
  exact emod_diff _ _ ((round.toNat * factor1.toNat % 2 ^ 32 * 2 ^ 32 : Nat) : Int) 7189172858971738597 (2 ^ 64)

/-- A word of the port in the low half leaves the upper 48 bits. -/
theorem xor_low_div (x : BitVec 64) (port : BitVec 16) : (x ^^^ big (port.setWidth 32)).toNat / 2 ^ 16 = x.toNat / 2 ^ 16 := by
  have hlt := port.isLt
  have hport : (big (port.setWidth 32)).toNat = port.toNat := by
    simp only [big, toNat_setWidth]
    omega
  rw [toNat_xor, Nat.xor_div_two_pow, hport, Nat.div_eq_of_lt hlt, Nat.xor_zero]

theorem port_of_last (hword : a.word = b.word) (h : last precision round a = last precision round b) : a.port = b.port := by
  have hfront : front round a = front round b := by
    unfold front
    rw [hword]
  have hsame : big (a.port.setWidth 32) = big (b.port.setWidth 32) → a.port = b.port := by
    intro hbig
    have ha := a.port.isLt
    have hb := b.port.isLt
    apply eq_of_toNat_eq
    have := congrArg toNat hbig
    simp only [big, toNat_setWidth] at this
    omega
  cases precision with
  | bits32 =>
    unfold last at h
    dsimp only at h
    rw [hfront, BitVec.xor_right_inj] at h
    exact hsame h
  | bits64 =>
    unfold last at h
    dsimp only at h
    rw [hfront, BitVec.xor_right_inj] at h
    apply hsame
    apply eq_of_toNat_eq
    have := congrArg toNat h
    have ha := a.port.isLt
    have hb := b.port.isLt
    simp only [big, toNat_shiftLeft, toNat_setWidth, Nat.shiftLeft_eq] at this ⊢
    omega

/-- A word of the port in the high half leaves the upper 16 bits and the lower 32. -/
theorem xor_high (x : BitVec 64) (port : BitVec 16) :
    (x ^^^ big (port.setWidth 32) <<< 32).toNat / 2 ^ 48 = x.toNat / 2 ^ 48 ∧
      (x ^^^ big (port.setWidth 32) <<< 32).toNat % 2 ^ 32 = x.toNat % 2 ^ 32 := by
  have hlt := port.isLt
  have hport : (big (port.setWidth 32) <<< 32).toNat = port.toNat * 2 ^ 32 := by
    simp only [big, toNat_shiftLeft, toNat_setWidth, Nat.shiftLeft_eq]
    omega
  have hdiv : port.toNat * 2 ^ 32 / 2 ^ 48 = 0 := by omega
  have hmod : port.toNat * 2 ^ 32 % 2 ^ 32 = 0 := by omega
  constructor
  · rw [toNat_xor, Nat.xor_div_two_pow, hport, hdiv, Nat.xor_zero]
  · rw [toNat_xor, Nat.xor_mod_two_pow, hport, hmod, Nat.xor_zero]

/-- The second factor is odd. -/
theorem factor2_odd {d c m : Int} (h : d * 7189172858971738597 = c + 2 ^ 32 * m) :
    ∃ t : Int, d = c * 1980564461 + 2 ^ 32 * t :=
  ⟨m * 1980564461 - 3315187121849784271 * d, by linear_combination 1980564461 * h⟩

theorem sub_of_mod {x y c : Int} (h : x % 4294967296 = (y + c) % 4294967296) : ∃ m : Int, x - y = c + 4294967296 * m :=
  ⟨x / 4294967296 - (y + c) / 4294967296, by omega⟩

/-- The difference of two halves is known from the lower half of the difference of the mixed words. -/
theorem half_diff {i j x y c k : Int} (hk : (i - j) * 7189172858971738597 = x - y + k * 2 ^ 64)
    (h : x % 4294967296 = (y + c) % 4294967296) : ∃ t : Int, i - j = c * 1980564461 + 4294967296 * t := by
  obtain ⟨m, hm⟩ := sub_of_mod h
  obtain ⟨t, ht⟩ := factor2_odd (d := i - j) (c := c) (m := m + k * 2 ^ 32) (by linear_combination hk + hm)
  exact ⟨t, by linear_combination ht⟩

theorem half_eq {i j x y k : Int} (hk : (i - j) * 7189172858971738597 = x - y + k * 2 ^ 64)
    (h : x % 4294967296 = y % 4294967296) (hlow : -4294967296 < i - j) (hhigh : i - j < 4294967296) : i = j := by
  obtain ⟨t, ht⟩ := half_diff (c := 0) hk (by rw [add_zero, h])
  clear hk h
  omega

theorem word_of_last (h : last precision round a = last precision round b) : a.word = b.word := by
  obtain ⟨k, hk⟩ := mix_front_diff round a b
  have ha := half_lt round a
  have hb := half_lt round b
  apply word_of_half round
  cases precision with
  | bits32 =>
    have hdiv := congrArg (fun w => w.toNat / 2 ^ 16) h
    simp only [last, xor_low_div] at hdiv
    generalize half round a = i at *
    generalize half round b = j at *
    generalize (mix (front round a)).toNat = x at hk hdiv
    generalize (mix (front round b)).toNat = y at hk hdiv
    have hd := factor2_small hk (by omega) (by omega) (by omega) (by omega)
    omega
  | bits64 =>
    have hmod := congrArg (fun w => w.toNat % 2 ^ 32) h
    simp only [last, xor_high] at hmod
    generalize half round a = i at *
    generalize half round b = j at *
    generalize (mix (front round a)).toNat = x at hk hmod
    generalize (mix (front round b)).toNat = y at hk hmod
    have hmod : (x : Int) % 4294967296 = y % 4294967296 := by
      clear hk
      omega
    have hd := half_eq hk hmod (by clear hk; omega) (by clear hk; omega)
    clear hk
    omega

theorem word_toNat (a : Address) : a.word.toNat =
    a.ip.1.toNat + a.ip.2.1.toNat * 2 ^ 8 + a.ip.2.2.1.toNat * 2 ^ 16 + a.ip.2.2.2.toNat * 2 ^ 24 := by
  unfold Address.word
  rw [toNat_append, ← Nat.shiftLeft_add_eq_or_of_lt a.ip.1.isLt, toNat_append,
    ← Nat.shiftLeft_add_eq_or_of_lt a.ip.2.1.isLt, toNat_append, ← Nat.shiftLeft_add_eq_or_of_lt a.ip.2.2.1.isLt]
  simp only [Nat.shiftLeft_eq]
  omega

theorem last_injective (h : last precision round a = last precision round b) : a = b := by
  have hword := word_of_last h
  have hport := port_of_last hword h
  have hnat := congrArg toNat hword
  rw [word_toNat, word_toNat] at hnat
  obtain ⟨⟨a1, a2, a3, a4⟩, aport⟩ := a
  obtain ⟨⟨b1, b2, b3, b4⟩, bport⟩ := b
  simp only at hport hnat
  have h1 : a1 = b1 := eq_of_toNat_eq (by omega)
  have h2 : a2 = b2 := eq_of_toNat_eq (by omega)
  have h3 : a3 = b3 := eq_of_toNat_eq (by omega)
  have h4 : a4 = b4 := eq_of_toNat_eq (by omega)
  rw [hport, h1, h2, h3, h4]

theorem hash_injective (h : hash precision round a = hash precision round b) : a = b := by
  rw [hash_eq, hash_eq] at h
  exact last_injective (mix_injective h)

/-- The two words that hash to 0 and to 1 are not of one round. -/
theorem not_zero_and_one (h0 : hash precision round a = 0) (h1 : hash precision round b = 1) : False := by
  have hzero : last precision round a = 0 := mix_injective (by rw [← hash_eq, h0]; decide)
  have hone : last precision round b = 13501764749918950233 := mix_injective (by rw [← hash_eq, h1]; decide)
  obtain ⟨k, hk⟩ := mix_front_diff round b a
  have ha := half_lt round a
  have hb := half_lt round b
  cases precision with
  | bits32 =>
    change mix (front round a) ^^^ big (a.port.setWidth 32) = 0 at hzero
    change mix (front round b) ^^^ big (b.port.setWidth 32) = 13501764749918950233 at hone
    have hA := xor_low_div (mix (front round a)) a.port
    have hB := xor_low_div (mix (front round b)) b.port
    rw [hzero] at hA
    rw [hone] at hB
    generalize (mix (front round a)).toNat = x at hk hA
    generalize (mix (front round b)).toNat = y at hk hB
    have hA : x / 2 ^ 16 = 0 := hA.symm
    have hB : y / 2 ^ 16 = 206020580290511 := hB.symm
    refine factor2_far (d := (half round b : Int) - half round a) (e := (y : Int) - 13501764749918928896 - x) (k := k)
      ?_ (by omega) (by omega) (by omega) (by omega)
    linear_combination hk
  | bits64 =>
    change mix (front round a) ^^^ big (a.port.setWidth 32) <<< 32 = 0 at hzero
    change mix (front round b) ^^^ big (b.port.setWidth 32) <<< 32 = 13501764749918950233 at hone
    obtain ⟨hA, hA'⟩ := xor_high (mix (front round a)) a.port
    obtain ⟨hB, hB'⟩ := xor_high (mix (front round b)) b.port
    rw [hzero] at hA hA'
    rw [hone] at hB hB'
    generalize (mix (front round a)).toNat = x at hk hA hA'
    generalize (mix (front round b)).toNat = y at hk hB hB'
    have hA : x / 2 ^ 48 = 0 := hA.symm
    have hA' : x % 2 ^ 32 = 0 := hA'.symm
    have hB : y / 2 ^ 48 = 47967 := hB.symm
    have hB' : y % 2 ^ 32 = 802116441 := hB'.symm
    generalize half round a = i at hk ha
    generalize half round b = j at hk hb
    have hmod : (y : Int) % 4294967296 = (x + 802116441) % 4294967296 := by
      clear hk
      omega
    obtain ⟨t, ht⟩ := half_diff (c := 802116441) hk hmod
    -- the half of `b` less the one of `a` is one of two numbers
    obtain hd | hd : (j : Int) - i = 4067374181 ∨ (j : Int) - i = -227593115 := by
      clear hk hmod
      omega
    · rw [hd] at hk
      clear ht hmod
      omega
    · rw [hd] at hk
      clear ht hmod
      omega

end Round

/-- What a node with an address brings into a round. -/
def own (precision : Precision) (round : BitVec 32) (addr : Address) (values : Nat → ℚ) : Pull :=
  ⟨some (hash precision round addr).toNat, values⟩

/-- The fish of a node when a round starts. -/
def fishSize (precision : Precision) (P : Params) (round : BitVec 32) (node : Node) (addr : Address) (values : Nat → ℚ) : Nat :=
  (newRound P node (own precision round addr values) round).state.fishSize

theorem fishSize_eq (precision : Precision) (P : Params) (round : BitVec 32) (node : Node) (addr : Address) (values : Nat → ℚ) :
    fishSize precision P round node addr values =
      if (hash precision round addr).toNat = 0 then 1 else (hash precision round addr).toNat := rfl

theorem address_of_fishSize {precision : Precision} {P : Params} {round : BitVec 32} {node node' : Node} {a b : Address}
    {values values' : Nat → ℚ} (h : fishSize precision P round node a values = fishSize precision P round node' b values') : a = b := by
  have hzero : ∀ {c : Address}, (hash precision round c).toNat = 0 → hash precision round c = 0 := fun hc =>
    eq_of_toNat_eq hc
  have hone : ∀ {c : Address}, (hash precision round c).toNat = 1 → hash precision round c = 1 := fun hc =>
    eq_of_toNat_eq hc
  rw [fishSize_eq, fishSize_eq] at h
  split at h
  next ha =>
    split at h
    next hb => exact hash_injective ((hzero ha).trans (hzero hb).symm)
    next => exact (not_zero_and_one (hzero ha) (hone h.symm)).elim
  next =>
    split at h
    next hb => exact (not_zero_and_one (hzero hb) (hone h)).elim
    next => exact hash_injective (eq_of_toNat_eq h)

/-- Two addresses have two sizes of fish in every round, so one node keeps the largest. -/
theorem fish_unique (precision : Precision) (P : Params) (round : BitVec 32) :
    (∀ (node node' : Node) (values values' : Nat → ℚ) (a b : Address), a ≠ b →
      fishSize precision P round node a values ≠ fishSize precision P round node' b values') ∧
    ∀ (nodes : List (Node × Address × (Nat → ℚ))), ∀ x ∈ nodes, ∀ y ∈ nodes,
      (∀ z ∈ nodes, fishSize precision P round z.1 z.2.1 z.2.2 ≤ fishSize precision P round x.1 x.2.1 x.2.2) →
      (∀ z ∈ nodes, fishSize precision P round z.1 z.2.1 z.2.2 ≤ fishSize precision P round y.1 y.2.1 y.2.2) →
      x.2.1 = y.2.1 := by
  constructor
  · intro node node' values values' a b hne h
    exact hne (address_of_fishSize h)
  · intro nodes x hx y hy hmaxx hmaxy
    exact address_of_fishSize (Nat.le_antisymm (hmaxy x hx) (hmaxx y hy))

end BubbleStorm.Topology.RoundHash
