/-
  BubbleStorm.Lib.Lucas — large primes by Lucas's test.

  `lucas p a fs` evaluates the test of `p` with the witness `a`, where `fs` are the prime
  factors of `p - 1`; powers are squared and multiplied modulo `p`.
-/

import Mathlib.NumberTheory.LucasPrimality

namespace BubbleStorm.Lib

/-- `acc * a ^ n` modulo `m`, for an `n` of so many bits. -/
def powMod (m : ℕ) : ℕ → ℕ → ℕ → ℕ → ℕ
  | 0, acc, _, _ => acc % m
  | bits + 1, acc, a, n => powMod m bits (if n % 2 = 1 then acc * a % m else acc) (a * a % m) (n / 2)

theorem powMod_eq (m : ℕ) {bits acc a n : ℕ} (h : n < 2 ^ bits) : powMod m bits acc a n = acc * a ^ n % m := by
  induction bits generalizing acc a n with
  | zero =>
    have hn : n = 0 := Nat.lt_one_iff.mp h
    rw [hn, pow_zero, mul_one]
    rfl
  | succ bits ih =>
    have hhalf : n / 2 < 2 ^ bits := by
      rw [pow_succ] at h
      omega
    have hsquare : (a * a % m) ^ (n / 2) ≡ a ^ (2 * (n / 2)) [MOD m] := by
      rw [pow_mul, sq]
      exact (Nat.mod_modEq _ _).pow _
    unfold powMod
    rw [ih hhalf]
    by_cases hodd : n % 2 = 1
    · rw [if_pos hodd]
      have hn : a ^ n = a * a ^ (2 * (n / 2)) := by
        rw [← pow_succ']
        congr 1
        omega
      rw [hn, ← mul_assoc]
      exact (Nat.mod_modEq _ _).mul hsquare
    · rw [if_neg hodd]
      have hn : n = 2 * (n / 2) := by omega
      conv_rhs => rw [hn]
      exact Nat.ModEq.rfl.mul hsquare

/-- Lucas's test for numbers of up to 256 bits. -/
def lucas (p a : ℕ) (fs : List ℕ) : Bool :=
  1 < p && p < 2 ^ 256 && fs.prod == p - 1 && powMod p 256 1 a (p - 1) == 1 && fs.all fun q => powMod p 256 1 a ((p - 1) / q) != 1

theorem prime_of_lucas {p : ℕ} (a : ℕ) (fs : List ℕ) (hfs : ∀ q ∈ fs, q.Prime) (h : lucas p a fs = true) : p.Prime := by
  unfold lucas at h
  simp only [Bool.and_eq_true, decide_eq_true_eq, beq_iff_eq, List.all_eq_true, bne_iff_ne, ne_eq] at h
  obtain ⟨⟨⟨⟨hone, hbits⟩, hprod⟩, hpower⟩, hrest⟩ := h
  have hiff : ∀ n, n ≤ p - 1 → ((a : ZMod p) ^ n = 1 ↔ powMod p 256 1 a n = 1) := by
    intro n hn
    rw [powMod_eq p (lt_of_le_of_lt hn (by omega)), one_mul, ← Nat.cast_pow, ← Nat.cast_one, ZMod.natCast_eq_natCast_iff',
      Nat.mod_eq_of_lt hone]
  refine lucas_primality p a ((hiff _ (Nat.le_refl _)).mpr hpower) ?_
  intro q hq hdvd
  rw [← hprod] at hdvd
  obtain ⟨r, hr, hqr⟩ := (Prime.dvd_prod_iff hq.prime).mp hdvd
  rw [(Nat.prime_dvd_prime_iff_eq hq (hfs r hr)).mp hqr, ne_eq, hiff _ (Nat.div_le_self _ _)]
  exact hrest r hr

end BubbleStorm.Lib
