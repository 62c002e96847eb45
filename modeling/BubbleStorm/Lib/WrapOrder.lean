/-
  BubbleStorm.Lib.WrapOrder — the order of wrap-around counters: `a` is before `b`
  when `a - b`, taken modulo `2 * h`, falls in the upper half.

  The counters are kept unbounded here and compared by their residues, so a window of
  numbers less than `h` apart is ordered as the integers are (`lt_iff`), and over such
  a window the order is a weak order (`weak_window`), which is what a heap keyed by it
  needs.
-/

import Mathlib.Algebra.Order.Ring.Int
import BubbleStorm.Lib.BinHeap

namespace WrapOrder

variable (h : Int)

def lt (a b : Int) : Bool := decide (h ≤ (a - b) % (2 * h))

def max (a b : Int) : Int := if lt h a b then b else a

variable {h}

theorem lt_iff (hh : 0 < h) {a b : Int} (h1 : -h ≤ a - b) (h2 : a - b < h) : lt h a b = true ↔ a < b := by
  simp only [lt, decide_eq_true_eq]
  by_cases hab : a < b
  · have e : (a - b) % (2 * h) = a - b + 2 * h := by
      rw [← Int.add_emod_right]
      exact Int.emod_eq_of_lt (by omega) (by omega)
    rw [e]; omega
  · rw [Int.emod_eq_of_lt (by omega) (by omega)]; omega

theorem lt_false_iff (hh : 0 < h) {a b : Int} (h1 : -h ≤ a - b) (h2 : a - b < h) : lt h a b = false ↔ b ≤ a := by
  rw [← Bool.not_eq_true, lt_iff hh h1 h2]; omega

theorem lt_congr {a a' b b' : Int} (ha : (a - a') % (2 * h) = 0) (hb : (b - b') % (2 * h) = 0) :
    lt h a b = lt h a' b' := by
  have : (a - b) % (2 * h) = (a' - b') % (2 * h) := by
    have e : a - b = a' - b' + ((a - a') - (b - b')) := by omega
    rw [e, Int.add_emod, Int.sub_emod (a - a'), ha, hb]; simp
  simp only [lt, this]

theorem max_eq (hh : 0 < h) {a b : Int} (h1 : -h ≤ a - b) (h2 : a - b < h) : max h a b = Max.max a b := by
  unfold max
  by_cases hab : a < b
  · rw [if_pos ((lt_iff hh h1 h2).mpr hab)]; omega
  · rw [if_neg (by rw [lt_iff hh h1 h2]; exact hab)]; omega

/-- Entries whose keys stand for positions less than `h` apart are weakly ordered. -/
theorem weak_window {α : Type} (hh : 0 < h) (key pos : α → Int) (P : α → Prop)
    (hpos : ∀ x, P x → (key x - pos x) % (2 * h) = 0) (hwin : ∀ x y, P x → P y → pos x - pos y < h) :
    BinHeap.Weak (fun x y => lt h (key x) (key y)) P := by
  have e : ∀ {x y}, P x → P y → lt h (key x) (key y) = lt h (pos x) (pos y) := fun hx hy =>
    lt_congr (hpos _ hx) (hpos _ hy)
  constructor
  · intro x y hx hy
    rw [e hx hy, e hy hx]
    have := hwin x y hx hy; have := hwin y x hy hx
    rw [lt_iff hh (by omega) (by omega), lt_false_iff hh (by omega) (by omega)]; omega
  · intro x y z hx hy hz
    rw [e hx hy, e hy hz, e hx hz]
    have := hwin x y hx hy; have := hwin y x hy hx; have := hwin y z hy hz
    have := hwin z y hz hy; have := hwin x z hx hz; have := hwin z x hz hx
    rw [lt_false_iff hh (by omega) (by omega), lt_false_iff hh (by omega) (by omega),
      lt_false_iff hh (by omega) (by omega)]
    omega

end WrapOrder
