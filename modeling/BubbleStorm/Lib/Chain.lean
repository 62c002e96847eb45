/-
  BubbleStorm.Lib.Chain — singly linked lists that are threaded through a table.

  `Chain nil next head l` says that `l` is what is read from `head` on. A change of the
  table outside a list leaves the list, so several lists share a table as long as they
  have no entry in common.
-/

import Mathlib.Algebra.Order.Ring.Int

namespace BubbleStorm.Lib

def Chain (nil : Nat) (next : Nat → Option Nat) : Nat → List Nat → Prop
  | head, [] => head = nil
  | head, x :: l => head = x ∧ x ≠ nil ∧ ∃ tail, next x = some tail ∧ Chain nil next tail l

variable {nil : Nat} {next next' : Nat → Option Nat} {head : Nat} {l : List Nat}

theorem Chain.congr (h : Chain nil next head l) (heq : ∀ x ∈ l, next' x = next x) : Chain nil next' head l := by
  induction l generalizing head with
  | nil => exact h
  | cons x l ih =>
    obtain ⟨hx, hne, tail, htail, hl⟩ := h
    exact ⟨hx, hne, tail, (heq x (.head _)).trans htail, ih hl fun y hy => heq y (.tail _ hy)⟩

theorem Chain.empty (h : Chain nil next nil l) : l = [] := by
  cases l with
  | nil => rfl
  | cons x l => exact absurd h.1.symm h.2.1

/-- The first entry of a list that has one. -/
theorem Chain.uncons (h : Chain nil next head l) (hne : head ≠ nil) :
    ∃ tail l', l = head :: l' ∧ next head = some tail ∧ Chain nil next tail l' := by
  cases l with
  | nil => exact absurd h hne
  | cons x l =>
    obtain ⟨rfl, -, tail, htail, hl⟩ := h
    exact ⟨tail, l, rfl, htail, hl⟩

theorem Chain.entry (h : Chain nil next head l) {x : Nat} (hx : x ∈ l) : x ≠ nil ∧ ∃ y, next x = some y := by
  induction l generalizing head with
  | nil => cases hx
  | cons z l ih =>
    obtain ⟨-, hne, tail, htail, hl⟩ := h
    rcases List.mem_cons.mp hx with rfl | hx
    · exact ⟨hne, tail, htail⟩
    · exact ih hl hx

/-- What the head has and every entry passes on. -/
theorem Chain.all (h : Chain nil next head l) {P : Nat → Prop} (hhead : P head)
    (hnext : ∀ x y, P x → x ≠ nil → next x = some y → P y) : ∀ x ∈ l, P x := by
  induction l generalizing head with
  | nil =>
    intro x hx
    cases hx
  | cons z l ih =>
    obtain ⟨rfl, hne, tail, htail, hl⟩ := h
    intro x hx
    rcases List.mem_cons.mp hx with rfl | hx
    · exact hhead
    · exact ih hl (hnext _ tail hhead hne htail) x hx

/-- The entries from `a` on, each of which leads to the one behind it. -/
theorem Chain.range {n a tail : Nat} (hnil : ∀ i, a ≤ i → i < a + n → i ≠ nil)
    (hnext : ∀ i, a ≤ i → i < a + n → next i = some (if i + 1 = a + n then tail else i + 1)) (h : Chain nil next tail l) :
    Chain nil next (if n = 0 then tail else a) (List.range' a n ++ l) := by
  induction n generalizing a with
  | zero => exact h
  | succ n ih =>
    rw [if_neg (Nat.succ_ne_zero n)]
    refine ⟨rfl, hnil a (Nat.le_refl a) (by omega), _, hnext a (Nat.le_refl a) (by omega), ?_⟩
    have htail := ih (a := a + 1) (fun i h1 h2 => hnil i (by omega) (by omega)) fun i h1 h2 => by
      rw [hnext i (by omega) (by omega), show a + (n + 1) = a + 1 + n by omega]
    by_cases hn : n = 0
    · subst hn
      rwa [if_pos rfl] at htail ⊢
    · rw [if_neg hn] at htail
      rwa [if_neg (by omega)]

end BubbleStorm.Lib
