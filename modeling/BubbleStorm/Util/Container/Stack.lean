/-
  BubbleStorm.Util.Container.Stack — the growing and shrinking array under the heaps.

  A full array is copied into one twice as long, and one of which a quarter is used into
  one half as long; the unused slots hold `nill`. `Holds s l` says that the stack `s`
  keeps the entries `l`, and each operation is the one on `l` and raises nothing.
-/

import BubbleStorm.Lib.Outcome

namespace BubbleStorm.Util

inductive Subscript
  | subscript
  deriving Repr, DecidableEq

structure Stack (α : Type) where
  stack : List α
  use : Nat
  nill : α

namespace Stack

variable {α : Type}

def arraySub (a : List α) (i : Nat) : Except Subscript α :=
  match a[i]? with
  | some x => .ok x
  | none => .error .subscript

def arrayUpdate (a : List α) (i : Nat) (x : α) : Except Subscript (List α) :=
  if i < a.length then .ok (a.set i x) else .error .subscript

def tabulate (n : Nat) (f : Nat → Except Subscript α) : Except Subscript (List α) := (List.range n).mapM f

def emptyData (nill : α) : Stack α := { stack := List.replicate 4 nill, use := 0, nill := nill }

/-- The array with room for one more entry. -/
def grown (s : Stack α) : Except Subscript (List α) :=
  if s.use = s.stack.length then
    tabulate (s.stack.length * 2) fun i => if i < s.use then arraySub s.stack i else pure s.nill
  else pure s.stack

/-- The array when one entry fewer needs room. -/
def shrunk (s : Stack α) : Except Subscript (List α) :=
  if s.use * 4 = s.stack.length then tabulate (s.use * 2) (arraySub s.stack) else pure s.stack

/-- The slot the entry went to, and the stack. -/
def push (s : Stack α) (x : α) : Except Subscript (Nat × Stack α) := do
  let stack ← s.grown
  let stack ← arrayUpdate stack s.use x
  pure (s.use, { s with stack := stack, use := s.use + 1 })

def pop (s : Stack α) : Except Subscript (Option α × Stack α) :=
  if s.use = 0 then pure (none, s)
  else do
    let stack ← s.shrunk
    let out ← arraySub stack (s.use - 1)
    let stack ← arrayUpdate stack (s.use - 1) s.nill
    pure (some out, { s with stack := stack, use := s.use - 1 })

def length (s : Stack α) : Nat := s.use

def isEmpty (s : Stack α) : Bool := s.use = 0

def clear (s : Stack α) : Stack α := emptyData s.nill

def sub (s : Stack α) (i : Nat) : Except Subscript α := arraySub s.stack i

def update (s : Stack α) (i : Nat) (x : α) : Except Subscript (Stack α) := do
  let stack ← arrayUpdate s.stack i x
  pure { s with stack := stack }

/-! ## The entries -/

/-- The array is never empty: slot 0 can be read on an empty stack. -/
structure Holds (s : Stack α) (l : List α) : Prop where
  slots : ∃ k, s.stack = l ++ List.replicate k s.nill
  use : s.use = l.length
  room : 0 < s.stack.length

theorem arraySub_eq {a : List α} {i : Nat} {x : α} (h : a[i]? = some x) : arraySub a i = .ok x := by
  simp [arraySub, h]

theorem arrayUpdate_eq {a : List α} {i : Nat} {x : α} (h : i < a.length) : arrayUpdate a i x = .ok (a.set i x) := by
  simp [arrayUpdate, h]

theorem tabulate_eq {n : Nat} {f : Nat → Except Subscript α} {a : List α} (hn : n = a.length)
    (h : ∀ i x, a[i]? = some x → f i = .ok x) : tabulate n f = .ok a := by
  subst hn
  induction a generalizing f with
  | nil => rfl
  | cons x a ih =>
    have ih' := @ih (fun i => f (i + 1)) fun i y hy => h (i + 1) y hy
    unfold tabulate at ih' ⊢
    rw [List.length_cons, List.range_succ_eq_map, List.mapM_cons, h 0 x rfl, List.mapM_map]
    show (List.mapM (fun i => f (i + 1)) (List.range a.length) >>= _) = _
    rw [ih']
    rfl

theorem holds_emptyData (nill : α) : Holds (emptyData nill) [] := ⟨⟨4, rfl⟩, rfl, by simp [emptyData]⟩

theorem Holds.length {s : Stack α} {l : List α} (h : Holds s l) : s.length = l.length := h.use

theorem Holds.sub {s : Stack α} {l : List α} (h : Holds s l) {i : Nat} {x : α} (hx : l[i]? = some x) :
    s.sub i = .ok x := by
  obtain ⟨k, hk⟩ := h.slots
  apply arraySub_eq
  rw [hk, List.getElem?_append_left (List.getElem?_eq_some_iff.mp hx).1, hx]

theorem Holds.sub_zero {s : Stack α} (h : Holds s []) : s.sub 0 = .ok s.nill := by
  obtain ⟨k, hk⟩ := h.slots
  have := h.room
  apply arraySub_eq
  rw [hk] at this ⊢
  simp only [List.nil_append, List.length_replicate] at this ⊢
  rw [List.getElem?_replicate, if_pos this]

theorem Holds.update {s : Stack α} {l : List α} (h : Holds s l) {i : Nat} (hi : i < l.length) (x : α) :
    ∃ s', s.update i x = .ok s' ∧ Holds s' (l.set i x) ∧ s'.nill = s.nill := by
  obtain ⟨k, hk⟩ := h.slots
  have hlt : i < s.stack.length := by rw [hk, List.length_append]; omega
  refine ⟨{ s with stack := s.stack.set i x }, ?_, ⟨⟨k, ?_⟩, ?_, ?_⟩, rfl⟩
  · simp only [Stack.update, arrayUpdate_eq hlt]
    rfl
  · simp only [hk, List.set_append_left _ _ hi]
  · simp only [List.length_set, h.use]
  · simp only [List.length_set]
    exact h.room

theorem Holds.push {s : Stack α} {l : List α} (h : Holds s l) (x : α) :
    ∃ s', s.push x = .ok (l.length, s') ∧ Holds s' (l ++ [x]) ∧ s'.nill = s.nill := by
  obtain ⟨k, hk⟩ := h.slots
  have hroom := h.room
  -- after growing there is a free slot
  obtain ⟨j, hj⟩ : ∃ j, s.grown = .ok (l ++ s.nill :: List.replicate j s.nill) := by
    unfold grown
    by_cases hu : s.use = s.stack.length
    · have hk0 : k = 0 := by rw [h.use, hk, List.length_append, List.length_replicate] at hu; omega
      subst hk0
      simp only [List.replicate_zero, List.append_nil] at hk
      rw [if_pos hu]
      refine ⟨s.stack.length - 1, tabulate_eq ?_ ?_⟩
      · rw [List.length_append, List.length_cons, List.length_replicate, hk]
        rw [hk] at hroom
        omega
      · intro i y hy
        by_cases hi : i < s.use
        · rw [if_pos hi]
          rw [h.use] at hi
          rw [List.getElem?_append_left hi] at hy
          exact arraySub_eq (by rw [hk]; exact hy)
        · rw [if_neg hi]
          rw [h.use] at hi
          rw [List.getElem?_append_right (by omega), ← List.replicate_succ, List.getElem?_replicate] at hy
          split at hy
          · cases hy
            rfl
          · cases hy
    · rw [if_neg hu]
      have hk0 : k = k - 1 + 1 := by
        have : k ≠ 0 := by
          intro same
          subst same
          exact hu (by rw [h.use, hk]; simp)
        omega
      refine ⟨k - 1, ?_⟩
      rw [← List.replicate_succ, ← hk0, ← hk]
      rfl
  have hset : (l ++ s.nill :: List.replicate j s.nill).set l.length x = l ++ [x] ++ List.replicate j s.nill := by
    rw [List.set_append_right _ _ (Nat.le_refl _)]
    simp
  refine ⟨{ s with stack := l ++ [x] ++ List.replicate j s.nill, use := s.use + 1 }, ?_, ⟨⟨j, rfl⟩, ?_, ?_⟩, rfl⟩
  · simp only [Stack.push]
    rw [hj]
    show (arrayUpdate _ s.use x >>= _) = _
    rw [h.use, arrayUpdate_eq (by simp), hset]
    rfl
  · simp [h.use]
  · simp only [List.length_append, List.length_cons]
    omega

theorem Holds.pop_nil {s : Stack α} (h : Holds s []) : s.pop = .ok (none, s) := by
  have hu : s.use = 0 := h.use
  rw [Stack.pop, if_pos hu]
  rfl

theorem Holds.pop {s : Stack α} {l : List α} {x : α} (h : Holds s (l ++ [x])) :
    ∃ s', s.pop = .ok (some x, s') ∧ Holds s' l ∧ s'.nill = s.nill := by
  obtain ⟨k, hk⟩ := h.slots
  have hu : s.use = l.length + 1 := by simpa using h.use
  obtain ⟨j, hj⟩ : ∃ j, s.shrunk = .ok (l ++ x :: List.replicate j s.nill) := by
    unfold shrunk
    by_cases h4 : s.use * 4 = s.stack.length
    · rw [if_pos h4]
      have hlen : s.stack.length = l.length + 1 + k := by
        rw [hk]
        simp
        omega
      refine ⟨s.use, tabulate_eq ?_ ?_⟩
      · simp [hu]
        omega
      · intro i y hy
        apply arraySub_eq
        have hi := (List.getElem?_eq_some_iff.mp hy).1
        simp only [List.length_append, List.length_cons, List.length_replicate] at hi
        rw [hk]
        rw [show l ++ x :: List.replicate s.use s.nill = l ++ [x] ++ List.replicate s.use s.nill by simp] at hy
        by_cases hil : i < (l ++ [x]).length
        · rw [List.getElem?_append_left hil] at hy ⊢
          exact hy
        · rw [List.getElem?_append_right (by omega), List.getElem?_replicate] at hy ⊢
          have hxl : (l ++ [x]).length = l.length + 1 := by simp
          rw [if_pos (by omega)] at hy ⊢
          exact hy
    · rw [if_neg h4]
      exact ⟨k, by rw [hk]; simp; rfl⟩
  have hget : (l ++ x :: List.replicate j s.nill)[l.length]? = some x := by
    rw [List.getElem?_append_right (Nat.le_refl _)]
    simp
  have hset : (l ++ x :: List.replicate j s.nill).set l.length s.nill = l ++ List.replicate (j + 1) s.nill := by
    rw [List.set_append_right _ _ (Nat.le_refl _), List.replicate_succ]
    simp
  refine ⟨{ s with stack := l ++ List.replicate (j + 1) s.nill, use := s.use - 1 }, ?_, ⟨⟨j + 1, rfl⟩, ?_, ?_⟩, rfl⟩
  · rw [Stack.pop, if_neg (by omega), hj]
    show (arraySub _ (s.use - 1) >>= _) = _
    rw [show s.use - 1 = l.length by omega, arraySub_eq hget]
    show (arrayUpdate _ l.length s.nill >>= _) = _
    rw [arrayUpdate_eq (by simp), hset]
    rfl
  · show s.use - 1 = l.length
    omega
  · simp only [List.length_append, List.length_replicate]
    omega

end Stack

end BubbleStorm.Util
