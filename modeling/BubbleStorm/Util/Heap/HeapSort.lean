/-
  BubbleStorm.Util.Heap.HeapSort — sorting an array in place with the heap operations.

  The order is turned around (`not o less`), so the root of the heap is the largest
  entry: `heapify` orders the array from its last parent down, and `sortHeap` takes the
  root to the end of a shrinking prefix.
  - `heapify_ordered`: the loop leaves a heap.
  - `sortHeap_sorted`: of a heap before a sorted tail that lies above it, the whole
    array becomes sorted.
  - `sort_sorted`: every array is sorted, and no subscript is out of range.
-/

import BubbleStorm.Util.Heap.Heap
import Mathlib.Data.Nat.Basic

namespace BubbleStorm.Util.Heap.HeapSort

open Lib (bind_eq_ok)

variable {α : Type}

def sub (array : List α) (i : Nat) : Except Exn α :=
  match array[i]? with
  | some x => .ok x
  | none => .error .subscript

def update (array : List α) (i : Nat) (x : α) : Except Exn (List α) :=
  if i < array.length then .ok (array.set i x) else .error .subscript

def ops (less : α → α → Bool) : HeapOps (List α) α where
  store := update
  extract := sub
  less _ a b := !less a b

def heapify (less : α → α → Bool) (length : Nat) : Nat → List α → Except Exn (List α)
  | 0, array => pure array
  | i + 1, array => do
    let x ← sub array i
    let array ← fixTooBig (ops less) array i length x
    heapify less length i array

/-- Extract min. -/
def sortHeap (less : α → α → Bool) : Nat → List α → Except Exn (List α)
  | 0, array => pure array
  | 1, array => pure array
  | length + 2, array => do
    let last ← sub array (length + 1)
    let root ← sub array 0
    let array ← update array (length + 1) root
    let array ← fixTooBig (ops less) array 0 (length + 1) last
    sortHeap less (length + 1) array

def sort (less : α → α → Bool) (array : List α) : Except Exn (List α) := do
  let heap ← heapify less array.length (array.length / 2) array
  sortHeap less array.length heap

/-! ## The array is the list the heap operations compute on -/

theorem sub_eq {a : List α} {i : Nat} {x : α} (h : a[i]? = some x) : sub a i = .ok x := by
  simp [sub, h]

theorem update_eq {a : List α} {i : Nat} {x : α} (h : i < a.length) : update a i x = .ok (a.set i x) := by
  simp [update, h]

theorem keeps (less : α → α → Bool) :
    Keeps (ops less) (fun x y => !less x y) (fun _ b => b) (fun _ s a _ => s = a) (fun s a => s = a) where
  less_eq _ _ _ := rfl
  read := by
    rintro i s a b rfl j x _ hx
    exact ⟨x, sub_eq hx, rfl⟩
  move := by
    rintro i s a b rfl hi j x c _ hx hc
    have : x = c := by simpa [ops, sub_eq hx] using hc
    subst this
    exact ⟨_, update_eq hi, rfl, rfl⟩
  fill := by
    rintro i s a b rfl hi
    exact ⟨_, update_eq hi, rfl⟩

theorem fixTooBig_eq (less : α → α → Bool) {a : List α} {i stop : Nat} {x : α} (hi : i < a.length) (hs : stop ≤ a.length) :
    fixTooBig (ops less) a i stop x = .ok (BinHeap.fixTooBig (fun x y => !less x y) stop a i stop x) := by
  obtain ⟨s, e, h⟩ := fixTooBig_keeps (keeps less) stop (s := a) (b := x) rfl hi hs (by omega)
  rw [e, h]

/-! ## Order -/

/-- `x` may stand above `y` in the heap: it is not below it. -/
def NotBelow (less : α → α → Bool) (x y : α) : Prop := less x y = false

theorem decides {less : α → α → Bool} (W : BinHeap.Weak less (fun _ => True)) :
    BinHeap.Decides (fun x y => !less x y) (NotBelow less) (fun _ => True) where
  yes _ _ h := by simpa [NotBelow] using h
  no hx hy h := W.asymm hx hy (by simpa using h)
  trans hx hy hz hxy hyz := W.trans hx hy hz hxy hyz

section sorting

variable {less : α → α → Bool} (W : BinHeap.Weak less (fun _ => True))
include W

/-- Each round orders one more parent with its children. -/
theorem heapify_ordered {a : List α} {i : Nat} (hi : i ≤ a.length) (h : BinHeap.OrderedFrom (NotBelow less) i a) :
    ∃ b, heapify less a.length i a = .ok b ∧ b.Perm a ∧ BinHeap.OrderedFrom (NotBelow less) 0 b := by
  induction i generalizing a with
  | zero => exact ⟨a, rfl, .refl _, h⟩
  | succ i ih =>
    have hlt : i < a.length := by omega
    have hx : a[i]? = some a[i] := List.getElem?_eq_getElem hlt
    have hset : a.set i a[i] = a := List.set_getElem_self hlt
    have hperm := BinHeap.fixTooBig_perm (fun x y => !less x y) a.length a i a.length a[i] hlt
    rw [hset] at hperm
    have hord : BinHeap.OrderedFrom (NotBelow less) i (BinHeap.fixTooBig (fun x y => !less x y) a.length a i a.length a[i]) := by
      apply BinHeap.fixTooBig_from (decides W) a.length a i a[i] hlt (Nat.le_refl i) (by omega) (fun _ _ => trivial)
      rw [hset]
      constructor
      · intro j x p hj hlo hne hx hp
        exact h j x p hj (by omega) hx hp
      · intro j x p hj hpj h0 hlo
        omega
    obtain ⟨b, e, hb, ho⟩ := ih (by rw [hperm.length_eq]; omega) hord
    refine ⟨b, ?_, hb.trans hperm, ho⟩
    rw [hperm.length_eq] at e
    simp only [heapify, sub_eq hx, fixTooBig_eq less hlt (Nat.le_refl _)]
    exact e

/-- `p` is the heap that is left, `q` what was taken out of it. -/
theorem sortHeap_sorted {p q : List α} (h : BinHeap.OrderedFrom (NotBelow less) 0 p)
    (hq : q.Pairwise (fun x y => less y x = false)) (hpq : ∀ x ∈ p, ∀ y ∈ q, less y x = false) :
    ∃ b, sortHeap less p.length (p ++ q) = .ok b ∧ b.Perm (p ++ q) ∧ b.Pairwise (fun x y => less y x = false) := by
  obtain ⟨n, hn⟩ : ∃ n, p.length = n := ⟨_, rfl⟩
  induction n generalizing p q with
  | zero =>
    rw [hn]
    cases List.length_eq_zero_iff.mp hn
    exact ⟨q, rfl, .refl _, hq⟩
  | succ n ih =>
    cases n with
    | zero =>
      rw [hn]
      obtain ⟨x, rfl⟩ := List.length_eq_one_iff.mp hn
      exact ⟨x :: q, rfl, .refl _, List.pairwise_cons.mpr ⟨fun y hy => hpq x (.head _) y hy, hq⟩⟩
    | succ n =>
      have hne : p ≠ [] := by intro e; simp [e] at hn
      obtain ⟨init, last, rfl⟩ : ∃ init last, p = init ++ [last] := ⟨p.dropLast, p.getLast hne, (List.dropLast_append_getLast hne).symm⟩
      have hlen : init.length = n + 1 := by simpa using hn
      obtain ⟨root, rest, hinit⟩ := List.exists_cons_of_length_eq_add_one hlen
      have hlast : (init ++ [last] ++ q)[n + 1]? = some last := by
        rw [← hlen, List.append_assoc, List.getElem?_append_right (Nat.le_refl _)]
        simp
      have hroot : (init ++ [last] ++ q)[0]? = some root := by simp [hinit]
      have hset : (init ++ [last] ++ q).set (n + 1) root = init ++ root :: q := by
        rw [← hlen, List.append_assoc, List.set_append_right _ _ (Nat.le_refl _)]
        simp
      have hswap : (init ++ root :: q).length = (init ++ [last] ++ q).length := by simp
      -- the last entry is placed from the root down
      have hfix := @fixTooBig_eq _ less (init ++ root :: q) 0 (n + 1) last
        (by rw [List.length_append, hlen]; omega) (by rw [List.length_append, hlen]; omega)
      rw [← hlen, BinHeap.fixTooBig_append _ _ _ _ _ (by omega), hlen] at hfix
      have hperm := BinHeap.fixTooBig_perm (fun x y => !less x y) (n + 1) init 0 (n + 1) last (by omega)
      have hset0 : init.set 0 last = last :: rest := by simp [hinit]
      rw [hset0] at hperm
      have hord : BinHeap.OrderedFrom (NotBelow less) 0 (BinHeap.fixTooBig (fun x y => !less x y) (n + 1) init 0 (n + 1) last) := by
        have := @BinHeap.fixTooBig_from _ _ _ (NotBelow less) 0 (decides W) (n + 1) init 0 last (by omega) (Nat.le_refl 0) (by omega)
          (fun _ _ => trivial) ?_
        · rwa [hlen] at this
        · constructor
          · intro j x p hj hlo hne hx hp
            rw [List.getElem?_set_ne (by omega)] at hx hp
            have hj' := (List.getElem?_eq_some_iff.mp hx).1
            apply h j x p hj hlo
            · rw [List.getElem?_append_left hj']; exact hx
            · rw [List.getElem?_append_left (by omega)]; exact hp
          · intro j x p hj hpj h0
            omega
      have hmem : ∀ x, x ∈ last :: rest → x ∈ init ++ [last] := by
        intro x hx
        rw [hinit]
        simp only [List.mem_cons, List.mem_append] at hx ⊢
        tauto
      have hmax : ∀ x ∈ init ++ [last], less root x = false := fun x hx =>
        BinHeap.OrderedFrom.root (decides W) (fun _ _ => trivial) h (by simp [hinit]) hx
      obtain ⟨b, e, hb, hs⟩ := ih (q := root :: q) hord
        (List.pairwise_cons.mpr ⟨fun y hy => hpq root (by simp [hinit]) y hy, hq⟩)
        (by
          intro x hx y hy
          have hx' := hmem x (hperm.mem_iff.mp hx)
          rcases List.mem_cons.mp hy with rfl | hy
          · exact hmax x hx'
          · exact hpq x hx' y hy)
        (by rw [hperm.length_eq, ← hset0, List.length_set, hlen])
      refine ⟨b, ?_, hb.trans ?_, hs⟩
      · rw [hn]
        rw [hperm.length_eq, ← hset0, List.length_set, hlen] at e
        simp only [sortHeap, sub_eq hlast, sub_eq hroot]
        show (update (init ++ [last] ++ q) (n + 1) root >>= _) = _
        rw [update_eq (by simp; omega), hset]
        show (fixTooBig (ops less) (init ++ root :: q) 0 (n + 1) last >>= _) = _
        rw [hfix]
        exact e
      · refine (hperm.append_right _).trans ?_
        rw [hinit]
        simp only [List.cons_append, List.append_assoc, List.nil_append]
        refine (List.Perm.cons last List.perm_middle).trans ((List.Perm.swap _ _ _).trans (List.Perm.cons root ?_))
        exact List.perm_middle.symm

theorem sort_sorted (array : List α) :
    ∃ sorted, sort less array = .ok sorted ∧ sorted.Perm array ∧ sorted.Pairwise (fun x y => less y x = false) := by
  have hleaf : BinHeap.OrderedFrom (NotBelow less) (array.length / 2) array := by
    intro i x p hi hlo hx hp
    have := (List.getElem?_eq_some_iff.mp hx).1
    omega
  obtain ⟨b, e, hb, ho⟩ := heapify_ordered W (Nat.div_le_self _ _) hleaf
  obtain ⟨c, e', hc, hs⟩ := sortHeap_sorted W (q := []) ho .nil (by simp)
  rw [List.append_nil, hb.length_eq] at e'
  rw [List.append_nil] at hc
  exact ⟨c, bind_eq_ok.mpr ⟨b, e, e'⟩, hc.trans hb, hs⟩

end sorting

theorem sort_sorted_four :
    ∃ sorted, sort (fun x y => decide (x < y)) [3, 1, 2, 1] = .ok sorted ∧ sorted.Perm [3, 1, 2, 1] ∧
      sorted.Pairwise (fun x y => decide (y < x) = false) :=
  sort_sorted (BinHeap.weak_lt (fun x : Nat => (x : Int)) fun x y => by simp) [3, 1, 2, 1]

end BubbleStorm.Util.Heap.HeapSort
