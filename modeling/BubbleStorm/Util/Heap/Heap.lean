/-
  BubbleStorm.Util.Heap.Heap — the sift operations of every heap in the system, over any
  array-like state that can be read and written slot by slot.

  `fixTooBig` and `fixTooSmall` are `makeHeapOps`. A state that keeps a list of entries
  (`Keeps`) is taken by them to the list `BinHeap` computes, and no subscript is out of
  range: `fixTooBig_keeps`, `fixTooSmall_keeps`.
-/

import BubbleStorm.Lib.BinHeap
import BubbleStorm.Lib.Outcome

namespace BubbleStorm.Util.Heap

/-- The exceptions of the heaps. -/
inductive Exn
  | subscript
  | option
  | wrongHeap
  deriving Repr, DecidableEq

/-- What `makeHeapOps` is given. The records may be references, so `less` looks at the state. -/
structure HeapOps (σ β : Type) where
  store : σ → Nat → β → Except Exn σ
  extract : σ → Nat → Except Exn β
  less : σ → β → β → Bool

variable {σ β α : Type}

def fixTooBig (ops : HeapOps σ β) (array : σ) (holeIndex endIndex : Nat) (record : β) : Except Exn σ :=
  let leftIndex := holeIndex * 2 + 1
  let rightIndex := leftIndex + 1
  -- two children
  if h : rightIndex < endIndex then do
    let left ← ops.extract array leftIndex
    let right ← ops.extract array rightIndex
    let smallIndex := if ops.less array left right then leftIndex else rightIndex
    let small := if ops.less array left right then left else right
    if ops.less array record small then ops.store array holeIndex record
    else do
      let array ← ops.store array holeIndex small
      fixTooBig ops array smallIndex endIndex record
  -- one child
  else if rightIndex = endIndex then do
    let left ← ops.extract array leftIndex
    if ops.less array record left then ops.store array holeIndex record
    else do
      let array ← ops.store array holeIndex left
      ops.store array leftIndex record
  else ops.store array holeIndex record
termination_by endIndex - holeIndex
decreasing_by
  have : holeIndex < smallIndex := by
    simp only [smallIndex]
    split <;> omega
  show endIndex - smallIndex < endIndex - holeIndex
  omega

def fixTooSmall (ops : HeapOps σ β) (array : σ) (holeIndex : Nat) (record : β) : Except Exn σ :=
  if h : holeIndex = 0 then ops.store array holeIndex record
  else do
    let parentIndex := (holeIndex - 1) / 2
    let parent ← ops.extract array parentIndex
    if ops.less array parent record then ops.store array holeIndex record
    else do
      let array ← ops.store array holeIndex parent
      fixTooSmall ops array parentIndex record
termination_by holeIndex

/-! ## On a state that keeps a list of entries -/

/-- `val s b`: the entry record `b` stands for in `s`. `Open i s a b`: `s` keeps the
    entries `a`, slot `i` apart, and `b` is being placed. `Full s a`: `s` keeps them all. -/
structure Keeps (ops : HeapOps σ β) (less : α → α → Bool) (val : σ → β → α) (Open : Nat → σ → List α → β → Prop)
    (Full : σ → List α → Prop) : Prop where
  less_eq : ∀ s b c, ops.less s b c = less (val s b) (val s c)
  read : ∀ {i s a b}, Open i s a b → ∀ {j x}, j ≠ i → a[j]? = some x → ∃ c, ops.extract s j = .ok c ∧ val s c = x
  move : ∀ {i s a b}, Open i s a b → i < a.length → ∀ {j x c}, j ≠ i → a[j]? = some x → ops.extract s j = .ok c →
    ∃ s', ops.store s i c = .ok s' ∧ Open j s' (a.set i x) b ∧ val s' b = val s b
  fill : ∀ {i s a b}, Open i s a b → i < a.length → ∃ s', ops.store s i b = .ok s' ∧ Full s' (a.set i (val s b))

variable {ops : HeapOps σ β} {less : α → α → Bool} {val : σ → β → α} {Open : Nat → σ → List α → β → Prop}
  {Full : σ → List α → Prop}

theorem fixTooBig_keeps (K : Keeps ops less val Open Full) {s : σ} {a : List α} {b : β} {i stop : Nat} (fuel : Nat)
    (h : Open i s a b) (hi : i < a.length) (hstop : stop ≤ a.length) (hf : stop ≤ i + fuel) :
    ∃ s', fixTooBig ops s i stop b = .ok s' ∧ Full s' (BinHeap.fixTooBig less fuel a i stop (val s b)) := by
  induction fuel generalizing s a i with
  | zero =>
    rw [fixTooBig, dif_neg (by omega), if_neg (by omega)]
    exact K.fill h hi
  | succ fuel ih =>
    rw [fixTooBig, BinHeap.fixTooBig, show i * 2 + 1 + 1 = 2 * i + 2 by omega, show i * 2 + 1 = 2 * i + 1 by omega]
    simp only
    by_cases h2 : 2 * i + 2 < stop
    · rw [dif_pos h2, if_pos h2]
      have hl := List.getElem?_eq_getElem (show 2 * i + 1 < a.length by omega)
      have hr := List.getElem?_eq_getElem (show 2 * i + 2 < a.length by omega)
      obtain ⟨l, el, vl⟩ := K.read h (by omega) hl
      obtain ⟨r, er, vr⟩ := K.read h (by omega) hr
      rw [hl, hr, el, er]
      -- the hole moves to child `c` unless the record stays above it
      have down : ∀ {c x y}, (c = 2 * i + 1 ∨ c = 2 * i + 2) → a[c]? = some y → ops.extract s c = .ok x → val s x = y →
          ∃ s', (if ops.less s b x then ops.store s i b
              else (do let s ← ops.store s i x; fixTooBig ops s c stop b)) = .ok s' ∧
            Full s' (if less (val s b) y then a.set i (val s b)
              else BinHeap.fixTooBig less fuel (a.set i y) c stop (val s b)) := by
        intro c x y hc hy hx hv
        rw [K.less_eq, hv]
        by_cases hlt : less (val s b) y
        · rw [if_pos hlt, if_pos hlt]
          exact K.fill h hi
        · rw [if_neg hlt, if_neg hlt]
          obtain ⟨s', e, ho, vb⟩ := K.move h hi (by omega) hy hx
          rw [e, ← vb]
          have hlen : (a.set i y).length = a.length := List.length_set
          exact ih ho (by rw [hlen]; omega) (by rw [hlen]; exact hstop) (by omega)
      show ∃ s', (if ops.less s b (if ops.less s l r then l else r) then _ else _) = Except.ok s' ∧ _
      rw [K.less_eq s l r, vl, vr]
      simp only
      by_cases hlr : less a[2 * i + 1] a[2 * i + 2]
      · simp only [hlr, if_true]
        exact down (.inl rfl) hl el vl
      · simp only [hlr]
        exact down (.inr rfl) hr er vr
    · rw [dif_neg h2, if_neg h2]
      by_cases h1 : 2 * i + 2 = stop
      · rw [if_pos h1, if_pos h1]
        have hl := List.getElem?_eq_getElem (show 2 * i + 1 < a.length by omega)
        obtain ⟨l, el, vl⟩ := K.read h (by omega) hl
        rw [hl, el]
        show ∃ s', (if ops.less s b l then _ else _) = Except.ok s' ∧ _
        rw [K.less_eq, vl]
        simp only
        by_cases hlt : less (val s b) a[2 * i + 1]
        · rw [if_pos hlt, if_pos hlt]
          exact K.fill h hi
        · rw [if_neg hlt, if_neg hlt]
          obtain ⟨s', e, ho, vb⟩ := K.move h hi (by omega) hl el
          rw [e, ← vb]
          exact K.fill ho (by rw [List.length_set]; omega)
      · rw [if_neg h1, if_neg h1]
        exact K.fill h hi

theorem fixTooSmall_keeps (K : Keeps ops less val Open Full) {s : σ} {a : List α} {b : β} {i : Nat} (fuel : Nat)
    (h : Open i s a b) (hi : i < a.length) (hf : i ≤ fuel) :
    ∃ s', fixTooSmall ops s i b = .ok s' ∧ Full s' (BinHeap.fixTooSmall less fuel a i (val s b)) := by
  induction fuel generalizing s a i with
  | zero =>
    rw [fixTooSmall, dif_pos (by omega)]
    exact K.fill h hi
  | succ fuel ih =>
    rw [fixTooSmall, BinHeap.fixTooSmall]
    by_cases h0 : i = 0
    · rw [dif_pos h0, if_pos h0]
      exact K.fill h hi
    · rw [dif_neg h0, if_neg h0]
      have hp := List.getElem?_eq_getElem (show (i - 1) / 2 < a.length by omega)
      obtain ⟨p, ep, vp⟩ := K.read h (by omega) hp
      simp only
      rw [hp, ep]
      show ∃ s', (if ops.less s p b then _ else _) = Except.ok s' ∧ _
      rw [K.less_eq, vp]
      simp only
      by_cases hlt : less a[(i - 1) / 2] (val s b)
      · rw [if_pos hlt, if_pos hlt]
        exact K.fill h hi
      · rw [if_neg hlt, if_neg hlt]
        obtain ⟨s', e, ho, vb⟩ := K.move h hi (by omega) hp ep
        rw [e, ← vb]
        exact ih ho (by rw [List.length_set]; omega) (by omega)

end BubbleStorm.Util.Heap
