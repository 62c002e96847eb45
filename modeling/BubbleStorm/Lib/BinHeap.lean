/-
  BubbleStorm.Lib.BinHeap — binary heaps kept in a list by the hole technique: the
  entry being placed travels up or down, and only its final slot is written.

  `fixTooSmall` moves the hole towards the root, `fixTooBig` towards the leaves, and
  `push`, `pop`, `popIf` and `removeAt` are built from them.
  - `push_perm` / `pop_perm` / `removeAt_perm`: an operation changes the entries by
    exactly the one it adds or takes, whatever `less` is.
  - `push_ordered` / `pop_ordered` / `removeAt_ordered` / `updateAt_ordered`: over entries
    on which `less` is a weak order (`Weak`), the array stays heap-ordered.
  - `fixTooBig_from`: moving down restores the order below the hole, for any preorder
    `less` decides and whatever lies before the hole.
  - `top_min`: the entry at the root is not above any other.
-/

import Mathlib.Data.List.Perm.Basic
import Mathlib.Order.Defs.LinearOrder

namespace BinHeap

open List (getElem?_dropLast getElem?_eq_getElem getElem?_set getElem?_set_ne getElem?_set_self length_dropLast length_set mem_of_getElem? mem_set set_append_left)

variable {α : Type} (less : α → α → Bool)

/-! ## The operations -/

/-- Place `r` at or below `hole` among the first `stop` entries. -/
def fixTooBig : Nat → List α → Nat → Nat → α → List α
  | 0, a, hole, _, r => a.set hole r
  | fuel + 1, a, hole, stop, r =>
    if 2 * hole + 2 < stop then
      match a[2 * hole + 1]?, a[2 * hole + 2]? with
      | some left, some right =>
        if less left right then
          if less r left then a.set hole r else fixTooBig fuel (a.set hole left) (2 * hole + 1) stop r
        else
          if less r right then a.set hole r else fixTooBig fuel (a.set hole right) (2 * hole + 2) stop r
      | _, _ => a.set hole r
    else if 2 * hole + 2 = stop then
      match a[2 * hole + 1]? with
      | some left => if less r left then a.set hole r else (a.set hole left).set (2 * hole + 1) r
      | none => a.set hole r
    else a.set hole r

/-- Place `r` at or above `hole`. -/
def fixTooSmall : Nat → List α → Nat → α → List α
  | 0, a, hole, r => a.set hole r
  | fuel + 1, a, hole, r =>
    if hole = 0 then a.set hole r
    else
      match a[(hole - 1) / 2]? with
      | some parent => if less parent r then a.set hole r else fixTooSmall fuel (a.set hole parent) ((hole - 1) / 2) r
      | none => a.set hole r

def push (a : List α) (r : α) : List α := fixTooSmall less (a.length + 1) (a ++ [r]) a.length r

/-- The root, and the heap without it: the last entry is placed from the root down. -/
def pop (a : List α) : Option (α × List α) :=
  match a.head?, a.getLast? with
  | some r, some last =>
    if a.length = 1 then some (r, []) else some (r, fixTooBig less a.length a.dropLast 0 a.dropLast.length last)
  | _, _ => none

/-- Pop only when the root passes the test. -/
def popIf (f : α → Bool) (a : List α) : Option (α × List α) :=
  match a.head? with
  | some r => if f r then pop less a else none
  | none => none

/-- Take entry `i` out: the last entry fills its slot. -/
def removeAt (a : List α) (i : Nat) : List α :=
  match a[i]?, a.getLast? with
  | some r, some last =>
    if a.length - 1 = i then a.dropLast
    else
      let a' := a.dropLast
      if less r last then fixTooBig less a.length a' i a'.length last
      else fixTooSmall less a.length a' i last
  | _, _ => a

/-- Move entry `i`, replaced by `r`, to where its key belongs. -/
def updateAt (a : List α) (i : Nat) (r : α) : List α :=
  match a[i]? with
  | some old =>
    if less old r then fixTooBig less (a.length + 1) a i a.length r
    else fixTooSmall less (a.length + 1) a i r
  | none => a

/-! ## Contents -/

theorem set_swap_perm {a : List α} {i j : Nat} {x r : α} (hi : i < a.length) (hx : a[j]? = some x) (hij : i ≠ j) :
    ((a.set i x).set j r).Perm (a.set i r) := by
  obtain ⟨hj, rfl⟩ := List.getElem?_eq_some_iff.mp hx
  have h := @List.set_set_perm _ (a.set i r) i j (by simpa using hi) (by simpa using hj)
  simpa [List.getElem_set, hij, hij.symm] using h

theorem fixTooBig_perm (fuel : Nat) (a : List α) (hole stop : Nat) (r : α) (h : hole < a.length) :
    (fixTooBig less fuel a hole stop r).Perm (a.set hole r) := by
  induction fuel generalizing a hole with
  | zero => exact .refl _
  | succ fuel ih =>
    simp only [fixTooBig]
    split
    · split
      · rename_i left right hl hr
        have hl' := (List.getElem?_eq_some_iff.mp hl).1
        have hr' := (List.getElem?_eq_some_iff.mp hr).1
        split
        · split
          · exact .refl _
          · exact (ih _ _ (by simpa using hl')).trans (set_swap_perm h hl (by omega))
        · split
          · exact .refl _
          · exact (ih _ _ (by simpa using hr')).trans (set_swap_perm h hr (by omega))
      · exact .refl _
    · split
      · split
        · rename_i left hl
          split
          · exact .refl _
          · exact set_swap_perm h hl (by omega)
        · exact .refl _
      · exact .refl _

theorem fixTooSmall_perm (fuel : Nat) (a : List α) (hole : Nat) (r : α) (h : hole < a.length) :
    (fixTooSmall less fuel a hole r).Perm (a.set hole r) := by
  induction fuel generalizing a hole with
  | zero => exact .refl _
  | succ fuel ih =>
    simp only [fixTooSmall]
    split
    · exact .refl _
    · split
      · rename_i p hp
        split
        · exact .refl _
        · have hp' := (List.getElem?_eq_some_iff.mp hp).1
          exact (ih _ _ (by simpa using hp')).trans (set_swap_perm h hp (by omega))
      · exact .refl _

theorem push_perm (a : List α) (r : α) : (push less a r).Perm (r :: a) := by
  refine (fixTooSmall_perm less _ _ _ r (by simp)).trans ?_
  rw [List.set_append_right _ _ (Nat.le_refl _)]
  simp

@[simp] theorem mem_push {a : List α} {r x : α} : x ∈ push less a r ↔ x = r ∨ x ∈ a := by
  rw [(push_perm less a r).mem_iff, List.mem_cons]

@[simp] theorem length_push (a : List α) (r : α) : (push less a r).length = a.length + 1 := by
  rw [(push_perm less a r).length_eq, List.length_cons]

theorem push_ne_nil (a : List α) (r : α) : push less a r ≠ [] := by
  intro h; have := length_push less a r; simp [h] at this

/-- Overwriting slot `i` trades its entry for the new one. -/
theorem perm_set {a : List α} {i : Nat} {r : α} (x : α) (h : a[i]? = some r) : (x :: a).Perm (r :: a.set i x) := by
  induction a generalizing i with
  | nil => simp at h
  | cons y a ih =>
    cases i with
    | zero => simp at h; subst h; exact .swap _ _ _
    | succ i =>
      have := ih (i := i) (by simpa using h)
      exact (List.Perm.swap _ _ _).trans ((this.cons y).trans (.swap _ _ _))

theorem perm_dropLast {a : List α} {last : α} (h : a.getLast? = some last) : a.Perm (last :: a.dropLast) := by
  have hne : a ≠ [] := by intro e; simp [e] at h
  rw [List.getLast?_eq_getLast_of_ne_nil hne] at h
  cases h
  conv => lhs; rw [← List.dropLast_append_getLast hne]
  exact List.perm_append_singleton _ _

theorem pop_perm {a a' : List α} {r : α} (h : pop less a = some (r, a')) : a.Perm (r :: a') := by
  unfold pop at h
  split at h
  · rename_i hd last hh hl
    have hlen : 0 < a.length := by cases a <;> simp_all
    split at h
    · rename_i h1
      cases h
      obtain ⟨y, rfl⟩ := List.length_eq_one_iff.mp h1
      simp at hh; subst hh; exact .refl _
    · cases h
      have hd0 : 0 < a.dropLast.length := by rw [length_dropLast]; omega
      have h0 : a.dropLast[0]? = some r := by
        rw [getElem?_dropLast, if_pos (by rw [length_dropLast] at hd0; exact hd0), ← List.head?_eq_getElem?, hh]
      exact (perm_dropLast hl).trans ((perm_set last h0).trans ((fixTooBig_perm less _ _ _ _ _ hd0).symm.cons r))
  · cases h

theorem pop_head {a a' : List α} {r : α} (h : pop less a = some (r, a')) : a.head? = some r := by
  unfold pop at h
  split at h
  · rename_i hh _
    split at h <;> cases h <;> exact hh
  · cases h

theorem pop_isSome {a : List α} {r : α} (h : a.head? = some r) : ∃ a', pop less a = some (r, a') := by
  have hne : a ≠ [] := by intro e; simp [e] at h
  unfold pop
  rw [h, List.getLast?_eq_getLast_of_ne_nil hne]
  simp only
  split <;> exact ⟨_, rfl⟩

theorem popIf_some {f : α → Bool} {a a' : List α} {r : α} (h : popIf less f a = some (r, a')) :
    f r = true ∧ pop less a = some (r, a') := by
  unfold popIf at h
  split at h
  · rename_i x hx
    split at h
    · rename_i hf
      have := pop_head less h
      rw [hx] at this; cases this
      exact ⟨hf, h⟩
    · cases h
  · cases h

theorem popIf_none {f : α → Bool} {a : List α} {r : α} (h : popIf less f a = none) (hr : a.head? = some r) :
    f r = false := by
  unfold popIf at h
  rw [hr] at h
  by_cases hf : f r = true
  · simp only [hf, if_true] at h
    obtain ⟨_, h'⟩ := pop_isSome less hr
    rw [h'] at h; cases h
  · simpa using hf

theorem removeAt_perm {a : List α} {i : Nat} {r : α} (h : a[i]? = some r) : a.Perm (r :: removeAt less a i) := by
  obtain ⟨hi, hr⟩ := List.getElem?_eq_some_iff.mp h
  have hne : a ≠ [] := by intro e; simp [e] at hi
  have hlast := List.getLast?_eq_getLast_of_ne_nil hne
  have hsplit := perm_dropLast hlast
  unfold removeAt
  rw [h, hlast]
  simp only
  split
  · rename_i e
    have : a.getLast hne = r := by rw [List.getLast_eq_getElem, ← hr]; congr
    rw [← this]; exact hsplit
  · rename_i e
    have hlt : i < a.dropLast.length := by rw [length_dropLast]; omega
    have hi' : a.dropLast[i]? = some r := by
      rw [getElem?_dropLast, if_pos (by rw [length_dropLast] at hlt; exact hlt), h]
    have key := hsplit.trans (perm_set (a.getLast hne) hi')
    split
    · exact key.trans ((fixTooBig_perm less _ _ _ _ _ hlt).symm.cons r)
    · exact key.trans ((fixTooSmall_perm less _ _ _ _ hlt).symm.cons r)

/-! ## Order -/

/-- `less` is a strict weak order on the entries that satisfy `P`. -/
structure Weak (P : α → Prop) : Prop where
  asymm : ∀ {x y}, P x → P y → less x y = true → less y x = false
  trans : ∀ {x y z}, P x → P y → P z → less x y = false → less y z = false → less x z = false

/-- No entry is below its parent. -/
def Ordered (a : List α) : Prop :=
  ∀ i x p, 0 < i → a[i]? = some x → a[(i - 1) / 2]? = some p → less x p = false

/-- What moving the hole down needs: the pairs whose parent is not the hole are in
    order, and the hole's children are in order with its parent. -/
structure Down (a : List α) (hole : Nat) : Prop where
  except : ∀ i x p, 0 < i → (i - 1) / 2 ≠ hole → a[i]? = some x → a[(i - 1) / 2]? = some p → less x p = false
  grand : ∀ i x p, 0 < i → (i - 1) / 2 = hole → 0 < hole → a[i]? = some x → a[(hole - 1) / 2]? = some p →
    less x p = false

/-- What moving the hole up needs: the pairs whose child is not the hole are in order,
    and the hole's children are in order with its parent. -/
structure Up (a : List α) (hole : Nat) : Prop where
  except : ∀ i x p, 0 < i → i ≠ hole → a[i]? = some x → a[(i - 1) / 2]? = some p → less x p = false
  grand : ∀ i x p, 0 < i → (i - 1) / 2 = hole → 0 < hole → a[i]? = some x → a[(hole - 1) / 2]? = some p →
    less x p = false

variable {less} {P : α → Prop}

theorem Up.finish {a : List α} {hole : Nat} (u : Up less a hole)
    (h : ∀ x p, 0 < hole → a[hole]? = some x → a[(hole - 1) / 2]? = some p → less x p = false) :
    Ordered less a := by
  intro i x p hi hx hp
  by_cases e : i = hole
  · subst e; exact h x p hi hx hp
  · exact u.except i x p hi e hx hp

/-- A comparison by an integer key is a weak order. -/
theorem weak_lt {κ : Type} {lt : κ → κ → Bool} (key : κ → Int) (h : ∀ x y, lt x y = decide (key x < key y)) :
    Weak lt (fun _ => True) where
  asymm := by
    intro x y _ _ less
    rw [h, decide_eq_true_eq] at less
    rw [h, decide_eq_false_iff_not]
    omega
  trans := by
    intro x y z _ _ _ first second
    rw [h, decide_eq_false_iff_not] at first second ⊢
    omega

/-- The preorder `R` that `less` decides on the entries that satisfy `P`. -/
structure Decides (less : α → α → Bool) (R : α → α → Prop) (P : α → Prop) : Prop where
  yes : ∀ {x y}, P x → P y → less x y = true → R x y
  no : ∀ {x y}, P x → P y → less x y = false → R y x
  trans : ∀ {x y z}, P x → P y → P z → R x y → R y z → R x z

theorem Decides.refl {R : α → α → Prop} (D : Decides less R P) {x : α} (hx : P x) : R x x := by
  cases h : less x x with
  | true => exact D.yes hx hx h
  | false => exact D.no hx hx h

theorem Weak.decides (W : Weak less P) : Decides less (fun p x => less x p = false) P where
  yes := W.asymm
  no _ _ h := h
  trans hx hy hz hxy hyz := W.trans hz hy hx hyz hxy

/-- No entry is below its parent, the parents before `lo` apart. -/
def OrderedFrom (R : α → α → Prop) (lo : Nat) (a : List α) : Prop :=
  ∀ i x p, 0 < i → lo ≤ (i - 1) / 2 → a[i]? = some x → a[(i - 1) / 2]? = some p → R p x

/-- `Down` for the preorder `R` and the parents from `lo` on. -/
structure DownFrom (R : α → α → Prop) (lo : Nat) (a : List α) (hole : Nat) : Prop where
  except : ∀ i x p, 0 < i → lo ≤ (i - 1) / 2 → (i - 1) / 2 ≠ hole → a[i]? = some x → a[(i - 1) / 2]? = some p → R p x
  grand : ∀ i x p, 0 < i → (i - 1) / 2 = hole → 0 < hole → lo ≤ (hole - 1) / 2 → a[i]? = some x →
    a[(hole - 1) / 2]? = some p → R p x

theorem OrderedFrom.ordered {a : List α} (h : OrderedFrom (fun p x => less x p = false) 0 a) : Ordered less a :=
  fun i x p hi hx hp => h i x p hi (Nat.zero_le _) hx hp

theorem Down.downFrom {a : List α} {hole : Nat} (d : Down less a hole) :
    DownFrom (fun p x => less x p = false) 0 a hole where
  except i x p hi _ hne hx hp := d.except i x p hi hne hx hp
  grand i x p hi hpi h0 _ hx hp := d.grand i x p hi hpi h0 hx hp

section sift

variable {R : α → α → Prop} {lo : Nat}

theorem DownFrom.finish {a : List α} {hole : Nat} (d : DownFrom R lo a hole)
    (h : ∀ i x p, 0 < i → (i - 1) / 2 = hole → a[i]? = some x → a[hole]? = some p → R p x) : OrderedFrom R lo a := by
  intro i x p hi hlo hx hp
  by_cases e : (i - 1) / 2 = hole
  · exact h i x p hi e hx (e ▸ hp)
  · exact d.except i x p hi hlo e hx hp

/-- The hole moves down to its smaller child `c`, whose entry fills it. -/
theorem DownFrom.move {a : List α} {hole c : Nat} {r small : α} (d : DownFrom R lo (a.set hole r) hole) (hlo : lo ≤ hole)
    (hc : 0 < c) (hpc : (c - 1) / 2 = hole) (hs : a[c]? = some small) (hr : R small r)
    (hmin : ∀ i x, 0 < i → (i - 1) / 2 = hole → a[i]? = some x → R small x) :
    DownFrom R lo ((a.set hole small).set c r) c := by
  have hne : hole ≠ c := by omega
  constructor
  · intro i x p hi hl hpi hx hp
    rw [getElem?_set_ne (by omega)] at hp
    by_cases hic : i = c
    · subst hic
      rw [hpc] at hp
      simp only [getElem?_set, length_set] at hx hp
      grind
    · rw [getElem?_set_ne (by omega)] at hx
      by_cases hih : i = hole
      · subst hih
        have := d.grand c small p hc hpc hi hl (by rw [getElem?_set_ne hne]; exact hs)
          (by rw [getElem?_set_ne (by omega)] at hp ⊢; exact hp)
        simp only [getElem?_set] at hx
        grind
      · rw [getElem?_set_ne (by omega)] at hx
        by_cases hph : (i - 1) / 2 = hole
        · rw [hph] at hp
          simp only [getElem?_set] at hp
          have := hmin i x hi hph hx
          grind
        · exact d.except i x p hi hl hph (by rw [getElem?_set_ne (by omega)]; exact hx)
            (by rw [getElem?_set_ne (by omega)] at hp ⊢; exact hp)
  · intro i x p hi hpi _ hl hx hp
    rw [hpc, getElem?_set_ne (by omega)] at hp
    rw [getElem?_set_ne (by omega), getElem?_set_ne (by omega)] at hx
    have := d.except i x small hi (by omega) (by omega) (by rw [getElem?_set_ne (by omega)]; exact hx)
      (by rw [hpi, getElem?_set_ne hne]; exact hs)
    simp only [getElem?_set] at hp
    grind

theorem fixTooBig_from (D : Decides less R P) (fuel : Nat) (a : List α) (hole : Nat) (r : α) (h : hole < a.length)
    (hlo : lo ≤ hole) (hf : a.length ≤ hole + fuel) (hP : ∀ x ∈ a.set hole r, P x)
    (d : DownFrom R lo (a.set hole r) hole) : OrderedFrom R lo (fixTooBig less fuel a hole a.length r) := by
  induction fuel generalizing a hole with
  | zero => omega
  | succ fuel ih =>
    have hPr : P r := hP r (mem_set h r)
    have hPa : ∀ i x, i ≠ hole → a[i]? = some x → P x := fun i x hi hx =>
      hP x (mem_of_getElem? (i := i) (by rw [getElem?_set_ne (Ne.symm hi)]; exact hx))
    have leaf : ∀ i x p, 0 < i → (i - 1) / 2 = hole → (∀ y, a[i]? = some y → R r y) →
        (a.set hole r)[i]? = some x → (a.set hole r)[hole]? = some p → R p x := by
      intro i x p hi hpi hy hx hp
      rw [getElem?_set_ne (by omega)] at hx
      rw [getElem?_set_self (by omega)] at hp
      cases hp
      exact hy x hx
    simp only [fixTooBig]
    split
    · rename_i h2
      split
      · rename_i left right hl hr
        have hPl := hPa _ _ (by omega) hl
        have hPr' := hPa _ _ (by omega) hr
        -- descending to child `c`, which is not above its sibling
        have down : ∀ c small, (c = 2 * hole + 1 ∨ c = 2 * hole + 2) → a[c]? = some small →
            (∀ i x, 0 < i → (i - 1) / 2 = hole → a[i]? = some x → R small x) →
            OrderedFrom R lo (if less r small then a.set hole r else fixTooBig less fuel (a.set hole small) c a.length r) := by
          intro c small hc hs hmin
          have hPs := hPa _ _ (by omega) hs
          split
          · rename_i hlt
            refine d.finish fun i x p hi hpi hx hp => leaf i x p hi hpi (fun y hy => ?_) hx hp
            exact D.trans hPr hPs (hPa _ _ (by omega) hy) (D.yes hPr hPs hlt) (hmin i y hi hpi hy)
          · rename_i hlt
            have hmv := DownFrom.move d hlo (by omega) (by omega) hs (D.no hPr hPs (by simpa using hlt)) hmin
            have hlen : (a.set hole small).length = a.length := by simp
            rw [← hlen]
            refine ih _ c (by rw [hlen]; exact (List.getElem?_eq_some_iff.mp hs).1) (by omega) (by rw [hlen]; omega) ?_ hmv
            intro x hx
            exact hP x ((set_swap_perm h hs (by omega)).mem_iff.mp hx)
        split
        · rename_i hlr
          refine down _ _ (.inl rfl) hl fun i x hi hpi hx => ?_
          have : i = 2 * hole + 1 ∨ i = 2 * hole + 2 := by omega
          rcases this with rfl | rfl
          · rw [hl] at hx; cases hx
            exact D.refl hPl
          · rw [hr] at hx; cases hx; exact D.yes hPl hPr' hlr
        · rename_i hlr
          refine down _ _ (.inr rfl) hr fun i x hi hpi hx => ?_
          have : i = 2 * hole + 1 ∨ i = 2 * hole + 2 := by omega
          rcases this with rfl | rfl
          · rw [hl] at hx; cases hx; exact D.no hPl hPr' (by simpa using hlr)
          · rw [hr] at hx; cases hx
            exact D.refl hPr'
      · rename_i hno
        exact absurd (getElem?_eq_getElem (show 2 * hole + 2 < a.length by omega))
          (fun e => hno _ _ (getElem?_eq_getElem (by omega)) e)
    · rename_i h2
      split
      · rename_i h1
        split
        · rename_i left hl
          have hPl := hPa _ _ (by omega) hl
          have only : ∀ i, 0 < i → (i - 1) / 2 = hole → i < a.length → i = 2 * hole + 1 := by omega
          split
          · rename_i hlt
            refine d.finish fun i x p hi hpi hx hp => leaf i x p hi hpi (fun y hy => ?_) hx hp
            have := only i hi hpi (List.getElem?_eq_some_iff.mp hy).1
            subst this
            rw [hl] at hy; cases hy
            exact D.yes hPr hPl hlt
          · rename_i hlt
            have hmv := DownFrom.move d hlo (c := 2 * hole + 1) (by omega) (by omega) hl
              (D.no hPr hPl (by simpa using hlt))
              (fun i x hi hpi hx => by
                have := only i hi hpi (List.getElem?_eq_some_iff.mp hx).1
                subst this
                rw [hl] at hx; cases hx
                exact D.refl hPl)
            refine hmv.finish fun i x p hi hpi hx hp => ?_
            have := (List.getElem?_eq_some_iff.mp hx).1
            simp at this
            omega
        · rename_i hno
          rw [getElem?_eq_getElem (by omega)] at hno; cases hno
      · refine d.finish fun i x p hi hpi hx hp => ?_
        have := (List.getElem?_eq_some_iff.mp hx).1
        simp at this
        omega

end sift

theorem fixTooBig_ordered (W : Weak less P) (fuel : Nat) (a : List α) (hole : Nat) (r : α) (h : hole < a.length)
    (hf : a.length ≤ hole + fuel) (hP : ∀ x ∈ a.set hole r, P x) (d : Down less (a.set hole r) hole) :
    Ordered less (fixTooBig less fuel a hole a.length r) :=
  (fixTooBig_from W.decides fuel a hole r h (Nat.zero_le _) hf hP d.downFrom).ordered

theorem fixTooSmall_ordered (W : Weak less P) (fuel : Nat) (a : List α) (hole : Nat) (r : α) (h : hole < a.length)
    (hf : hole < fuel) (hP : ∀ x ∈ a.set hole r, P x) (u : Up less (a.set hole r) hole) :
    Ordered less (fixTooSmall less fuel a hole r) := by
  induction fuel generalizing a hole with
  | zero => omega
  | succ fuel ih =>
    have hPr : P r := hP r (mem_set h r)
    simp only [fixTooSmall]
    split
    · exact u.finish fun x p h0 _ _ => by omega
    · rename_i h0
      split
      · rename_i parent hpar
        have hPp : P parent := hP parent (mem_of_getElem? (i := (hole - 1) / 2)
          (by rw [getElem?_set_ne (by omega)]; exact hpar))
        split
        · rename_i hlt
          refine u.finish fun x p _ hx hp => ?_
          rw [getElem?_set_self (by omega)] at hx
          rw [getElem?_set_ne (by omega), hpar] at hp
          cases hx; cases hp
          exact W.asymm hPp hPr hlt
        · rename_i hlt
          have hlen : (a.set hole parent).length = a.length := by simp
          refine ih _ _ (by rw [hlen]; omega) (by omega) ?_ ?_
          · intro x hx
            exact hP x ((set_swap_perm h hpar (by omega)).mem_iff.mp hx)
          · -- the parent's entry fills the hole, and the hole moves up to its slot
            have hpr : less parent r = false := by simpa using hlt
            constructor
            · intro i x p hi hne hx hp
              rw [getElem?_set_ne (Ne.symm hne)] at hx
              by_cases hih : i = hole
              · subst hih
                rw [getElem?_set_self (by omega)] at hx
                rw [getElem?_set_self (by rw [hlen]; omega)] at hp
                cases hx; cases hp; exact hpr
              · rw [getElem?_set_ne (by omega)] at hx
                have hxa : (a.set hole r)[i]? = some x := by rw [getElem?_set_ne (by omega)]; exact hx
                by_cases hph : (i - 1) / 2 = hole
                · rw [hph, getElem?_set_ne (by omega), getElem?_set_self (by omega)] at hp
                  cases hp
                  exact u.grand i x parent hi hph (by omega) hxa (by rw [getElem?_set_ne (by omega)]; exact hpar)
                · by_cases hpp : (i - 1) / 2 = (hole - 1) / 2
                  · rw [hpp, getElem?_set_self (by rw [hlen]; omega)] at hp
                    cases hp
                    have := u.except i x parent hi hih hxa
                      (by rw [hpp, getElem?_set_ne (by omega)]; exact hpar)
                    exact W.trans (hP x (mem_of_getElem? hxa)) hPp hPr this hpr
                  · rw [getElem?_set_ne (by omega), getElem?_set_ne (by omega)] at hp
                    exact u.except i x p hi hih hxa (by rw [getElem?_set_ne (by omega)]; exact hp)
            · intro i x p hi hpi h0' hx hp
              rw [getElem?_set_ne (by omega), getElem?_set_ne (by omega)] at hp
              have hpp : less parent p = false := u.except ((hole - 1) / 2) parent p h0' (by omega)
                (by rw [getElem?_set_ne (by omega)]; exact hpar)
                (by rw [getElem?_set_ne (by omega)]; exact hp)
              rw [getElem?_set_ne (by omega)] at hx
              by_cases hih : i = hole
              · subst hih
                rw [getElem?_set_self (by omega)] at hx
                cases hx; exact hpp
              · rw [getElem?_set_ne (by omega)] at hx
                have hxa : (a.set hole r)[i]? = some x := by rw [getElem?_set_ne (by omega)]; exact hx
                have := u.except i x parent hi hih hxa (by rw [hpi, getElem?_set_ne (by omega)]; exact hpar)
                refine W.trans (hP x (mem_of_getElem? hxa)) hPp (hP p ?_) this hpp
                exact mem_of_getElem? (i := ((hole - 1) / 2 - 1) / 2)
                  (by rw [getElem?_set_ne (by omega)]; exact hp)
      · rename_i hno
        rw [getElem?_eq_getElem (by omega)] at hno; cases hno

theorem ordered_nil : Ordered less ([] : List α) := fun i x p _ h => by simp at h

theorem push_ordered (W : Weak less P) {a : List α} {r : α} (hP : ∀ x ∈ a, P x) (hr : P r) (h : Ordered less a) :
    Ordered less (push less a r) := by
  have hset : (a ++ [r]).set a.length r = a ++ [r] := by
    rw [List.set_append_right _ _ (Nat.le_refl _)]; simp
  refine fixTooSmall_ordered W _ _ _ _ (by simp) (by omega) ?_ ?_
  · rw [hset]; intro x hx
    rcases List.mem_append.mp hx with hx | hx
    · exact hP x hx
    · simp at hx; exact hx ▸ hr
  · rw [hset]
    constructor
    · intro i x p hi hne hx hp
      have hil : i < a.length := by have := (List.getElem?_eq_some_iff.mp hx).1; simp at this; omega
      rw [List.getElem?_append_left (by omega)] at hx hp
      exact h i x p hi hx hp
    · intro i x p hi hpi h0 hx hp
      have := (List.getElem?_eq_some_iff.mp hx).1
      simp at this; omega

theorem pop_ordered (W : Weak less P) {a a' : List α} {r : α} (hP : ∀ x ∈ a, P x) (h : Ordered less a)
    (hp : pop less a = some (r, a')) : Ordered less a' := by
  have hmem := pop_perm less hp
  unfold pop at hp
  split at hp
  · rename_i hd last hh hl
    have hlen : 0 < a.length := by cases a <;> simp_all
    split at hp
    · cases hp; exact ordered_nil
    · cases hp
      have hd0 : 0 < a.dropLast.length := by rw [length_dropLast]; omega
      have hget : ∀ (i : Nat) (x : α), a.dropLast[i]? = some x → a[i]? = some x := by
        intro i x hx
        rw [getElem?_dropLast] at hx
        split at hx
        · exact hx
        · cases hx
      refine fixTooBig_ordered W _ _ _ _ hd0 (by rw [length_dropLast]; omega) ?_ ?_
      · intro x hx
        rcases List.mem_or_eq_of_mem_set hx with hx | rfl
        · exact hP x ((perm_dropLast hl).mem_iff.mpr (List.mem_cons_of_mem _ hx))
        · exact hP _ (List.mem_of_getLast? hl)
      · constructor
        · intro i x p hi hne hx hp
          rw [getElem?_set_ne (by omega)] at hx hp
          exact h i x p hi (hget _ _ hx) (hget _ _ hp)
        · intro i x p hi hpi h0; omega
  · cases hp

/-- The root is first in the preorder. -/
theorem OrderedFrom.root {R : α → α → Prop} (D : Decides less R P) {a : List α} {r x : α} (hP : ∀ x ∈ a, P x)
    (h : OrderedFrom R 0 a) (hr : a.head? = some r) (hx : x ∈ a) : R r x := by
  obtain ⟨i, hi⟩ := List.getElem?_of_mem hx
  have hPr : P r := hP r (List.mem_of_mem_head? hr)
  rw [List.head?_eq_getElem?] at hr
  induction i using Nat.strongRecOn generalizing x with
  | _ i ih =>
    by_cases h0 : i = 0
    · subst h0
      rw [hr] at hi; cases hi
      exact D.refl hPr
    · have hlt := (List.getElem?_eq_some_iff.mp hi).1
      have hpar := getElem?_eq_getElem (show (i - 1) / 2 < a.length by omega)
      have hmem := mem_of_getElem? hpar
      exact D.trans hPr (hP _ hmem) (hP x hx) (ih _ (by omega) hmem hpar) (h i x _ (by omega) (Nat.zero_le _) hi hpar)

/-- No entry is below the root. -/
theorem top_min (W : Weak less P) {a : List α} {r x : α} (hP : ∀ x ∈ a, P x) (h : Ordered less a)
    (hr : a.head? = some r) (hx : x ∈ a) : less x r = false :=
  OrderedFrom.root W.decides hP (fun i x p hi _ hx hp => h i x p hi hx hp) hr hx

/-- What lies behind the end index is not touched. -/
theorem fixTooBig_append (fuel : Nat) (p q : List α) (hole : Nat) (r : α) (h : hole < p.length) :
    fixTooBig less fuel (p ++ q) hole p.length r = fixTooBig less fuel p hole p.length r ++ q := by
  induction fuel generalizing p hole with
  | zero => exact set_append_left _ _ h
  | succ fuel ih =>
    have down : ∀ c x, c < p.length → fixTooBig less fuel (p.set hole x ++ q) c p.length r =
        fixTooBig less fuel (p.set hole x) c p.length r ++ q := by
      intro c x hc
      have := ih (p.set hole x) c (by rw [length_set]; exact hc)
      rwa [length_set] at this
    simp only [fixTooBig]
    split
    · rename_i h2
      rw [List.getElem?_append_left (by omega), List.getElem?_append_left (by omega),
        getElem?_eq_getElem (by omega), getElem?_eq_getElem (by omega)]
      simp only [set_append_left _ _ h, down _ _ (show 2 * hole + 1 < p.length by omega), down _ _ h2]
      split <;> split <;> rfl
    · split
      · rename_i h1
        have hl : 2 * hole + 1 < p.length := by omega
        rw [List.getElem?_append_left hl, getElem?_eq_getElem hl]
        simp only [set_append_left _ _ h]
        rw [set_append_left _ _ (by rw [length_set]; exact hl)]
        split <;> rfl
      · exact set_append_left _ _ h

/-- Raising entry `i` leaves it to be moved down. -/
theorem Ordered.down (W : Weak less P) {a : List α} {i : Nat} {old r : α} (h : Ordered less a) (hP : ∀ x ∈ a, P x)
    (hr : P r) (hi : a[i]? = some old) (hlt : less old r = true) : Down less (a.set i r) i := by
  have hold : P old := hP old (mem_of_getElem? hi)
  constructor
  · intro j x p hj hne hx hp
    rw [getElem?_set_ne (Ne.symm hne)] at hp
    by_cases e : j = i
    · subst e
      rw [getElem?_set_self (List.getElem?_eq_some_iff.mp hi).1] at hx
      cases hx
      exact W.trans hr hold (hP p (mem_of_getElem? hp)) (W.asymm hold hr hlt) (h j old p hj hi hp)
    · rw [getElem?_set_ne (Ne.symm e)] at hx
      exact h j x p hj hx hp
  · intro j x p hj hpj h0 hx hp
    rw [getElem?_set_ne (by omega)] at hx hp
    have hx' : less x old = false := h j x old hj hx (by rw [hpj]; exact hi)
    exact W.trans (hP x (mem_of_getElem? hx)) hold (hP p (mem_of_getElem? hp)) hx' (h i old p h0 hi hp)

/-- Lowering entry `i` leaves it to be moved up. -/
theorem Ordered.up (W : Weak less P) {a : List α} {i : Nat} {old r : α} (h : Ordered less a) (hP : ∀ x ∈ a, P x)
    (hr : P r) (hi : a[i]? = some old) (hle : less old r = false) : Up less (a.set i r) i := by
  have hold : P old := hP old (mem_of_getElem? hi)
  constructor
  · intro j x p hj hne hx hp
    rw [getElem?_set_ne (Ne.symm hne)] at hx
    by_cases e : (j - 1) / 2 = i
    · subst e
      rw [getElem?_set_self (List.getElem?_eq_some_iff.mp hi).1] at hp
      cases hp
      exact W.trans (hP x (mem_of_getElem? hx)) hold hr (h j x old hj hx hi) hle
    · rw [getElem?_set_ne (Ne.symm e)] at hp
      exact h j x p hj hx hp
  · intro j x p hj hpj h0 hx hp
    rw [getElem?_set_ne (by omega)] at hx hp
    have hx' : less x old = false := h j x old hj hx (by rw [hpj]; exact hi)
    exact W.trans (hP x (mem_of_getElem? hx)) hold (hP p (mem_of_getElem? hp)) hx' (h i old p h0 hi hp)

theorem mem_set_of_all {a : List α} {i : Nat} {r : α} (hP : ∀ x ∈ a, P x) (hr : P r) : ∀ x ∈ a.set i r, P x := by
  intro x hx
  rcases List.mem_or_eq_of_mem_set hx with hx | rfl
  · exact hP x hx
  · exact hr

theorem updateAt_ordered (W : Weak less P) {a : List α} {i : Nat} {r : α} (hP : ∀ x ∈ a, P x) (hr : P r)
    (h : Ordered less a) : Ordered less (updateAt less a i r) := by
  unfold updateAt
  split
  · rename_i old hi
    have hlt := (List.getElem?_eq_some_iff.mp hi).1
    split
    · rename_i hl
      exact fixTooBig_ordered W _ _ _ _ hlt (by omega) (mem_set_of_all hP hr) (h.down W hP hr hi hl)
    · rename_i hl
      exact fixTooSmall_ordered W _ _ _ _ hlt (by omega) (mem_set_of_all hP hr) (h.up W hP hr hi (by simpa using hl))
  · exact h

theorem Ordered.dropLast {a : List α} (h : Ordered less a) : Ordered less a.dropLast := by
  intro i x p hi hx hp
  rw [getElem?_dropLast] at hx hp
  split at hx
  · split at hp
    · exact h i x p hi hx hp
    · cases hp
  · cases hx

theorem removeAt_ordered (W : Weak less P) {a : List α} {i : Nat} (hP : ∀ x ∈ a, P x) (h : Ordered less a) :
    Ordered less (removeAt less a i) := by
  unfold removeAt
  split
  · rename_i r last hr hl
    have hlt := (List.getElem?_eq_some_iff.mp hr).1
    have hP' : ∀ x ∈ a.dropLast, P x := fun x hx => hP x (List.dropLast_subset a hx)
    have hlast : P last := hP last (List.mem_of_getLast? hl)
    split
    · exact h.dropLast
    · rename_i hne
      have hi : a.dropLast[i]? = some r := by rw [getElem?_dropLast, if_pos (by omega), hr]
      have hlt' : i < a.dropLast.length := (List.getElem?_eq_some_iff.mp hi).1
      have hlen : a.dropLast.length = a.length - 1 := length_dropLast
      simp only
      split
      · rename_i hl'
        exact fixTooBig_ordered W _ _ _ _ hlt' (by omega) (mem_set_of_all hP' hlast) (h.dropLast.down W hP' hlast hi hl')
      · rename_i hl'
        exact fixTooSmall_ordered W _ _ _ _ hlt' (by omega) (mem_set_of_all hP' hlast)
          (h.dropLast.up W hP' hlast hi (by simpa using hl'))
  · exact h

theorem updateAt_perm {a : List α} {i : Nat} {old r : α} (h : a[i]? = some old) :
    (updateAt less a i r).Perm (a.set i r) := by
  have hlt := (List.getElem?_eq_some_iff.mp h).1
  unfold updateAt
  rw [h]
  simp only
  split
  · exact fixTooBig_perm less _ _ _ _ _ hlt
  · exact fixTooSmall_perm less _ _ _ _ hlt

end BinHeap
