/-
  BubbleStorm.Util.Heap.ManagedHeapProofs — what each call does to the entries.

  `Holds off K V h e`: the heap keeps the entries `e` (records with their keys), each
  record in it knows its slot, every other record `r` has offset `off r`, and the keys and
  values are those of `K` and `V`. Each call is the list operation of `BinHeap` on the
  entries and raises nothing.
-/

import BubbleStorm.Util.Heap.ManagedHeap

namespace BubbleStorm.Util.Heap.ManagedHeap

open Function (update_eq_self update_of_ne update_self)
open Lib (bind_eq_ok)

variable {ρ κ β : Type} [DecidableEq ρ] {L : κ → κ → Bool}

/-- Entries are compared by their keys. -/
def byKey (L : κ → κ → Bool) (x y : ρ × κ) : Bool := L x.2 y.2

structure Holds (off : ρ → Int) (K : ρ → κ) (V : ρ → β) (h : ManagedHeap ρ κ β) (e : List (ρ × κ)) : Prop where
  stack : h.stack.Holds (e.map fun x => some x.1)
  nill : h.stack.nill = none
  key : ∀ r, (h.mem r).key = K r
  value : ∀ r, (h.mem r).value = V r
  linked : ∀ (i : Nat) x, e[i]? = some x → (h.mem x.1).offset = i ∧ x.2 = K x.1
  outside : ∀ r, (∀ x ∈ e, x.1 ≠ r) → (h.mem r).offset = off r

/-- `Holds` while `r` is being placed and slot `i` is open. -/
structure Open (off : ρ → Int) (K : ρ → κ) (V : ρ → β) (i : Nat) (h : ManagedHeap ρ κ β) (e : List (ρ × κ)) (r : ρ) :
    Prop where
  stack : ∃ y, h.stack.Holds ((e.map fun x => some x.1).set i y)
  nill : h.stack.nill = none
  key : ∀ r, (h.mem r).key = K r
  value : ∀ r, (h.mem r).value = V r
  linked : ∀ (j : Nat) x, j ≠ i → e[j]? = some x → (h.mem x.1).offset = j ∧ x.2 = K x.1 ∧ x.1 ≠ r
  outside : ∀ q, q ≠ r → (∀ (j : Nat) x, j ≠ i → e[j]? = some x → x.1 ≠ q) → (h.mem q).offset = off q

@[simp] theorem assign_stack (h : ManagedHeap ρ κ β) (r : ρ) (x : Record κ β) : (h.assign r x).stack = h.stack := rfl

@[simp] theorem assign_same (h : ManagedHeap ρ κ β) (r : ρ) (x : Record κ β) : (h.assign r x).mem r = x := by
  simp [assign]

theorem assign_ne (h : ManagedHeap ρ κ β) {r q : ρ} (x : Record κ β) (hq : q ≠ r) : (h.assign r x).mem q = h.mem q := by
  simp [assign, hq]

theorem assign_mem {h h' : ManagedHeap ρ κ β} (hm : h'.mem = h.mem) (r : ρ) (x : Record κ β) :
    (h'.assign r x).mem = (h.assign r x).mem := by
  rw [assign, assign, hm]

theorem assign_offset_key (h : ManagedHeap ρ κ β) (r q : ρ) (i : Int) :
    ((h.assign r { h.mem r with offset := i }).mem q).key = (h.mem q).key := by
  by_cases e : q = r
  · subst e
    simp
  · rw [assign_ne h _ e]

theorem assign_offset_value (h : ManagedHeap ρ κ β) (r q : ρ) (i : Int) :
    ((h.assign r { h.mem r with offset := i }).mem q).value = (h.mem q).value := by
  by_cases e : q = r
  · subst e
    simp
  · rw [assign_ne h _ e]

section sift

variable {off : ρ → Int} {K : ρ → κ} {V : ρ → β} {h : ManagedHeap ρ κ β} {e : List (ρ × κ)} {r : ρ} {i : Nat}

/-- A store writes the slot and the record. -/
theorem Open.store (o : Open off K V i h e r) (hi : i < e.length) (c : ρ) :
    ∃ h', (ops L).store h i c = .ok h' ∧ h'.mem = (h.assign c { h.mem c with offset := i }).mem ∧
      h'.stack.Holds ((e.map fun x => some x.1).set i (some c)) ∧ h'.stack.nill = none := by
  obtain ⟨y, hy⟩ := o.stack
  obtain ⟨stack', he, hh, hn⟩ := hy.update (i := i) (by simpa using hi) (some c)
  refine ⟨{ h with stack := stack' }.assign c { h.mem c with offset := i }, ?_, rfl, ?_, hn.trans o.nill⟩
  · simp only [ops, he, raise]
    rfl
  · rwa [List.set_set] at hh

theorem Open.read (o : Open off K V i h e r) {j : Nat} {x : ρ × κ} (hj : j ≠ i) (hx : e[j]? = some x) :
    (ops L).extract h j = .ok x.1 := by
  obtain ⟨y, hy⟩ := o.stack
  have hs : h.stack.sub j = .ok (some x.1) := by
    apply hy.sub
    rw [List.getElem?_set_ne (Ne.symm hj), List.getElem?_map, hx]
    rfl
  simp only [ops, hs, raise]
  rfl

theorem Open.move (o : Open off K V i h e r) (hi : i < e.length) {j : Nat} {x : ρ × κ} (hj : j ≠ i) (hx : e[j]? = some x) :
    ∃ h', (ops L).store h i x.1 = .ok h' ∧ Open off K V j h' (e.set i x) r := by
  obtain ⟨h', he, hm, hs, hn⟩ := o.store (L := L) hi x.1
  have hxr := (o.linked j x hj hx).2.2
  refine ⟨h', he, ⟨?_, hn, ?_, ?_, ?_, ?_⟩⟩
  · obtain ⟨hjl, hje⟩ := List.getElem?_eq_some_iff.mp hx
    refine ⟨some x.1, ?_⟩
    rw [List.map_set]
    have hself : ((e.map fun x => some x.1).set i (some x.1)).set j (some x.1) = (e.map fun x => some x.1).set i (some x.1) := by
      rw [List.set_comm _ _ (Ne.symm hj)]
      congr 1
      conv => rhs; rw [← @List.set_getElem_self _ (e.map fun x => some x.1) j (by simpa using hjl)]
      simp [hje]
    rw [hself]
    exact hs
  · intro q
    rw [hm, assign_offset_key, o.key]
  · intro q
    rw [hm, assign_offset_value, o.value]
  · intro k y hk hy
    by_cases hki : k = i
    · subst hki
      rw [List.getElem?_set_self hi] at hy
      cases hy
      rw [hm, assign_same]
      exact ⟨rfl, (o.linked j x hj hx).2.1, hxr⟩
    · rw [List.getElem?_set_ne (Ne.symm hki)] at hy
      have hy' := o.linked k y hki hy
      have hne : y.1 ≠ x.1 := by
        intro hyx
        have h1 := hy'.1
        have h2 := (o.linked j x hj hx).1
        rw [hyx, h2] at h1
        omega
      rw [hm, assign_ne h _ hne]
      exact hy'
  · intro q hq hqe
    have hqx : x.1 ≠ q := hqe i x (Ne.symm hj) (List.getElem?_set_self hi)
    rw [hm, assign_ne h _ (Ne.symm hqx)]
    apply o.outside q hq
    intro k y hk hy
    by_cases hkj : k = j
    · subst hkj
      rw [hx] at hy
      cases hy
      exact hqx
    · exact hqe k y hkj (by rw [List.getElem?_set_ne (Ne.symm hk)]; exact hy)

theorem Open.fill (o : Open off K V i h e r) (hi : i < e.length) :
    ∃ h', (ops L).store h i r = .ok h' ∧ Holds off K V h' (e.set i (r, K r)) := by
  obtain ⟨h', he, hm, hs, hn⟩ := o.store (L := L) hi r
  refine ⟨h', he, ⟨?_, hn, ?_, ?_, ?_, ?_⟩⟩
  · rw [List.map_set]
    exact hs
  · intro q
    rw [hm, assign_offset_key, o.key]
  · intro q
    rw [hm, assign_offset_value, o.value]
  · intro j x hx
    by_cases hj : j = i
    · subst hj
      rw [List.getElem?_set_self hi] at hx
      cases hx
      rw [hm, assign_same]
      exact ⟨rfl, rfl⟩
    · rw [List.getElem?_set_ne (Ne.symm hj)] at hx
      obtain ⟨ho, hk, hne⟩ := o.linked j x hj hx
      rw [hm, assign_ne h _ hne]
      exact ⟨ho, hk⟩
  · intro q hq
    have hqr : q ≠ r := Ne.symm (hq (r, K r) (List.mem_set hi _))
    rw [hm, assign_ne h _ hqr]
    apply o.outside q hqr
    intro j x hj hx
    exact hq x (List.mem_of_getElem? (i := j) (by rw [List.getElem?_set_ne (Ne.symm hj)]; exact hx))

theorem keeps (off : ρ → Int) (K : ρ → κ) (V : ρ → β) :
    Keeps (ops L) (byKey L) (fun (h : ManagedHeap ρ κ β) r => (r, (h.mem r).key)) (Open off K V) (Holds off K V) where
  less_eq _ _ _ := rfl
  read := by
    intro i h e r o j x hj hx
    refine ⟨x.1, o.read hj hx, ?_⟩
    rw [o.key, ← (o.linked j x hj hx).2.1]
  move := by
    intro i h e r o hi j x c hj hx hc
    rw [o.read hj hx] at hc
    cases hc
    obtain ⟨h', he, ho⟩ := o.move (L := L) hi hj hx
    exact ⟨h', he, ho, by rw [ho.key, o.key]⟩
  fill := by
    intro i h e r o hi
    obtain ⟨h', he, hf⟩ := o.fill (L := L) hi
    exact ⟨h', he, by rw [o.key]; exact hf⟩

theorem Open.fixTooBig (o : Open off K V i h e r) (hi : i < e.length) (fuel : Nat) (hf : e.length ≤ i + fuel) :
    ∃ h', Heap.fixTooBig (ops L) h i e.length r = .ok h' ∧
      Holds off K V h' (BinHeap.fixTooBig (byKey L) fuel e i e.length (r, K r)) := by
  have := fixTooBig_keeps (keeps (L := L) off K V) fuel o hi (Nat.le_refl _) hf
  rwa [o.key] at this

theorem Open.fixTooSmall (o : Open off K V i h e r) (hi : i < e.length) (fuel : Nat) (hf : i ≤ fuel) :
    ∃ h', Heap.fixTooSmall (ops L) h i r = .ok h' ∧
      Holds off K V h' (BinHeap.fixTooSmall (byKey L) fuel e i (r, K r)) := by
  have := fixTooSmall_keeps (keeps (L := L) off K V) fuel o hi hf
  rwa [o.key] at this

end sift

/-! ## The calls -/

section calls

variable {off : ρ → Int} {K : ρ → κ} {V : ρ → β} {h : ManagedHeap ρ κ β} {e : List (ρ × κ)} {r : ρ}

omit [DecidableEq ρ] in
/-- A record is in one slot only. -/
theorem Holds.inj (H : Holds off K V h e) {i j : Nat} {x y : ρ × κ} (hx : e[i]? = some x) (hy : e[j]? = some y)
    (hxy : x.1 = y.1) : i = j := by
  have h1 := (H.linked i x hx).1
  have h2 := (H.linked j y hy).1
  rw [hxy, h2] at h1
  omega

omit [DecidableEq ρ] in
theorem Holds.length (H : Holds off K V h e) : h.stack.length = e.length := by
  rw [H.stack.length, List.length_map]

omit [DecidableEq ρ] in
/-- Placing a record that is in no other slot. -/
theorem Holds.reopen (H : Holds off K V h e) {i : Nat} (hne : ∀ j x, j ≠ i → e[j]? = some x → x.1 ≠ r)
    (hi : ∀ x, e[i]? = some x → x.1 = r) : Open off K V i h e r := by
  refine ⟨?_, H.nill, H.key, H.value, ?_, ?_⟩
  · by_cases hlt : i < e.length
    · exact ⟨some e[i].1, by
        have := H.stack
        rwa [← @List.set_getElem_self _ (e.map fun x => some x.1) i (by simpa using hlt), List.getElem_map] at this⟩
    · refine ⟨none, ?_⟩
      rw [List.set_eq_of_length_le (by simpa using hlt)]
      exact H.stack
  · intro j x hj hx
    exact ⟨(H.linked j x hx).1, (H.linked j x hx).2, hne j x hj hx⟩
  · intro q hq hqe
    apply H.outside q
    intro x hx hxq
    obtain ⟨j, hj⟩ := List.getElem?_of_mem hx
    by_cases hji : j = i
    · subst hji
      exact hq (hxq.symm.trans (hi x hj))
    · exact hqe j x hji hj hxq

theorem Holds.append (H : Holds off K V h e) (hr : ∀ x ∈ e, x.1 ≠ r) :
    ∃ h', append L h r = .ok h' ∧ Holds off K V h' (BinHeap.push (byKey L) e (r, K r)) := by
  obtain ⟨stack', he, hs, hn⟩ := H.stack.push (some r)
  have o : Open off K V e.length { h with stack := stack' } (e ++ [(r, K r)]) r := by
    refine ⟨⟨some r, ?_⟩, hn.trans H.nill, H.key, H.value, ?_, ?_⟩
    · rw [List.map_append, List.set_append_right _ _ (by simp)]
      simpa using hs
    · intro j x hj hx
      have hlt : j < e.length := by
        have := (List.getElem?_eq_some_iff.mp hx).1
        simp at this
        omega
      rw [List.getElem?_append_left hlt] at hx
      exact ⟨(H.linked j x hx).1, (H.linked j x hx).2, hr x (List.mem_of_getElem? hx)⟩
    · intro q _ hq
      apply H.outside q
      intro x hx
      obtain ⟨j, hj⟩ := List.getElem?_of_mem hx
      have hlt := (List.getElem?_eq_some_iff.mp hj).1
      exact hq j x (by omega) (by rw [List.getElem?_append_left hlt]; exact hj)
  obtain ⟨h', hf, hh⟩ := o.fixTooSmall (L := L) (by simp) (e.length + 1) (by omega)
  refine ⟨h', ?_, hh⟩
  simp only [ManagedHeap.append, he, raise]
  rw [List.length_map]
  exact hf

/-- Forgetting that a record had a slot. -/
theorem Holds.assign {i : Int} (H : Holds (Function.update off r i) K V h e) (hr : ∀ x ∈ e, x.1 ≠ r) (k : Int) :
    Holds (Function.update off r k) K V (h.assign r { h.mem r with offset := k }) e := by
  refine ⟨H.stack, H.nill, ?_, ?_, ?_, ?_⟩
  · intro q
    rw [assign_offset_key, H.key]
  · intro q
    rw [assign_offset_value, H.value]
  · intro j x hx
    rw [assign_ne h _ (hr x (List.mem_of_getElem? hx))]
    exact H.linked j x hx
  · intro q hq
    by_cases e' : q = r
    · subst e'
      simp
    · rw [assign_ne h _ e', H.outside q hq, update_of_ne e', update_of_ne e']

omit [DecidableEq ρ] in
theorem assign_mem_eq (H : Holds off K V h e) (r : ρ) (i : Int) :
    ({ h.mem r with offset := i } : Record κ β) = { offset := i, key := K r, value := V r } := by
  rw [← H.key r, ← H.value r]

omit [DecidableEq ρ] in
/-- The last slot is given up. -/
theorem Holds.stackPop {last : ρ × κ} (H : Holds off K V h e) (hl : e.getLast? = some last) :
    ∃ h', h.stackPop = .ok (some (some last.1), h') ∧ h'.mem = h.mem ∧
      h'.stack.Holds (e.dropLast.map fun x => some x.1) ∧ h'.stack.nill = none := by
  have hne : e ≠ [] := by
    intro same
    subst same
    cases hl
  have he : e = e.dropLast ++ [last] := by
    rw [List.getLast?_eq_getLast_of_ne_nil hne] at hl
    cases hl
    exact (List.dropLast_append_getLast hne).symm
  have hs := H.stack
  rw [he, List.map_append] at hs
  obtain ⟨stack', hp, hh, hn⟩ := hs.pop
  refine ⟨{ h with stack := stack' }, ?_, rfl, hh, hn.trans H.nill⟩
  simp only [ManagedHeap.stackPop, hp, raise]
  rfl

omit [DecidableEq ρ] in
theorem getElem?_dropLast_some {e : List (ρ × κ)} {j : Nat} {x : ρ × κ} (hx : e.dropLast[j]? = some x) : e[j]? = some x := by
  rw [List.getElem?_dropLast] at hx
  split at hx
  · exact hx
  · cases hx

/-- Taking out entry `x` of slot `i`: the last entry is to be placed there. -/
theorem Holds.takeOut {g : ManagedHeap ρ κ β} {x last : ρ × κ} {i : Nat} {k : Int} (H : Holds off K V h e)
    (hx : e[i]? = some x) (hl : e.getLast? = some last) (hi : i + 1 < e.length)
    (hs : g.stack.Holds (e.dropLast.map fun x => some x.1)) (hn : g.stack.nill = none)
    (hmem : ∀ q, q ≠ x.1 → g.mem q = h.mem q) (hkey : (g.mem x.1).key = K x.1) (hval : (g.mem x.1).value = V x.1)
    (hoff : (g.mem x.1).offset = k) : Open (Function.update off x.1 k) K V i g e.dropLast last.1 := by
  have hlast : e[e.length - 1]? = some last := by rw [← List.getLast?_eq_getElem?, hl]
  have hlen : e.dropLast.length = e.length - 1 := List.length_dropLast
  refine ⟨⟨(e.dropLast.map fun x => some x.1).get ⟨i, by rw [List.length_map]; omega⟩, ?_⟩, hn, ?_, ?_, ?_, ?_⟩
  · rwa [List.get_eq_getElem, List.set_getElem_self]
  · intro q
    by_cases hq : q = x.1
    · rw [hq, hkey]
    · rw [hmem q hq, H.key]
  · intro q
    by_cases hq : q = x.1
    · rw [hq, hval]
    · rw [hmem q hq, H.value]
  · intro j y hj hy
    have hjl := (List.getElem?_eq_some_iff.mp hy).1
    have hy' := getElem?_dropLast_some hy
    have hyx : y.1 ≠ x.1 := fun hyx => hj (H.inj hy' hx hyx)
    have hyl : y.1 ≠ last.1 := fun hyl => by
      have := H.inj hy' hlast hyl
      omega
    rw [hmem _ hyx]
    exact ⟨(H.linked j y hy').1, (H.linked j y hy').2, hyl⟩
  · intro q hql hq
    by_cases hqx : q = x.1
    · rw [hqx, hoff, update_self]
    · rw [hmem q hqx, update_of_ne hqx]
      apply H.outside q
      intro y hy
      obtain ⟨j, hj⟩ := List.getElem?_of_mem hy
      have hjl := (List.getElem?_eq_some_iff.mp hj).1
      by_cases hji : j = i
      · subst hji
        rw [hx] at hj
        cases hj
        exact Ne.symm hqx
      · by_cases hjn : j = e.length - 1
        · subst hjn
          rw [hlast] at hj
          cases hj
          exact Ne.symm hql
        · exact hq j y hji (by rw [List.getElem?_dropLast, if_pos (by omega), hj])

/-- Without its last entry `last`. -/
theorem Holds.dropLast {g : ManagedHeap ρ κ β} {last : ρ × κ} {k : Int} (H : Holds off K V h e)
    (hl : e.getLast? = some last) (hs : g.stack.Holds (e.dropLast.map fun x => some x.1)) (hn : g.stack.nill = none)
    (hmem : g.mem = (h.assign last.1 { h.mem last.1 with offset := k }).mem) :
    Holds (Function.update off last.1 k) K V g e.dropLast := by
  have hlast : e[e.length - 1]? = some last := by rw [← List.getLast?_eq_getElem?, hl]
  refine ⟨hs, hn, ?_, ?_, ?_, ?_⟩
  · intro q
    rw [hmem, assign_offset_key, H.key]
  · intro q
    rw [hmem, assign_offset_value, H.value]
  · intro j x hx
    have hjl := (List.getElem?_eq_some_iff.mp hx).1
    have hx' := getElem?_dropLast_some hx
    have hne : x.1 ≠ last.1 := fun hxl => by
      have := H.inj hx' hlast hxl
      rw [List.length_dropLast] at hjl
      omega
    rw [hmem, assign_ne h _ hne]
    exact H.linked j x hx'
  · intro q hq
    by_cases hql : q = last.1
    · subst hql
      rw [hmem, assign_same, update_self]
    · rw [hmem, assign_ne h _ hql, update_of_ne hql]
      apply H.outside q
      intro x hx
      rcases List.mem_cons.mp ((BinHeap.perm_dropLast hl).mem_iff.mp hx) with rfl | hx
      · exact Ne.symm hql
      · exact hq x hx

/-- A new key for a record that is in no slot. -/
theorem Holds.rekey (H : Holds off K V h e) (hr : ∀ x ∈ e, x.1 ≠ r) (k : κ) :
    Holds off (Function.update K r k) V (h.assign r { h.mem r with key := k }) e := by
  refine ⟨H.stack, H.nill, ?_, ?_, ?_, ?_⟩
  · intro q
    by_cases hq : q = r
    · subst hq
      simp
    · rw [assign_ne h _ hq, update_of_ne hq, H.key]
  · intro q
    by_cases hq : q = r
    · subst hq
      simp [H.value]
    · rw [assign_ne h _ hq, H.value]
  · intro j x hx
    have hne := hr x (List.mem_of_getElem? hx)
    rw [assign_ne h _ hne, update_of_ne hne]
    exact H.linked j x hx
  · intro q hq
    by_cases hqr : q = r
    · subst hqr
      simpa using H.outside q hq
    · rw [assign_ne h _ hqr, H.outside q hq]

/-- A new key for the record that is being placed. -/
theorem Open.rekey {i : Nat} (o : Open off K V i h e r) (k : κ) :
    Open off (Function.update K r k) V i (h.assign r { h.mem r with key := k }) e r := by
  refine ⟨o.stack, o.nill, ?_, ?_, ?_, ?_⟩
  · intro q
    by_cases hq : q = r
    · subst hq
      simp
    · rw [assign_ne h _ hq, update_of_ne hq, o.key]
  · intro q
    by_cases hq : q = r
    · subst hq
      simp [o.value]
    · rw [assign_ne h _ hq, o.value]
  · intro j x hj hx
    have hne := (o.linked j x hj hx).2.2
    rw [assign_ne h _ hne, update_of_ne hne]
    exact o.linked j x hj hx
  · intro q hq hqe
    rw [assign_ne h _ hq]
    exact o.outside q hq hqe

theorem Holds.revalue (H : Holds off K V h e) (r : ρ) (v : β) :
    Holds off K (Function.update V r v) (h.updateValue r v) e := by
  have hrest : ∀ q, ((h.updateValue r v).mem q).offset = (h.mem q).offset ∧ ((h.updateValue r v).mem q).key = (h.mem q).key := by
    intro q
    by_cases hq : q = r
    · subst hq
      simp [updateValue]
    · rw [updateValue, assign_ne h _ hq]
      exact ⟨rfl, rfl⟩
  refine ⟨H.stack, H.nill, ?_, ?_, ?_, ?_⟩
  · intro q
    rw [(hrest q).2, H.key]
  · intro q
    by_cases hq : q = r
    · subst hq
      simp [updateValue]
    · rw [updateValue, assign_ne h _ hq, update_of_ne hq, H.value]
  · intro j x hx
    rw [(hrest x.1).1]
    exact H.linked j x hx
  · intro q hq
    rw [(hrest q).1]
    exact H.outside q hq

end calls

/-! ## A heap of which no record is stale -/

/-- The heap keeps the entries `e`, and a record outside of it says so. -/
abbrev Kept (K : ρ → κ) (V : ρ → β) (h : ManagedHeap ρ κ β) (e : List (ρ × κ)) : Prop := Holds (fun _ => -1) K V h e

section kept

variable {K : ρ → κ} {V : ρ → β} {h : ManagedHeap ρ κ β} {e : List (ρ × κ)} {r : ρ}

theorem update_const (r : ρ) (i : Int) : Function.update (fun _ : ρ => i) r i = fun _ => i :=
  update_eq_self r (fun _ => i)

omit [DecidableEq ρ] in
theorem kept_new (key : ρ → κ) (value : ρ → β) : Kept key value (new key value) [] :=
  ⟨Stack.holds_emptyData none, rfl, fun _ => rfl, fun _ => rfl, fun i x hx => by simp at hx, fun _ _ => rfl⟩

omit [DecidableEq ρ] in
theorem Holds.offset_of_mem (H : Kept K V h e) (hr : ∀ x ∈ e, x.1 ≠ r) : (h.mem r).offset = -1 := H.outside r hr

omit [DecidableEq ρ] in
theorem Holds.find (H : Kept K V h e) (hoff : (h.mem r).offset ≠ -1) : ∃ i : Nat, e[i]? = some (r, K r) := by
  by_contra hne
  apply hoff
  apply H.outside r
  intro x hx same
  subst same
  obtain ⟨i, hi⟩ := List.getElem?_of_mem hx
  exact hne ⟨i, by rw [hi, ← (H.linked i x hi).2]⟩

theorem Holds.wrongHeap {i : Nat} {x : ρ × κ} (H : Kept K V h e) (hx : e[i]? = some x) : h.wrongHeap x.1 = .ok false := by
  have hlt := (List.getElem?_eq_some_iff.mp hx).1
  have hs : h.stack.sub i = .ok (some x.1) := H.stack.sub (by rw [List.getElem?_map, hx]; rfl)
  rw [ManagedHeap.wrongHeap, (H.linked i x hx).1, H.length, if_neg (by omega), slot, if_neg (by omega)]
  simp only [Int.toNat_natCast, hs, raise]
  show Except.ok (decide (x.1 ≠ x.1)) = _
  simp

theorem Holds.pop_nil (H : Kept K V h []) : pop L h = .ok (none, h) := by
  have hs := H.stack.sub_zero
  rw [H.nill] at hs
  simp only [pop, hs, raise]
  rfl

theorem Holds.pop_some {x : ρ × κ} {e' : List (ρ × κ)} (H : Kept K V h e) (hp : BinHeap.pop (byKey L) e = some (x, e')) :
    ∃ h', pop L h = .ok (some x.1, h') ∧ Kept K V h' e' := by
  have hhead := BinHeap.pop_head _ hp
  have hx : e[0]? = some x := by rw [← List.head?_eq_getElem?, hhead]
  have hlt := (List.getElem?_eq_some_iff.mp hx).1
  have hs : h.stack.sub 0 = .ok (some x.1) := H.stack.sub (by rw [List.getElem?_map, hx]; rfl)
  obtain ⟨last, hl⟩ : ∃ last, e.getLast? = some last :=
    ⟨_, List.getLast?_eq_getLast_of_ne_nil (by rintro rfl; cases hhead)⟩
  obtain ⟨h1, hpop, hm1, hs1, hn1⟩ := H.stackPop hl
  rw [BinHeap.pop, hhead, hl] at hp
  simp only [pop, hs, raise]
  by_cases h1l : e.length = 1
  · simp only [h1l, if_true] at hp
    cases hp
    have hlast : x = last := by
      obtain ⟨y, rfl⟩ := List.length_eq_one_iff.mp h1l
      simp at hl hhead
      rw [← hl, ← hhead]
    subst hlast
    refine ⟨h1.assign x.1 { h.mem x.1 with offset := -1 }, ?_, ?_⟩
    · show (replaceRoot L h >>= _) = _
      rw [replaceRoot, if_pos (by rw [H.length, h1l]), hpop]
      rfl
    · have hd : e.dropLast = [] := by
        obtain ⟨y, rfl⟩ := List.length_eq_one_iff.mp h1l
        rfl
      have := H.dropLast (g := h1.assign x.1 { h.mem x.1 with offset := -1 }) (k := -1) hl hs1 hn1
        (assign_mem hm1 _ _)
      rwa [update_const, hd] at this
  · simp only [h1l, if_false] at hp
    cases hp
    have hoff := (H.linked 0 x hx).1
    have o := H.takeOut (g := h1) (k := 0) hx hl (by omega) hs1 hn1 (fun q _ => by rw [hm1]) (by rw [hm1, H.key])
      (by rw [hm1, H.value]) (by rw [hm1, hoff]; rfl)
    have hlen : e.dropLast.length = e.length - 1 := List.length_dropLast
    obtain ⟨h2, hf, H2⟩ := o.fixTooBig (L := L) (by omega) e.length (by omega)
    have hlk : (last.1, K last.1) = last := by
      obtain ⟨j, hj⟩ := List.getElem?_of_mem (List.mem_of_getLast? hl)
      rw [← (H.linked j last hj).2]
    rw [hlk] at H2
    have hr : ∀ y ∈ BinHeap.fixTooBig (byKey L) e.length e.dropLast 0 e.dropLast.length last, y.1 ≠ x.1 := by
      intro y hy hyx
      have hy' := (BinHeap.fixTooBig_perm (byKey L) _ _ _ _ _ (by omega)).mem_iff.mp hy
      obtain ⟨j, hj⟩ := List.getElem?_of_mem hy'
      by_cases hj0 : j = 0
      · subst hj0
        rw [List.getElem?_set_self (by omega)] at hj
        cases hj
        have := H.inj (j := 0) (x := last) (y := x) (by rw [← List.getLast?_eq_getElem?, hl]) hx hyx
        omega
      · rw [List.getElem?_set_ne (Ne.symm hj0)] at hj
        exact hj0 (H.inj (getElem?_dropLast_some hj) hx hyx)
    have H3 := H2.assign hr (-1)
    rw [update_const, assign_mem_eq H2] at H3
    refine ⟨_, ?_, H3⟩
    show (replaceRoot L h >>= _) = _
    rw [replaceRoot, if_neg (by rw [H.length]; exact h1l), hpop, H.length, ← hlen]
    show (Heap.fixTooBig (ops L) h1 0 e.dropLast.length last.1 >>= _) = _
    rw [hf, ← assign_mem_eq H]
    rfl

theorem Holds.popBounded_none {k : κ} (H : Kept K V h e) (hp : ∀ x, e.head? = some x → L k x.2 = true) :
    popBounded L h k = .ok (none, h) := by
  cases e with
  | nil =>
    have hs := H.stack.sub_zero
    rw [H.nill] at hs
    simp only [popBounded, popIf, hs, raise]
    rfl
  | cons x e =>
    have hs : h.stack.sub 0 = .ok (some x.1) := H.stack.sub rfl
    have hk := hp x rfl
    simp only [popBounded, popIf, hs, raise]
    show (if popBounded.fn L k ((h.mem x.1).key, (h.mem x.1).value) then _ else _) = _
    rw [popBounded.fn, H.key, ← (H.linked 0 x rfl).2, hk]
    rfl

theorem Holds.popBounded_some {k : κ} {x : ρ × κ} {e' : List (ρ × κ)} (H : Kept K V h e)
    (hp : BinHeap.pop (byKey L) e = some (x, e')) (hk : L k x.2 = false) :
    ∃ h', popBounded L h k = .ok (some x.1, h') ∧ Kept K V h' e' := by
  have hhead := BinHeap.pop_head _ hp
  have hx : e[0]? = some x := by rw [← List.head?_eq_getElem?, hhead]
  have hs : h.stack.sub 0 = .ok (some x.1) := H.stack.sub (by rw [List.getElem?_map, hx]; rfl)
  simp only [popBounded, popIf, hs, raise]
  show ∃ h', (if popBounded.fn L k ((h.mem x.1).key, (h.mem x.1).value) then pop L h else _) = _ ∧ _
  rw [popBounded.fn, H.key, ← (H.linked 0 x hx).2, hk]
  exact H.pop_some hp

theorem Holds.push_in {i : Nat} {x : ρ × κ} (H : Kept K V h e) (hx : e[i]? = some x) : push L h x.1 = .ok h := by
  rw [push, (H.linked i x hx).1, if_neg (by omega), H.wrongHeap hx]
  rfl

theorem Holds.push_out (H : Kept K V h e) (hr : ∀ x ∈ e, x.1 ≠ r) :
    ∃ h', push L h r = .ok h' ∧ Kept K V h' (BinHeap.push (byKey L) e (r, K r)) := by
  rw [push, if_pos (H.offset_of_mem hr)]
  exact H.append hr

theorem Holds.update_out (H : Kept K V h e) (hr : ∀ x ∈ e, x.1 ≠ r) (k : κ) :
    ∃ h', update L h r k = .ok h' ∧ Kept (Function.update K r k) V h' (BinHeap.push (byKey L) e (r, k)) := by
  rw [update, if_pos (H.offset_of_mem hr)]
  have := (H.rekey hr k).append (L := L) hr
  rwa [update_self] at this

theorem Holds.update_in {i : Nat} {x : ρ × κ} (H : Kept K V h e) (hx : e[i]? = some x) (k : κ) :
    ∃ h', update L h x.1 k = .ok h' ∧ Kept (Function.update K x.1 k) V h' (BinHeap.updateAt (byKey L) e i (x.1, k)) := by
  have hlt := (List.getElem?_eq_some_iff.mp hx).1
  obtain ⟨hoff, hkey⟩ := H.linked i x hx
  have o : Open (fun _ => -1) (Function.update K x.1 k) V i (h.assign x.1 { h.mem x.1 with key := k }) e x.1 := by
    apply Open.rekey
    apply H.reopen
    · intro j y hj hy hyx
      exact hj (H.inj hy hx hyx)
    · intro y hy
      rw [hx] at hy
      cases hy
      rfl
  have hxk : (h.mem x.1).key = x.2 := by rw [H.key, ← hkey]
  simp only [hoff] at o
  rw [update, hoff, if_neg (by omega), H.wrongHeap hx, BinHeap.updateAt, hx]
  show ∃ h', (if L (h.mem x.1).key k then _ else _) = _ ∧ _
  rw [hxk]
  simp only [Int.toNat_natCast, assign_stack, H.length]
  by_cases hl : byKey L x (x.1, k)
  · rw [if_pos (show L x.2 k = true from hl), if_pos hl]
    have := o.fixTooBig (L := L) hlt (e.length + 1) (by omega)
    rwa [update_self] at this
  · rw [if_neg (show ¬ L x.2 k = true from hl), if_neg hl]
    have := o.fixTooSmall (L := L) hlt (e.length + 1) (by omega)
    rwa [update_self] at this

theorem Holds.remove_out (H : Kept K V h e) (hr : ∀ x ∈ e, x.1 ≠ r) : remove L h r = .ok h := by
  rw [remove, if_pos (H.offset_of_mem hr)]
  rfl

theorem Holds.remove_in {i : Nat} {x : ρ × κ} (H : Kept K V h e) (hx : e[i]? = some x) :
    ∃ h', remove L h x.1 = .ok h' ∧ Kept K V h' (BinHeap.removeAt (byKey L) e i) := by
  have hlt := (List.getElem?_eq_some_iff.mp hx).1
  obtain ⟨hoff, hkey⟩ := H.linked i x hx
  obtain ⟨last, hl⟩ : ∃ last, e.getLast? = some last :=
    ⟨_, List.getLast?_eq_getLast_of_ne_nil (by rintro rfl; cases hx)⟩
  obtain ⟨h1, hpop, hm1, hs1, hn1⟩ := H.stackPop hl
  rw [remove, hoff, if_neg (by omega), H.wrongHeap hx, BinHeap.removeAt, hx, hl]
  show ∃ h', (if (h.stack.length : Int) - 1 = i then _ else _) = _ ∧ _
  rw [H.length]
  by_cases hlast : e.length - 1 = i
  · rw [if_pos (by omega), hpop]
    simp only [if_pos hlast]
    have hxl : x = last := by
      have : e[e.length - 1]? = some last := by rw [← List.getLast?_eq_getElem?, hl]
      rw [hlast, hx] at this
      exact Option.some.inj this
    subst hxl
    refine ⟨h1.assign x.1 { h.mem x.1 with offset := -1 }, rfl, ?_⟩
    have := H.dropLast (g := h1.assign x.1 { h.mem x.1 with offset := -1 }) (k := -1) hl hs1 hn1
      (assign_mem hm1 _ _)
    rwa [update_const] at this
  · rw [if_neg (by omega), hpop]
    simp only [if_neg hlast]
    have o := H.takeOut (g := h1.assign x.1 { h.mem x.1 with offset := -1 }) (k := -1) hx hl (by omega) hs1 hn1
      (fun q hq => by rw [assign_ne h1 _ hq, hm1]) (by rw [assign_same, ← H.key]) (by rw [assign_same, ← H.value])
      (by rw [assign_same])
    rw [update_const] at o
    have hlen : e.dropLast.length = e.length - 1 := List.length_dropLast
    have hlk : last.2 = K last.1 := by
      obtain ⟨j, hj⟩ := List.getElem?_of_mem (List.mem_of_getLast? hl)
      exact (H.linked j last hj).2
    have hst : h1.stack.length = e.dropLast.length := by rw [hs1.length, List.length_map]
    have hxk : (h.mem x.1).key = x.2 := by rw [H.key, ← hkey]
    simp only [hxk] at o
    show ∃ h', (if L (h.mem x.1).key (h1.mem last.1).key then _ else _) = _ ∧ _
    rw [hm1, hxk, H.key, ← hlk]
    simp only [Int.toNat_natCast, assign_stack, hst]
    by_cases hlt' : byKey L x last
    · rw [if_pos (show L x.2 last.2 = true from hlt'), if_pos hlt']
      have := o.fixTooBig (L := L) (by omega) e.length (by omega)
      rwa [← hlk] at this
    · rw [if_neg (show ¬ L x.2 last.2 = true from hlt'), if_neg hlt']
      have := o.fixTooSmall (L := L) (by omega) e.length (by omega)
      rwa [← hlk] at this

end kept

end BubbleStorm.Util.Heap.ManagedHeap
