/-
  BubbleStorm.Util.Heap.ManagedHeapQueue — what the managed heap is for: a set of records,
  each with a key and a value, of which a first one can be taken.

  `Queue.Step` says what a call does to the set, `Refines` how a heap keeps one. `clear`
  empties the array and leaves the offsets in the records, so a heap that is cleared while
  it holds records no longer keeps the empty set: every call keeps `Refines`
  (`Inv.exec`), and a run does so exactly when it clears nothing but empty heaps.
-/

import BubbleStorm.Util.Heap.ManagedHeapProofs
import Mathlib.Data.Finset.Insert
import Mathlib.Data.Finset.Erase
import Mathlib.Data.Int.Order.Basic

namespace BubbleStorm.Util.Heap.ManagedHeap

open Lib (bind_eq_ok)

variable {ρ κ β : Type} [DecidableEq ρ]

/-- The records in the queue, and the keys and values of all records. -/
structure Queue (ρ κ β : Type) where
  members : Finset ρ
  key : ρ → κ
  value : ρ → β

/-- What a call does to the queue, and the record it may return. -/
inductive Queue.Step (L : κ → κ → Bool) (q : Queue ρ κ β) : Op ρ κ β → Option ρ → Queue ρ κ β → Prop
  | push (r : ρ) : Step L q (.push r) none { q with members := insert r q.members }
  | update (r : ρ) (k : κ) :
    Step L q (.update r k) none { q with members := insert r q.members, key := Function.update q.key r k }
  | updateValue (r : ρ) (v : β) : Step L q (.updateValue r v) none { q with value := Function.update q.value r v }
  | remove (r : ρ) : Step L q (.remove r) none { q with members := q.members.erase r }
  | popNone (h : q.members = ∅) : Step L q .pop none q
  | pop (r : ρ) (hr : r ∈ q.members) (first : ∀ x ∈ q.members, L (q.key x) (q.key r) = false) :
    Step L q .pop (some r) { q with members := q.members.erase r }
  | popBoundedNone (k : κ) (late : ∀ x ∈ q.members, L k (q.key x) = true) : Step L q (.popBounded k) none q
  | popBounded (k : κ) (r : ρ) (hr : r ∈ q.members) (first : ∀ x ∈ q.members, L (q.key x) (q.key r) = false)
    (due : L k (q.key r) = false) : Step L q (.popBounded k) (some r) { q with members := q.members.erase r }
  | clear : Step L q .clear none { q with members := ∅ }

/-- The heap keeps the queue, in the array `l`. -/
structure Agrees (L : κ → κ → Bool) (h : ManagedHeap ρ κ β) (q : Queue ρ κ β) (l : List ρ) : Prop where
  size : h.size = l.length
  array : h.stack.stack.take l.length = l.map some
  contents : (l : Multiset ρ) = q.members.val
  ordered : ∀ i x p, 0 < i → l[i]? = some x → l[(i - 1) / 2]? = some p → L (h.mem x).key (h.mem p).key = false
  offset : ∀ r (i : Nat), (h.mem r).offset = i ↔ l[i]? = some r
  absent : ∀ r, (h.mem r).offset = -1 ↔ r ∉ l
  sub : ∀ r, h.sub r = (decide (r ∈ q.members), q.key r, q.value r)

def Refines (L : κ → κ → Bool) (h : ManagedHeap ρ κ β) (q : Queue ρ κ β) : Prop := ∃ l, Agrees L h q l

/-- Every call of the run succeeds and does what it does to the queue, and the heap keeps
    the queue in every state. -/
def Run (L : κ → κ → Bool) : ManagedHeap ρ κ β → Queue ρ κ β → List (Op ρ κ β) → Prop
  | h, q, [] => Refines L h q
  | h, q, op :: ops => Refines L h q ∧ ∃ out h' q', exec L h op = .ok (out, h') ∧ q.Step L op out q' ∧ Run L h' q' ops

/-- Only an empty heap is cleared in the run. -/
def ClearsEmpty (L : κ → κ → Bool) : ManagedHeap ρ κ β → List (Op ρ κ β) → Prop
  | _, [] => True
  | h, op :: ops => (op = .clear → h.isEmpty = true) ∧ ∀ out h', exec L h op = .ok (out, h') → ClearsEmpty L h' ops

/-- The entries `e` in heap order, and the queue of them. -/
structure Inv (L : κ → κ → Bool) (h : ManagedHeap ρ κ β) (q : Queue ρ κ β) (e : List (ρ × κ)) : Prop where
  kept : Kept q.key q.value h e
  ordered : BinHeap.Ordered (byKey L) e
  members : ((e.map (·.1) : List ρ) : Multiset ρ) = q.members.val

variable {L : κ → κ → Bool} {h : ManagedHeap ρ κ β} {q : Queue ρ κ β} {e : List (ρ × κ)}

omit [DecidableEq ρ] in
theorem Inv.mem (I : Inv L h q e) {r : ρ} : r ∈ q.members ↔ ∃ x ∈ e, x.1 = r := by
  rw [← Finset.mem_val, ← I.members, Multiset.mem_coe, List.mem_map]

theorem Inv.refines (I : Inv L h q e) : Refines L h q := by
  have hin : ∀ r (i : Nat), (h.mem r).offset = i ↔ (e.map (·.1))[i]? = some r := by
    intro r i
    rw [List.getElem?_map]
    constructor
    · intro hoff
      obtain ⟨j, hj⟩ := I.kept.find (r := r) (by omega)
      have := (I.kept.linked j _ hj).1
      rw [hoff] at this
      have hij : i = j := by omega
      subst hij
      rw [hj]
      rfl
    · intro hx
      obtain ⟨x, hx', rfl⟩ := Option.map_eq_some_iff.mp hx
      exact (I.kept.linked i x hx').1
  have hout : ∀ r, (h.mem r).offset = -1 ↔ r ∉ e.map (·.1) := by
    intro r
    constructor
    · intro hoff hr
      obtain ⟨i, hi⟩ := List.getElem?_of_mem hr
      have := (hin r i).mpr hi
      omega
    · intro hr
      apply I.kept.outside r
      intro x hx same
      subst same
      exact hr (List.mem_map_of_mem hx)
  refine ⟨e.map (·.1), ?_, ?_, I.members, ?_, hin, hout, ?_⟩
  · rw [List.length_map]
    exact I.kept.length
  · obtain ⟨k, hk⟩ := I.kept.stack.slots
    rw [hk, List.take_left']
    · simp
    · simp
  · intro i x p hi hx hp
    rw [List.getElem?_map] at hx hp
    obtain ⟨x, hx', rfl⟩ := Option.map_eq_some_iff.mp hx
    obtain ⟨p, hp', rfl⟩ := Option.map_eq_some_iff.mp hp
    rw [I.kept.key, I.kept.key, ← (I.kept.linked i x hx').2, ← (I.kept.linked _ p hp').2]
    exact I.ordered i x p hi hx' hp'
  · intro r
    have : (h.mem r).offset ≠ -1 ↔ r ∈ q.members := by
      rw [ne_eq, hout r, not_not, I.mem, List.mem_map]
    rw [ManagedHeap.sub, I.kept.key, I.kept.value]
    simp only [this]

/-! ## One call -/

omit [DecidableEq ρ] in
theorem byKey_weak (W : BinHeap.Weak L (fun _ => True)) : BinHeap.Weak (byKey (ρ := ρ) L) (fun _ => True) where
  asymm _ _ h := W.asymm trivial trivial h
  trans _ _ _ h h' := W.trans trivial trivial trivial h h'

theorem members_cons {e' : List (ρ × κ)} {x : ρ × κ} (I : Inv L h q e) (hp : e'.Perm (x :: e)) (hx : x.1 ∉ q.members) :
    ((e'.map (·.1) : List ρ) : Multiset ρ) = (insert x.1 q.members).val := by
  rw [Finset.insert_val_of_notMem hx, ← I.members, Multiset.cons_coe, Multiset.coe_eq_coe]
  exact hp.map _

theorem members_erase {e' : List (ρ × κ)} {x : ρ × κ} (I : Inv L h q e) (hp : e.Perm (x :: e')) :
    ((e'.map (·.1) : List ρ) : Multiset ρ) = (q.members.erase x.1).val := by
  have : (q.members.val) = x.1 ::ₘ ((e'.map (·.1) : List ρ) : Multiset ρ) := by
    rw [← I.members, Multiset.cons_coe, Multiset.coe_eq_coe]
    exact hp.map _
  rw [Finset.erase_val, this, Multiset.erase_cons_head]

variable (W : BinHeap.Weak L (fun _ => True))
include W

omit [DecidableEq ρ] in
theorem Inv.first (I : Inv L h q e) {x : ρ × κ} (hx : e.head? = some x) :
    x.1 ∈ q.members ∧ q.key x.1 = x.2 ∧ ∀ y ∈ q.members, L (q.key y) (q.key x.1) = false := by
  have hk : ∀ y ∈ e, q.key y.1 = y.2 := by
    intro y hy
    obtain ⟨i, hi⟩ := List.getElem?_of_mem hy
    exact ((I.kept.linked i y hi).2).symm
  have hxe := List.mem_of_mem_head? hx
  refine ⟨I.mem.mpr ⟨x, hxe, rfl⟩, hk x hxe, ?_⟩
  intro r hr
  obtain ⟨y, hy, rfl⟩ := I.mem.mp hr
  rw [hk y hy, hk x hxe]
  exact BinHeap.top_min (byKey_weak W) (fun _ _ => trivial) I.ordered hx hy

/-- Every call but the clearing of records keeps the queue. -/
theorem Inv.exec (I : Inv L h q e) (op : Op ρ κ β) (hc : op = .clear → h.isEmpty = true) :
    ∃ out h' q' e', exec L h op = .ok (out, h') ∧ q.Step L op out q' ∧ Inv L h' q' e' := by
  have Wk := byKey_weak (ρ := ρ) W
  have all : ∀ x ∈ e, (fun _ : ρ × κ => True) x := fun _ _ => trivial
  cases op with
  | push r =>
    by_cases hr : r ∈ q.members
    · obtain ⟨x, hx, rfl⟩ := I.mem.mp hr
      obtain ⟨i, hi⟩ := List.getElem?_of_mem hx
      refine ⟨none, h, _, e, ?_, .push x.1, ⟨I.kept, I.ordered, ?_⟩⟩
      · simp only [ManagedHeap.exec, I.kept.push_in hi]
        rfl
      · rw [I.members, Finset.insert_eq_of_mem hr]
    · have hout : ∀ x ∈ e, x.1 ≠ r := fun x hx hxr => hr (I.mem.mpr ⟨x, hx, hxr⟩)
      obtain ⟨h', hp, H⟩ := I.kept.push_out (L := L) hout
      refine ⟨none, h', _, _, ?_, .push r, ⟨H, BinHeap.push_ordered Wk all trivial I.ordered, ?_⟩⟩
      · simp only [ManagedHeap.exec, hp]
        rfl
      · exact members_cons I (BinHeap.push_perm _ e (r, q.key r)) hr
  | update r k =>
    by_cases hr : r ∈ q.members
    · obtain ⟨x, hx, rfl⟩ := I.mem.mp hr
      obtain ⟨i, hi⟩ := List.getElem?_of_mem hx
      obtain ⟨h', hp, H⟩ := I.kept.update_in (L := L) hi k
      refine ⟨none, h', _, _, ?_, .update x.1 k, ⟨H, BinHeap.updateAt_ordered Wk all trivial I.ordered, ?_⟩⟩
      · simp only [ManagedHeap.exec, hp]
        rfl
      · have hmap : (e.set i (x.1, k)).map (·.1) = e.map (·.1) := by
          obtain ⟨hlt, hxe⟩ := List.getElem?_eq_some_iff.mp hi
          rw [List.map_set]
          conv => rhs; rw [← @List.set_getElem_self _ (e.map (·.1)) i (by simpa using hlt)]
          simp [hxe]
        rw [Finset.insert_eq_of_mem hr, ← I.members, Multiset.coe_eq_coe, ← hmap]
        exact (BinHeap.updateAt_perm hi).map _
    · have hout : ∀ x ∈ e, x.1 ≠ r := fun x hx hxr => hr (I.mem.mpr ⟨x, hx, hxr⟩)
      obtain ⟨h', hp, H⟩ := I.kept.update_out (L := L) hout k
      refine ⟨none, h', _, _, ?_, .update r k, ⟨H, BinHeap.push_ordered Wk all trivial I.ordered, ?_⟩⟩
      · simp only [ManagedHeap.exec, hp]
        rfl
      · exact members_cons I (BinHeap.push_perm _ e (r, k)) hr
  | updateValue r v => exact ⟨none, _, _, e, rfl, .updateValue r v, ⟨I.kept.revalue r v, I.ordered, I.members⟩⟩
  | remove r =>
    by_cases hr : r ∈ q.members
    · obtain ⟨x, hx, rfl⟩ := I.mem.mp hr
      obtain ⟨i, hi⟩ := List.getElem?_of_mem hx
      obtain ⟨h', hp, H⟩ := I.kept.remove_in (L := L) hi
      refine ⟨none, h', _, _, ?_, .remove x.1, ⟨H, BinHeap.removeAt_ordered Wk all I.ordered, ?_⟩⟩
      · simp only [ManagedHeap.exec, hp]
        rfl
      · exact members_erase I (BinHeap.removeAt_perm _ hi)
    · have hout : ∀ x ∈ e, x.1 ≠ r := fun x hx hxr => hr (I.mem.mpr ⟨x, hx, hxr⟩)
      refine ⟨none, h, _, e, ?_, .remove r, ⟨I.kept, I.ordered, ?_⟩⟩
      · simp only [ManagedHeap.exec, I.kept.remove_out hout]
        rfl
      · rw [I.members, Finset.erase_eq_of_notMem hr]
  | pop =>
    cases hh : e.head? with
    | none =>
      cases List.head?_eq_none_iff.mp hh
      exact ⟨none, h, q, [], I.kept.pop_nil, .popNone (by rw [← Finset.val_eq_zero, ← I.members]; rfl), I⟩
    | some x =>
      obtain ⟨e', hp⟩ := BinHeap.pop_isSome (byKey L) hh
      obtain ⟨h', hpop, H⟩ := I.kept.pop_some hp
      obtain ⟨hx, -, hfirst⟩ := I.first W hh
      exact ⟨some x.1, h', _, e', hpop, .pop x.1 hx hfirst,
        ⟨H, BinHeap.pop_ordered Wk all I.ordered hp, members_erase I (BinHeap.pop_perm _ hp)⟩⟩
  | popBounded k =>
    by_cases hh : ∃ x, e.head? = some x ∧ L k x.2 = false
    · obtain ⟨x, hh, hk⟩ := hh
      obtain ⟨e', hp⟩ := BinHeap.pop_isSome (byKey L) hh
      obtain ⟨h', hpop, H⟩ := I.kept.popBounded_some hp hk
      obtain ⟨hx, hxk, hfirst⟩ := I.first W hh
      exact ⟨some x.1, h', _, e', hpop, .popBounded k x.1 hx hfirst (by rw [hxk]; exact hk),
        ⟨H, BinHeap.pop_ordered Wk all I.ordered hp, members_erase I (BinHeap.pop_perm _ hp)⟩⟩
    · have hlate : ∀ x, e.head? = some x → L k x.2 = true := by
        intro x hx
        by_contra hk
        exact hh ⟨x, hx, by simpa using hk⟩
      refine ⟨none, h, q, e, I.kept.popBounded_none hlate, .popBoundedNone k ?_, I⟩
      intro y hy
      cases hd : e.head? with
      | none =>
        cases List.head?_eq_none_iff.mp hd
        obtain ⟨x, hx, -⟩ := I.mem.mp hy
        cases hx
      | some x =>
        obtain ⟨-, hxk, hfirst⟩ := I.first W hd
        have hkx := hlate x hd
        by_contra hky
        have := W.trans trivial trivial trivial (by simpa using hky) (hfirst y hy)
        rw [hxk, hkx] at this
        cases this
  | clear =>
    have huse : h.stack.use = 0 := by simpa [isEmpty, Stack.isEmpty] using hc rfl
    have he : e = [] := by
      have := I.kept.stack.use
      rw [huse, List.length_map] at this
      exact List.length_eq_zero_iff.mp this.symm
    subst he
    refine ⟨none, h.clear, _, [], rfl, .clear, ⟨⟨?_, ?_, I.kept.key, I.kept.value, I.kept.linked, I.kept.outside⟩, I.ordered, rfl⟩⟩
    · have := Stack.holds_emptyData (α := Option ρ) h.stack.nill
      exact this
    · exact I.kept.nill

omit [DecidableEq ρ] in
/-- There is a first record to look at exactly if some record is not above the bound. -/
theorem Inv.peekBounded (I : Inv L h q e) (k : κ) :
    ∃ out, peekBounded L h k = .ok out ∧ (out.isSome = true ↔ ∃ r ∈ q.members, L k (q.key r) = false) := by
  cases hh : e.head? with
  | none =>
    cases List.head?_eq_none_iff.mp hh
    have hs := I.kept.stack.sub_zero
    rw [I.kept.nill] at hs
    refine ⟨none, ?_, ?_⟩
    · simp only [ManagedHeap.peekBounded, peekIf, hs, raise]
      rfl
    · constructor
      · intro hf
        cases hf
      · intro hf
        obtain ⟨r, hr, _⟩ := hf
        obtain ⟨x, hx, -⟩ := I.mem.mp hr
        cases hx
  | some x =>
    obtain ⟨hx, hxk, hfirst⟩ := I.first W hh
    have hs : h.stack.sub 0 = .ok (some x.1) := I.kept.stack.sub (by
      rw [List.getElem?_map, ← List.head?_eq_getElem?, hh]
      rfl)
    refine ⟨if L k (q.key x.1) = false then some x.1 else none, ?_, ?_⟩
    · simp only [ManagedHeap.peekBounded, peekIf, hs, raise, bind, Except.bind, peekBounded.fn, I.kept.key]
      cases L k (q.key x.1) <;> rfl
    · constructor
      · intro hf
        split at hf
        · exact ⟨x.1, hx, ‹_›⟩
        · cases hf
      · intro hf
        obtain ⟨r, hr, hk⟩ := hf
        rw [if_pos (W.trans trivial trivial trivial hk (hfirst r hr))]
        rfl

omit W in
/-- A record that is in no slot may be wrapped anew. -/
theorem Inv.wrap (I : Inv L h q e) {r : ρ} (hr : r ∉ q.members) (k : κ) (v : β) :
    Inv L (h.assign r (Heap.wrap k v)) { q with key := Function.update q.key r k, value := Function.update q.value r v } e := by
  have hout : ∀ x ∈ e, x.1 ≠ r := fun x hx hxr => hr (I.mem.mpr ⟨x, hx, hxr⟩)
  have H := (I.kept.rekey hout k).revalue r v
  have heq : (h.assign r { h.mem r with key := k }).updateValue r v = h.assign r (Heap.wrap k v) := by
    simp [updateValue, assign, Heap.wrap, I.kept.offset_of_mem hout]
  rw [heq] at H
  exact ⟨H, I.ordered, I.members⟩

/-! ## Every run -/

theorem Inv.run (ops : List (Op ρ κ β)) {h : ManagedHeap ρ κ β} {q : Queue ρ κ β} {e : List (ρ × κ)} (I : Inv L h q e)
    (hc : ClearsEmpty L h ops) : Run L h q ops := by
  induction ops generalizing h q e with
  | nil => exact I.refines
  | cons op ops ih =>
    obtain ⟨out, h', q', e', hx, hs, I'⟩ := I.exec W op hc.1
    exact ⟨I.refines, out, h', q', hx, hs, ih I' (hc.2 out h' hx)⟩

omit W in
theorem Run.head {ops : List (Op ρ κ β)} {h : ManagedHeap ρ κ β} {q : Queue ρ κ β} (R : Run L h q ops) : Refines L h q := by
  cases ops with
  | nil => exact R
  | cons op ops => exact R.1

omit W in
/-- A record that is cleared away still says that it is in the heap. -/
theorem Refines.clear {h : ManagedHeap ρ κ β} {q q' : Queue ρ κ β} (R : Refines L h q) (R' : Refines L h.clear q')
    (hq : q'.members = ∅) : h.isEmpty = true := by
  obtain ⟨l, A⟩ := R
  obtain ⟨l', A'⟩ := R'
  have hl : l = [] := by
    by_contra hne
    obtain ⟨r, l, rfl⟩ := List.exists_cons_of_ne_nil hne
    have hoff : (h.mem r).offset = (0 : Nat) := (A.offset r 0).mpr rfl
    have hsub := congrArg Prod.fst (A'.sub r)
    simp only [ManagedHeap.sub, ManagedHeap.clear, hoff, hq] at hsub
    simp at hsub
  have hsize := A.size
  rw [hl] at hsize
  simpa [isEmpty, Stack.isEmpty, size, Stack.length] using hsize

omit W in
theorem Run.clearsEmpty (ops : List (Op ρ κ β)) {h : ManagedHeap ρ κ β} {q : Queue ρ κ β} (R : Run L h q ops) :
    ClearsEmpty L h ops := by
  induction ops generalizing h q with
  | nil => trivial
  | cons op ops ih =>
    obtain ⟨hr, out, h', q', hx, hs, R'⟩ := R
    constructor
    · intro same
      subst same
      cases hx
      cases hs
      exact hr.clear R'.head rfl
    · intro out₁ h₁ hx₁
      rw [hx] at hx₁
      cases hx₁
      exact ih R'

/-- Exactly the runs that clear nothing but empty heaps keep the queue. -/
theorem run_iff (key : ρ → κ) (value : ρ → β) (ops : List (Op ρ κ β)) :
    Run L (new key value) { members := ∅, key := key, value := value } ops ↔ ClearsEmpty L (new key value) ops := by
  constructor
  · intro R
    exact R.clearsEmpty
  · intro hc
    exact Inv.run W ops ⟨kept_new key value, BinHeap.ordered_nil, rfl⟩ hc

omit W in
theorem push_first (r : ρ) (key : ρ → κ) (value : ρ → β) :
    ∃ h, push L (new key value) r = .ok h ∧ Kept key value h [(r, key r)] := by
  obtain ⟨h, hp, H⟩ := (kept_new key value).push_out (L := L) (r := r) (by simp)
  exact ⟨h, hp, by simpa [BinHeap.push, BinHeap.fixTooSmall] using H⟩

omit W in
/-- The stale offset makes a cleared record look like one of another heap. -/
theorem Holds.push_cleared {K : ρ → κ} {V : ρ → β} {i : Nat} {x : ρ × κ} (H : Kept K V h e) (hx : e[i]? = some x) :
    push L h.clear x.1 = .error .wrongHeap := by
  have hoff : (h.clear.mem x.1).offset = i := (H.linked i x hx).1
  have hlen : h.clear.stack.length = 0 := rfl
  rw [push, hoff, if_neg (by omega), ManagedHeap.wrongHeap, hoff, hlen, if_pos (by omega)]
  rfl

omit W in
/-- A record that was cleared away can not be pushed again. -/
theorem clear_push_wrongHeap :
    (∃ h, exec (fun x y : Nat => decide (x < y)) (new (fun _ : Unit => 0) (fun _ => ())) (.push ()) = .ok (none, h) ∧
      exec (fun x y : Nat => decide (x < y)) h .clear = .ok (none, h.clear) ∧
      exec (fun x y : Nat => decide (x < y)) h.clear (.push ()) = .error .wrongHeap) ∧
    ¬ Run (fun x y : Nat => decide (x < y)) (new (fun _ : Unit => 0) (fun _ => ()))
      { members := ∅, key := fun _ => 0, value := fun _ => () } [.push (), .clear, .push ()] := by
  obtain ⟨h, hp, H⟩ := push_first (L := fun x y : Nat => decide (x < y)) () (fun _ => 0) (fun _ => ())
  have hx : exec (fun x y : Nat => decide (x < y)) (new (fun _ : Unit => 0) (fun _ => ())) (.push ()) = .ok (none, h) := by
    rw [exec, hp]
    rfl
  have hw : exec (fun x y : Nat => decide (x < y)) h.clear (.push ()) = .error .wrongHeap := by
    rw [exec, H.push_cleared (i := 0) rfl]
    rfl
  refine ⟨⟨h, hx, rfl, hw⟩, ?_⟩
  intro ⟨_, out, h₁, q₁, hx₁, _, _, out₂, h₂, q₂, hx₂, _, _, out₃, h₃, q₃, hx₃, _⟩
  rw [hx] at hx₁
  cases hx₁
  cases hx₂
  rw [hw] at hx₃
  cases hx₃

omit W in
theorem run_iff_nat : Run (fun x y : Nat => decide (x < y)) (new (fun r : Nat => 10 - r) (fun _ => ()))
      { members := ∅, key := fun r => 10 - r, value := fun _ => () } [.push 1, .push 2, .pop] ↔
    ClearsEmpty (fun x y : Nat => decide (x < y)) (new (fun r : Nat => 10 - r) (fun _ => ())) [.push 1, .push 2, .pop] :=
  run_iff (BinHeap.weak_lt (fun x : Nat => (x : Int)) fun x y => by simp) (fun r => 10 - r) (fun _ => ()) [.push 1, .push 2, .pop]

end BubbleStorm.Util.Heap.ManagedHeap
