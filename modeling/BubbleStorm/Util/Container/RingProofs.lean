/-
  BubbleStorm.Util.Container.RingProofs — the rings are lists.

  Proved: the references refine one list for each head, from which an operation takes the
  element first and puts it in one place (`step_refines`). In every state that is reached
  both directions enumerate the list, and an iterator does so as long as its own list stays
  the same; `app` visits, under callbacks that remove elements, those that are still there
  when their turn comes, once (`ring_refines`).
-/

import Mathlib.Data.List.Nodup
import BubbleStorm.Util.Container.Ring

namespace BubbleStorm.Util.Container.Ring

open Function (update_apply update_eq_self update_of_ne update_self)

variable {H E α σ : Type}

/-! ## Paths -/

/-- The links lead from one node over the elements to another. -/
def Path (next : Link H E → Link H E) : Link H E → List E → Link H E → Prop
  | a, [], b => next a = b
  | a, x :: xs, b => next a = .elt x ∧ Path next (.elt x) xs b

theorem path_congr {next next' : Link H E → Link H E} {xs : List E} {a a' b : Link H E} (ha : next' a' = next a)
    (hxs : ∀ x ∈ xs, next' (.elt x) = next (.elt x)) (h : Path next a xs b) : Path next' a' xs b := by
  induction xs generalizing a a' with
  | nil => exact ha.trans h
  | cons x xs ih =>
    obtain ⟨hx, h⟩ := h
    have hrest : ∀ y ∈ xs, next' (.elt y) = next (.elt y) := fun y hy => hxs y (List.mem_cons_of_mem x hy)
    exact ⟨ha.trans hx, ih (hxs x List.mem_cons_self) hrest h⟩

theorem path_concat (next : Link H E → Link H E) (xs : List E) (x : E) (a b : Link H E) :
    Path next a (xs ++ [x]) b ↔ Path next a xs (.elt x) ∧ next (.elt x) = b := by
  induction xs generalizing a with
  | nil => exact Iff.rfl
  | cons y xs ih =>
    simp only [List.cons_append, Path, ih, and_assoc]

/-- The way back. -/
theorem path_reverse {next prev : Link H E → Link H E} {xs : List E} {a b : Link H E} (ha : a ≠ .null) (hb : b ≠ .null)
    (hback : ∀ x y, x ≠ .null → y ≠ .null → next x = y → prev y = x) (h : Path next a xs b) : Path prev b xs.reverse a := by
  induction xs generalizing a with
  | nil => exact hback a b ha hb h
  | cons x xs ih =>
    obtain ⟨hx, h⟩ := h
    have hne : (.elt x : Link H E) ≠ .null := nofun
    rw [List.reverse_cons, path_concat]
    exact ⟨ih hne h, hback a _ ha hne hx⟩

/-- An element is followed by one of the path or by its end. -/
theorem path_next {next : Link H E → Link H E} {xs : List E} {a b : Link H E} (h : Path next a xs b) {e : E} (he : e ∈ xs) :
    next (.elt e) = b ∨ ∃ y ∈ xs, next (.elt e) = .elt y := by
  induction xs generalizing a with
  | nil => cases he
  | cons x xs ih =>
    obtain ⟨hx, h⟩ := h
    rcases List.mem_cons.mp he with rfl | hin
    · cases xs with
      | nil => exact .inl h
      | cons y ys => exact .inr ⟨y, by simp, h.1⟩
    · rcases ih h hin with hend | ⟨y, hy, hnext⟩
      · exact .inl hend
      · exact .inr ⟨y, List.mem_cons_of_mem x hy, hnext⟩

/-- It follows one of the path or its start. -/
theorem path_pred {next : Link H E → Link H E} {xs : List E} {a b : Link H E} (h : Path next a xs b) {e : E} (he : e ∈ xs) :
    next a = .elt e ∨ ∃ y ∈ xs, next (.elt y) = .elt e := by
  induction xs generalizing a with
  | nil => cases he
  | cons x xs ih =>
    obtain ⟨hx, h⟩ := h
    rcases List.mem_cons.mp he with rfl | hin
    · exact .inl hx
    · rcases ih h hin with hstart | ⟨y, hy, hnext⟩
      · exact .inr ⟨x, List.mem_cons_self, hstart⟩
      · exact .inr ⟨y, List.mem_cons_of_mem x hy, hnext⟩

theorem path_end {next : Link H E → Link H E} {xs : List E} {a b : Link H E} (h : Path next a xs b) :
    next a = b ∨ ∃ y ∈ xs, next (.elt y) = b := by
  induction xs generalizing a with
  | nil => exact .inl h
  | cons x xs ih =>
    rcases ih h.2 with hstart | ⟨y, hy, hnext⟩
    · exact .inr ⟨x, List.mem_cons_self, hstart⟩
    · exact .inr ⟨y, List.mem_cons_of_mem x hy, hnext⟩

/-- No element follows itself. -/
theorem path_next_ne {next : Link H E → Link H E} {xs : List E} {a b : Link H E} (h : Path next a xs b) (hnodup : xs.Nodup) {e : E}
    (hb : b ≠ .elt e) (he : e ∈ xs) : next (.elt e) ≠ .elt e := by
  induction xs generalizing a with
  | nil => cases he
  | cons x xs ih =>
    obtain ⟨hx, h⟩ := h
    obtain ⟨hnot, hnodup⟩ := List.nodup_cons.mp hnodup
    rcases List.mem_cons.mp he with rfl | hin
    · intro hself
      cases xs with
      | nil => exact hb (h.symm.trans hself)
      | cons y ys =>
        have hy : y = e := Link.elt.inj (h.1.symm.trans hself)
        exact hnot (hy ▸ List.mem_cons_self)
    · exact ih h hnodup hin

section Erase

variable {next next' : Link H E → Link H E} {e : E}

theorem path_keep (hkeep : ∀ x, x ≠ .elt e → next x ≠ .elt e → next' x = next x) {xs : List E} {a b : Link H E}
    (ha : a ≠ .elt e) (hb : b ≠ .elt e) (hnot : e ∉ xs) (h : Path next a xs b) : Path next' a xs b := by
  induction xs generalizing a with
  | nil =>
    have hne : next a ≠ .elt e := fun hx => hb (h.symm.trans hx)
    exact (hkeep a ha hne).trans h
  | cons x xs ih =>
    obtain ⟨hx, h⟩ := h
    have hne : (.elt x : Link H E) ≠ .elt e := fun hxe => hnot (Link.elt.inj hxe ▸ List.mem_cons_self)
    have hnext : next a ≠ .elt e := fun ha' => hne (hx.symm.trans ha')
    exact ⟨(hkeep a ha hnext).trans hx, ih hne (fun hin => hnot (List.mem_cons_of_mem x hin)) h⟩

/-- An element is taken out when its predecessor leads to its successor. -/
theorem path_erase [DecidableEq E] (hkeep : ∀ x, x ≠ .elt e → next x ≠ .elt e → next' x = next x)
    (hpast : ∀ x, x ≠ .elt e → next x = .elt e → next' x = next (.elt e)) {xs : List E} {a b : Link H E}
    (ha : a ≠ .elt e) (hb : b ≠ .elt e) (hnodup : xs.Nodup) (h : Path next a xs b) : Path next' a (xs.erase e) b := by
  induction xs generalizing a with
  | nil => exact path_keep hkeep ha hb List.not_mem_nil h
  | cons x xs ih =>
    obtain ⟨hx, h⟩ := h
    obtain ⟨hnot, hnodup⟩ := List.nodup_cons.mp hnodup
    by_cases hxe : x = e
    · subst hxe
      rw [List.erase_cons_head]
      cases xs with
      | nil => exact (hpast a ha hx).trans h
      | cons y ys =>
        have hyx : (.elt y : Link H E) ≠ .elt x := fun hy => hnot (Link.elt.inj hy ▸ List.mem_cons_self)
        exact ⟨(hpast a ha hx).trans h.1, path_keep hkeep hyx hb (fun hin => hnot (List.mem_cons_of_mem y hin)) h.2⟩
    · have hne : (.elt x : Link H E) ≠ .elt e := fun hxe' => hxe (Link.elt.inj hxe')
      rw [List.erase_cons_tail (by simpa using hxe)]
      have hnext : next a ≠ .elt e := fun ha' => hne (hx.symm.trans ha')
      exact ⟨(hkeep a ha hnext).trans hx, ih hne hnodup h⟩

end Erase

/-- An element is put before the end. -/
theorem path_append {next next' : Link H E → Link H E} {e : E} {b : H} (hnew : next' (.elt e) = .t b)
    (hkeep : ∀ x, x ≠ .elt e → next x ≠ .t b → next' x = next x) (hlast : ∀ x, x ≠ .elt e → next x = .t b → next' x = .elt e)
    {xs : List E} {a : Link H E} (ha : a ≠ .elt e) (hnot : e ∉ xs) (h : Path next a xs (.t b)) : Path next' a (xs ++ [e]) (.t b) := by
  induction xs generalizing a with
  | nil => exact ⟨hlast a ha h, hnew⟩
  | cons x xs ih =>
    obtain ⟨hx, h⟩ := h
    have hne : (.elt x : Link H E) ≠ .elt e := fun hxe => hnot (Link.elt.inj hxe ▸ List.mem_cons_self)
    have hnext : next a ≠ .t b := by
      rw [hx]
      exact nofun
    exact ⟨(hkeep a ha hnext).trans hx, ih hne (fun hin => hnot (List.mem_cons_of_mem x hin)) h⟩

/-! ## The fields of a node -/

namespace Heap

def next (m : Heap H E α) : Link H E → Link H E
  | .null => .null
  | .t h => (m.heads h).next
  | .elt e => (m.elts e).next

def prev (m : Heap H E α) : Link H E → Link H E
  | .null => .null
  | .t h => (m.heads h).prev
  | .elt e => (m.elts e).prev

end Heap

section Fields

variable [DecidableEq H] [DecidableEq E]

/-- The write to the `next` field of a neighbour. -/
def setNext (m : Heap H E α) (a x : Link H E) : Heap H E α :=
  match a with
  | .null => m
  | .elt elt => setElt m elt { m.elts elt with next := x }
  | .t head => setHead m head { m.heads head with next := x }

def setPrev (m : Heap H E α) (a x : Link H E) : Heap H E α :=
  match a with
  | .null => m
  | .elt elt => setElt m elt { m.elts elt with prev := x }
  | .t head => setHead m head { m.heads head with prev := x }

/-- The write of both links of an element. -/
def relink (m : Heap H E α) (e : E) (p n : Link H E) : Heap H E α := setElt m e ⟨(m.elts e).value, p, n⟩

@[simp] theorem next_setNext (m : Heap H E α) {a : Link H E} (ha : a ≠ .null) (x b : Link H E) :
    (setNext m a x).next b = if b = a then x else m.next b := by
  cases a <;> cases b <;> simp_all [setNext, setElt, setHead, Heap.next, update_apply, apply_ite]

@[simp] theorem prev_setNext (m : Heap H E α) (a x b : Link H E) : (setNext m a x).prev b = m.prev b := by
  cases a <;> cases b <;> simp [setNext, setElt, setHead, Heap.prev, update_apply] <;> split <;> simp_all

@[simp] theorem prev_setPrev (m : Heap H E α) {a : Link H E} (ha : a ≠ .null) (x b : Link H E) :
    (setPrev m a x).prev b = if b = a then x else m.prev b := by
  cases a <;> cases b <;> simp_all [setPrev, setElt, setHead, Heap.prev, update_apply, apply_ite]

@[simp] theorem next_setPrev (m : Heap H E α) (a x b : Link H E) : (setPrev m a x).next b = m.next b := by
  cases a <;> cases b <;> simp [setPrev, setElt, setHead, Heap.next, update_apply] <;> split <;> simp_all

@[simp] theorem next_relink (m : Heap H E α) (e : E) (p n b : Link H E) :
    (relink m e p n).next b = if b = .elt e then n else m.next b := by
  cases b <;> simp [relink, setElt, Heap.next, update_apply]
  split <;> simp_all

@[simp] theorem prev_relink (m : Heap H E α) (e : E) (p n b : Link H E) :
    (relink m e p n).prev b = if b = .elt e then p else m.prev b := by
  cases b <;> simp [relink, setElt, Heap.prev, update_apply]
  split <;> simp_all

@[simp] theorem value_setNext (m : Heap H E α) (a x : Link H E) (e : E) : unwrap (setNext m a x) e = unwrap m e := by
  cases a <;> simp [setNext, setElt, setHead, unwrap, update_apply]
  split <;> simp_all

@[simp] theorem value_setPrev (m : Heap H E α) (a x : Link H E) (e : E) : unwrap (setPrev m a x) e = unwrap m e := by
  cases a <;> simp [setPrev, setElt, setHead, unwrap, update_apply]
  split <;> simp_all

omit [DecidableEq H] in
@[simp] theorem value_relink (m : Heap H E α) (a : E) (p n : Link H E) (e : E) : unwrap (relink m a p n) e = unwrap m e := by
  simp [relink, setElt, unwrap, update_apply]
  split <;> simp_all

theorem remove_eq (m : Heap H E α) (self : E) : remove m self =
    relink (setPrev (setNext m (m.prev (.elt self)) (m.next (.elt self))) (m.next (.elt self)) (m.prev (.elt self))) self .null .null := by
  have hvalue := (value_setPrev (setNext m (m.prev (.elt self)) (m.next (.elt self))) (m.next (.elt self)) (m.prev (.elt self)) self).trans
    (value_setNext m (m.prev (.elt self)) (m.next (.elt self)) self)
  unfold relink
  unfold unwrap at hvalue
  rw [hvalue]
  rfl

theorem add_eq {m : Heap H E α} {head : H} {e : E} {n : Link H E} (hn : (remove m e).next (.t head) = n) (hne : n ≠ .null) :
    add m head e = .ok (setPrev (setNext (relink (remove m e) e (.t head) n) (.t head) (.elt e)) n (.elt e)) := by
  subst hn
  unfold add Heap.next at *
  cases hlink : ((remove m e).heads head).next with
  | null => exact absurd hlink hne
  | t h => simp only [setPrev, setNext, relink, hlink]; rfl
  | elt x => simp only [setPrev, setNext, relink, hlink]; rfl

theorem addTail_eq {m : Heap H E α} {head : H} {e : E} {p : Link H E} (hp : (remove m e).prev (.t head) = p) (hne : p ≠ .null) :
    addTail m head e = .ok (setNext (setPrev (relink (remove m e) e p (.t head)) (.t head) (.elt e)) p (.elt e)) := by
  subst hp
  unfold addTail Heap.prev at *
  cases hlink : ((remove m e).heads head).prev with
  | null => exact absurd hlink hne
  | t h => simp only [setPrev, setNext, relink, hlink]; rfl
  | elt x => simp only [setPrev, setNext, relink, hlink]; rfl

end Fields

/-! ## The refinement -/

/-- Every head begins and ends the path over its list, both directions of a link agree, and
    what is in no list has no links. -/
structure Inv (m : Heap H E α) (lists : H → List E) : Prop where
  inverse : ∀ a b, a ≠ .null → b ≠ .null → (m.next a = b ↔ m.prev b = a)
  path : ∀ h, Path m.next (.t h) (lists h) (.t h)
  nodup : ∀ h, (lists h).Nodup
  disjoint : ∀ h h' e, e ∈ lists h → e ∈ lists h' → h = h'
  solo : ∀ e, (∀ h, e ∉ lists h) → m.next (.elt e) = .null ∧ m.prev (.elt e) = .null

structure Refines (m : Heap H E α) (r : Rings H E α) : Prop extends Inv m r.lists where
  values : ∀ e, unwrap m e = r.values e

theorem inv_fresh (values : E → α) : Inv (fresh values : Heap H E α) (fun _ => []) where
  inverse := by
    intro a b ha hb
    cases a <;> cases b <;> simp_all [fresh, Heap.next, Heap.prev, new, wrap, eq_comm]
  path := fun _ => rfl
  nodup := fun _ => List.nodup_nil
  disjoint := by
    intro h h' e he
    cases he
  solo := fun _ _ => ⟨rfl, rfl⟩

section Present

variable {m : Heap H E α} {lists : H → List E} (hinv : Inv m lists)

include hinv

theorem Inv.back {a b : Link H E} (h : m.next a = b) (ha : a ≠ .null) (hb : b ≠ .null) : m.prev b = a := (hinv.inverse a b ha hb).mp h

theorem Inv.forth {a b : Link H E} (h : m.prev b = a) (ha : a ≠ .null) (hb : b ≠ .null) : m.next a = b := (hinv.inverse a b ha hb).mpr h

theorem Inv.next_ne {h : H} {e : E} (he : e ∈ lists h) : m.next (.elt e) ≠ .null := by
  rcases path_next (hinv.path h) he with hend | ⟨y, _, hy⟩
  · rw [hend]
    exact nofun
  · rw [hy]
    exact nofun

theorem Inv.prev_ne {h : H} {e : E} (he : e ∈ lists h) : m.prev (.elt e) ≠ .null := by
  rcases path_pred (hinv.path h) he with hstart | ⟨y, _, hy⟩
  · rw [hinv.back hstart nofun nofun]
    exact nofun
  · rw [hinv.back hy nofun nofun]
    exact nofun

theorem Inv.head_next_ne (h : H) : m.next (.t h) ≠ .null := by
  have hpath := hinv.path h
  cases hl : lists h with
  | nil =>
    rw [hl] at hpath
    rw [show m.next (.t h) = .t h from hpath]
    exact nofun
  | cons x xs =>
    rw [hl] at hpath
    rw [hpath.1]
    exact nofun

/-- What leads to a head is the head itself or the last of its list. -/
theorem Inv.head_prev (h : H) : m.prev (.t h) = .t h ∨ ∃ y ∈ lists h, m.prev (.t h) = .elt y := by
  rcases path_end (hinv.path h) with hself | ⟨y, hy, hnext⟩
  · exact .inl (hinv.back hself nofun nofun)
  · exact .inr ⟨y, hy, hinv.back hnext nofun nofun⟩

end Present

section Operations

variable [DecidableEq H] [DecidableEq E] {m : Heap H E α} {lists : H → List E}

theorem remove_absent (hinv : Inv m lists) {e : E} (he : ∀ h, e ∉ lists h) : remove m e = m := by
  obtain ⟨hn, hp⟩ := hinv.solo e he
  rw [remove_eq, hn, hp]
  have hsame : (⟨(m.elts e).value, .null, .null⟩ : Element H E α) = m.elts e := by
    have hp' : (m.elts e).prev = .null := hp
    have hn' : (m.elts e).next = .null := hn
    rw [← hp']
    nth_rewrite 2 [hp']
    rw [← hn']
  show (⟨m.heads, Function.update m.elts e ⟨(m.elts e).value, .null, .null⟩⟩ : Heap H E α) = m
  rw [hsame, update_eq_self]

section Removed

variable (hinv : Inv m lists) {h : H} {e : E} (he : e ∈ lists h)

include hinv he

theorem next_remove {x : Link H E} (hx : x ≠ .elt e) :
    (remove m e).next x = if x = m.prev (.elt e) then m.next (.elt e) else m.next x := by
  rw [remove_eq, next_relink, if_neg hx, next_setPrev, next_setNext m (hinv.prev_ne he)]

theorem prev_remove {x : Link H E} (hx : x ≠ .elt e) :
    (remove m e).prev x = if x = m.next (.elt e) then m.prev (.elt e) else m.prev x := by
  rw [remove_eq, prev_relink, if_neg hx, prev_setPrev _ (hinv.next_ne he), prev_setNext]

omit hinv he in
theorem next_removed (m : Heap H E α) (e : E) : (remove m e).next (.elt e) = .null := by
  rw [remove_eq, next_relink, if_pos rfl]

omit hinv he in
theorem prev_removed (m : Heap H E α) (e : E) : (remove m e).prev (.elt e) = .null := by
  rw [remove_eq, prev_relink, if_pos rfl]

theorem remove_inverse (a b : Link H E) (ha : a ≠ .null) (hb : b ≠ .null) : (remove m e).next a = b ↔ (remove m e).prev b = a := by
  have hp := hinv.prev_ne he
  have hn := hinv.next_ne he
  have hself : m.next (.elt e) ≠ .elt e := path_next_ne (hinv.path h) (hinv.nodup h) nofun he
  have hpself : m.prev (.elt e) ≠ .elt e := fun heq => hself (hinv.forth heq nofun nofun)
  have hab := hinv.inverse a b ha hb
  by_cases hae : a = .elt e
  · subst hae
    rw [next_removed]
    by_cases hbe : b = .elt e
    · rw [hbe, prev_removed]
    · rw [prev_remove hinv he hbe]
      by_cases hbn : b = m.next (.elt e)
      · rw [if_pos hbn]
        exact ⟨fun hnull => absurd hnull.symm hb, fun heq => absurd heq hpself⟩
      · rw [if_neg hbn]
        exact ⟨fun hnull => absurd hnull.symm hb, fun heq => absurd (hab.mpr heq).symm hbn⟩
  · rw [next_remove hinv he hae]
    by_cases hbe : b = .elt e
    · subst hbe
      rw [prev_removed]
      by_cases hap : a = m.prev (.elt e)
      · rw [if_pos hap]
        exact ⟨fun heq => absurd heq hself, fun hnull => absurd hnull.symm ha⟩
      · rw [if_neg hap]
        exact ⟨fun heq => absurd (hab.mp heq).symm hap, fun hnull => absurd hnull.symm ha⟩
    · rw [prev_remove hinv he hbe]
      by_cases hap : a = m.prev (.elt e)
      · rw [if_pos hap]
        by_cases hbn : b = m.next (.elt e)
        · rw [if_pos hbn]
          exact ⟨fun _ => hap.symm, fun _ => hbn.symm⟩
        · rw [if_neg hbn]
          refine ⟨fun heq => absurd heq.symm hbn, fun heq => ?_⟩
          -- the old successor of `a` is `e`
          have hb' := hab.mpr heq
          rw [hap, hinv.forth rfl hp nofun] at hb'
          exact absurd hb'.symm hbe
      · rw [if_neg hap]
        by_cases hbn : b = m.next (.elt e)
        · rw [if_pos hbn]
          refine ⟨fun heq => ?_, fun heq => absurd heq.symm hap⟩
          have ha' := hab.mp heq
          rw [hbn, hinv.back (rfl : m.next (.elt e) = _) nofun hn] at ha'
          exact absurd ha'.symm hae
        · rw [if_neg hbn]
          exact hab

theorem remove_path (h' : H) : Path (remove m e).next (.t h') ((lists h').erase e) (.t h') := by
  have hp := hinv.prev_ne he
  refine path_erase (fun x hx hnext => ?_) (fun x hx hnext => ?_) nofun nofun (hinv.nodup h') (hinv.path h')
  · have hne : x ≠ m.prev (.elt e) := by
      intro heq
      exact hnext (hinv.forth heq.symm (heq ▸ hp) nofun)
    rw [next_remove hinv he hx, if_neg hne]
  · have hx0 : x ≠ .null := by
      intro heq
      subst heq
      cases hnext
    rw [next_remove hinv he hx, if_pos (hinv.back hnext hx0 nofun).symm]

end Removed

theorem inv_remove (hinv : Inv m lists) (e : E) : Inv (remove m e) (fun h => (lists h).erase e) := by
  by_cases hin : ∃ h, e ∈ lists h
  · obtain ⟨h, he⟩ := hin
    refine ⟨remove_inverse hinv he, remove_path hinv he, fun h => (hinv.nodup h).erase e, fun h1 h2 x h1x h2x => ?_, fun x hx => ?_⟩
    · exact hinv.disjoint h1 h2 x (List.mem_of_mem_erase h1x) (List.mem_of_mem_erase h2x)
    · by_cases hxe : x = e
      · subst hxe
        exact ⟨next_removed m x, prev_removed m x⟩
      · have hout : ∀ h', x ∉ lists h' := fun h' hxin => hx h' ((List.mem_erase_of_ne hxe).mpr hxin)
        have hne : (.elt x : Link H E) ≠ .elt e := fun heq => hxe (Link.elt.inj heq)
        obtain ⟨hnx, hpx⟩ := hinv.solo x hout
        have hxp : (.elt x : Link H E) ≠ m.prev (.elt e) := by
          intro heq
          have hlink := hinv.forth heq.symm nofun nofun
          rw [hnx] at hlink
          cases hlink
        have hxn : (.elt x : Link H E) ≠ m.next (.elt e) := by
          intro heq
          have hlink := hinv.back heq.symm nofun nofun
          rw [hpx] at hlink
          cases hlink
        rw [next_remove hinv he hne, prev_remove hinv he hne, if_neg hxp, if_neg hxn]
        exact ⟨hnx, hpx⟩
  · have hout : ∀ h, e ∉ lists h := fun h he => hin ⟨h, he⟩
    have hsame : (fun h => (lists h).erase e) = lists := funext fun h => List.erase_of_not_mem (hout h)
    rw [remove_absent hinv hout, hsame]
    exact hinv

/-- An element of no list is linked in between two neighbours. -/
theorem inv_insert (hinv : Inv m lists) {e : E} (he : ∀ h, e ∉ lists h) {head : H} {a b : Link H E} (hab : m.next a = b)
    (ha : a = .t head ∨ ∃ y ∈ lists head, a = .elt y) (hb : b ≠ .null) {m' : Heap H E α}
    (hnext : ∀ x, m'.next x = if x = a then .elt e else if x = .elt e then b else m.next x)
    (hprev : ∀ x, m'.prev x = if x = b then .elt e else if x = .elt e then a else m.prev x)
    {elts : List E} (hpath : Path m'.next (.t head) elts (.t head)) (hperm : elts.Perm (e :: lists head)) :
    Inv m' (Function.update lists head elts) := by
  obtain ⟨hne, hpe⟩ := hinv.solo e he
  have ha0 : a ≠ .null := by
    rcases ha with rfl | ⟨y, _, rfl⟩ <;> exact nofun
  have hba := hinv.back hab ha0 hb
  have hbe : b ≠ .elt e := by
    intro heq
    rw [heq, hpe] at hba
    exact ha0 hba.symm
  have hae : a ≠ .elt e := by
    intro heq
    rw [heq, hne] at hab
    exact hb hab.symm
  have hmem : ∀ x, x ∈ elts ↔ x = e ∨ x ∈ lists head := fun x => (hperm.mem_iff).trans List.mem_cons
  constructor
  · intro x y hx hy
    have hxy := hinv.inverse x y hx hy
    rw [hnext, hprev]
    grind
  · intro h
    by_cases hh : h = head
    · subst hh
      rw [update_self]
      exact hpath
    · rw [update_of_ne hh]
      have hstart : (.t h : Link H E) ≠ a := by
        rcases ha with rfl | ⟨y, _, rfl⟩
        · exact fun heq => hh (Link.t.inj heq)
        · exact nofun
      refine path_congr ?_ (fun x hx => ?_) (hinv.path h)
      · rw [hnext, if_neg hstart, if_neg nofun]
      · have hxa : (.elt x : Link H E) ≠ a := by
          rcases ha with rfl | ⟨y, hy, rfl⟩
          · exact nofun
          · intro heq
            rw [Link.elt.inj heq] at hx
            exact hh (hinv.disjoint h head y hx hy)
        have hxe : (.elt x : Link H E) ≠ .elt e := fun heq => he h (Link.elt.inj heq ▸ hx)
        rw [hnext, if_neg hxa, if_neg hxe]
  · intro h
    by_cases hh : h = head
    · subst hh
      rw [update_self]
      exact hperm.nodup_iff.mpr (List.nodup_cons.mpr ⟨he h, hinv.nodup h⟩)
    · rw [update_of_ne hh]
      exact hinv.nodup h
  · intro h h' x hx hx'
    have hold : ∀ g, g ≠ head → x ∈ Function.update lists head elts g → x ∈ lists g := by
      intro g hg hin
      rwa [update_of_ne hg] at hin
    by_cases hh : h = head
    · subst hh
      by_cases hh' : h' = h
      · exact hh'.symm
      · rw [update_self, hmem] at hx
        have hold' := hold h' hh' hx'
        rcases hx with rfl | hx
        · exact absurd hold' (he h')
        · exact hinv.disjoint h h' x hx hold'
    · have hold₁ := hold h hh hx
      by_cases hh' : h' = head
      · subst hh'
        rw [update_self, hmem] at hx'
        rcases hx' with rfl | hx'
        · exact absurd hold₁ (he h)
        · exact hinv.disjoint h h' x hold₁ hx'
      · exact hinv.disjoint h h' x hold₁ (hold h' hh' hx')
  · intro x hx
    have hxhead := hx head
    rw [update_self, hmem, not_or] at hxhead
    have hout : ∀ h, x ∉ lists h := by
      intro h hin
      by_cases hh : h = head
      · exact hxhead.2 (hh ▸ hin)
      · have hxh := hx h
        rw [update_of_ne hh] at hxh
        exact hxh hin
    obtain ⟨hnx, hpx⟩ := hinv.solo x hout
    have hxe : (.elt x : Link H E) ≠ .elt e := fun heq => hxhead.1 (Link.elt.inj heq)
    have hxa : (.elt x : Link H E) ≠ a := by
      intro heq
      rw [← heq, hnx] at hab
      exact hb hab.symm
    have hxb : (.elt x : Link H E) ≠ b := by
      intro heq
      rw [← heq, hpx] at hba
      exact ha0 hba.symm
    rw [hnext, hprev, if_neg hxa, if_neg hxe, if_neg hxb, if_neg hxe]
    exact ⟨hnx, hpx⟩

theorem value_remove (m : Heap H E α) (e x : E) : unwrap (remove m e) x = unwrap m x := by
  rw [remove_eq, value_relink, value_setPrev, value_setNext]

variable {r : Rings H E α}

theorem refines_remove (href : Refines m r) (e : E) : Refines (remove m e) (r.remove e) where
  toInv := inv_remove href.toInv e
  values := fun x => (value_remove m e x).trans (href.values x)

omit [DecidableEq H] in
theorem absent_removed (href : Refines m r) (e : E) (h : H) : e ∉ (r.remove e).lists h := (href.nodup h).not_mem_erase

theorem refines_add (href : Refines m r) (head : H) (e : E) :
    ∃ m', add m head e = .ok m' ∧ Refines m' (r.step (.add head e)) := by
  have hout := refines_remove href e
  have habsent := absent_removed href e
  have hne := hout.head_next_ne head
  have hne' : (remove m e).next (.t head) ≠ .elt e := by
    intro heq
    have hback := hout.back heq nofun nofun
    rw [(hout.solo e habsent).2] at hback
    cases hback
  refine ⟨_, add_eq rfl hne, ?_, fun x => ?_⟩
  · have hnext : ∀ x, (setPrev (setNext (relink (remove m e) e (.t head) ((remove m e).next (.t head))) (.t head) (.elt e))
        ((remove m e).next (.t head)) (.elt e)).next x =
        if x = .t head then .elt e else if x = .elt e then (remove m e).next (.t head) else (remove m e).next x := by
      intro x
      rw [next_setPrev, next_setNext (a := .t head) _ nofun, next_relink]
    refine inv_insert hout.toInv habsent rfl (.inl rfl) hne hnext (fun x => ?_) ⟨?_, ?_⟩ (List.Perm.refl _)
    · rw [prev_setPrev _ hne, prev_setNext, prev_relink]
    · rw [hnext, if_pos rfl]
    · -- the list goes on behind the new element
      refine path_congr ?_ (fun x hx => ?_) (hout.path head)
      · rw [hnext, if_neg nofun, if_pos rfl]
      · have hxe : (.elt x : Link H E) ≠ .elt e := fun heq => habsent head (Link.elt.inj heq ▸ hx)
        rw [hnext, if_neg nofun, if_neg hxe]
  · rw [value_setPrev, value_setNext, value_relink]
    exact hout.values x

theorem refines_addTail (href : Refines m r) (head : H) (e : E) :
    ∃ m', addTail m head e = .ok m' ∧ Refines m' (r.step (.addTail head e)) := by
  have hout := refines_remove href e
  have habsent := absent_removed href e
  have hlast := hout.head_prev head
  have hne : (remove m e).prev (.t head) ≠ .null := by
    rcases hlast with heq | ⟨y, _, heq⟩ <;> rw [heq] <;> exact nofun
  have hlink : (remove m e).next ((remove m e).prev (.t head)) = .t head := hout.forth rfl hne nofun
  refine ⟨_, addTail_eq rfl hne, ?_, fun x => ?_⟩
  · have hnext : ∀ x, (setNext (setPrev (relink (remove m e) e ((remove m e).prev (.t head)) (.t head)) (.t head) (.elt e))
        ((remove m e).prev (.t head)) (.elt e)).next x =
        if x = (remove m e).prev (.t head) then .elt e else if x = .elt e then .t head else (remove m e).next x := by
      intro x
      rw [next_setNext _ hne, next_setPrev, next_relink]
    refine inv_insert hout.toInv habsent hlink hlast nofun hnext (fun x => ?_) ?_ List.perm_append_comm
    · rw [prev_setNext, prev_setPrev (a := .t head) _ nofun, prev_relink]
    · have hpe : (.elt e : Link H E) ≠ (remove m e).prev (.t head) := by
        intro heq
        rw [← heq, (hout.solo e habsent).1] at hlink
        cases hlink
      refine path_append ?_ (fun x hx hx' => ?_) (fun x hx hx' => ?_) nofun (habsent head) (hout.path head)
      · rw [hnext, if_neg hpe, if_pos rfl]
      · have hxp : x ≠ (remove m e).prev (.t head) := fun heq => hx' (heq ▸ hlink)
        rw [hnext, if_neg hxp, if_neg hx]
      · have hx0 : x ≠ .null := by
          intro heq
          subst heq
          cases hx'
        rw [hnext, if_pos (hout.back hx' hx0 nofun).symm]
  · rw [value_setNext, value_setPrev, value_relink]
    exact hout.values x

/-! ## Clearing -/

/-- What `loop` of `clear` does to the elements it meets. -/
def unlink (m : Heap H E α) (xs : List E) : Heap H E α := xs.foldl (fun m e => relink m e .null .null) m

theorem next_unlink (m : Heap H E α) (xs : List E) (b : Link H E) :
    (unlink m xs).next b = if ∃ x ∈ xs, b = .elt x then .null else m.next b := by
  induction xs generalizing m with
  | nil => simp [unlink]
  | cons x xs ih =>
    have hfold := ih (relink m x .null .null)
    rw [next_relink] at hfold
    show (unlink (relink m x .null .null) xs).next b = _
    rw [hfold]
    by_cases hb : b = .elt x <;> simp [hb]

theorem prev_unlink (m : Heap H E α) (xs : List E) (b : Link H E) :
    (unlink m xs).prev b = if ∃ x ∈ xs, b = .elt x then .null else m.prev b := by
  induction xs generalizing m with
  | nil => simp [unlink]
  | cons x xs ih =>
    have hfold := ih (relink m x .null .null)
    rw [prev_relink] at hfold
    show (unlink (relink m x .null .null) xs).prev b = _
    rw [hfold]
    by_cases hb : b = .elt x <;> simp [hb]

omit [DecidableEq H] in
theorem value_unlink (m : Heap H E α) (xs : List E) (e : E) : unwrap (unlink m xs) e = unwrap m e := by
  induction xs generalizing m with
  | nil => rfl
  | cons x xs ih => exact (ih (relink m x .null .null)).trans (value_relink m x _ _ e)

/-- The loop reads each element before it unlinks it. -/
theorem clearLoop_eq {next : Link H E → Link H E} {xs : List E} {a : Link H E} {h : H} (hpath : Path next a xs (.t h)) (hnodup : xs.Nodup)
    (hsame : ∀ x ∈ xs, m.next (.elt x) = next (.elt x)) {fuel : Nat} (hfuel : xs.length ≤ fuel) :
    clearLoop fuel m (next a) = .ok (unlink m xs) := by
  induction xs generalizing m a fuel with
  | nil =>
    rw [show next a = .t h from hpath]
    cases fuel <;> rfl
  | cons x xs ih =>
    obtain ⟨hx, hpath⟩ := hpath
    obtain ⟨hnot, hnodup⟩ := List.nodup_cons.mp hnodup
    obtain ⟨fuel, rfl⟩ : ∃ k, fuel = k + 1 := ⟨fuel - 1, by rw [List.length_cons] at hfuel; omega⟩
    have hrest : ∀ y ∈ xs, (relink m x .null .null).next (.elt y) = next (.elt y) := by
      intro y hy
      have hyx : (.elt y : Link H E) ≠ .elt x := fun heq => hnot (Link.elt.inj heq ▸ hy)
      rw [next_relink, if_neg hyx]
      exact hsame y (List.mem_cons_of_mem x hy)
    have hloop := ih hpath hnodup hrest (Nat.le_of_succ_le_succ hfuel)
    rw [hx]
    show clearLoop fuel (relink m x .null .null) (m.next (.elt x)) = _
    rw [hsame x List.mem_cons_self, hloop]
    rfl

theorem refines_clear (href : Refines m r) (head : H) :
    ∃ m', (∀ fuel, (r.lists head).length ≤ fuel → clear fuel m head = .ok m') ∧ Refines m' (r.step (.clear head)) := by
  refine ⟨setPrev (setNext (unlink m (r.lists head)) (.t head) (.t head)) (.t head) (.t head), fun fuel hfuel => ?_, ?_, fun x => ?_⟩
  · have hloop := clearLoop_eq (href.path head) (href.nodup head) (fun _ _ => rfl) hfuel
    unfold clear
    rw [show (m.heads head).next = m.next (.t head) from rfl, hloop]
    simp [setPrev, setNext, setHead, bind, Except.bind]
  · have hnext : ∀ x, (setPrev (setNext (unlink m (r.lists head)) (.t head) (.t head)) (.t head) (.t head)).next x =
        if x = .t head then .t head else if ∃ y ∈ r.lists head, x = .elt y then .null else m.next x := by
      intro x
      rw [next_setPrev, next_setNext (a := .t head) _ nofun, next_unlink]
    have hprev : ∀ x, (setPrev (setNext (unlink m (r.lists head)) (.t head) (.t head)) (.t head) (.t head)).prev x =
        if x = .t head then .t head else if ∃ y ∈ r.lists head, x = .elt y then .null else m.prev x := by
      intro x
      rw [prev_setPrev (a := .t head) _ nofun, prev_setNext, prev_unlink]
    -- the nodes of the ring are linked with each other only
    have hin : ∀ a b, a ≠ .null → b ≠ .null → m.next a = b →
        ((a = .t head ∨ ∃ y ∈ r.lists head, a = .elt y) ↔ (b = .t head ∨ ∃ y ∈ r.lists head, b = .elt y)) := by
      intro a b ha hb hab
      constructor
      · rintro (rfl | ⟨y, hy, rfl⟩)
        · have hpath := href.path head
          cases hl : r.lists head with
          | nil =>
            rw [hl] at hpath
            exact .inl (hab.symm.trans hpath)
          | cons x xs =>
            rw [hl] at hpath
            exact .inr ⟨x, List.mem_cons_self, hab.symm.trans hpath.1⟩
        · rcases path_next (href.path head) hy with hend | ⟨z, hz, hlink⟩
          · exact .inl (hab.symm.trans hend)
          · exact .inr ⟨z, hz, hab.symm.trans hlink⟩
      · have hba := href.back hab ha hb
        rintro (rfl | ⟨y, hy, rfl⟩)
        · rcases href.head_prev head with hself | ⟨z, hz, hlink⟩
          · exact .inl (hba.symm.trans hself)
          · exact .inr ⟨z, hz, hba.symm.trans hlink⟩
        · rcases path_pred (href.path head) hy with hstart | ⟨z, hz, hlink⟩
          · exact .inl (hba.symm.trans (href.back hstart nofun nofun))
          · exact .inr ⟨z, hz, hba.symm.trans (href.back hlink nofun nofun)⟩
    constructor
    · intro a b ha hb
      have hab := href.inverse a b ha hb
      have hring := hin a b ha hb
      rw [hnext, hprev]
      split_ifs <;> grind
    · intro h
      show Path _ _ (Function.update r.lists head [] h) _
      by_cases hh : h = head
      · subst hh
        rw [update_self]
        show Heap.next _ _ = _
        rw [hnext, if_pos rfl]
      · have hstart : (.t h : Link H E) ≠ .t head := fun heq => hh (Link.t.inj heq)
        rw [update_of_ne hh]
        refine path_congr ?_ (fun x hx => ?_) (href.path h)
        · rw [hnext, if_neg hstart, if_neg]
          rintro ⟨y, _, heq⟩
          cases heq
        · rw [hnext, if_neg nofun, if_neg]
          rintro ⟨y, hy, heq⟩
          exact hh (href.disjoint h head x hx (Link.elt.inj heq ▸ hy))
    · intro h
      show (Function.update r.lists head [] h).Nodup
      by_cases hh : h = head
      · subst hh
        rw [update_self]
        exact List.nodup_nil
      · rw [update_of_ne hh]
        exact href.nodup h
    · intro h h' x hx hx'
      have hold : ∀ g, x ∈ Function.update r.lists head [] g → x ∈ r.lists g := by
        intro g hg
        by_cases hgh : g = head
        · subst hgh
          rw [update_self] at hg
          cases hg
        · rwa [update_of_ne hgh] at hg
      exact href.disjoint h h' x (hold h hx) (hold h' hx')
    · intro x hx
      have hne : (.elt x : Link H E) ≠ .t head := nofun
      rw [hnext, hprev, if_neg hne, if_neg hne]
      by_cases hmem : ∃ y ∈ r.lists head, (.elt x : Link H E) = .elt y
      · rw [if_pos hmem, if_pos hmem]
        exact ⟨rfl, rfl⟩
      · rw [if_neg hmem, if_neg hmem]
        refine href.solo x fun h hxh => ?_
        by_cases hh : h = head
        · exact hmem ⟨x, hh ▸ hxh, rfl⟩
        · have hnot : x ∉ Function.update r.lists head [] h := hx h
          rw [update_of_ne hh] at hnot
          exact hnot hxh
  · rw [value_setPrev, value_setNext, value_unlink]
    exact href.values x

end Operations

/-! ## Enumerations -/

/-- What `head`, `tail`, `next` and `prev` make of a link. -/
def element : Link H E → Except Stop (Option E)
  | .null => .error .broken
  | .elt x => .ok (some x)
  | .t _ => .ok none

theorem head_eq (m : Heap H E α) (h : H) : head m h = element (m.next (.t h)) := by
  show head m h = element (m.heads h).next
  unfold head
  cases (m.heads h).next <;> rfl

theorem tail_eq (m : Heap H E α) (h : H) : tail m h = element (m.prev (.t h)) := by
  show tail m h = element (m.heads h).prev
  unfold tail
  cases (m.heads h).prev <;> rfl

theorem next_eq (m : Heap H E α) (e : E) : next m e = element (m.next (.elt e)) := by
  show next m e = element (m.elts e).next
  unfold next
  cases (m.elts e).next <;> rfl

theorem prev_eq (m : Heap H E α) (e : E) : prev m e = element (m.prev (.elt e)) := by
  show prev m e = element (m.elts e).prev
  unfold prev
  cases (m.elts e).prev <;> rfl

theorem element_start {next : Link H E → Link H E} {xs : List E} {a : Link H E} {h : H} (hpath : Path next a xs (.t h)) :
    element (next a) = .ok xs.head? := by
  cases xs with
  | nil =>
    rw [show next a = .t h from hpath]
    rfl
  | cons x xs =>
    rw [hpath.1]
    rfl

theorem follow_eq {next : Link H E → Link H E} {step : E → Except Stop (Option E)} (hstep : ∀ e, step e = element (next (.elt e)))
    {xs : List E} {a : Link H E} {h : H} (hpath : Path next a xs (.t h)) {fuel : Nat} (hfuel : xs.length ≤ fuel) :
    follow step fuel xs.head? = .ok xs := by
  induction xs generalizing a fuel with
  | nil => cases fuel <;> rfl
  | cons x xs ih =>
    obtain ⟨fuel, rfl⟩ : ∃ k, fuel = k + 1 := ⟨fuel - 1, by rw [List.length_cons] at hfuel; omega⟩
    have hrest := ih hpath.2 (Nat.le_of_succ_le_succ hfuel)
    have hafter := (hstep x).trans (element_start hpath.2)
    show (do let after ← step x; let elts ← follow step fuel after; Except.ok (x :: elts)) = _
    rw [hafter]
    show (do let elts ← follow step fuel xs.head?; Except.ok (x :: elts)) = _
    rw [hrest]
    rfl

/-- The list of a head fixes the links of its elements. -/
theorem path_unique {next next' : Link H E → Link H E} {xs : List E} {a b : Link H E} (h : Path next a xs b) (h' : Path next' a xs b) :
    next a = next' a ∧ ∀ x ∈ xs, next (.elt x) = next' (.elt x) := by
  induction xs generalizing a with
  | nil =>
    refine ⟨Eq.trans h (Eq.symm h'), fun x hx => ?_⟩
    cases hx
  | cons x xs ih =>
    obtain ⟨hx, hrest⟩ := ih h.2 h'.2
    refine ⟨h.1.trans h'.1.symm, fun y hy => ?_⟩
    rcases List.mem_cons.mp hy with rfl | hy
    · exact hx
    · exact hrest y hy

theorem force_eq {heaps : Nat → Heap H E α} {next : Link H E → Link H E} {xs : List E} {a : Link H E} {h : H} (hpath : Path next a xs (.t h))
    (hsame : ∀ i, ∀ x ∈ xs, (heaps i).next (.elt x) = next (.elt x)) {fuel : Nat} (hfuel : xs.length ≤ fuel) (i : Nat) :
    force heaps fuel i (next a) = .ok xs := by
  induction xs generalizing a fuel i with
  | nil =>
    rw [show next a = .t h from hpath]
    unfold force
    rfl
  | cons x xs ih =>
    obtain ⟨hx, hpath⟩ := hpath
    obtain ⟨fuel, rfl⟩ : ∃ k, fuel = k + 1 := ⟨fuel - 1, by rw [List.length_cons] at hfuel; omega⟩
    have hrest := ih hpath (fun i y hy => hsame i y (List.mem_cons_of_mem x hy)) (Nat.le_of_succ_le_succ hfuel) (i + 1)
    rw [hx]
    show (do let elts ← force heaps fuel (i + 1) ((heaps i).next (.elt x)); Except.ok (x :: elts)) = _
    rw [hsame i x List.mem_cons_self, hrest]
    rfl

/-- An iterator meets its list, whatever happens to other rings in between. -/
theorem force_refines {heaps : Nat → Heap H E α} {rings : Nat → Rings H E α} (href : ∀ i, Refines (heaps i) (rings i)) {h : H} {l : List E}
    (hl : ∀ i, (rings i).lists h = l) {fuel : Nat} (hfuel : l.length ≤ fuel) : force heaps fuel 0 ((heaps 0).heads h).next = .ok l := by
  have hpath : ∀ i, Path (heaps i).next (.t h) l (.t h) := fun i => hl i ▸ (href i).path h
  exact force_eq (hpath 0) (fun i x hx => (path_unique (hpath i) (hpath 0)).2 x hx) hfuel 0

/-! ## Callbacks -/

section Callbacks

variable [DecidableEq H] [DecidableEq E] {m : Heap H E α} {r : Rings H E α}

omit [DecidableEq H] [DecidableEq E] in
theorem isSolo_iff (href : Refines m r) (e : E) : isSolo m e = true ↔ ∀ h, e ∉ r.lists h := by
  have hsolo : isSolo m e = true ↔ m.prev (.elt e) = .null := by
    show isSolo m e = true ↔ (m.elts e).prev = .null
    unfold isSolo
    cases (m.elts e).prev <;> simp
  rw [hsolo]
  constructor
  · intro hnull h he
    exact href.prev_ne he hnull
  · intro hout
    exact (href.solo e hout).2

theorem refines_removes (href : Refines m r) (es : List E) : Refines (es.foldl remove m) (es.foldl Rings.remove r) := by
  induction es generalizing m r with
  | nil => exact href
  | cons e es ih => exact ih (refines_remove href e)

omit [DecidableEq H] in
theorem removes_sub (r : Rings H E α) (es : List E) (h : H) : (es.foldl Rings.remove r).lists h ⊆ r.lists h := by
  induction es generalizing r with
  | nil => exact List.Subset.refl _
  | cons e es ih => exact List.Subset.trans (ih (r.remove e)) List.erase_subset

/-- The state of `app` along a part of the elements. -/
theorem exec_refines (f : E → σ → Heap H E α → σ × List E) (xs : List E) (log : List E) (s : σ) (href : Refines m r) :
    ∃ r', Refines (xs.foldl (exec f) (log, s, m)).2.2 r' ∧ ∀ h, r'.lists h ⊆ r.lists h := by
  induction xs generalizing log s m r with
  | nil => exact ⟨r, href, fun _ => List.Subset.refl _⟩
  | cons x xs ih =>
    rw [List.foldl_cons]
    unfold exec
    by_cases hx : isSolo m x = true
    · rw [if_pos hx]
      exact ih log s href
    · rw [if_neg hx]
      obtain ⟨r', href', hsub⟩ := ih (log ++ [x]) (f x s m).1 (refines_removes href (f x s m).2)
      exact ⟨r', href', fun h => List.Subset.trans (hsub h) (removes_sub r _ h)⟩

/-- Only the elements themselves are visited, in their order. -/
theorem exec_log (f : E → σ → Heap H E α → σ × List E) (xs : List E) (t : List E × σ × Heap H E α) :
    ∃ ys, ys.Sublist xs ∧ (xs.foldl (exec f) t).1 = t.1 ++ ys := by
  induction xs generalizing t with
  | nil => exact ⟨[], List.Sublist.refl _, (List.append_nil _).symm⟩
  | cons x xs ih =>
    obtain ⟨ys, hys, hlog⟩ := ih (exec f t x)
    rw [List.foldl_cons, hlog]
    unfold exec
    by_cases hx : isSolo t.2.2 x = true
    · rw [if_pos hx]
      exact ⟨ys, hys.cons x, rfl⟩
    · rw [if_neg hx]
      exact ⟨x :: ys, hys.cons_cons x, by rw [List.append_assoc]; rfl⟩

/-- An element is visited exactly if it is still there when its turn comes. -/
theorem exec_visits (f : E → σ → Heap H E α → σ × List E) {xs : List E} (hnodup : xs.Nodup) (s : σ) (m : Heap H E α) {before after : List E} {e : E}
    (hsplit : xs = before ++ e :: after) :
    e ∈ (xs.foldl (exec f) ([], s, m)).1 ↔ ¬ isSolo (before.foldl (exec f) ([], s, m)).2.2 e = true := by
  subst hsplit
  rw [List.foldl_append, List.foldl_cons]
  obtain ⟨hbefore, hrest, hapart⟩ := List.nodup_append.mp hnodup
  obtain ⟨hnot, _⟩ := List.nodup_cons.mp hrest
  obtain ⟨ys, hys, hlog⟩ := exec_log f before ([], s, m)
  generalize before.foldl (exec f) ([], s, m) = turn at *
  obtain ⟨zs, hzs, hlog'⟩ := exec_log f after (exec f turn e)
  have hey : e ∉ turn.1 := by
    rw [hlog, List.nil_append]
    exact fun hin => hapart e (hys.subset hin) e List.mem_cons_self rfl
  have hez : e ∉ zs := fun hin => hnot (hzs.subset hin)
  rw [hlog', List.mem_append]
  unfold exec
  by_cases hsolo : isSolo turn.2.2 e = true
  · simp [hsolo, hey, hez]
  · simp [hsolo]

end Callbacks

/-! ## Runs -/

section Runs

variable [DecidableEq H] [DecidableEq E] {m : Heap H E α} {r : Rings H E α}

/-- With enough fuel an operation does on the references what it does on the lists. -/
theorem step_refines (href : Refines m r) (op : Op H E α) :
    ∃ n m', (∀ fuel, n ≤ fuel → step fuel m op = .ok m') ∧ Refines m' (r.step op) := by
  cases op with
  | add head elt =>
    obtain ⟨m', hadd, href'⟩ := refines_add href head elt
    exact ⟨0, m', fun _ _ => hadd, href'⟩
  | addTail head elt =>
    obtain ⟨m', hadd, href'⟩ := refines_addTail href head elt
    exact ⟨0, m', fun _ _ => hadd, href'⟩
  | remove elt => exact ⟨0, _, fun _ _ => rfl, refines_remove href elt⟩
  | clear head =>
    obtain ⟨m', hclear, href'⟩ := refines_clear href head
    exact ⟨_, m', hclear, href'⟩
  | update elt value =>
    refine ⟨0, _, fun _ _ => rfl, ?_, fun e => ?_⟩
    · have hnext : (update m elt value).next = m.next := by
        funext x
        cases x <;> simp [update, setElt, Heap.next, update_apply]
        split <;> simp_all
      have hprev : (update m elt value).prev = m.prev := by
        funext x
        cases x <;> simp [update, setElt, Heap.prev, update_apply]
        split <;> simp_all
      refine ⟨?_, ?_, href.nodup, href.disjoint, ?_⟩
      · rw [hnext, hprev]
        exact href.inverse
      · rw [hnext]
        exact href.path
      · rw [hnext, hprev]
        exact href.solo
    · by_cases he : e = elt
      · subst he
        simp [update, setElt, unwrap, Rings.step]
      · have hvalue := href.values e
        unfold unwrap at hvalue
        simp [update, setElt, unwrap, Rings.step, he, hvalue]

theorem run_refines (href : Refines m r) (ops : List (Op H E α)) :
    ∃ n m', (∀ fuel, n ≤ fuel → run fuel m ops = .ok m') ∧ Refines m' (ops.foldl Rings.step r) := by
  induction ops generalizing m r with
  | nil => exact ⟨0, m, fun _ _ => rfl, href⟩
  | cons op ops ih =>
    obtain ⟨n, m1, hstep, href1⟩ := step_refines href op
    obtain ⟨k, m2, hrun, href2⟩ := ih href1
    refine ⟨max n k, m2, fun fuel hfuel => ?_, href2⟩
    unfold run
    rw [List.foldlM_cons, hstep fuel (by omega)]
    exact hrun fuel (by omega)

theorem ring_refines (values : E → α) (ops : List (Op H E α)) : ∃ n m r,
    (∀ fuel, n ≤ fuel → run fuel (fresh values) ops = .ok m) ∧ r = ops.foldl Rings.step (Rings.fresh values) ∧ Refines m r ∧
    -- no element is in two rings, or twice in one
    (∀ h h' e, e ∈ r.lists h → e ∈ r.lists h' → h = h') ∧ (∀ h, (r.lists h).Nodup) ∧
    (∀ e, unwrap m e = r.values e) ∧ (∀ e, isSolo m e = true ↔ ∀ h, e ∉ r.lists h) ∧
    -- both directions
    (∀ h, head m h = .ok (r.lists h).head? ∧ tail m h = .ok (r.lists h).reverse.head?) ∧
    (∀ h fuel, (r.lists h).length ≤ fuel →
      follow (next m) fuel (r.lists h).head? = .ok (r.lists h) ∧
      follow (prev m) fuel (r.lists h).reverse.head? = .ok (r.lists h).reverse) ∧
    -- an iterator, while the ring keeps its list
    (∀ h fuel (heaps : Nat → Heap H E α) (rings : Nat → Rings H E α), heaps 0 = m → rings 0 = r → (∀ i, Refines (heaps i) (rings i)) →
      (∀ i, (rings i).lists h = r.lists h) → (r.lists h).length ≤ fuel →
      force heaps fuel 0 (m.heads h).next = .ok (r.lists h)) ∧
    -- a callback that removes elements
    (∀ (σ : Type) (f : E → σ → Heap H E α → σ × List E) (s : σ) h fuel, (r.lists h).length ≤ fuel →
      ∃ visited s' m' r', app fuel f s m h = .ok (visited, s', m') ∧ Refines m' r' ∧ visited.Sublist (r.lists h) ∧ visited.Nodup ∧
        ∀ before e after, r.lists h = before ++ e :: after →
          ∃ now, Refines (before.foldl (exec f) ([], s, m)).2.2 now ∧ (e ∈ visited ↔ e ∈ now.lists h)) := by
  have hfresh : Refines (fresh values : Heap H E α) (Rings.fresh values) := ⟨inv_fresh values, fun _ => rfl⟩
  obtain ⟨n, m, hrun, href⟩ := run_refines hfresh ops
  generalize hr : ops.foldl Rings.step (Rings.fresh values) = r at href
  have hback : ∀ h, Path m.prev (.t h) (r.lists h).reverse (.t h) := fun h =>
    path_reverse nofun nofun (fun x y hx hy hxy => href.back hxy hx hy) (href.path h)
  refine ⟨n, m, r, hrun, rfl, href, href.disjoint, href.nodup, href.values, isSolo_iff href, fun h => ⟨?_, ?_⟩, fun h fuel hfuel => ⟨?_, ?_⟩, ?_, ?_⟩
  · rw [head_eq]
    exact element_start (href.path h)
  · rw [tail_eq]
    exact element_start (hback h)
  · exact follow_eq (next_eq m) (href.path h) hfuel
  · exact follow_eq (prev_eq m) (hback h) (by rwa [List.length_reverse])
  · intro h fuel heaps rings hm hr0 hrefs hl hfuel
    subst hm
    exact force_refines hrefs hl hfuel
  · intro σ f s h fuel hfuel
    have hlist : toList fuel m h = .ok (r.lists h) := force_refines (fun _ => href) (fun _ => rfl) hfuel
    obtain ⟨r', href', _⟩ := exec_refines f (r.lists h) [] s href
    obtain ⟨ys, hys, hlog⟩ := exec_log f (r.lists h) ([], s, m)
    have hsub : ((r.lists h).foldl (exec f) ([], s, m)).1.Sublist (r.lists h) := by
      rw [hlog]
      exact hys
    refine ⟨_, ((r.lists h).foldl (exec f) ([], s, m)).2.1, _, r', ?_, href', hsub, hsub.nodup (href.nodup h), fun before e after hsplit => ?_⟩
    · unfold app
      rw [hlist]
      rfl
    · obtain ⟨now, hnow, hle⟩ := exec_refines f before [] s href
      refine ⟨now, hnow, ?_⟩
      rw [exec_visits f (href.nodup h) s m hsplit, isSolo_iff hnow]
      constructor
      · intro hsome
        obtain ⟨h', hin⟩ := not_forall_not.mp hsome
        -- nothing is added, so it is in this ring
        have hold : e ∈ r.lists h := by
          rw [hsplit]
          simp
        exact href.disjoint h' h e (hle h' hin) hold ▸ hin
      · intro hin hout
        exact hout h hin

end Runs

end BubbleStorm.Util.Container.Ring
