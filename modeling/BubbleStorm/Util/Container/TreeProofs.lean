/-
  BubbleStorm.Util.Container.TreeProofs — the red-black tree is an ordered multimap.

  `toList` reads a tree in order. Every function is described by what it does to that
  list and to the red-black shape (`RB`); the order of the keys is a property of the
  list alone.
-/

import Mathlib.Data.Multiset.ZeroCons
import BubbleStorm.Util.Container.Tree

namespace BubbleStorm.Util.Container.Tree

open BubbleStorm.Cusp (Exn)
open BubbleStorm.Cusp.Stream (bind_ok)

variable {κ α : Type} {lt : κ → κ → Bool}

def toList : Tree κ α → List (κ × α)
  | leaf => []
  | red l x r | black l x r => toList l ++ x :: toList r

@[simp] theorem toList_leaf : toList (leaf : Tree κ α) = [] := rfl
@[simp] theorem toList_red (l : Tree κ α) (x : κ × α) (r : Tree κ α) : toList (red l x r) = toList l ++ x :: toList r := rfl
@[simp] theorem toList_black (l : Tree κ α) (x : κ × α) (r : Tree κ α) :
    toList (black l x r) = toList l ++ x :: toList r := rfl

/-- The keys are in order; equal keys may follow each other. -/
def Sorted (lt : κ → κ → Bool) (l : List (κ × α)) : Prop := l.Pairwise fun a b => lt b.1 a.1 = false

inductive Color where
  | red
  | black
  deriving DecidableEq

/-- No red node has a red child, and every path has `n` black nodes. -/
inductive RB : Color → Nat → Tree κ α → Prop
  | leaf : RB .black 0 leaf
  | red {n : Nat} {l r : Tree κ α} (x : κ × α) : RB .black n l → RB .black n r → RB .red n (.red l x r)
  | black {n : Nat} {cl cr : Color} {l r : Tree κ α} (x : κ × α) :
      RB cl n l → RB cr n r → RB .black (n + 1) (.black l x r)

variable {c cl cr : Color} {n : Nat} {l r t t' : Tree κ α} {x : κ × α}

/-! ## Inserting -/

/-- A red node that may have one red child. -/
def Almost (n : Nat) (t : Tree κ α) : Prop :=
  ∃ l x r cl cr, t = red l x r ∧ RB cl n l ∧ RB cr n r ∧ (cl = .black ∨ cr = .black)

@[simp] theorem toList_up (l : Tree κ α) (x : κ × α) (r : Tree κ α) : toList (up l x r) = toList l ++ x :: toList r := by
  unfold up
  split <;> simp

theorem up_of_rb (hl : RB cl n l) (hr : RB cr n r) : ∃ c, RB c (n + 1) (up l x r) := by
  unfold up
  split
  · cases hl with
    | red _ h _ => cases h
  · cases hl with
    | red _ _ h => cases h
  · cases hr with
    | red _ h _ => cases h
  · cases hr with
    | red _ _ h => cases h
  · exact ⟨_, .black _ hl hr⟩

theorem up_left (hl : Almost n l) (hr : RB c n r) : ∃ c, RB c (n + 1) (up l x r) := by
  obtain ⟨a, y, b, ca, cb, rfl, ha, hb, hc⟩ := hl
  cases ha with
  | red z h1 h2 => exact ⟨_, .red _ (.black _ h1 h2) (.black _ hb hr)⟩
  | leaf =>
    cases hb with
    | red z h1 h2 => exact ⟨_, .red _ (.black _ .leaf h1) (.black _ h2 hr)⟩
    | leaf => exact up_of_rb (.red y .leaf .leaf) hr
  | black z h1 h2 =>
    cases hb with
    | red z h3 h4 => exact ⟨_, .red _ (.black _ (.black _ h1 h2) h3) (.black _ h4 hr)⟩
    | black z h3 h4 => exact up_of_rb (.red y (.black _ h1 h2) (.black _ h3 h4)) hr

/-- A left child that is in order is left alone. -/
theorem up_turn_left (hl : RB c n l) (y z : κ × α) (b d e : Tree κ α) :
    up l x (red (red b y d) z e) = red (black l x b) y (black d z e) := by
  cases hl with
  | leaf => rfl
  | black _ h1 h2 => rfl
  | red _ h1 h2 => cases h1 <;> cases h2 <;> rfl

theorem up_turn_right (hl : RB c n l) {b : Tree κ α} {m : Nat} (hb : RB .black m b) (y z : κ × α) (d e : Tree κ α) :
    up l x (red b y (red d z e)) = red (black l x b) y (black d z e) := by
  cases hl with
  | leaf => cases hb <;> rfl
  | black _ h1 h2 => cases hb <;> rfl
  | red _ h1 h2 => cases h1 <;> cases h2 <;> cases hb <;> rfl

theorem up_right (hl : RB c n l) (hr : Almost n r) : ∃ c, RB c (n + 1) (up l x r) := by
  obtain ⟨a, y, b, ca, cb, rfl, ha, hb, hc⟩ := hr
  rcases hc with rfl | rfl
  · cases hb with
    | red z h1 h2 =>
      rw [up_turn_right hl ha]
      exact ⟨_, .red _ (.black _ hl ha) (.black _ h1 h2)⟩
    | leaf => exact up_of_rb hl (.red y ha .leaf)
    | black z h1 h2 => exact up_of_rb hl (.red y ha (.black z h1 h2))
  · cases ha with
    | red z h1 h2 =>
      rw [up_turn_left hl]
      exact ⟨_, .red _ (.black _ hl h1) (.black _ h2 hb)⟩
    | leaf => exact up_of_rb hl (.red y .leaf hb)
    | black z h1 h2 => exact up_of_rb hl (.red y (.black z h1 h2) hb)

/-- A subtree with a binding more is in order, unless both it and its root's child are
    red. -/
theorem insertDown_rb (k : κ) (v : α) (h : RB c n t) :
    (∃ c', RB c' n (insertDown lt k v t)) ∨ c = .red ∧ Almost n (insertDown lt k v t) := by
  induction h with
  | leaf => exact .inl ⟨_, .red _ .leaf .leaf⟩
  | red x hl hr ihl ihr =>
    refine .inr ⟨rfl, ?_⟩
    unfold insertDown
    split
    · obtain ⟨c', h⟩ := ihl.resolve_right fun h => Color.noConfusion h.1
      exact ⟨_, _, _, _, _, rfl, h, hr, .inr rfl⟩
    · obtain ⟨c', h⟩ := ihr.resolve_right fun h => Color.noConfusion h.1
      exact ⟨_, _, _, _, _, rfl, hl, h, .inl rfl⟩
  | black x hl hr ihl ihr =>
    refine .inl ?_
    unfold insertDown
    split
    · rcases ihl with ⟨c', h⟩ | ⟨-, h⟩
      · exact up_of_rb h hr
      · exact up_left h hr
    · rcases ihr with ⟨c', h⟩ | ⟨-, h⟩
      · exact up_of_rb hl h
      · exact up_right hl h

theorem insert_rb (k : κ) (v : α) (h : RB c n t) : ∃ c' n', RB c' n' (insert lt t k v) := by
  have node : ∀ {cl cr n l r} {x : κ × α}, RB cl n l → RB cr n r →
      ∃ c' n', RB c' n' (if lt k x.1 then up (insertDown lt k v l) x r else up l x (insertDown lt k v r)) := by
    intro cl cr n l r x hl hr
    split
    · rcases insertDown_rb k v hl with ⟨c', h⟩ | ⟨-, h⟩
      · exact ⟨_, _, (up_of_rb h hr).choose_spec⟩
      · exact ⟨_, _, (up_left h hr).choose_spec⟩
    · rcases insertDown_rb k v hr with ⟨c', h⟩ | ⟨-, h⟩
      · exact ⟨_, _, (up_of_rb hl h).choose_spec⟩
      · exact ⟨_, _, (up_right hl h).choose_spec⟩
  cases h with
  | leaf => exact ⟨_, _, .black _ .leaf .leaf⟩
  | red x hl hr => exact node hl hr
  | black x hl hr => exact node hl hr

/-- Where a binding goes: behind those whose key is not above its own. -/
def Inserted (lt : κ → κ → Bool) (k : κ) (v : α) (l l' : List (κ × α)) : Prop :=
  ∃ l1 l2, l = l1 ++ l2 ∧ l' = l1 ++ (k, v) :: l2 ∧ (∀ a ∈ l1, lt k a.1 = false) ∧ ∀ b ∈ l2, lt k b.1 = true

variable {k : κ} {v : α}

theorem Inserted.left {l l' m : List (κ × α)} (W : BinHeap.Weak lt fun _ => True) (h : Inserted lt k v l l') (x : κ × α)
    (hx : lt k x.1 = true) (hs : Sorted lt (l ++ x :: m)) : Inserted lt k v (l ++ x :: m) (l' ++ x :: m) := by
  obtain ⟨l1, l2, rfl, rfl, h1, h2⟩ := h
  refine ⟨l1, l2 ++ x :: m, by simp, by simp, h1, fun b hb => ?_⟩
  rcases List.mem_append.mp hb with hb | hb
  · exact h2 b hb
  · have hxm : ∀ b ∈ m, lt b.1 x.1 = false := (List.pairwise_cons.mp (List.pairwise_append.mp hs).2.1).1
    rcases List.mem_cons.mp hb with rfl | hb
    · exact hx
    · by_contra hk
      rw [Bool.not_eq_true] at hk
      have := W.trans trivial trivial trivial hk (hxm b hb)
      rw [hx] at this
      cases this

theorem Inserted.right {l m m' : List (κ × α)} (W : BinHeap.Weak lt fun _ => True) (h : Inserted lt k v m m') (x : κ × α)
    (hx : lt k x.1 = false) (hs : Sorted lt (l ++ x :: m)) : Inserted lt k v (l ++ x :: m) (l ++ x :: m') := by
  obtain ⟨m1, m2, rfl, rfl, h1, h2⟩ := h
  refine ⟨l ++ x :: m1, m2, by simp, by simp, fun a ha => ?_, h2⟩
  rcases List.mem_append.mp ha with ha | ha
  · have hax : lt x.1 a.1 = false := (List.pairwise_append.mp hs).2.2 a ha x (.head _)
    exact W.trans trivial trivial trivial hx hax
  · rcases List.mem_cons.mp ha with rfl | ha
    · exact hx
    · exact h1 a ha

theorem insertDown_list (W : BinHeap.Weak lt fun _ => True) (hs : Sorted lt (toList t)) :
    Inserted lt k v (toList t) (toList (insertDown lt k v t)) := by
  induction t with
  | leaf => exact ⟨[], [], rfl, rfl, nofun, nofun⟩
  | red l x r ihl ihr =>
    have hl := ihl (List.pairwise_append.mp hs).1
    have hr := ihr (List.pairwise_cons.mp (List.pairwise_append.mp hs).2.1).2
    unfold insertDown
    split
    · rename_i hx
      exact hl.left W x hx hs
    · rename_i hx
      exact hr.right W x (Bool.not_eq_true _ ▸ hx) hs
  | black l x r ihl ihr =>
    have hl := ihl (List.pairwise_append.mp hs).1
    have hr := ihr (List.pairwise_cons.mp (List.pairwise_append.mp hs).2.1).2
    unfold insertDown
    split
    · rename_i hx
      rw [toList_up]
      exact hl.left W x hx hs
    · rename_i hx
      rw [toList_up]
      exact hr.right W x (Bool.not_eq_true _ ▸ hx) hs

theorem insert_list (W : BinHeap.Weak lt fun _ => True) (hs : Sorted lt (toList t)) :
    Inserted lt k v (toList t) (toList (insert lt t k v)) := by
  have node : ∀ {l r : Tree κ α} {x : κ × α}, Sorted lt (toList l ++ x :: toList r) →
      Inserted lt k v (toList l ++ x :: toList r)
        (toList (if lt k x.1 then up (insertDown lt k v l) x r else up l x (insertDown lt k v r))) := by
    intro l r x hs
    have hl := insertDown_list (k := k) (v := v) W (List.pairwise_append.mp hs).1
    have hr := insertDown_list (k := k) (v := v) W (List.pairwise_cons.mp (List.pairwise_append.mp hs).2.1).2
    split
    · rename_i hx
      rw [toList_up]
      exact hl.left W x hx hs
    · rename_i hx
      rw [toList_up]
      exact hr.right W x (Bool.not_eq_true _ ▸ hx) hs
  cases t with
  | leaf => exact ⟨[], [], rfl, rfl, nofun, nofun⟩
  | red l x r => exact node hs
  | black l x r => exact node hs

theorem Inserted.sorted {l l' : List (κ × α)} (W : BinHeap.Weak lt fun _ => True) (h : Inserted lt k v l l')
    (hs : Sorted lt l) : Sorted lt l' := by
  obtain ⟨l1, l2, rfl, rfl, h1, h2⟩ := h
  obtain ⟨hs1, hs2, hs12⟩ := List.pairwise_append.mp hs
  refine List.pairwise_append.mpr ⟨hs1, List.pairwise_cons.mpr ⟨fun b hb => ?_, hs2⟩, fun a ha b hb => ?_⟩
  · exact W.asymm trivial trivial (h2 b hb)
  · rcases List.mem_cons.mp hb with rfl | hb
    · exact h1 a ha
    · exact hs12 a ha b hb

/-! ## Removing -/

/-- What is left of a tree with root `c` and `n` black nodes on every path: of a black
    root it may be one black node short. -/
def Fits (c : Color) (n : Nat) (t : Short κ α) : Prop :=
  (t.2 = false ∧ ∃ c', RB c' n t.1 ∧ (c = .black → c' = .black)) ∨
    (t.2 = true ∧ c = .black ∧ ∃ m c', n = m + 1 ∧ RB c' m t.1)

theorem Fits.keep {s : Short κ α} (hs : s.2 = false) (h : RB c n s.1) : Fits c n s := .inl ⟨hs, c, h, id⟩

theorem Fits.short {s : Short κ α} (hs : s.2 = true) (h : RB c n s.1) : Fits .black (n + 1) s :=
  .inr ⟨hs, rfl, n, c, rfl, h⟩

/-- A rebalancing step: it does not raise, keeps the bindings, and fits. -/
def Mends (e : Except Exn (Short κ α)) (c : Color) (n : Nat) (l : List (κ × α)) : Prop :=
  ∃ t, e = .ok t ∧ Fits c n t ∧ toList t.1 = l

theorem lr_spec (hl : RB cl n l) (hr : RB .black (n + 1) r) : Mends (lr l x r) .red (n + 1) (toList l ++ x :: toList r) := by
  cases hr with
  | black y ha hb =>
    cases ha with
    | red z h1 h2 => exact ⟨_, rfl, .keep rfl (.red _ (.black _ hl h1) (.black _ h2 hb)), by simp⟩
    | leaf =>
      cases hb with
      | red z h1 h2 => exact ⟨_, rfl, .keep rfl (.red _ (.black _ hl .leaf) (.black _ h1 h2)), by simp⟩
      | leaf => exact ⟨_, rfl, .inl ⟨rfl, _, .black _ hl (.red _ .leaf .leaf), nofun⟩, by simp⟩
    | black z h1 h2 =>
      cases hb with
      | red u h3 h4 => exact ⟨_, rfl, .keep rfl (.red _ (.black _ hl (.black _ h1 h2)) (.black _ h3 h4)), by simp⟩
      | black u h3 h4 =>
        exact ⟨_, rfl, .inl ⟨rfl, _, .black _ hl (.red _ (.black _ h1 h2) (.black _ h3 h4)), nofun⟩, by simp⟩

theorem rr_spec (hl : RB .black (n + 1) l) (hr : RB cr n r) : Mends (rr l x r) .red (n + 1) (toList l ++ x :: toList r) := by
  cases hl with
  | black y ha hb =>
    cases ha with
    | red z h1 h2 => exact ⟨_, rfl, .keep rfl (.red _ (.black _ h1 h2) (.black _ hb hr)), by simp⟩
    | leaf =>
      cases hb with
      | red z h1 h2 => exact ⟨_, rfl, .keep rfl (.red _ (.black _ .leaf h1) (.black _ h2 hr)), by simp⟩
      | leaf => exact ⟨_, rfl, .inl ⟨rfl, _, .black _ (.red _ .leaf .leaf) hr, nofun⟩, by simp⟩
    | black z h1 h2 =>
      cases hb with
      | red u h3 h4 => exact ⟨_, rfl, .keep rfl (.red _ (.black _ (.black _ h1 h2) h3) (.black _ h4 hr)), by simp⟩
      | black u h3 h4 =>
        exact ⟨_, rfl, .inl ⟨rfl, _, .black _ (.red _ (.black _ h1 h2) (.black _ h3 h4)) hr, nofun⟩, by simp⟩

theorem lb_spec (hl : RB cl n l) (hr : RB cr (n + 1) r) :
    Mends (lb l x r) .black (n + 2) (toList l ++ x :: toList r) := by
  cases hr with
  | black y ha hb =>
    cases ha with
    | red z h1 h2 => exact ⟨_, rfl, .keep rfl (.black _ (.black _ hl h1) (.black _ h2 hb)), by simp⟩
    | leaf =>
      cases hb with
      | red z h1 h2 => exact ⟨_, rfl, .keep rfl (.black _ (.black _ hl .leaf) (.black _ h1 h2)), by simp⟩
      | leaf => exact ⟨_, rfl, .short rfl (.black _ hl (.red _ .leaf .leaf)), by simp⟩
    | black z h1 h2 =>
      cases hb with
      | red u h3 h4 => exact ⟨_, rfl, .keep rfl (.black _ (.black _ hl (.black _ h1 h2)) (.black _ h3 h4)), by simp⟩
      | black u h3 h4 => exact ⟨_, rfl, .short rfl (.black _ hl (.red _ (.black _ h1 h2) (.black _ h3 h4))), by simp⟩
  | red y ha hd =>
    -- the sibling is red: its near child has the black node that is missing
    cases ha with
    | black z ha hb =>
      cases ha with
      | red u h1 h2 =>
        exact ⟨_, rfl, .keep rfl (.black _ (.red _ (.black _ hl h1) (.black _ h2 hb)) hd), by simp⟩
      | leaf =>
        cases hb with
        | red u h1 h2 =>
          exact ⟨_, rfl, .keep rfl (.black _ (.red _ (.black _ hl .leaf) (.black _ h1 h2)) hd), by simp⟩
        | leaf => exact ⟨_, rfl, .keep rfl (.black _ (.black _ hl (.red _ .leaf .leaf)) hd), by simp⟩
      | black u h1 h2 =>
        cases hb with
        | red w h3 h4 =>
          exact ⟨_, rfl, .keep rfl (.black _ (.red _ (.black _ hl (.black _ h1 h2)) (.black _ h3 h4)) hd), by simp⟩
        | black w h3 h4 =>
          exact ⟨_, rfl, .keep rfl (.black _ (.black _ hl (.red _ (.black _ h1 h2) (.black _ h3 h4))) hd), by simp⟩

theorem rb_spec (hl : RB cl (n + 1) l) (hr : RB cr n r) :
    Mends (rb l x r) .black (n + 2) (toList l ++ x :: toList r) := by
  cases hl with
  | black y ha hb =>
    cases ha with
    | red z h1 h2 => exact ⟨_, rfl, .keep rfl (.black _ (.black _ h1 h2) (.black _ hb hr)), by simp⟩
    | leaf =>
      cases hb with
      | red z h1 h2 => exact ⟨_, rfl, .keep rfl (.black _ (.black _ .leaf h1) (.black _ h2 hr)), by simp⟩
      | leaf => exact ⟨_, rfl, .short rfl (.black _ (.red _ .leaf .leaf) hr), by simp⟩
    | black z h1 h2 =>
      cases hb with
      | red u h3 h4 => exact ⟨_, rfl, .keep rfl (.black _ (.black _ (.black _ h1 h2) h3) (.black _ h4 hr)), by simp⟩
      | black u h3 h4 => exact ⟨_, rfl, .short rfl (.black _ (.red _ (.black _ h1 h2) (.black _ h3 h4)) hr), by simp⟩
  | red y hd ha =>
    cases ha with
    | black z ha hb =>
      cases ha with
      | red u h1 h2 =>
        exact ⟨_, rfl, .keep rfl (.black _ hd (.red _ (.black _ h1 h2) (.black _ hb hr))), by simp⟩
      | leaf =>
        cases hb with
        | red u h1 h2 =>
          exact ⟨_, rfl, .keep rfl (.black _ hd (.red _ (.black _ .leaf h1) (.black _ h2 hr))), by simp⟩
        | leaf => exact ⟨_, rfl, .keep rfl (.black _ hd (.black _ (.red _ .leaf .leaf) hr)), by simp⟩
      | black u h1 h2 =>
        cases hb with
        | red w h3 h4 =>
          exact ⟨_, rfl, .keep rfl (.black _ hd (.red _ (.black _ (.black _ h1 h2) h3) (.black _ h4 hr))), by simp⟩
        | black w h3 h4 =>
          exact ⟨_, rfl, .keep rfl (.black _ hd (.black _ (.red _ (.black _ h1 h2) (.black _ h3 h4)) hr)), by simp⟩

variable {s : Short κ α}

theorem mlr_spec (hs : Fits .black n s) (hr : RB .black n r) : Mends (mlr s x r) .red n (toList s.1 ++ x :: toList r) := by
  unfold mlr
  rcases hs with ⟨hb, c', h, hc⟩ | ⟨hb, -, m, c', rfl, h⟩
  · rw [hb]
    cases hc rfl
    exact ⟨_, rfl, .keep rfl (.red _ h hr), rfl⟩
  · rw [hb]
    exact lr_spec h hr

theorem mrr_spec (hl : RB .black n l) (hs : Fits .black n s) : Mends (mrr l x s) .red n (toList l ++ x :: toList s.1) := by
  unfold mrr
  rcases hs with ⟨hb, c', h, hc⟩ | ⟨hb, -, m, c', rfl, h⟩
  · rw [hb]
    cases hc rfl
    exact ⟨_, rfl, .keep rfl (.red _ hl h), rfl⟩
  · rw [hb]
    exact rr_spec hl h

theorem mlb_spec (hs : Fits cl n s) (hr : RB cr n r) : Mends (mlb s x r) .black (n + 1) (toList s.1 ++ x :: toList r) := by
  unfold mlb
  rcases hs with ⟨hb, c', h, -⟩ | ⟨hb, -, m, c', rfl, h⟩
  · rw [hb]
    exact ⟨_, rfl, .keep rfl (.black _ h hr), rfl⟩
  · rw [hb]
    exact lb_spec h hr

theorem mrb_spec (hl : RB cl n l) (hs : Fits cr n s) : Mends (mrb l x s) .black (n + 1) (toList l ++ x :: toList s.1) := by
  unfold mrb
  rcases hs with ⟨hb, c', h, -⟩ | ⟨hb, -, m, c', rfl, h⟩
  · rw [hb]
    exact ⟨_, rfl, .keep rfl (.black _ hl h), rfl⟩
  · rw [hb]
    exact rb_spec hl h

/-- The first binding is taken out. -/
theorem popSmallest_spec (h : RB c n t) (hne : t ≠ leaf) :
    ∃ s y, popSmallest t = .ok (s, y) ∧ Fits c n s ∧ toList t = y :: toList s.1 := by
  induction h with
  | leaf => exact absurd rfl hne
  | red x hl hr ihl ihr =>
    cases hl with
    | leaf => exact ⟨_, _, rfl, .inl ⟨rfl, _, hr, nofun⟩, rfl⟩
    | black z h1 h2 =>
      obtain ⟨s, y, e, hs, hlist⟩ := ihl nofun
      obtain ⟨s', e', hs', hlist'⟩ := mlr_spec (x := x) hs hr
      refine ⟨s', y, ?_, hs', ?_⟩
      · simp only [popSmallest, e, bind, Except.bind, e']
        rfl
      · rw [toList_red, hlist, hlist', List.cons_append]
  | black x hl hr ihl ihr =>
    cases hl with
    | leaf => exact ⟨_, _, rfl, .short rfl hr, rfl⟩
    | red z h1 h2 =>
      obtain ⟨s, y, e, hs, hlist⟩ := ihl nofun
      obtain ⟨s', e', hs', hlist'⟩ := mlb_spec (x := x) hs hr
      refine ⟨s', y, ?_, hs', ?_⟩
      · simp only [popSmallest, e, bind, Except.bind, e']
        rfl
      · rw [toList_black, hlist, hlist', List.cons_append]
    | black z h1 h2 =>
      obtain ⟨s, y, e, hs, hlist⟩ := ihl nofun
      obtain ⟨s', e', hs', hlist'⟩ := mlb_spec (x := x) hs hr
      refine ⟨s', y, ?_, hs', ?_⟩
      · simp only [popSmallest, e, bind, Except.bind, e']
        rfl
      · rw [toList_black, hlist, hlist', List.cons_append]

/-- One binding of the key is taken out, or there is none. -/
def Removed (lt : κ → κ → Bool) (k : κ) (l l' : List (κ × α)) : Option (κ × α) → Prop
  | none => l' = l ∧ ∀ a ∈ l, lt k a.1 = true ∨ lt a.1 k = true
  | some b => lt k b.1 = false ∧ lt b.1 k = false ∧ ∃ l1 l2, l = l1 ++ b :: l2 ∧ l' = l1 ++ l2

theorem Removed.left {l l' m : List (κ × α)} {z : Option (κ × α)} (W : BinHeap.Weak lt fun _ => True)
    (h : Removed lt k l l' z) (hx : lt k x.1 = true) (hs : Sorted lt (l ++ x :: m)) :
    Removed lt k (l ++ x :: m) (l' ++ x :: m) z := by
  cases z with
  | none =>
    obtain ⟨rfl, h⟩ := h
    refine ⟨rfl, fun a ha => ?_⟩
    rcases List.mem_append.mp ha with ha | ha
    · exact h a ha
    · rcases List.mem_cons.mp ha with rfl | ha
      · exact .inl hx
      · have hax : lt a.1 x.1 = false := (List.pairwise_cons.mp (List.pairwise_append.mp hs).2.1).1 a ha
        by_contra hk
        rw [not_or, Bool.not_eq_true, Bool.not_eq_true] at hk
        have := W.trans trivial trivial trivial hk.1 hax
        rw [hx] at this
        cases this
  | some b =>
    obtain ⟨h1, h2, l1, l2, rfl, rfl⟩ := h
    exact ⟨h1, h2, l1, l2 ++ x :: m, by simp, by simp⟩

theorem Removed.right {l m m' : List (κ × α)} {z : Option (κ × α)} (W : BinHeap.Weak lt fun _ => True)
    (h : Removed lt k m m' z) (hx : lt x.1 k = true) (hs : Sorted lt (l ++ x :: m)) :
    Removed lt k (l ++ x :: m) (l ++ x :: m') z := by
  cases z with
  | none =>
    obtain ⟨rfl, h⟩ := h
    refine ⟨rfl, fun a ha => ?_⟩
    rcases List.mem_append.mp ha with ha | ha
    · have hxa : lt x.1 a.1 = false := (List.pairwise_append.mp hs).2.2 a ha x (.head _)
      by_contra hk
      rw [not_or, Bool.not_eq_true, Bool.not_eq_true] at hk
      have := W.trans trivial trivial trivial hxa hk.2
      rw [hx] at this
      cases this
    · rcases List.mem_cons.mp ha with rfl | ha
      · exact .inr hx
      · exact h a ha
  | some b =>
    obtain ⟨h1, h2, m1, m2, rfl, rfl⟩ := h
    exact ⟨h1, h2, l ++ x :: m1, m2, by simp, by simp⟩

theorem removeDown_spec (W : BinHeap.Weak lt fun _ => True) (k : κ) (h : RB c n t) (hs : Sorted lt (toList t)) :
    ∃ s z, removeDown lt k t = .ok (s, z) ∧ Fits c n s ∧ Removed lt k (toList t) (toList s.1) z := by
  induction h with
  | leaf => exact ⟨_, _, rfl, .keep rfl .leaf, rfl, nofun⟩
  | @red n l r x hl hr ihl ihr =>
    have hsl : Sorted lt (toList l) := (List.pairwise_append.mp hs).1
    have hsr : Sorted lt (toList r) := (List.pairwise_cons.mp (List.pairwise_append.mp hs).2.1).2
    unfold removeDown
    by_cases h1 : lt k x.1 = true
    · obtain ⟨s, z, e, hf, hrem⟩ := ihl hsl
      obtain ⟨s', e', hf', hlist⟩ := mlr_spec (x := x) hf hr
      refine ⟨s', z, ?_, hf', ?_⟩
      · simp only [h1, if_true, e, e', bind, Except.bind]
        rfl
      · rw [hlist]
        exact hrem.left W h1 hs
    by_cases h2 : lt x.1 k = true
    · obtain ⟨s, z, e, hf, hrem⟩ := ihr hsr
      obtain ⟨s', e', hf', hlist⟩ := mrr_spec (x := x) hl hf
      refine ⟨s', z, ?_, hf', ?_⟩
      · simp only [h1, h2, if_true, e, e', bind, Except.bind]
        rfl
      · rw [hlist]
        exact hrem.right W h2 hs
    simp only [h1, h2]
    rw [Bool.not_eq_true] at h1 h2
    cases hl with
    | leaf =>
      cases hr
      exact ⟨_, _, rfl, .inl ⟨rfl, _, .leaf, nofun⟩, h1, h2, [], [], rfl, rfl⟩
    | black y ha hb =>
      cases hr with
      | black z hc hd =>
        obtain ⟨s, w, e, hf, hlist⟩ := popSmallest_spec (.black z hc hd) (by nofun)
        obtain ⟨s', e', hf', hlist'⟩ := mrr_spec (x := w) (.black y ha hb) hf
        refine ⟨s', some x, ?_, hf', h1, h2, _, _, rfl, ?_⟩
        · simp only [e, e', bind, Except.bind]
          rfl
        · rw [hlist', hlist]
  | @black n cl cr l r x hl hr ihl ihr =>
    have hsl : Sorted lt (toList l) := (List.pairwise_append.mp hs).1
    have hsr : Sorted lt (toList r) := (List.pairwise_cons.mp (List.pairwise_append.mp hs).2.1).2
    unfold removeDown
    by_cases h1 : lt k x.1 = true
    · obtain ⟨s, z, e, hf, hrem⟩ := ihl hsl
      obtain ⟨s', e', hf', hlist⟩ := mlb_spec (x := x) hf hr
      refine ⟨s', z, ?_, hf', ?_⟩
      · simp only [h1, if_true, e, e', bind, Except.bind]
        rfl
      · rw [hlist]
        exact hrem.left W h1 hs
    by_cases h2 : lt x.1 k = true
    · obtain ⟨s, z, e, hf, hrem⟩ := ihr hsr
      obtain ⟨s', e', hf', hlist⟩ := mrb_spec (x := x) hl hf
      refine ⟨s', z, ?_, hf', ?_⟩
      · simp only [h1, h2, if_true, e, e', bind, Except.bind]
        rfl
      · rw [hlist]
        exact hrem.right W h2 hs
    simp only [h1, h2]
    rw [Bool.not_eq_true] at h1 h2
    by_cases hle : l = leaf
    · subst hle
      cases hl
      exact ⟨_, _, rfl, .short rfl hr, h1, h2, [], toList r, rfl, rfl⟩
    by_cases hre : r = leaf
    · subst hre
      cases hr
      refine ⟨(l, true), some x, ?_, .short rfl hl, h1, h2, toList l, [], rfl, by simp⟩
      cases l with
      | leaf => exact absurd rfl hle
      | red a y b => rfl
      | black a y b => rfl
    obtain ⟨s, w, e, hf, hlist⟩ := popSmallest_spec hr hre
    obtain ⟨s', e', hf', hlist'⟩ := mrb_spec (x := w) hl hf
    refine ⟨s', some x, ?_, hf', h1, h2, toList l, toList r, rfl, by rw [hlist', hlist]⟩
    cases l with
    | leaf => exact absurd rfl hle
    | red _ _ _ | black _ _ _ =>
      cases r with
      | leaf => exact absurd rfl hre
      | red _ _ _ | black _ _ _ =>
        simp only [e, e', bind, Except.bind]
        rfl

theorem Removed.sorted {l l' : List (κ × α)} {z : Option (κ × α)} (h : Removed lt k l l' z) (hs : Sorted lt l) :
    Sorted lt l' := by
  cases z with
  | none => exact h.1 ▸ hs
  | some b =>
    obtain ⟨-, -, l1, l2, rfl, rfl⟩ := h
    exact hs.sublist (List.Sublist.append_left (List.sublist_cons_self b l2) l1)

theorem Fits.rb (h : Fits c n s) : ∃ c' n', RB c' n' s.1 := by
  rcases h with ⟨-, c', h, -⟩ | ⟨-, -, m, c', -, h⟩
  · exact ⟨_, _, h⟩
  · exact ⟨_, _, h⟩

/-! ## Finding -/

/-- Neither key is below the other. -/
def same (lt : κ → κ → Bool) (a b : κ) : Bool := !lt a b && !lt b a

/-- One node of `findDown`: where its key is passed by, no binding of that side is equal. -/
theorem findDown_node (W : BinHeap.Weak lt fun _ => True) (y : κ) {L R : List (κ × α)} {x : κ × α}
    (hs : Sorted lt (L ++ x :: R)) {down downL downR : List α → List α}
    (hL : ∀ l, downL l = ((L.filter fun e => same lt y e.1).map Prod.snd) ++ l)
    (hR : ∀ l, downR l = ((R.filter fun e => same lt y e.1).map Prod.snd) ++ l)
    (hd : ∀ l, down l = if lt y x.1 then downL l else if lt x.1 y then downR l else downL (x.2 :: downR l)) (l : List α) :
    down l = (((L ++ x :: R).filter fun e => same lt y e.1).map Prod.snd) ++ l := by
  obtain ⟨-, hxR, hLx⟩ := List.pairwise_append.mp hs
  rw [hd, List.filter_append, List.map_append]
  rcases h1 : lt y x.1 with _ | _
  · rcases h2 : lt x.1 y with _ | _
    · have hx : same lt y x.1 = true := by simp [same, h1, h2]
      rw [if_neg Bool.false_ne_true, if_neg Bool.false_ne_true, List.filter_cons, if_pos hx, hL, hR]
      simp
    · have hx : same lt y x.1 = false := by simp [same, h2]
      have hnone : (L.filter fun e => same lt y e.1) = [] := by
        refine List.filter_eq_nil_iff.mpr fun e he hc => ?_
        rw [same, Bool.and_eq_true, Bool.not_eq_true', Bool.not_eq_true'] at hc
        have hxy := W.trans trivial trivial trivial (hLx e he x (.head _)) hc.2
        rw [h2] at hxy
        cases hxy
      rw [if_neg Bool.false_ne_true, if_pos rfl, List.filter_cons, if_neg (Bool.eq_false_iff.mp hx), hnone, hR]
      rfl
  · have hx : same lt y x.1 = false := by simp [same, h1]
    have hnone : (R.filter fun e => same lt y e.1) = [] := by
      refine List.filter_eq_nil_iff.mpr fun e he hc => ?_
      rw [same, Bool.and_eq_true, Bool.not_eq_true', Bool.not_eq_true'] at hc
      have hyx := W.trans trivial trivial trivial hc.1 ((List.pairwise_cons.mp hxR).1 e he)
      rw [h1] at hyx
      cases hyx
    rw [if_pos rfl, List.filter_cons, if_neg (Bool.eq_false_iff.mp hx), hnone, hL, List.map_nil, List.append_nil]

theorem findDown_eq (W : BinHeap.Weak lt fun _ => True) (y : κ) (t : Tree κ α) (hs : Sorted lt (toList t)) (l : List α) :
    findDown lt y t l = (((toList t).filter fun e => same lt y e.1).map Prod.snd) ++ l := by
  induction t generalizing l with
  | leaf => rfl
  | red a x b iha ihb =>
    obtain ⟨ha, hb, -⟩ := List.pairwise_append.mp hs
    exact findDown_node W y hs (iha ha) (ihb (List.pairwise_cons.mp hb).2) (fun _ => rfl) l
  | black a x b iha ihb =>
    obtain ⟨ha, hb, -⟩ := List.pairwise_append.mp hs
    exact findDown_node W y hs (iha ha) (ihb (List.pairwise_cons.mp hb).2) (fun _ => rfl) l

/-- The values of an equal key, in order. -/
theorem find_eq (W : BinHeap.Weak lt fun _ => True) {t : Tree κ α} (hs : Sorted lt (toList t)) (y : κ) :
    find lt t y = ((toList t).filter fun e => same lt y e.1).map Prod.snd := by
  rw [find, findDown_eq W y t hs, List.append_nil]

/-! ## Walking a range -/

/-- The bindings in the order of a walk. -/
def inOrder (dir : Dir) (t : Tree κ α) : List (κ × α) :=
  match dir with
  | .forward => toList t
  | .backward => (toList t).reverse

def inRange (lt : κ → κ → Bool) (range : Range κ) (x : κ) : Bool := !tooSmall lt range x && !tooBig lt range x

variable {range : Range κ} {dir : Dir}

theorem inOrder_leaf : inOrder dir (leaf : Tree κ α) = [] := by cases dir <;> rfl

theorem inOrder_red (l : Tree κ α) (x : κ × α) (r : Tree κ α) :
    inOrder dir (red l x r) = inOrder dir (near dir l r) ++ x :: inOrder dir (far dir l r) := by
  cases dir <;> simp [inOrder, near, far]

theorem inOrder_black (l : Tree κ α) (x : κ × α) (r : Tree κ α) :
    inOrder dir (black l x r) = inOrder dir (near dir l r) ++ x :: inOrder dir (far dir l r) := by
  cases dir <;> simp [inOrder, near, far]

/-- Along a walk the bindings come to the range, and pass it. -/
def Along (lt : κ → κ → Bool) (range : Range κ) (dir : Dir) (l : List (κ × α)) : Prop :=
  l.Pairwise fun a b => (after lt range dir a.1 = true → after lt range dir b.1 = true) ∧
    (before lt range dir b.1 = true → before lt range dir a.1 = true)

theorem along_of_sorted (W : BinHeap.Weak lt fun _ => True) (range : Range κ) (dir : Dir) (h : Sorted lt (toList t)) :
    Along lt range dir (inOrder dir t) := by
  have big : ∀ {a b : κ}, lt b a = false → tooBig lt range a = true → tooBig lt range b = true := by
    intro a b hab
    unfold tooBig
    split
    · simp only [Bool.not_eq_true']
      exact fun h => W.trans trivial trivial trivial hab h
    · exact id
  have small : ∀ {a b : κ}, lt b a = false → tooSmall lt range b = true → tooSmall lt range a = true := by
    intro a b hab
    unfold tooSmall
    split
    · intro h
      by_contra hn
      rw [Bool.not_eq_true] at hn
      rw [W.trans trivial trivial trivial hab hn] at h
      cases h
    · exact id
  cases dir with
  | forward => exact h.imp fun hab => ⟨big hab, small hab⟩
  | backward => exact List.pairwise_reverse.mpr (h.imp fun hab => ⟨small hab, big hab⟩)

theorem Along.near {l r : List (κ × α)} (h : Along lt range dir (l ++ x :: r)) : Along lt range dir l :=
  (List.pairwise_append.mp h).1

theorem Along.far {l r : List (κ × α)} (h : Along lt range dir (l ++ x :: r)) : Along lt range dir r :=
  (List.pairwise_cons.mp (List.pairwise_append.mp h).2.1).2

theorem Along.passed {l r : List (κ × α)} (h : Along lt range dir (l ++ x :: r)) (hx : after lt range dir x.1 = true) :
    ∀ b ∈ r, after lt range dir b.1 = true :=
  fun b hb => ((List.pairwise_cons.mp (List.pairwise_append.mp h).2.1).1 b hb).1 hx

theorem Along.come {l r : List (κ × α)} (h : Along lt range dir (l ++ x :: r)) (hx : before lt range dir x.1 = true) :
    ∀ a ∈ l, before lt range dir a.1 = true :=
  fun a ha => ((List.pairwise_append.mp h).2.2 a ha x (.head _)).2 hx

theorem Along.arrived {l r : List (κ × α)} (h : Along lt range dir (l ++ x :: r)) (hx : before lt range dir x.1 = false) :
    ∀ b ∈ r, before lt range dir b.1 = false := by
  intro b hb
  by_contra hn
  rw [Bool.not_eq_false] at hn
  have := ((List.pairwise_cons.mp (List.pairwise_append.mp h).2.1).1 b hb).2 hn
  rw [hx] at this
  cases this

theorem go_red (l : Tree κ α) (x : κ × α) (r : Tree κ α) (s : List (Tree κ α)) :
    go lt range dir (red l x r) s =
      go lt range dir (near dir l r) (if after lt range dir x.1 then s else red l x r :: s) := by
  cases dir <;> rfl

theorem go_black (l : Tree κ α) (x : κ × α) (r : Tree κ α) (s : List (Tree κ α)) :
    go lt range dir (black l x r) s =
      go lt range dir (near dir l r) (if after lt range dir x.1 then s else black l x r :: s) := by
  cases dir <;> rfl

theorem descend_red (l : Tree κ α) (x : κ × α) (r : Tree κ α) (s : List (Tree κ α)) :
    descend lt range dir (red l x r) s =
      if before lt range dir x.1 then descend lt range dir (far dir l r) s
      else if after lt range dir x.1 then descend lt range dir (near dir l r) s
      else descend lt range dir (near dir l r) (red l x r :: s) := by
  cases dir <;> rfl

theorem descend_black (l : Tree κ α) (x : κ × α) (r : Tree κ α) (s : List (Tree κ α)) :
    descend lt range dir (black l x r) s =
      if before lt range dir x.1 then descend lt range dir (far dir l r) s
      else if after lt range dir x.1 then descend lt range dir (near dir l r) s
      else descend lt range dir (near dir l r) (black l x r :: s) := by
  cases dir <;> rfl

/-- What an iterator still has to give. -/
def pending (lt : κ → κ → Bool) (range : Range κ) (dir : Dir) : List (Tree κ α) → List (κ × α)
  | [] => []
  | leaf :: s => pending lt range dir s
  | red l x r :: s | black l x r :: s =>
    x :: (inOrder dir (far dir l r)).filter (fun y => !after lt range dir y.1) ++ pending lt range dir s

/-- The stack of an iterator: nodes whose bindings are in order. -/
def Stacked (lt : κ → κ → Bool) (range : Range κ) (dir : Dir) (s : List (Tree κ α)) : Prop :=
  ∀ z ∈ s, z ≠ leaf ∧ Along lt range dir (inOrder dir z)

/-- A step of a walk: the stack gives what `s` gives after `l`. -/
def Gives (lt : κ → κ → Bool) (range : Range κ) (dir : Dir) (s' : List (Tree κ α)) (l : List (κ × α))
    (s : List (Tree κ α)) : Prop :=
  Stacked lt range dir s' ∧ pending lt range dir s' = l ++ pending lt range dir s

theorem Stacked.cons {s : List (Tree κ α)} {z : Tree κ α} (h : Stacked lt range dir s) (hz : z ≠ leaf)
    (ha : Along lt range dir (inOrder dir z)) : Stacked lt range dir (z :: s) := by
  intro y hy
  rcases List.mem_cons.mp hy with rfl | hy
  · exact ⟨hz, ha⟩
  · exact h y hy

/-- One node of `go`, given what its near subtree does. -/
theorem go_node {z l r : Tree κ α} {s : List (Tree κ α)} (hz : z ≠ leaf)
    (hlist : inOrder dir z = inOrder dir (near dir l r) ++ x :: inOrder dir (far dir l r))
    (hpend : pending lt range dir (z :: s) =
      x :: (inOrder dir (far dir l r)).filter (fun y => !after lt range dir y.1) ++ pending lt range dir s)
    (ih : ∀ s, Stacked lt range dir s → Along lt range dir (inOrder dir (near dir l r)) →
      Gives lt range dir (go lt range dir (near dir l r) s)
        ((inOrder dir (near dir l r)).filter fun y => !after lt range dir y.1) s)
    (hs : Stacked lt range dir s) (ha : Along lt range dir (inOrder dir z)) :
    Gives lt range dir (go lt range dir (near dir l r) (if after lt range dir x.1 then s else z :: s))
      ((inOrder dir z).filter fun y => !after lt range dir y.1) s := by
  rw [hlist] at ha ⊢
  cases hx : after lt range dir x.1 with
  | true =>
    obtain ⟨h1, h2⟩ := ih s hs ha.near
    have hfar : (inOrder dir (far dir l r)).filter (fun y => !after lt range dir y.1) = [] := by
      rw [List.filter_eq_nil_iff]
      intro b hb
      simp [ha.passed hx b hb]
    refine ⟨h1, ?_⟩
    rw [if_pos rfl, h2, List.filter_append, List.filter_cons, hx, hfar]
    simp
  | false =>
    obtain ⟨h1, h2⟩ := ih (z :: s) (hs.cons hz (hlist ▸ ha)) ha.near
    refine ⟨h1, ?_⟩
    rw [if_neg (by simp), h2, hpend, List.filter_append, List.filter_cons, hx]
    simp

theorem near_induction {P : Tree κ α → Prop} (dir : Dir) (hleaf : P leaf)
    (hred : ∀ l x r, P (near dir l r) → P (far dir l r) → P (red l x r))
    (hblack : ∀ l x r, P (near dir l r) → P (far dir l r) → P (black l x r)) (t : Tree κ α) : P t := by
  induction t with
  | leaf => exact hleaf
  | red l x r ihl ihr => cases dir with
    | forward => exact hred l x r ihl ihr
    | backward => exact hred l x r ihr ihl
  | black l x r ihl ihr => cases dir with
    | forward => exact hblack l x r ihl ihr
    | backward => exact hblack l x r ihr ihl

theorem go_gives (t : Tree κ α) (s : List (Tree κ α)) (hs : Stacked lt range dir s)
    (ha : Along lt range dir (inOrder dir t)) :
    Gives lt range dir (go lt range dir t s) ((inOrder dir t).filter fun y => !after lt range dir y.1) s := by
  induction t using near_induction dir generalizing s with
  | hleaf =>
    rw [inOrder_leaf]
    exact ⟨hs, rfl⟩
  | hred l x r ih _ =>
    rw [go_red]
    exact go_node nofun (inOrder_red l x r) rfl ih hs ha
  | hblack l x r ih _ =>
    rw [go_black]
    exact go_node nofun (inOrder_black l x r) rfl ih hs ha

theorem inRange_eq (range : Range κ) (dir : Dir) (k : κ) :
    inRange lt range k = (!before lt range dir k && !after lt range dir k) := by
  cases dir with
  | forward => rfl
  | backward => exact Bool.and_comm _ _

/-- The bindings of a list that a walk gives. -/
def within (lt : κ → κ → Bool) (range : Range κ) (l : List (κ × α)) : List (κ × α) := l.filter fun y => inRange lt range y.1

theorem within_append (l : List (κ × α)) (x : κ × α) (r : List (κ × α)) :
    within lt range (l ++ x :: r) = within lt range l ++ (if inRange lt range x.1 then x :: within lt range r else within lt range r) := by
  unfold within
  rw [List.filter_append, List.filter_cons]

theorem within_nil {l : List (κ × α)} (h : ∀ a ∈ l, inRange lt range a.1 = false) : within lt range l = [] := by
  unfold within
  rw [List.filter_eq_nil_iff]
  intro a ha
  simp [h a ha]

/-- One node of `descend`, given what its subtrees do. -/
theorem descend_node {z l r : Tree κ α} {s : List (Tree κ α)} (hz : z ≠ leaf)
    (hlist : inOrder dir z = inOrder dir (near dir l r) ++ x :: inOrder dir (far dir l r))
    (hpend : pending lt range dir (z :: s) =
      x :: (inOrder dir (far dir l r)).filter (fun y => !after lt range dir y.1) ++ pending lt range dir s)
    (ihn : ∀ s, Stacked lt range dir s → Along lt range dir (inOrder dir (near dir l r)) →
      Gives lt range dir (descend lt range dir (near dir l r) s) (within lt range (inOrder dir (near dir l r))) s)
    (ihf : ∀ s, Stacked lt range dir s → Along lt range dir (inOrder dir (far dir l r)) →
      Gives lt range dir (descend lt range dir (far dir l r) s) (within lt range (inOrder dir (far dir l r))) s)
    (hs : Stacked lt range dir s) (ha : Along lt range dir (inOrder dir z)) :
    Gives lt range dir
      (if before lt range dir x.1 then descend lt range dir (far dir l r) s
        else if after lt range dir x.1 then descend lt range dir (near dir l r) s
        else descend lt range dir (near dir l r) (z :: s)) (within lt range (inOrder dir z)) s := by
  rw [hlist] at ha ⊢
  rw [within_append, inRange_eq range dir]
  cases hb : before lt range dir x.1 with
  | true =>
    -- nothing of the near subtree is in the range yet
    have hnear : within lt range (inOrder dir (near dir l r)) = [] := by
      apply within_nil
      intro a hm
      rw [inRange_eq range dir, ha.come hb a hm]
      rfl
    obtain ⟨h1, h2⟩ := ihf s hs ha.far
    exact ⟨h1, by rw [hnear]; exact h2⟩
  | false =>
    cases hx : after lt range dir x.1 with
    | true =>
      have hfar : within lt range (inOrder dir (far dir l r)) = [] := by
        apply within_nil
        intro b hm
        rw [inRange_eq range dir, ha.passed hx b hm]
        simp
      obtain ⟨h1, h2⟩ := ihn s hs ha.near
      refine ⟨h1, ?_⟩
      rw [hfar]
      simpa using h2
    | false =>
      obtain ⟨h1, h2⟩ := ihn (z :: s) (hs.cons hz (hlist ▸ ha)) ha.near
      refine ⟨h1, ?_⟩
      have hfar : within lt range (inOrder dir (far dir l r)) =
          (inOrder dir (far dir l r)).filter fun y => !after lt range dir y.1 := by
        apply List.filter_congr
        intro b hm
        rw [inRange_eq range dir, ha.arrived hb b hm]
        rfl
      rw [hfar]
      simpa [hpend] using h2

theorem descend_gives (t : Tree κ α) (s : List (Tree κ α)) (hs : Stacked lt range dir s)
    (ha : Along lt range dir (inOrder dir t)) :
    Gives lt range dir (descend lt range dir t s) (within lt range (inOrder dir t)) s := by
  induction t using near_induction dir generalizing s with
  | hleaf =>
    rw [inOrder_leaf]
    exact ⟨hs, rfl⟩
  | hred l x r ihn ihf =>
    rw [descend_red]
    exact descend_node nofun (inOrder_red l x r) rfl ihn ihf hs ha
  | hblack l x r ihn ihf =>
    rw [descend_black]
    exact descend_node nofun (inOrder_black l x r) rfl ihn ihf hs ha

/-- A node on the stack gives its binding, and its far subtree takes its place. -/
theorem pop_gives {z : Tree κ α} {s : List (Tree κ α)} (hs : Stacked lt range dir (z :: s)) :
    ∃ y s', pop lt range dir (z :: s) = .ok (some (y, s')) ∧ Stacked lt range dir s' ∧
      pending lt range dir (z :: s) = y :: pending lt range dir s' := by
  obtain ⟨hz, ha⟩ := hs z (.head _)
  have hrest : Stacked lt range dir s := fun y hy => hs y (.tail _ hy)
  cases z with
  | leaf => exact absurd rfl hz
  | red l x r =>
    rw [inOrder_red] at ha
    obtain ⟨h1, h2⟩ := go_gives (far dir l r) s hrest ha.far
    exact ⟨x, _, rfl, h1, by rw [h2]; rfl⟩
  | black l x r =>
    rw [inOrder_black] at ha
    obtain ⟨h1, h2⟩ := go_gives (far dir l r) s hrest ha.far
    exact ⟨x, _, rfl, h1, by rw [h2]; rfl⟩

theorem collect_pending {fuel : Nat} {s : List (Tree κ α)} (hs : Stacked lt range dir s)
    (hf : (pending lt range dir s).length < fuel) : collect lt range dir fuel s = .ok (pending lt range dir s) := by
  induction fuel generalizing s with
  | zero => exact absurd hf (Nat.not_lt_zero _)
  | succ fuel ih =>
    cases s with
    | nil => rfl
    | cons z s =>
      obtain ⟨y, s', e, hs', hp⟩ := pop_gives hs
      rw [hp, List.length_cons] at hf
      have hrec := ih hs' (by omega)
      unfold collect
      rw [e]
      show (do return y :: (← collect lt range dir fuel s')) = _
      rw [hrec, hp]
      rfl

/-- A walk gives the bindings of the range, in order. -/
theorem walk_collect (W : BinHeap.Weak lt fun _ => True) (hs : Sorted lt (toList t)) (range : Range κ) (dir : Dir)
    {fuel : Nat} (hf : (toList t).length < fuel) :
    collect lt range dir fuel (walk lt dir t range) = .ok (within lt range (inOrder dir t)) := by
  obtain ⟨h1, h2⟩ := descend_gives t [] (nofun) (along_of_sorted W range dir hs)
  have hp : pending lt range dir (walk lt dir t range) = within lt range (inOrder dir t) := by
    rw [walk, h2]
    exact List.append_nil _
  rw [← hp]
  apply collect_pending h1
  have hle : (within lt range (inOrder dir t)).length ≤ (inOrder dir t).length := List.length_filter_le _ _
  have hlen : (inOrder dir t).length = (toList t).length := by cases dir <;> simp [inOrder]
  rw [← hp] at hle
  exact Nat.lt_of_le_of_lt (hlen ▸ hle) hf

/-! ## Runs -/

inductive Op (κ α : Type) where
  | insert (k : κ) (v : α)
  | remove (k : κ)

def step (lt : κ → κ → Bool) (t : Tree κ α) : Op κ α → Except Exn (Tree κ α × Option (κ × α))
  | .insert k v => .ok (Tree.insert lt t k v, none)
  | .remove k => remove lt t k

/-- The trees and the bindings removed. -/
def run (lt : κ → κ → Bool) : Tree κ α → List (Op κ α) → Except Exn (Tree κ α × List (Option (κ × α)))
  | t, [] => .ok (t, [])
  | t, op :: ops => do
    let (t, z) ← step lt t op
    let (t, zs) ← run lt t ops
    return (t, z :: zs)

/-- An operation on the multimap a tree stands for. -/
inductive Does (lt : κ → κ → Bool) : Multiset (κ × α) → Op κ α → Option (κ × α) → Multiset (κ × α) → Prop
  | insert (m : Multiset (κ × α)) (k : κ) (v : α) : Does lt m (.insert k v) none ((k, v) ::ₘ m)
  | remove (m : Multiset (κ × α)) (k : κ) (b : κ × α) : lt k b.1 = false → lt b.1 k = false →
      Does lt (b ::ₘ m) (.remove k) (some b) m
  | missing (m : Multiset (κ × α)) (k : κ) : (∀ a ∈ m, lt k a.1 = true ∨ lt a.1 k = true) → Does lt m (.remove k) none m

inductive DoesAll (lt : κ → κ → Bool) : Multiset (κ × α) → List (Op κ α) → List (Option (κ × α)) → Multiset (κ × α) → Prop
  | nil (m : Multiset (κ × α)) : DoesAll lt m [] [] m
  | cons {m m' m'' : Multiset (κ × α)} {op : Op κ α} {z : Option (κ × α)} {ops : List (Op κ α)} {zs : List (Option (κ × α))} :
      Does lt m op z m' → DoesAll lt m' ops zs m'' → DoesAll lt m (op :: ops) (z :: zs) m''

/-- A red-black search tree. -/
structure Valid (lt : κ → κ → Bool) (t : Tree κ α) : Prop where
  rb : ∃ c n, RB c n t
  sorted : Sorted lt (toList t)

theorem valid_empty : Valid lt (empty : Tree κ α) := ⟨⟨_, _, .leaf⟩, List.Pairwise.nil⟩

theorem Inserted.does {l l' : List (κ × α)} (h : Inserted lt k v l l') : Does lt ↑l (.insert k v) none ↑l' := by
  obtain ⟨l1, l2, rfl, rfl, -, -⟩ := h
  have e : ((l1 ++ (k, v) :: l2 : List (κ × α)) : Multiset (κ × α)) = (k, v) ::ₘ ↑(l1 ++ l2) :=
    Multiset.coe_eq_coe.mpr List.perm_middle
  rw [e]
  exact .insert _ _ _

theorem Removed.does {l l' : List (κ × α)} {z : Option (κ × α)} (h : Removed lt k l l' z) :
    Does lt ↑l (.remove k) z ↑l' := by
  cases z with
  | none =>
    obtain ⟨rfl, h⟩ := h
    exact .missing _ _ h
  | some b =>
    obtain ⟨h1, h2, l1, l2, rfl, rfl⟩ := h
    have e : ((l1 ++ b :: l2 : List (κ × α)) : Multiset (κ × α)) = b ::ₘ ↑(l1 ++ l2) :=
      Multiset.coe_eq_coe.mpr List.perm_middle
    rw [e]
    exact .remove _ _ _ h1 h2

/-- One operation: it does not raise, and does to the multimap what it says. -/
theorem Valid.step (W : BinHeap.Weak lt fun _ => True) (h : Valid lt t) (op : Op κ α) :
    ∃ t' z, step lt t op = .ok (t', z) ∧ Valid lt t' ∧ Does lt ↑(toList t) op z ↑(toList t') := by
  obtain ⟨c, n, hrb⟩ := h.rb
  cases op with
  | insert k v =>
    have hlist := insert_list (k := k) (v := v) W h.sorted
    exact ⟨_, _, rfl, ⟨insert_rb k v hrb, hlist.sorted W h.sorted⟩, hlist.does⟩
  | remove k =>
    obtain ⟨s, z, e, hf, hrem⟩ := removeDown_spec W k hrb h.sorted
    refine ⟨s.1, z, ?_, ⟨hf.rb, hrem.sorted h.sorted⟩, hrem.does⟩
    simp only [Tree.step, remove, e, bind, Except.bind]
    rfl

theorem Valid.insert (W : BinHeap.Weak lt fun _ => True) (h : Valid lt t) (k : κ) (v : α) :
    Valid lt (insert lt t k v) ∧ (toList (Tree.insert lt t k v)).Perm ((k, v) :: toList t) := by
  obtain ⟨c, n, hrb⟩ := h.rb
  have hlist := insert_list (k := k) (v := v) W h.sorted
  refine ⟨⟨insert_rb k v hrb, hlist.sorted W h.sorted⟩, ?_⟩
  obtain ⟨l1, l2, hl, hl', -, -⟩ := hlist
  rw [hl, hl']
  exact List.perm_middle

theorem Valid.run (W : BinHeap.Weak lt fun _ => True) (h : Valid lt t) (ops : List (Op κ α)) :
    ∃ t' zs, run lt t ops = .ok (t', zs) ∧ Valid lt t' ∧ DoesAll lt ↑(toList t) ops zs ↑(toList t') := by
  induction ops generalizing t with
  | nil => exact ⟨t, [], rfl, h, .nil _⟩
  | cons op ops ih =>
    obtain ⟨t1, z, e1, hv1, hd1⟩ := h.step W op
    obtain ⟨t2, zs, e2, hv2, hd2⟩ := ih hv1
    refine ⟨t2, z :: zs, ?_, hv2, .cons hd1 hd2⟩
    simp only [Tree.run, e1, bind, Except.bind, e2]
    rfl

/-- Every sequence of operations runs without raising, leaves a red-black tree, does to
    the multimap what it says, and both walks give the bindings of any range in order. -/
theorem refines_multimap (W : BinHeap.Weak lt fun _ => True) (ops : List (Op κ α)) :
    ∃ t zs, run lt empty ops = .ok (t, zs) ∧ Valid lt t ∧ DoesAll lt 0 ops zs ↑(toList t) ∧
      ∀ (range : Range κ) (fuel : Nat), (toList t).length < fuel →
        collect lt range .forward fuel (forward lt t range) = .ok ((toList t).filter fun y => inRange lt range y.1) ∧
        collect lt range .backward fuel (backward lt t range) =
          .ok ((toList t).filter fun y => inRange lt range y.1).reverse := by
  obtain ⟨t, zs, e, hv, hd⟩ := (valid_empty (κ := κ) (α := α)).run W ops
  refine ⟨t, zs, e, hv, hd, fun range fuel hf => ⟨walk_collect W hv.sorted range .forward hf, ?_⟩⟩
  rw [← List.filter_reverse]
  exact walk_collect W hv.sorted range .backward hf

/-- Two bindings of one key go in, and one comes out. -/
theorem refines_multimap_example :
    ∃ t zs, run Nat.blt empty [.insert 2 'a', .insert 1 'b', .insert 2 'c', .remove 2] = .ok (t, zs) ∧ Valid Nat.blt t ∧
      DoesAll Nat.blt 0 [.insert 2 'a', .insert 1 'b', .insert 2 'c', .remove 2] zs ↑(toList t) ∧
      ∀ (range : Range Nat) (fuel : Nat), (toList t).length < fuel →
        collect Nat.blt range .forward fuel (forward Nat.blt t range) =
          .ok ((toList t).filter fun y => inRange Nat.blt range y.1) ∧
        collect Nat.blt range .backward fuel (backward Nat.blt t range) =
          .ok ((toList t).filter fun y => inRange Nat.blt range y.1).reverse := by
  have W : BinHeap.Weak Nat.blt fun _ => True := by
    refine ⟨fun {x y} _ _ h => ?_, fun {x y z} _ _ _ h1 h2 => ?_⟩
    · simp only [Nat.blt_eq, ← Bool.not_eq_true] at h ⊢
      omega
    · simp only [Nat.blt_eq, ← Bool.not_eq_true] at h1 h2 ⊢
      omega
  exact refines_multimap W _

end BubbleStorm.Util.Container.Tree
