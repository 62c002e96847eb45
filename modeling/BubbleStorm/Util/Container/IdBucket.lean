/-
  BubbleStorm.Util.Container.IdBucket — ids for values, from a table that is threaded by
  its own free list (`src/util/container/id-bucket.sml`).

  A free cell holds the index of the next free one, and the last of them -1. The table
  doubles when no cell is free.

  Proved: after any operations free list and full cells partition the table, an id is in
  use exactly if its cell is full, and holds what was stored last under it; an allocation
  always finds a free cell, and only `free` and `replace` of an id that is not in use
  raise, and change nothing (`idBucket_coherent`).
-/

import Mathlib.Data.List.Nodup
import Mathlib.Logic.Function.Basic
import BubbleStorm.Lib.Outcome

namespace BubbleStorm.Util.Container

inductive Cell (α : Type) where
  | free (next : Int)
  | full (x : α)
  deriving DecidableEq, Repr

namespace Cell

variable {α : Type}

def isFull : Cell α → Bool
  | .free _ => false
  | .full _ => true

end Cell

structure IdBucket (α : Type) where
  free : Int
  fill : Int
  table : List (Cell α)
  deriving DecidableEq, Repr

namespace IdBucket

variable {α : Type}

inductive Exn where
  | alreadyFree
  | subscript
  | fail (msg : String)
  deriving DecidableEq, Repr

/-- `Array.sub`. -/
def cell (table : List (Cell α)) (i : Int) : Except Exn (Cell α) :=
  if i < 0 then .error .subscript
  else match table[i.toNat]? with
    | some c => .ok c
    | none => .error .subscript

def freeTail (n i : Nat) : Cell α := .free (if i = n - 1 then -1 else i + 1)

def emptyVal : IdBucket α := ⟨0, 0, (List.range 4).map (freeTail 4)⟩

def new : IdBucket α := emptyVal

def sub (s : IdBucket α) (i : Int) : Option α :=
  match cell s.table i with
  | .ok (.full x) => some x
  | _ => none

def grow (table : List (Cell α)) : Int × List (Cell α) :=
  (table.length, (List.range (table.length + table.length)).map fun i =>
    (table[i]?).getD (freeTail (table.length + table.length) i))

def alloc (s : IdBucket α) (value : α) : Except Exn (Int × IdBucket α) :=
  let (free, table) := if s.free = -1 then grow s.table else (s.free, s.table)
  match cell table free with
  | .error e => .error e
  | .ok (.full _) => .error (.fail "Impossibly full cell")
  | .ok (.free next) => .ok (free, ⟨next, s.fill + 1, table.set free.toNat (.full value)⟩)

/-- `free`. -/
def release (s : IdBucket α) (index : Int) : Except Exn (IdBucket α) :=
  match cell s.table index with
  | .ok (.full _) => .ok ⟨index, s.fill - 1, s.table.set index.toNat (.free s.free)⟩
  | _ => .error .alreadyFree

def replace (s : IdBucket α) (index : Int) (value : α) : Except Exn (IdBucket α) :=
  match cell s.table index with
  | .ok (.full _) => .ok { s with table := s.table.set index.toNat (.full value) }
  | _ => .error .alreadyFree

def clear (_ : IdBucket α) : IdBucket α := emptyVal

/-! ## The free list -/

/-- The free list that starts at the index. -/
def Linked (table : List (Cell α)) : Int → List Nat → Prop
  | free, [] => free = -1
  | free, i :: l => free = i ∧ ∃ next, table[i]? = some (.free next) ∧ Linked table next l

variable {table table' : List (Cell α)} {free : Int} {l : List Nat} {s : IdBucket α}

theorem Linked.mem (h : Linked table free l) : ∀ i ∈ l, ∃ next, table[i]? = some (.free next) := by
  induction l generalizing free with
  | nil =>
    intro i hi
    cases hi
  | cons j l ih =>
    obtain ⟨-, next, hj, hl⟩ := h
    intro i hi
    rcases List.mem_cons.mp hi with rfl | hi
    · exact ⟨next, hj⟩
    · exact ih hl i hi

/-- Cells outside the list do not count. -/
theorem Linked.congr (h : Linked table free l) (heq : ∀ i ∈ l, table'[i]? = table[i]?) : Linked table' free l := by
  induction l generalizing free with
  | nil => exact h
  | cons j l ih =>
    obtain ⟨hfree, next, hj, hl⟩ := h
    exact ⟨hfree, next, (heq j List.mem_cons_self).trans hj, ih hl fun i hi => heq i (List.mem_cons_of_mem j hi)⟩

theorem Linked.set (h : Linked table free l) {i : Nat} (hi : i ∉ l) (c : Cell α) : Linked (table.set i c) free l := by
  refine h.congr fun j hj => ?_
  rw [List.getElem?_set_ne]
  intro heq
  exact hi (heq ▸ hj)

/-- Cells that each point to the one behind them. -/
theorem linked_tail {n : Nat} : ∀ (k start : Nat), start + k = n →
    (∀ i, start ≤ i → i < n → table[i]? = some (freeTail n i)) →
    Linked table (if start = n then -1 else start) (List.range' start k)
  | 0, start, hk, _ => by
    have hend : start = n := by omega
    exact if_pos hend
  | k + 1, start, hk, hcells => by
    have hne : start ≠ n := by omega
    refine ⟨if_neg hne, _, hcells start (Nat.le_refl _) (by omega), ?_⟩
    have hrest := linked_tail k (start + 1) (by omega) fun i hi => hcells i (by omega)
    have hlast : start = n - 1 ↔ start + 1 = n := by omega
    simpa only [hlast, Int.natCast_add, Int.natCast_one] using hrest

/-! ## The bucket -/

structure Inv (s : IdBucket α) (l : List Nat) : Prop where
  linked : Linked s.table s.free l
  nodup : l.Nodup
  free : ∀ i next, s.table[i]? = some (.free next) → i ∈ l
  fill : s.fill = s.table.countP Cell.isFull
  room : 0 < s.table.length

theorem sub_natCast (s : IdBucket α) (i : Nat) : s.sub i = match s.table[i]? with
    | some (.full x) => some x
    | _ => none := by
  unfold sub cell
  rw [if_neg (by omega), Int.toNat_natCast]
  cases s.table[i]? with
  | none => rfl
  | some c => cases c <;> rfl

theorem sub_some {i : Int} {x : α} (h : s.sub i = some x) : ∃ n : Nat, i = n ∧ s.table[n]? = some (.full x) := by
  unfold sub cell at h
  by_cases hneg : i < 0
  · rw [if_pos hneg] at h
    cases h
  · rw [if_neg hneg] at h
    refine ⟨i.toNat, by omega, ?_⟩
    cases hc : s.table[i.toNat]? with
    | none =>
      rw [hc] at h
      cases h
    | some c =>
      rw [hc] at h
      cases c with
      | free next => cases h
      | full y =>
        cases h
        rfl

/-- What the ids hold after a cell has changed. -/
theorem sub_set (s : IdBucket α) {n : Nat} (hn : n < s.table.length) (c : Cell α) (free fill : Int) (j : Int) :
    sub ⟨free, fill, s.table.set n c⟩ j = if j = n then (match c with | .full x => some x | .free _ => none) else s.sub j := by
  by_cases hneg : j < 0
  · rw [if_neg (by omega)]
    unfold sub cell
    rw [if_pos hneg, if_pos hneg]
  · obtain ⟨m, rfl⟩ := Int.eq_ofNat_of_zero_le (by omega : 0 ≤ j)
    rw [sub_natCast, sub_natCast]
    dsimp only
    by_cases hm : m = n
    · rw [hm, if_pos rfl, List.getElem?_set_self hn]
      cases c <;> rfl
    · rw [if_neg (by omega), List.getElem?_set_ne (Ne.symm hm)]

theorem countP_set {p : Cell α → Bool} {n : Nat} {c d : Cell α} (hn : table[n]? = some d) :
    ((table.set n c).countP p : Int) = table.countP p - (if p d then 1 else 0) + (if p c then 1 else 0) := by
  obtain ⟨hlt, hd⟩ := List.getElem?_eq_some_iff.mp hn
  have hpos : p d = true → 0 < table.countP p := fun hp => List.countP_pos_iff.mpr ⟨d, hd ▸ List.getElem_mem hlt, hp⟩
  rw [List.countP_set hlt, hd]
  by_cases hp : p d = true
  · have := hpos hp
    rw [if_pos hp, if_pos hp]
    split <;> omega
  · rw [if_neg hp, if_neg hp]
    split <;> omega

theorem empty_inv : Inv (emptyVal : IdBucket α) [0, 1, 2, 3] where
  linked := ⟨rfl, 1, rfl, rfl, 2, rfl, rfl, 3, rfl, rfl, -1, rfl, rfl⟩
  nodup := by decide
  free := by
    intro i next hi
    have hlt := (List.getElem?_eq_some_iff.mp hi).1
    have hfour : i < 4 := hlt
    simp only [List.mem_cons, List.not_mem_nil, or_false]
    omega
  fill := rfl
  room := Nat.zero_lt_succ 3

theorem empty_sub (i : Int) : (emptyVal : IdBucket α).sub i = none := by
  cases hi : (emptyVal : IdBucket α).sub i with
  | none => rfl
  | some x =>
    obtain ⟨n, -, hn⟩ := sub_some hi
    obtain ⟨m, -, hm⟩ := List.mem_map.mp (List.mem_of_getElem? hn)
    cases hm

/-! ## Growth -/

theorem grow_old (table : List (Cell α)) {i : Nat} (hi : i < table.length) : (grow table).2[i]? = table[i]? := by
  unfold grow
  dsimp only
  rw [List.getElem?_map, List.getElem?_range (by omega), Option.map_some, List.getElem?_eq_getElem hi]
  rfl

theorem grow_new (table : List (Cell α)) {i : Nat} (hi : table.length ≤ i) (hlt : i < table.length + table.length) :
    (grow table).2[i]? = some (freeTail (table.length + table.length) i) := by
  unfold grow
  dsimp only
  rw [List.getElem?_map, List.getElem?_range hlt, Option.map_some, List.getElem?_eq_none hi]
  rfl

theorem grow_length (table : List (Cell α)) : (grow table).2.length = table.length + table.length := by
  unfold grow
  rw [List.length_map, List.length_range]

/-- The old cells, and the free ones behind them. -/
theorem grow_eq (table : List (Cell α)) :
    (grow table).2 = table ++ (List.range' table.length table.length).map (freeTail (table.length + table.length)) := by
  apply List.ext_getElem?
  intro i
  rcases Nat.lt_or_ge i table.length with hi | hi
  · rw [grow_old table hi, List.getElem?_append_left hi]
  · rw [List.getElem?_append_right hi, List.getElem?_map]
    rcases Nat.lt_or_ge i (table.length + table.length) with hlt | hge
    · rw [grow_new table hi hlt, List.getElem?_range' (by omega), Option.map_some]
      congr 2
      omega
    · rw [List.getElem?_eq_none (by rw [grow_length]; exact hge), List.getElem?_eq_none (by rw [List.length_range']; omega)]
      rfl

theorem grow_inv (h : Inv s l) (hfree : s.free = -1) :
    Inv ⟨(grow s.table).1, s.fill, (grow s.table).2⟩ (List.range' s.table.length s.table.length) where
  linked := by
    have hcells : ∀ i, s.table.length ≤ i → i < s.table.length + s.table.length →
        (grow s.table).2[i]? = some (freeTail (s.table.length + s.table.length) i) := fun i hi hlt => grow_new s.table hi hlt
    have htail := linked_tail s.table.length s.table.length rfl hcells
    have hroom := h.room
    rwa [if_neg (by omega)] at htail
  nodup := List.nodup_range'
  free := by
    intro i next hi
    dsimp only at hi
    have hlt := (List.getElem?_eq_some_iff.mp hi).1
    rw [grow_length] at hlt
    rcases Nat.lt_or_ge i s.table.length with hold | hnew
    · rw [grow_old s.table hold] at hi
      have hmem := h.free i next hi
      -- no cell of the old table is free
      cases l with
      | nil => cases hmem
      | cons j l =>
        have hj : s.free = j := h.linked.1
        omega
    · rw [List.mem_range'_1]
      omega
  fill := by
    dsimp only
    rw [grow_eq, List.countP_append, h.fill]
    have hnone : ((List.range' s.table.length s.table.length).map (freeTail (α := α) (s.table.length + s.table.length))).countP Cell.isFull = 0 := by
      rw [List.countP_eq_zero]
      intro c hc
      obtain ⟨i, -, rfl⟩ := List.mem_map.mp hc
      exact Bool.false_ne_true
    rw [hnone, Nat.add_zero]
  room := by
    have hroom := h.room
    dsimp only
    rw [grow_length]
    omega

theorem grow_sub (s : IdBucket α) (i : Int) : sub ⟨(grow s.table).1, s.fill, (grow s.table).2⟩ i = s.sub i := by
  by_cases hneg : i < 0
  · unfold sub cell
    rw [if_pos hneg, if_pos hneg]
  · obtain ⟨n, rfl⟩ := Int.eq_ofNat_of_zero_le (by omega : 0 ≤ i)
    rw [sub_natCast, sub_natCast]
    dsimp only
    rcases Nat.lt_or_ge n s.table.length with hold | hnew
    · rw [grow_old s.table hold]
    · rw [List.getElem?_eq_none hnew]
      rcases Nat.lt_or_ge n (s.table.length + s.table.length) with hlt | hge
      · rw [grow_new s.table hnew hlt]
        rfl
      · rw [List.getElem?_eq_none (by rw [grow_length]; exact hge)]

/-! ## The operations -/

/-- The first cell of the free list is taken. -/
theorem take_spec (h : Inv s l) (hfree : s.free ≠ -1) (value : α) : ∃ (n : Nat) (next : Int) (l' : List Nat),
    s.free = n ∧ cell s.table s.free = .ok (.free next) ∧ s.sub n = none ∧
      (∀ j, sub ⟨next, s.fill + 1, s.table.set n (.full value)⟩ j = if j = n then some value else s.sub j) ∧
      Inv ⟨next, s.fill + 1, s.table.set n (.full value)⟩ l' := by
  cases hl : l with
  | nil =>
    subst hl
    exact absurd h.linked hfree
  | cons n l' =>
    subst hl
    obtain ⟨hn, next, hcell, hrest⟩ := h.linked
    obtain ⟨hnot, hnodup⟩ := List.nodup_cons.mp h.nodup
    have hlt := (List.getElem?_eq_some_iff.mp hcell).1
    refine ⟨n, next, l', hn, ?_, ?_, ?_, ⟨hrest.set hnot _, hnodup, ?_, ?_, ?_⟩⟩
    · unfold cell
      rw [hn, if_neg (by omega), Int.toNat_natCast, hcell]
    · rw [sub_natCast, hcell]
    · intro j
      exact sub_set s hlt _ _ _ j
    · intro i next' hi
      dsimp only at hi
      by_cases hin : i = n
      · rw [hin, List.getElem?_set_self hlt] at hi
        cases hi
      · rw [List.getElem?_set_ne (Ne.symm hin)] at hi
        exact (List.mem_cons.mp (h.free i next' hi)).resolve_left hin
    · dsimp only
      rw [countP_set hcell, h.fill]
      show _ = _ - 0 + 1
      omega
    · dsimp only
      rw [List.length_set]
      exact h.room

theorem alloc_spec (h : Inv s l) (value : α) : ∃ id s' l', s.alloc value = .ok (id, s') ∧ s.sub id = none ∧
    (∀ j, s'.sub j = if j = id then some value else s.sub j) ∧ Inv s' l' := by
  unfold alloc
  by_cases hfree : s.free = -1
  · rw [if_pos hfree]
    have hroom := h.room
    obtain ⟨n, next, l', hn, hcell, hsub, hall, hinv⟩ := take_spec (grow_inv h hfree) (by show (s.table.length : Int) ≠ -1; omega) value
    dsimp only at hn hcell hall hinv ⊢
    rw [hcell]
    rw [grow_sub] at hsub
    refine ⟨n, _, l', ?_, hsub, ?_, hinv⟩
    · rw [hn]
      rfl
    · intro j
      rw [hall, grow_sub]
  · rw [if_neg hfree]
    obtain ⟨n, next, l', hn, hcell, hsub, hall, hinv⟩ := take_spec h hfree value
    dsimp only
    rw [hcell]
    refine ⟨n, _, l', ?_, hsub, hall, hinv⟩
    rw [hn]
    rfl

theorem cell_of_sub_none {i : Int} (h : s.sub i = none) : ∀ x, cell s.table i ≠ .ok (.full x) := by
  intro x hx
  unfold sub at h
  rw [hx] at h
  cases h

theorem cell_full {n : Nat} {x : α} (h : s.table[n]? = some (.full x)) : cell s.table n = .ok (.full x) := by
  unfold cell
  rw [if_neg (by omega), Int.toNat_natCast, h]

theorem release_none {i : Int} (h : s.sub i = none) : s.release i = .error .alreadyFree := by
  have hcell := cell_of_sub_none h
  unfold release
  split
  next x hx => exact absurd hx (hcell x)
  next => rfl

theorem replace_none {i : Int} (h : s.sub i = none) (value : α) : s.replace i value = .error .alreadyFree := by
  have hcell := cell_of_sub_none h
  unfold replace
  split
  next x hx => exact absurd hx (hcell x)
  next => rfl

theorem release_spec (h : Inv s l) {i : Int} {x : α} (hx : s.sub i = some x) : ∃ s' l', s.release i = .ok s' ∧
    (∀ j, s'.sub j = if j = i then none else s.sub j) ∧ Inv s' l' := by
  obtain ⟨n, rfl, hn⟩ := sub_some hx
  have hlt := (List.getElem?_eq_some_iff.mp hn).1
  have hnot : n ∉ l := by
    intro hmem
    obtain ⟨next, hnext⟩ := h.linked.mem n hmem
    rw [hn] at hnext
    cases hnext
  refine ⟨⟨n, s.fill - 1, s.table.set n (.free s.free)⟩, n :: l, ?_, ?_, ⟨⟨rfl, s.free, List.getElem?_set_self hlt, h.linked.set hnot _⟩,
    List.nodup_cons.mpr ⟨hnot, h.nodup⟩, ?_, ?_, ?_⟩⟩
  · unfold release
    rw [cell_full hn]
    rfl
  · intro j
    exact sub_set s hlt _ _ _ j
  · intro i next hi
    dsimp only at hi
    by_cases hin : i = n
    · rw [hin]
      exact List.mem_cons_self
    · rw [List.getElem?_set_ne (Ne.symm hin)] at hi
      exact List.mem_cons_of_mem n (h.free i next hi)
  · dsimp only
    rw [countP_set hn, h.fill]
    show _ = _ - 1 + 0
    omega
  · dsimp only
    rw [List.length_set]
    exact h.room

theorem replace_spec (h : Inv s l) {i : Int} {x : α} (hx : s.sub i = some x) (value : α) : ∃ s', s.replace i value = .ok s' ∧
    (∀ j, s'.sub j = if j = i then some value else s.sub j) ∧ Inv s' l := by
  obtain ⟨n, rfl, hn⟩ := sub_some hx
  have hlt := (List.getElem?_eq_some_iff.mp hn).1
  have hnot : n ∉ l := by
    intro hmem
    obtain ⟨next, hnext⟩ := h.linked.mem n hmem
    rw [hn] at hnext
    cases hnext
  refine ⟨{ s with table := s.table.set n (.full value) }, ?_, ?_, ⟨h.linked.set hnot _, h.nodup, ?_, ?_, ?_⟩⟩
  · unfold replace
    rw [cell_full hn]
    rfl
  · intro j
    exact sub_set s hlt _ _ _ j
  · intro i next hi
    dsimp only at hi
    by_cases hin : i = n
    · rw [hin, List.getElem?_set_self hlt] at hi
      cases hi
    · rw [List.getElem?_set_ne (Ne.symm hin)] at hi
      exact h.free i next hi
  · dsimp only
    rw [countP_set hn, h.fill]
    show _ = _ - 1 + 1
    omega
  · dsimp only
    rw [List.length_set]
    exact h.room

/-! ## Runs -/

inductive Op (α : Type) where
  | alloc (value : α)
  | free (index : Int)
  | replace (index : Int) (value : α)
  | sub (index : Int)
  | clear

inductive Answer (α : Type) where
  | id (index : Int)
  | value (x : Option α)
  | done
  | raised (e : Exn)

/-- What raises has changed nothing: each operation looks at the cell before it writes. -/
def step (s : IdBucket α) : Op α → Answer α × IdBucket α
  | .alloc value =>
    match s.alloc value with
    | .ok (id, s') => (.id id, s')
    | .error e => (.raised e, s)
  | .free index =>
    match s.release index with
    | .ok s' => (.done, s')
    | .error e => (.raised e, s)
  | .replace index value =>
    match s.replace index value with
    | .ok s' => (.done, s')
    | .error e => (.raised e, s)
  | .sub index => (.value (s.sub index), s)
  | .clear => (.done, s.clear)

/-- The calls with their answers, the last one first. -/
def run : List (Op α) → List (Op α × Answer α) × IdBucket α
  | [] => ([], new)
  | op :: before =>
    let (trace, s) := run before
    let (answer, s') := s.step op
    ((op, answer) :: trace, s')

/-- What was last stored under an id, if it is in use, read off the calls and their answers. -/
def stored : List (Op α × Answer α) → Int → Option α
  | [] => fun _ => none
  | (.alloc value, .id index) :: trace => Function.update (stored trace) index (some value)
  | (.free index, .done) :: trace => Function.update (stored trace) index none
  | (.replace index value, .done) :: trace => Function.update (stored trace) index (some value)
  | (.clear, .done) :: _ => fun _ => none
  | _ :: trace => stored trace

/-- The answer that is due. -/
def Right (held : Int → Option α) : Op α → Answer α → Prop
  | .alloc _, answer => ∃ id, answer = .id id ∧ held id = none
  | .free index, answer => answer = if (held index).isSome then .done else .raised .alreadyFree
  | .replace index _, answer => answer = if (held index).isSome then .done else .raised .alreadyFree
  | .sub index, answer => answer = .value (held index)
  | .clear, answer => answer = .done

theorem step_spec (h : Inv s l) (op : Op α) : Right s.sub op (s.step op).1 ∧ (∃ l', Inv (s.step op).2 l') ∧
    ∀ trace, stored trace = s.sub → stored ((op, (s.step op).1) :: trace) = (s.step op).2.sub := by
  cases op with
  | alloc value =>
    obtain ⟨id, s', l', hs', hnone, hall, hinv⟩ := alloc_spec h value
    have hstep : s.step (.alloc value) = (.id id, s') := by
      unfold step
      dsimp only
      rw [hs']
    rw [hstep]
    refine ⟨⟨id, rfl, hnone⟩, ⟨l', hinv⟩, ?_⟩
    intro trace htrace
    funext j
    show Function.update (stored trace) id (some value) j = s'.sub j
    rw [hall, htrace, Function.update_apply]
  | free index =>
    cases hsub : s.sub index with
    | none =>
      have hstep : s.step (.free index) = (.raised .alreadyFree, s) := by
        unfold step
        dsimp only
        rw [release_none hsub]
      rw [hstep]
      refine ⟨?_, ⟨l, h⟩, fun trace htrace => htrace⟩
      unfold Right
      dsimp only
      rw [hsub]
      rfl
    | some x =>
      obtain ⟨s', l', hs', hall, hinv⟩ := release_spec h hsub
      have hstep : s.step (.free index) = (.done, s') := by
        unfold step
        dsimp only
        rw [hs']
      rw [hstep]
      refine ⟨?_, ⟨l', hinv⟩, ?_⟩
      · unfold Right
        dsimp only
        rw [hsub]
        rfl
      · intro trace htrace
        funext j
        show Function.update (stored trace) index none j = s'.sub j
        rw [hall, htrace, Function.update_apply]
  | replace index value =>
    cases hsub : s.sub index with
    | none =>
      have hstep : s.step (.replace index value) = (.raised .alreadyFree, s) := by
        unfold step
        dsimp only
        rw [replace_none hsub]
      rw [hstep]
      refine ⟨?_, ⟨l, h⟩, fun trace htrace => htrace⟩
      unfold Right
      dsimp only
      rw [hsub]
      rfl
    | some x =>
      obtain ⟨s', hs', hall, hinv⟩ := replace_spec h hsub value
      have hstep : s.step (.replace index value) = (.done, s') := by
        unfold step
        dsimp only
        rw [hs']
      rw [hstep]
      refine ⟨?_, ⟨l, hinv⟩, ?_⟩
      · unfold Right
        dsimp only
        rw [hsub]
        rfl
      · intro trace htrace
        funext j
        show Function.update (stored trace) index (some value) j = s'.sub j
        rw [hall, htrace, Function.update_apply]
  | sub index => exact ⟨rfl, ⟨l, h⟩, fun trace htrace => htrace⟩
  | clear =>
    refine ⟨rfl, ⟨_, empty_inv⟩, fun trace _ => ?_⟩
    funext j
    exact (empty_sub j).symm

theorem run_spec (ops : List (Op α)) : (∃ l, Inv (run ops).2 l) ∧ stored (run ops).1 = (run ops).2.sub := by
  induction ops with
  | nil => exact ⟨⟨_, empty_inv⟩, funext fun j => (empty_sub j).symm⟩
  | cons op before ih =>
    obtain ⟨⟨l, h⟩, hstored⟩ := ih
    obtain ⟨-, hinv, hnext⟩ := step_spec h op
    exact ⟨hinv, hnext _ hstored⟩

/-- Free list and full cells share the table between them, and the full cells are counted. -/
structure Partition (s : IdBucket α) : Prop where
  parts : ∃ l : List Nat, Linked s.table s.free l ∧ l.Nodup ∧ (∀ i ∈ l, i < s.table.length) ∧
    ∀ i < s.table.length, i ∈ l ↔ s.sub i = none
  fill : s.fill = s.table.countP Cell.isFull

theorem Inv.partition (h : Inv s l) : Partition s where
  parts := by
    refine ⟨l, h.linked, h.nodup, ?_, ?_⟩
    · intro i hi
      obtain ⟨next, hnext⟩ := h.linked.mem i hi
      exact (List.getElem?_eq_some_iff.mp hnext).1
    · intro i hi
      rw [sub_natCast]
      constructor
      · intro hmem
        obtain ⟨next, hnext⟩ := h.linked.mem i hmem
        rw [hnext]
      · intro hnone
        rw [List.getElem?_eq_getElem hi] at hnone
        cases hc : s.table[i] with
        | free next => exact h.free i next (List.getElem?_eq_some_iff.mpr ⟨hi, hc⟩)
        | full x =>
          rw [hc] at hnone
          cases hnone
  fill := h.fill

theorem raised_unchanged (s : IdBucket α) (op : Op α) {e : Exn} (he : (s.step op).1 = .raised e) : (s.step op).2 = s := by
  cases op with
  | alloc value =>
    cases hr : s.alloc value with
    | ok r => simp [step, hr] at he
    | error e => simp [step, hr]
  | free index =>
    cases hr : s.release index with
    | ok r => simp [step, hr] at he
    | error e => simp [step, hr]
  | replace index value =>
    cases hr : s.replace index value with
    | ok r => simp [step, hr] at he
    | error e => simp [step, hr]
  | sub index => rfl
  | clear => cases he

theorem Right.alreadyFree {held : Int → Option α} {op : Op α} {e : Exn} (h : Right held op (.raised e)) : e = .alreadyFree := by
  cases op with
  | alloc value =>
    obtain ⟨id, hid, -⟩ := h
    cases hid
  | free index =>
    have hanswer : (.raised e : Answer α) = if (held index).isSome then .done else .raised .alreadyFree := h
    split at hanswer <;> cases hanswer
    rfl
  | replace index value =>
    have hanswer : (.raised e : Answer α) = if (held index).isSome then .done else .raised .alreadyFree := h
    split at hanswer <;> cases hanswer
    rfl
  | sub index => cases h
  | clear => cases h

/-- After any calls, and at the next one. -/
theorem idBucket_coherent (before : List (Op α)) (op : Op α) :
    let (trace, s) := run before
    Partition s ∧ (∀ id, s.sub id = stored trace id) ∧ Right (stored trace) op (s.step op).1 ∧
      ∀ e, (s.step op).1 = .raised e → e = .alreadyFree ∧ (s.step op).2 = s := by
  obtain ⟨⟨l, h⟩, hstored⟩ := run_spec before
  obtain ⟨hright, -, -⟩ := step_spec h op
  refine ⟨h.partition, fun id => congrFun hstored.symm id, hstored ▸ hright, ?_⟩
  intro e he
  exact ⟨(he ▸ hright).alreadyFree, raised_unchanged _ op he⟩

end IdBucket

end BubbleStorm.Util.Container
