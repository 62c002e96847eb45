/-
  BubbleStorm.Durable.HashStore — the items of a durable replica
  (`src/bubblestorm/durable/datastore/durable-hash-store.sml`, `version.sml`, and `store`
  of `src/bubblestorm/durable/service/backend.sml`).

  The hash table is the map it holds; `storeTable` is the same on the cuckoo table, and
  `storeTable_refines` says so. A request without data is a delete: what is stored for it
  is a tombstone. What matches the stored item is only named (`Stored.matches`).
-/

import Mathlib.Data.Prod.Lex
import BubbleStorm.Lib.Newest
import BubbleStorm.Util.Hash.HashTableMap

namespace BubbleStorm.Durable

open Function (update)
open BubbleStorm.Lib (newer)

/-! ## Versions -/

structure Version where
  counter : Int
  time : Int
  deriving DecidableEq, Repr

namespace Version

def compare (a b : Version) : Ordering :=
  match Ord.compare a.counter b.counter with
  | .lt => .lt
  | .eq => Ord.compare a.time b.time
  | .gt => .gt

/-- `op <` and `op <=` of `OrderFromCompare`. -/
def less (a b : Version) : Bool := compare a b = .lt
def lessEq (a b : Version) : Bool := !less b a

def key (a : Version) : Int ×ₗ Int := toLex (a.counter, a.time)

theorem key_injective : Function.Injective key := by
  intro a b h
  obtain ⟨c, t⟩ := a
  obtain ⟨c', t'⟩ := b
  have h' : (c, t) = (c', t') := toLex.injective h
  cases h'
  rfl

instance : LinearOrder Version := LinearOrder.lift' key key_injective

theorem lt_iff (a b : Version) : a < b ↔ a.counter < b.counter ∨ a.counter = b.counter ∧ a.time < b.time :=
  Prod.Lex.toLex_lt_toLex

theorem less_iff (a b : Version) : less a b = true ↔ a < b := by
  rw [lt_iff]
  unfold less compare
  rcases lt_trichotomy a.counter b.counter with h | h | h
  · have hc : Ord.compare a.counter b.counter = .lt := compare_lt_iff_lt.mpr h
    rw [hc]
    simp [h]
  · have hc : Ord.compare a.counter b.counter = .eq := compare_eq_iff_eq.mpr h
    rw [hc]
    simp [h, compare_lt_iff_lt]
  · have hc : Ord.compare a.counter b.counter = .gt := compare_gt_iff_gt.mpr h
    rw [hc]
    simp [not_lt_of_gt h, ne_of_gt h]

/-- The comparison of versions is a total order. -/
theorem lessEq_iff (a b : Version) : lessEq a b = true ↔ a ≤ b := by
  unfold lessEq
  rw [Bool.not_eq_true', ← not_lt, ← less_iff, Bool.not_eq_true]

end Version

/-! ## The store -/

variable {ID α : Type} [DecidableEq ID]

/-- The version and the data that are held for an id; no data is a tombstone. -/
abbrev Items (ID α : Type) := ID → Option (Version × Option α)

def Items.new : Items ID α := fun _ => none

/-- `DurableHashStore.store`; the result is what `success` is told. -/
def Items.store (table : Items ID α) (id : ID) (version : Version) (data : Option α) : Items ID α × Bool :=
  match table id with
  | none => (update table id (some (version, data)), true)
  | some (oldVersion, _) =>
    if Version.lessEq version oldVersion then (table, false) else (update table id (some (version, data)), true)

structure Request (ID : Type) where
  id : ID
  version : Version
  data : List UInt8
  deriving DecidableEq

/-- Delete requests are filtered out. -/
def Request.actualData (r : Request ID) : Option (List UInt8) := if r.data.length = 0 then none else some r.data

/-- What a store request does to a replica. -/
structure Stored (ID : Type) where
  table : Items ID (List UInt8)
  success : Bool
  /-- The data that is matched against the queries. -/
  matching : Option (List UInt8)

/-- `Backend.store`. -/
def store (table : Items ID (List UInt8)) (r : Request ID) : Stored ID :=
  let (table, success) := table.store r.id r.version r.actualData
  ⟨table, success, if success then r.actualData else none⟩

/-- A replica that received the requests. -/
def replica (l : List (Request ID)) : Items ID (List UInt8) := l.foldl (fun table r => (store table r).table) Items.new

/-! ## What a replica holds -/

theorem store_at (table : Items ID α) (id : ID) (version : Version) (data : Option α) :
    (table.store id version data).1 = update table id (newer (table id) (version, data)) := by
  unfold Items.store newer
  cases h : table id with
  | none => rfl
  | some held =>
    dsimp only
    by_cases hle : version ≤ held.1
    · rw [if_pos ((Version.lessEq_iff _ _).mpr hle), if_pos hle, ← h, Function.update_eq_self]
    · rw [if_neg fun hl => hle ((Version.lessEq_iff _ _).mp hl), if_neg hle]

/-- `success` is told that the version is greater than the one held. -/
theorem store_success (table : Items ID α) (id : ID) (version : Version) (data : Option α) :
    (table.store id version data).2 = true ↔ ∀ held, table id = some held → held.1 < version := by
  unfold Items.store
  cases h : table id with
  | none => exact iff_of_true rfl fun _ hheld => by cases hheld
  | some held =>
    dsimp only
    by_cases hle : version ≤ held.1
    · rw [if_pos ((Version.lessEq_iff _ _).mpr hle)]
      refine iff_of_false Bool.false_ne_true fun hall => ?_
      exact absurd (hall held rfl) (not_lt.mpr hle)
    · rw [if_neg fun hl => hle ((Version.lessEq_iff _ _).mp hl)]
      refine iff_of_true rfl fun held' heq => ?_
      cases heq
      exact not_le.mp hle

/-- What the requests say of one id. -/
def heard (l : List (Request ID)) (id : ID) : List (Version × Option (List UInt8)) :=
  (l.filter fun r => r.id = id).map fun r => (r.version, r.actualData)

theorem mem_heard {l : List (Request ID)} {id : ID} {x : Version × Option (List UInt8)} :
    x ∈ heard l id ↔ ∃ r ∈ l, r.id = id ∧ x = (r.version, r.actualData) := by
  unfold heard
  rw [List.mem_map]
  constructor
  · rintro ⟨r, hr, rfl⟩
    rw [List.mem_filter, decide_eq_true_eq] at hr
    exact ⟨r, hr.1, hr.2, rfl⟩
  · rintro ⟨r, hr, hid, rfl⟩
    exact ⟨r, List.mem_filter.mpr ⟨hr, decide_eq_true hid⟩, rfl⟩

/-- The requests of an id, one after the other. -/
theorem foldl_store (table : Items ID (List UInt8)) (l : List (Request ID)) (id : ID) :
    (l.foldl (fun table r => (store table r).table) table) id = (heard l id).foldl newer (table id) := by
  induction l generalizing table with
  | nil => rfl
  | cons r l ih =>
    rw [List.foldl_cons, ih]
    have hstep : (store table r).table = update table r.id (newer (table r.id) (r.version, r.actualData)) := store_at ..
    rw [hstep]
    by_cases hid : r.id = id
    · subst hid
      have hheard : heard (r :: l) r.id = (r.version, r.actualData) :: heard l r.id := by
        simp [heard]
      rw [hheard, Function.update_self, List.foldl_cons]
    · have hheard : heard (r :: l) id = heard l id := by
        simp [heard, hid]
      rw [hheard, Function.update_of_ne (Ne.symm hid)]

/-- Requests of one id and one version have one data. -/
def Agree (l : List (Request ID)) : Prop := ∀ r ∈ l, ∀ r' ∈ l, r.id = r'.id → r.version = r'.version → r.data = r'.data

instance (l : List (Request ID)) : Decidable (Agree l) := inferInstanceAs (Decidable (∀ r ∈ l, ∀ r' ∈ l, _ → _ → _))

/-- Replicas of the same requests hold the same, for each id what the request of the
    greatest version says; a store is reported as a success iff its version is greater
    than the one held. -/
theorem replicas_converge (l l' : List (Request ID)) (hsame : ∀ r, r ∈ l ↔ r ∈ l') (hagree : Agree l) :
    replica l = replica l' ∧
      (∀ id, (∀ r ∈ l, r.id ≠ id) → replica l id = none) ∧
      (∀ r ∈ l, (∀ r' ∈ l, r'.id = r.id → r'.version ≤ r.version) → replica l r.id = some (r.version, r.actualData)) ∧
      ∀ pre r rest, l = pre ++ r :: rest →
        ((store (replica pre) r).success = true ↔ ∀ held, replica pre r.id = some held → held.1 < r.version) := by
  have hkeys : ∀ id, ∀ x ∈ heard l id, ∀ y ∈ heard l id, x.1 = y.1 → x = y := by
    intro id x hx y hy hxy
    obtain ⟨r, hr, hid, rfl⟩ := mem_heard.mp hx
    obtain ⟨r', hr', hid', rfl⟩ := mem_heard.mp hy
    have hdata := hagree r hr r' hr' (hid.trans hid'.symm) hxy
    unfold Request.actualData
    rw [hdata]
    exact congrArg (·, _) hxy
  refine ⟨?_, fun id hnone => ?_, fun r hr hmax => ?_, fun pre r rest _ => store_success ..⟩
  · funext id
    unfold replica
    rw [foldl_store, foldl_store]
    refine Lib.foldl_newer_congr (fun x => ?_) (hkeys id)
    rw [mem_heard, mem_heard]
    exact exists_congr fun r => and_congr_left fun _ => hsame r
  · unfold replica
    rw [foldl_store]
    have hempty : heard l id = [] := List.eq_nil_iff_forall_not_mem.mpr fun x hx => by
      obtain ⟨r, hr, hid, -⟩ := mem_heard.mp hx
      exact hnone r hr hid
    rw [hempty]
    rfl
  · unfold replica
    rw [foldl_store]
    have hin : (r.version, r.actualData) ∈ heard l r.id := mem_heard.mpr ⟨r, hr, rfl, rfl⟩
    show (heard l r.id).foldl newer none = _
    rcases Lib.foldl_newer none (heard l r.id) with ⟨hnil, -, -⟩ | ⟨y, hy, hnew⟩
    · rw [hnil] at hin
      cases hin
    · obtain ⟨r', hr', hid', rfl⟩ := mem_heard.mp hnew.mem
      rw [hy, hkeys r.id _ hnew.mem _ hin (le_antisymm (hmax r' hr' hid') (hnew.2.1 _ hin))]

/-- A delete between two stores; the second replica hears it first, and twice. -/
theorem replicas_converge_example :
    let a : Request Nat := ⟨7, ⟨1, 0⟩, [1]⟩
    let b : Request Nat := ⟨7, ⟨2, 5⟩, []⟩
    let c : Request Nat := ⟨7, ⟨2, 4⟩, [3]⟩
    replica [a, b, c] = replica [b, c, a, b] ∧ replica [a, b, c] 7 = some (⟨2, 5⟩, none) := by
  intro a b c
  have h := replicas_converge [a, b, c] [b, c, a, b] (by intro r; simp only [List.mem_cons, List.not_mem_nil]; tauto) (by decide)
  exact ⟨h.1, h.2.2.1 b (by decide) (by decide)⟩

/-! ## The table -/

open BubbleStorm.Util.HashTable (Cuckoo Hash Refines)

/-- `DurableHashStore.store` on the cuckoo table; `tries` bounds its search for a seed. -/
def storeTable (hash : Hash ID) (tries : Nat) (c : Cuckoo ID (Version × Option α)) (id : ID) (version : Version)
    (data : Option α) : Option (Cuckoo ID (Version × Option α) × Bool) :=
  match Util.HashTable.get hash c id with
  | none => (Util.HashTable.set hash tries c id (version, data)).map fun p => (p.1, true)
  | some (oldVersion, _) =>
    if Version.lessEq version oldVersion then some (c, false)
    else (Util.HashTable.set hash tries c id (version, data)).map fun p => (p.1, true)

theorem set_refines {hash : Hash ID} {tries : Nat} {β : Type} {c : Cuckoo ID β} {M : ID → Option β} {id : ID} {v : β}
    {p : Cuckoo ID β × Option Util.HashTable.Exn} (h : Refines hash c M) (hs : Util.HashTable.set hash tries c id v = some p) :
    Refines hash p.1 (update M id (some v)) := by
  have hstep : Util.HashTable.step hash tries c (.set id v) = some (p.1, .ofExn p.2) := congrArg (Option.map _) hs
  obtain ⟨M', hobs, href⟩ := Util.HashTable.step_refines h hstep
  generalize Util.HashTable.Out.ofExn p.2 = out at hobs
  cases hobs
  exact href

/-- The table holds what the map does. -/
theorem storeTable_refines {hash : Hash ID} {tries : Nat} {c c' : Cuckoo ID (Version × Option α)} {table : Items ID α} {id : ID}
    {version : Version} {data : Option α} {success : Bool} (h : Refines hash c table)
    (hs : storeTable hash tries c id version data = some (c', success)) :
    Refines hash c' (table.store id version data).1 ∧ success = (table.store id version data).2 := by
  unfold storeTable at hs
  unfold Items.store
  rw [Util.HashTable.get_refines h] at hs
  have hset : ∀ {o : Option (Cuckoo ID (Version × Option α) × Option Util.HashTable.Exn)},
      Util.HashTable.set hash tries c id (version, data) = o → (o.map fun p => (p.1, true)) = some (c', success) →
      Refines hash c' (update table id (some (version, data))) ∧ success = true := by
    intro o ho hmap
    cases o with
    | none => cases hmap
    | some p =>
      cases hmap
      exact ⟨set_refines h ho, rfl⟩
  cases hid : table id with
  | none =>
    rw [hid] at hs
    exact hset rfl hs
  | some held =>
    rw [hid] at hs
    dsimp only at hs ⊢
    split
    · rename_i hle
      rw [if_pos hle] at hs
      cases hs
      exact ⟨h, rfl⟩
    · rename_i hle
      rw [if_neg hle] at hs
      exact hset rfl hs

end BubbleStorm.Durable
