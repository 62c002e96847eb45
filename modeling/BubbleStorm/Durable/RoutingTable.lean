/-
  BubbleStorm.Durable.RoutingTable — the peers a durable node knows
  (`src/bubblestorm/durable/routing/routing-table.sml`).

  An entry stands for what this node published at a peer (`myBubble`) and what the peer
  published here (`hisBubble`). `count` is meant to be the number of the latter, and is
  moved by hand: by every `insert`, also one for a peer that is there already, and by
  every `delete` of an entry, also one the peer published nothing for.

  It is right after every step of a run exactly when no such step is made
  (`counted_iff`). No entry is ever without both (`held_run`).

  A hash table is its entries. What is handed to the neighbour, to the router and to the
  caller is listed in `called`.
-/

import Mathlib.Algebra.Ring.Int.Defs
import Mathlib.Data.List.AList
import Mathlib.Data.List.Induction

namespace BubbleStorm.Durable.RoutingTable

/-! ## The table -/

structure Entry (Stub : Type) where
  service : Stub
  bucket : Bool
  myBubble : Bool
  hisBubble : Bool
  alive : Bool
  deriving DecidableEq, Repr

inductive Call (ID Stub : Type) where
  | contact (id : ID) (service : Stub)
  | replicate (id : ID) (service : Stub)
  | quit (id : ID) (service : Stub)
  | done
  deriving DecidableEq, Repr

abbrev Table (ID Stub : Type) := AList fun _ : ID => Entry Stub

structure T (ID Stub : Type) where
  table : Table ID Stub
  count : Int
  called : List (Call ID Stub)

variable {ID Stub : Type} [DecidableEq ID]

def new : T ID Stub := ⟨∅, 0, []⟩

def T.call (this : T ID Stub) (c : Call ID Stub) : T ID Stub := { this with called := this.called ++ [c] }

def T.set (this : T ID Stub) (id : ID) (entry : Entry Stub) : T ID Stub := { this with table := this.table.insert id entry }

/-- Contact the peer; without an entry replicate to it and make one, else set `hisBubble`. -/
def insert (this : T ID Stub) (id : ID) (service : Stub) (bucket : Bool) : T ID Stub :=
  let this := this.call (.contact id service)
  let this := { this with count := this.count + 1 }
  let this :=
    match this.table.lookup id with
    | none => (this.set id ⟨service, bucket, false, true, true⟩).call (.replicate id service)
    | some entry => this.set id ⟨service, bucket, entry.myBubble, true, true⟩
  this.call .done

/-- With `myBubble` unset `hisBubble`, else remove the entry: part of `delete` and `flush`. -/
def remove (this : T ID Stub) (id : ID) (entry : Entry Stub) : T ID Stub :=
  let this := this.call (.quit id entry.service)
  let this := { this with count := this.count - 1 }
  if entry.myBubble then this.set id ⟨entry.service, false, true, false, true⟩
  else { this with table := this.table.erase id }

def delete (this : T ID Stub) (id : ID) : T ID Stub :=
  let this :=
    match this.table.lookup id with
    | none => this
    | some entry => remove this id entry
  this.call .done

def perItem (filter : Bool → Bool) (this : T ID Stub) (e : (_ : ID) × Entry Stub) : T ID Stub :=
  if e.2.hisBubble && filter e.2.bucket then remove this e.1 e.2 else this

/-- The walk is over the entries as they are at its start: one that is visited changes no
other. -/
def flush (this : T ID Stub) (filter : Bool → Bool) : T ID Stub := this.table.entries.foldl (perItem filter) this

def get (this : T ID Stub) (id : ID) : Option Stub :=
  match this.table.lookup id with
  | none => none
  | some entry => if entry.hisBubble then some entry.service else none

/-- The `size` of `managed`. -/
def size (this : T ID Stub) : Int := this.count

/-- The peer's node says that it published here. -/
def contact (this : T ID Stub) (id : ID) (service : Stub) : T ID Stub :=
  match this.table.lookup id with
  | none => (this.set id ⟨service, false, true, false, true⟩).call (.replicate id service)
  | some entry => this.set id ⟨service, entry.bucket, true, entry.hisBubble, true⟩

def quit (this : T ID Stub) (id : ID) : T ID Stub :=
  match this.table.lookup id with
  | none => this
  | some entry =>
    if entry.hisBubble then this.set id ⟨entry.service, entry.bucket, false, true, true⟩
    else { this with table := this.table.erase id }

/-! ## Runs -/

inductive Event (ID Stub : Type) where
  | insert (id : ID) (service : Stub) (bucket : Bool)
  | delete (id : ID)
  | flush (filter : Bool → Bool)
  | contact (id : ID) (service : Stub)
  | quit (id : ID)

def step (this : T ID Stub) : Event ID Stub → T ID Stub
  | .insert id service bucket => insert this id service bucket
  | .delete id => delete this id
  | .flush filter => flush this filter
  | .contact id service => contact this id service
  | .quit id => quit this id

def run (events : List (Event ID Stub)) : T ID Stub := events.foldl step new

/-! ## What is counted -/

/-- The number of entries with a remote bubble. -/
def remote (this : T ID Stub) : Nat := (this.table.entries.filter fun e => e.2.hisBubble).length

def Counted (this : T ID Stub) : Prop := this.count = remote this

instance (this : T ID Stub) : Decidable (Counted this) := inferInstanceAs (Decidable (_ = _))

/-- Every entry stands for something. -/
def Held (this : T ID Stub) : Prop := ∀ e ∈ this.table.entries, e.2.myBubble = true ∨ e.2.hisBubble = true

/-- The peer has published here. -/
def published (this : T ID Stub) (id : ID) : Bool := (get this id).isSome

/-- An `insert` is for a peer that is not counted yet, a `delete` for one that is, or that
there is no entry for. -/
def Proper (this : T ID Stub) : Event ID Stub → Prop
  | .insert id _ _ => published this id = false
  | .delete id => this.table.lookup id = none ∨ published this id = true
  | _ => True

/-- One for an entry that carries a remote bubble. -/
def mark (entry : Entry Stub) : Int := if entry.hisBubble then 1 else 0

def marks (l : List ((_ : ID) × Entry Stub)) : Int := (l.map fun e => mark e.2).sum

def markOf : Option (Entry Stub) → Int
  | none => 0
  | some entry => mark entry

omit [DecidableEq ID] in
theorem remote_eq (this : T ID Stub) : (remote this : Int) = marks this.table.entries := by
  unfold remote
  induction this.table.entries with
  | nil => rfl
  | cons e l ih =>
    cases here : e.2.hisBubble with
    | false =>
      rw [List.filter_cons_of_neg (by simp [here]), ih]
      simp [marks, mark, here]
    | true =>
      rw [List.filter_cons_of_pos (by simp [here]), List.length_cons, Int.natCast_succ, ih]
      simp [marks, mark, here, Int.add_comm]

theorem marks_kerase (id : ID) (l : List ((_ : ID) × Entry Stub)) :
    marks (l.kerase id) = marks l - markOf (l.dlookup id) := by
  induction l with
  | nil => rfl
  | cons e l ih =>
    obtain ⟨id', entry⟩ := e
    by_cases same : id = id'
    · subst same
      simp only [List.kerase_cons_eq, List.dlookup_cons_eq, marks, markOf, List.map_cons, List.sum_cons]
      omega
    · rw [List.kerase_cons_ne same, List.dlookup_cons_ne _ _ same]
      simp only [marks, List.map_cons, List.sum_cons] at ih ⊢
      rw [ih]
      exact (Int.add_sub_assoc ..).symm

theorem marks_erase (table : Table ID Stub) (id : ID) :
    marks (table.erase id).entries = marks table.entries - markOf (table.lookup id) :=
  marks_kerase id table.entries

theorem marks_insert (table : Table ID Stub) (id : ID) (entry : Entry Stub) :
    marks (table.insert id entry).entries = marks table.entries - markOf (table.lookup id) + mark entry := by
  rw [AList.entries_insert]
  simp only [marks, List.map_cons, List.sum_cons]
  rw [Int.add_comm]
  exact congrArg (· + mark entry) (marks_kerase id table.entries)

/-- How far the count is off. -/
def drift (this : T ID Stub) : Int := this.count - marks this.table.entries

omit [DecidableEq ID] in
theorem counted_iff_drift (this : T ID Stub) : Counted this ↔ drift this = 0 := by
  rw [Counted, remote_eq, drift]
  omega

/-- By how much a step puts the count further off. -/
def slip (this : T ID Stub) : Event ID Stub → Int
  | .insert id _ _ => markOf (this.table.lookup id)
  | .delete id =>
    match this.table.lookup id with
    | none => 0
    | some entry => mark entry - 1
  | _ => 0

omit [DecidableEq ID] in
@[simp] theorem drift_call (this : T ID Stub) (c : Call ID Stub) : drift (this.call c) = drift this := rfl

theorem drift_set (this : T ID Stub) (id : ID) (entry : Entry Stub) :
    drift (this.set id entry) = drift this + markOf (this.table.lookup id) - mark entry := by
  simp only [drift, T.set, marks_insert]
  omega

theorem drift_erase (this : T ID Stub) (id : ID) :
    drift { this with table := this.table.erase id } = drift this + markOf (this.table.lookup id) := by
  simp only [drift, marks_erase]
  omega

theorem drift_insert (this : T ID Stub) (id : ID) (service : Stub) (bucket : Bool) :
    drift (insert this id service bucket) = drift this + markOf (this.table.lookup id) := by
  simp only [insert, T.call]
  cases here : this.table.lookup id with
  | none =>
    simp only [drift, T.set, marks_insert, here, markOf, mark, if_true]
    omega
  | some entry =>
    simp only [drift, T.set, marks_insert, here, markOf, mark, if_true]
    omega

theorem drift_remove {this : T ID Stub} {id : ID} {entry : Entry Stub} (here : this.table.lookup id = some entry) :
    drift (remove this id entry) = drift this + mark entry - 1 := by
  simp only [remove, T.call]
  cases entry.myBubble with
  | true =>
    have gone : mark (⟨entry.service, false, true, false, true⟩ : Entry Stub) = 0 := rfl
    simp only [if_true, drift, T.set, marks_insert, here, gone, markOf]
    omega
  | false =>
    simp only [Bool.false_eq_true, if_false, drift, marks_erase, here, markOf]
    omega

/-- A peer that is taken out is the only one that changes. -/
theorem remove_other {this : T ID Stub} {id id' : ID} (other : id' ≠ id) (entry : Entry Stub) :
    (remove this id entry).table.lookup id' = this.table.lookup id' := by
  simp only [remove]
  split
  · exact AList.lookup_insert_ne other
  · exact AList.lookup_erase_ne other

/-- The rest of a walk: what it has not come to yet is as it was. -/
theorem drift_walk (filter : Bool → Bool) (l : List ((_ : ID) × Entry Stub)) :
    ∀ this : T ID Stub, (l.map Sigma.fst).Nodup → (∀ e ∈ l, this.table.lookup e.1 = some e.2) →
      drift (l.foldl (perItem filter) this) = drift this := by
  induction l with
  | nil => exact fun _ _ _ => rfl
  | cons e l ih =>
    intro this nodup here
    rw [List.map_cons, List.nodup_cons] at nodup
    obtain ⟨fresh, nodup⟩ := nodup
    have first := here e (List.mem_cons_self ..)
    have rest : ∀ e' ∈ l, this.table.lookup e'.1 = some e'.2 := fun e' mem => here e' (List.mem_cons_of_mem _ mem)
    rw [List.foldl_cons]
    by_cases takes : (e.2.hisBubble && filter e.2.bucket) = true
    · have his : mark e.2 = 1 := if_pos (Bool.and_eq_true .. |>.mp takes).1
      rw [perItem, if_pos takes, ih _ nodup ?_]
      · rw [drift_remove first, his]
        omega
      · intro e' mem
        have other : e'.1 ≠ e.1 := fun same => fresh (same ▸ List.mem_map_of_mem mem)
        rw [remove_other other]
        exact rest e' mem
    · rw [perItem, if_neg takes]
      exact ih this nodup rest

theorem drift_flush (this : T ID Stub) (filter : Bool → Bool) : drift (flush this filter) = drift this := by
  refine drift_walk filter _ this this.table.nodupKeys ?_
  intro e mem
  exact (AList.mem_lookup_iff (s := this.table)).mpr mem

theorem drift_step (this : T ID Stub) (e : Event ID Stub) : drift (step this e) = drift this + slip this e := by
  cases e with
  | insert id service bucket => exact drift_insert this id service bucket
  | delete id =>
    simp only [step, delete, drift_call, slip]
    cases here : this.table.lookup id with
    | none => exact (Int.add_zero _).symm
    | some entry =>
      show drift (remove this id entry) = drift this + (mark entry - 1)
      rw [drift_remove here]
      omega
  | flush filter =>
    rw [step, drift_flush]
    exact (Int.add_zero _).symm
  | contact id service =>
    simp only [step, contact, slip]
    cases here : this.table.lookup id with
    | none =>
      show drift (this.set id ⟨service, false, true, false, true⟩) = drift this + 0
      rw [drift_set, here]
      simp [markOf, mark]
    | some entry =>
      show drift (T.set _ _ _) = _
      rw [drift_set, here]
      simp [markOf, mark]
  | quit id =>
    simp only [step, quit, slip]
    cases here : this.table.lookup id with
    | none => exact (Int.add_zero _).symm
    | some entry =>
      show drift (if entry.hisBubble then _ else _) = _
      cases his : entry.hisBubble with
      | true =>
        show drift (T.set _ _ _) = _
        rw [drift_set, here]
        simp [markOf, mark, his]
      | false =>
        rw [if_neg Bool.false_ne_true, drift_erase, here]
        simp [markOf, mark, his]

theorem proper_iff (this : T ID Stub) (e : Event ID Stub) : Proper this e ↔ slip this e = 0 := by
  cases e with
  | insert id service bucket =>
    simp only [Proper, published, get, slip]
    cases this.table.lookup id with
    | none => simp [markOf]
    | some entry => cases his : entry.hisBubble <;> simp [markOf, mark, his]
  | delete id =>
    simp only [Proper, published, get, slip]
    cases this.table.lookup id with
    | none => simp
    | some entry => cases his : entry.hisBubble <;> simp [mark, his]
  | flush filter => exact ⟨fun _ => rfl, fun _ => trivial⟩
  | contact id service => exact ⟨fun _ => rfl, fun _ => trivial⟩
  | quit id => exact ⟨fun _ => rfl, fun _ => trivial⟩

/-! ## No entry without a bubble -/

theorem Held.set {this : T ID Stub} (held : Held this) (id : ID) {entry : Entry Stub}
    (some : entry.myBubble = true ∨ entry.hisBubble = true) : Held (this.set id entry) := by
  intro e mem
  rw [T.set, AList.entries_insert] at mem
  rcases List.mem_cons.mp mem with rfl | mem
  · exact some
  · exact held e ((List.kerase_sublist id _).subset mem)

theorem Held.erase {this : T ID Stub} (held : Held this) (id : ID) : Held { this with table := this.table.erase id } :=
  fun e mem => held e ((List.kerase_sublist id _).subset mem)

theorem Held.remove {this : T ID Stub} (held : Held this) (id : ID) (entry : Entry Stub) :
    Held (remove this id entry) := by
  simp only [RoutingTable.remove]
  split
  · apply Held.set _ id (.inl rfl)
    exact held
  · exact @Held.erase _ _ _ { this.call (.quit id entry.service) with count := this.count - 1 } held id

theorem Held.walk (filter : Bool → Bool) (l : List ((_ : ID) × Entry Stub)) :
    ∀ this : T ID Stub, Held this → Held (l.foldl (perItem filter) this) := by
  induction l with
  | nil => exact fun _ held => held
  | cons e l ih =>
    intro this held
    apply ih
    rw [perItem]
    split
    · exact held.remove _ _
    · exact held

theorem Held.step {this : T ID Stub} (held : Held this) (e : Event ID Stub) : Held (step this e) := by
  cases e with
  | insert id service bucket =>
    simp only [RoutingTable.step, RoutingTable.insert]
    split
    · apply Held.set _ id (.inr rfl)
      exact held
    · apply Held.set _ id (.inr rfl)
      exact held
  | delete id =>
    simp only [RoutingTable.step, RoutingTable.delete]
    split
    · exact held
    · exact held.remove _ _
  | flush filter => exact Held.walk filter _ this held
  | contact id service =>
    simp only [RoutingTable.step, RoutingTable.contact]
    split
    · exact held.set id (.inl rfl)
    · exact held.set id (.inl rfl)
  | quit id =>
    simp only [RoutingTable.step, RoutingTable.quit]
    split
    · exact held
    · split
      · exact held.set id (.inr rfl)
      · exact held.erase id

/-! ## Over a run -/

theorem run_snoc (events : List (Event ID Stub)) (e : Event ID Stub) : run (events ++ [e]) = step (run events) e := by
  simp [run]

theorem held_run (events : List (Event ID Stub)) : Held (run events) := by
  induction events using List.reverseRecOn with
  | nil => exact fun e mem => absurd mem (List.not_mem_nil)
  | append_singleton events e ih =>
    rw [run_snoc]
    exact ih.step e

theorem take_succ_of {events : List (Event ID Stub)} {i : Nat} {e : Event ID Stub} (here : events[i]? = some e) :
    run (events.take (i + 1)) = step (run (events.take i)) e := by
  rw [List.take_add_one, here]
  exact run_snoc _ _

/-- The count is right after every step exactly when every step is proper, and every entry
has a bubble in any case. -/
theorem counted_iff (events : List (Event ID Stub)) :
    (∀ i, Counted (run (events.take i)) ∧ Held (run (events.take i))) ↔
      ∀ i e, events[i]? = some e → Proper (run (events.take i)) e := by
  constructor
  · intro counted i e here
    have before := (counted_iff_drift _).mp (counted i).1
    have after := (counted_iff_drift _).mp (counted (i + 1)).1
    rw [take_succ_of here, drift_step] at after
    rw [proper_iff]
    omega
  · intro proper i
    refine ⟨?_, held_run _⟩
    rw [counted_iff_drift]
    induction i with
    | zero => rfl
    | succ i ih =>
      cases here : events[i]? with
      | none =>
        rw [List.take_of_length_le (by rw [List.getElem?_eq_none_iff] at here; omega)]
        rw [List.take_of_length_le (by rw [List.getElem?_eq_none_iff] at here; omega)] at ih
        exact ih
      | some e =>
        have none := (proper_iff _ _).mp (proper i e here)
        rw [take_succ_of here, drift_step]
        omega

/-- A peer that is inserted twice counts twice. -/
theorem inserted_twice : ¬ ∀ events : List (Event Nat Nat), ∀ i, Counted (run (events.take i)) ∧ Held (run (events.take i)) := by
  intro all
  have counted := (all [.insert 7 1 false, .insert 7 1 false] 2).1
  exact absurd counted (by decide)

end BubbleStorm.Durable.RoutingTable
