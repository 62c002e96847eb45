/-
  BubbleStorm.Managed.Completion — when a request to the storage peers is done (`allDone`
  and `requestRange` of `src/bubblestorm/managed/maintainer/frontend.sml`).

  The counter starts at the number of peers in the range. The walk hands the request to
  one peer after another, and each tells when it is through with it: while the walk is
  still under way, or later, or never. The peer that brings the counter to zero is the
  last one.

  The caller is told once, after the last of them, for every range with a peer in it, and
  never for one without (`requestRange_done_iff`).

  An insert, an update and a delete are told of in the same way: the kind of a request is
  only passed on.
-/

import BubbleStorm.Managed.Held
import BubbleStorm.Managed.StoragePoolProofs

namespace BubbleStorm.Managed.Completion

open BubbleStorm.Managed.StoragePool (Wf entries range range_spec)

inductive Note (σ : Type) where
  | completed (storage : StoragePeer σ)
  | done
  deriving DecidableEq, Repr

/-- A request under way: the walk has still to come to `it`. -/
structure T (δ σ β ι α : Type) where
  request : Request β ι α
  counter : Int
  it : List (δ × StoragePeer σ)
  /-- Sent and not completed. -/
  pending : List (StoragePeer σ)
  sent : List (StoragePeer σ × Request β ι α)
  notes : List (Note σ)

variable {δ σ β ι α : Type}

def allDone (it : List (δ × StoragePeer σ)) : Int := it.length

def doneOne (this : T δ σ β ι α) : T δ σ β ι α :=
  let counter := this.counter - 1
  if counter = 0 then { this with counter := counter, notes := this.notes ++ [.done] } else { this with counter := counter }

/-- `exec`, for the next peer of the walk. -/
def exec (this : T δ σ β ι α) : T δ σ β ι α :=
  match this.it with
  | [] => this
  | (_, storage) :: it =>
    { this with it := it, pending := this.pending ++ [storage], sent := this.sent ++ [(storage, this.request)] }

/-- The peer number `k` of those that were sent the request and are not through with it. -/
def complete (this : T δ σ β ι α) (k : Nat) : T δ σ β ι α :=
  match this.pending[k]? with
  | none => this
  | some storage =>
    doneOne { this with pending := this.pending.eraseIdx k, notes := this.notes ++ [.completed storage] }

def requestRange [Preorder δ] [DecidableLT δ] [LinearOrder σ] (pool : StoragePool.T δ σ) (request : Request β ι α)
    (start stop : δ) : Except Exn (T δ σ β ι α) := do
  let it ← range pool start stop
  return ⟨request, allDone it, it, [], [], []⟩

/-! ## Runs -/

inductive Event where
  /-- The walk goes on. -/
  | exec
  | complete (k : Nat)
  deriving DecidableEq, Repr

def step (this : T δ σ β ι α) : Event → T δ σ β ι α
  | .exec => exec this
  | .complete k => complete this k

def run (this : T δ σ β ι α) (events : List Event) : T δ σ β ι α := events.foldl step this

/-- Every peer was sent the request and is through with it. -/
def Finished (this : T δ σ β ι α) : Prop := this.it = [] ∧ this.pending = []

/-- The caller is told once, after the last completion, and not before. -/
def Told (this : T δ σ β ι α) : Prop :=
  (Finished this → ∃ l, this.notes = l ++ [.done] ∧ .done ∉ l) ∧ (¬ Finished this → .done ∉ this.notes)

/-- The counter is the number of peers that are not through with the request. -/
structure Inv (this : T δ σ β ι α) : Prop where
  counter : this.counter = this.it.length + this.pending.length
  told : Told this

theorem Finished.iff (this : T δ σ β ι α) : Finished this ↔ this.it.length + this.pending.length = 0 := by
  unfold Finished
  rw [← List.length_eq_zero_iff, ← List.length_eq_zero_iff]
  omega

variable {this : T δ σ β ι α}

theorem Inv.exec (inv : Inv this) : Inv (exec this) := by
  unfold Completion.exec
  cases here : this.it with
  | nil => exact inv
  | cons e it =>
    have busy : ¬ Finished this := by
      intro finished
      rw [finished.1] at here
      cases here
    have counter := inv.counter
    rw [here] at counter
    refine ⟨?_, ?_, ?_⟩
    · simp only [counter, List.length_cons, List.length_append, List.length_nil]
      omega
    · intro finished
      have := finished.2
      simp at this
    · exact fun _ => inv.told.2 busy

theorem Inv.complete (inv : Inv this) (k : Nat) : Inv (complete this k) := by
  unfold Completion.complete
  cases here : this.pending[k]? with
  | none => exact inv
  | some storage =>
    obtain ⟨lt, -⟩ := List.getElem?_eq_some_iff.mp here
    have busy : ¬ Finished this := by
      rw [Finished.iff]
      omega
    have fresh : Note.done ∉ this.notes ++ [.completed storage] := by
      simpa using inv.told.2 busy
    have counter := inv.counter
    have rest : (this.pending.eraseIdx k).length = this.pending.length - 1 := List.length_eraseIdx_of_lt lt
    show Inv (doneOne _)
    unfold doneOne
    by_cases last : this.counter - 1 = 0
    · rw [if_pos last]
      refine ⟨by simp only; omega, fun _ => ⟨_, rfl, fresh⟩, ?_⟩
      intro open_
      rw [Finished.iff] at open_
      simp only at open_
      omega
    · rw [if_neg last]
      refine ⟨by simp only; omega, ?_, fun _ => fresh⟩
      intro finished
      rw [Finished.iff] at finished
      simp only at finished
      omega

theorem Inv.run (inv : Inv this) (events : List Event) : Inv (run this events) := by
  induction events generalizing this with
  | nil => exact inv
  | cons e events ih =>
    cases e with
    | exec => exact ih inv.exec
    | complete k => exact ih (inv.complete k)

/-- Without a peer there is nothing to complete. -/
theorem run_empty (none : this.it = []) (idle : this.pending = []) (events : List Event) : run this events = this := by
  induction events with
  | nil => rfl
  | cons e events ih =>
    have same : step this e = this := by
      cases e with
      | exec => simp [step, exec, none]
      | complete k => simp [step, complete, idle]
    rw [run, List.foldl_cons, same]
    exact ih

theorem told_iff (request : Request β ι α) (it : List (δ × StoragePeer σ)) (events : List Event) :
    Told (run ⟨request, allDone it, it, [], [], []⟩ events) ↔ it ≠ [] := by
  constructor
  · intro told same
    subst same
    rw [run_empty rfl rfl] at told
    obtain ⟨l, notes, -⟩ := told.1 ⟨rfl, rfl⟩
    simp at notes
  · intro some
    have start : Inv (⟨request, allDone it, it, [], [], []⟩ : T δ σ β ι α) :=
      ⟨(Int.add_zero _).symm, fun finished => absurd finished.1 some, fun _ => List.not_mem_nil⟩
    exact (start.run events).told

/-- The walk sends what `Frontend.requestRange` puts on the streams. -/
theorem run_exec (this : T δ σ β ι α) : (run this (List.replicate this.it.length .exec)).sent =
    this.sent ++ this.it.map fun e => (e.2, this.request) := by
  generalize here : this.it = it
  induction it generalizing this with
  | nil => simp [run]
  | cons e it ih =>
    have next : (exec this).it = it := by simp [exec, here]
    have sent : (exec this).sent = this.sent ++ [(e.2, this.request)] := by simp [exec, here]
    have request : (exec this).request = this.request := by simp [exec, here]
    rw [List.length_cons, List.replicate_succ]
    show (run (exec this) _).sent = _
    rw [ih (exec this) next, sent, request]
    simp

variable [Preorder δ] [DecidableLT δ] [LinearOrder σ]

theorem sends_logged {Size Stats : Type} (t t' : Frontend.T δ σ β ι α Size Stats) (request : Request β ι α) (start stop : δ)
    (done : Frontend.requestRange t request start stop = .ok t') : ∃ s, requestRange t.pool request start stop = .ok s ∧
      t'.log = t.log ++ (run s (List.replicate s.it.length .exec)).sent.map fun e => (e.1, .request e.2) := by
  unfold Frontend.requestRange at done
  unfold requestRange
  cases it : range t.pool start stop with
  | error x =>
    rw [it] at done
    cases done
  | ok it' =>
    rw [it] at done
    cases done
    refine ⟨_, rfl, ?_⟩
    rw [run_exec, Frontend.send_eq, List.nil_append, List.map_map]
    exact congrArg (t.log ++ ·) List.map_eq_flatMap.symm

variable [Std.Total (α := δ) (· ≤ ·)]

/-- For every order in which the peers get through with it, the caller of a request is told
once and after the last of them exactly when there is a peer in the range. -/
theorem requestRange_done_iff {pool : StoragePool.T δ σ} (wf : Wf pool) (request : Request β ι α) (start stop : δ)
    (events : List Event) : (∃ s, requestRange pool request start stop = .ok s ∧ Told (run s events)) ↔
      ∃ e ∈ entries pool, ¬ e.1 < start ∧ e.1 < stop := by
  have some_iff : ((entries pool).filter fun e => decide (¬ e.1 < start ∧ e.1 < stop)) ≠ [] ↔
      ∃ e ∈ entries pool, ¬ e.1 < start ∧ e.1 < stop := by
    rw [Ne, List.filter_eq_nil_iff]
    simp
  unfold requestRange
  rw [range_spec wf, ← some_iff, ← told_iff request _ events]
  constructor
  · intro ⟨s, made, told⟩
    cases made
    exact told
  · exact fun told => ⟨_, rfl, told⟩

theorem requestRange_done_iff_one : ∃ pool : StoragePool.T Nat Nat, StoragePool.add StoragePool.new 3 ⟨7, 0⟩ = .ok pool ∧
    ∃ s, requestRange pool (.delete 1 4 : Request Nat Nat Nat) 0 5 = .ok s ∧ Told (run s [.exec, .complete 0]) := by
  obtain ⟨pool, made, wf, perm⟩ := StoragePool.add_spec StoragePool.wf_new 3 (q := ⟨7, 0⟩) nofun
  refine ⟨pool, made, ?_⟩
  exact (requestRange_done_iff wf (.delete 1 4) 0 5 [.exec, .complete 0]).mpr
    ⟨(3, ⟨7, 0⟩), perm.symm.subset (List.mem_cons_self ..), by decide, by decide⟩

/-- Without a storage peer the caller waits for ever. -/
theorem nobody_told : ¬ ∀ (pool : StoragePool.T Nat Nat) (start stop : Nat) (events : List Event), Wf pool →
    ∃ s, requestRange pool (.delete 1 4 : Request Nat Nat Nat) start stop = .ok s ∧ Told (run s events) := by
  intro all
  obtain ⟨s, made, told⟩ := all StoragePool.new 0 5 [] StoragePool.wf_new
  have empty : requestRange (StoragePool.new : StoragePool.T Nat Nat) (.delete 1 4 : Request Nat Nat Nat) 0 5 =
      .ok ⟨.delete 1 4, 0, [], [], [], []⟩ := rfl
  rw [empty] at made
  cases made
  obtain ⟨l, notes, -⟩ := told.1 ⟨rfl, rfl⟩
  simp [run] at notes

end BubbleStorm.Managed.Completion
