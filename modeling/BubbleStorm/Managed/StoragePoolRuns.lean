/-
  BubbleStorm.Managed.StoragePoolRuns — the pool as it is left, also by operations that
  raise (`src/bubblestorm/managed/maintainer/storage-pool.sml`).

  The table is changed in place before the tree is put back, so an exception in between
  would leave the two apart. Proved: none occurs there. After any operations tree and
  table hold the same entries, only a service that is there already or is missing
  raises, and a range is the entries of its densities in their order (`storagePool_coherent`).
-/

import BubbleStorm.Managed.StoragePoolProofs

namespace BubbleStorm.Managed.StoragePool

open BubbleStorm.Util.Container
open BubbleStorm.Util.Container.Tree (toList)

variable {δ σ : Type} [Preorder δ] [DecidableLT δ] [LinearOrder σ]

/-! ## What is left behind -/

def addTo (this : T δ σ) (pos : δ) (storage : StoragePeer σ) : Except Exn Unit × T δ σ :=
  match Table.add this.lookup storage.service pos with
  | .error e => (.error e, this)
  | .ok lookup => (.ok (), ⟨Tree.insert less this.tree (pos, some storage.service) storage, lookup⟩)

def updateIn (this : T δ σ) (pos : δ) (storage : StoragePeer σ) : Except Exn Unit × T δ σ :=
  match get this storage.service with
  | .error e => (.error e, this)
  | .ok none => (.error .keyDoesNotExist, this)
  | .ok (some (oldPos, _)) =>
    match Table.update this.lookup storage.service pos with
    | .error e => (.error e, this)
    | .ok lookup =>
      match Tree.remove less this.tree (oldPos, some storage.service) with
      | .error e => (.error (.tree e), { this with lookup })
      | .ok (tree, oldEntry) =>
        if oldEntry.isSome then (.ok (), ⟨Tree.insert less tree (pos, some storage.service) storage, lookup⟩)
        else (.error (.fail "cannot update inconsistent tree"), { this with lookup })

def removeFrom (this : T δ σ) (storage : StoragePeer σ) : Except Exn Unit × T δ σ :=
  match Table.remove this.lookup storage.service with
  | .error e => (.error e, this)
  | .ok (lookup, pos) =>
    match Tree.remove less this.tree (pos, some storage.service) with
    | .error e => (.error (.tree e), { this with lookup })
    | .ok (tree, _) => (.ok (), ⟨tree, lookup⟩)

inductive Op (δ σ : Type) where
  | add (pos : δ) (storage : StoragePeer σ)
  | update (pos : δ) (storage : StoragePeer σ)
  | remove (storage : StoragePeer σ)

def step (p : T δ σ) : Op δ σ → Except Exn Unit × T δ σ
  | .add pos storage => addTo p pos storage
  | .update pos storage => updateIn p pos storage
  | .remove storage => removeFrom p storage

/-- The operations one after the other, whatever they raise. -/
def run (p : T δ σ) (ops : List (Op δ σ)) : T δ σ := ops.foldl (fun p op => (step p op).2) p

/-! ## Without an exception they are the operations -/

variable {p p' : T δ σ}

theorem addTo_ok {pos : δ} {q : StoragePeer σ} (h : add p pos q = .ok p') : addTo p pos q = (.ok (), p') := by
  unfold add at h
  unfold addTo
  cases hl : Table.add p.lookup q.service pos with
  | error e =>
    rw [hl] at h
    cases h
  | ok lookup =>
    rw [hl] at h
    cases h
    rfl

theorem updateIn_ok {pos : δ} {q : StoragePeer σ} (h : update p pos q = .ok p') : updateIn p pos q = (.ok (), p') := by
  unfold update at h
  unfold updateIn
  cases hg : get p q.service with
  | error e =>
    rw [hg] at h
    cases h
  | ok found =>
    rw [hg] at h
    cases found with
    | none => cases h
    | some old =>
      cases hl : Table.update p.lookup q.service pos with
      | error e =>
        simp only [bind, Except.bind, hl] at h
        cases h
      | ok lookup =>
        cases hr : Tree.remove less p.tree (old.1, some q.service) with
        | error e =>
          simp only [bind, Except.bind, hl, hr, Except.mapError] at h
          cases h
        | ok r =>
          simp only [bind, Except.bind, hl, hr, Except.mapError] at h
          split at h
          next hsome =>
            cases h
            dsimp only
            rw [hr]
            exact if_pos hsome
          next => cases h

theorem removeFrom_ok {q : StoragePeer σ} (h : remove p q = .ok p') : removeFrom p q = (.ok (), p') := by
  unfold remove at h
  unfold removeFrom
  cases hl : Table.remove p.lookup q.service with
  | error e =>
    rw [hl] at h
    cases h
  | ok r =>
    cases hr : Tree.remove less p.tree (r.2, some q.service) with
    | error e =>
      simp only [bind, Except.bind, hl, hr, Except.mapError] at h
      cases h
    | ok r' =>
      simp only [bind, Except.bind, hl, hr, Except.mapError] at h
      cases h
      dsimp only
      rw [hr]

/-! ## Steps -/

/-- The service of the operation is in the pool. -/
def Known (p : T δ σ) (service : σ) : Prop := ∃ e ∈ entries p, e.2.service = service

/-- What an operation gives: only a service that is there already, or is missing, raises. -/
def Answer (p : T δ σ) : Op δ σ → Except Exn Unit → Prop
  | .add _ storage, answer => (Known p storage.service ∧ answer = .error .keyExists) ∨ (¬ Known p storage.service ∧ answer = .ok ())
  | .update _ storage, answer => (Known p storage.service ∧ answer = .ok ()) ∨ (¬ Known p storage.service ∧ answer = .error .keyDoesNotExist)
  | .remove storage, answer => (Known p storage.service ∧ answer = .ok ()) ∨ (¬ Known p storage.service ∧ answer = .error .keyDoesNotExist)

/-- What an operation that raises nothing does to the entries. -/
def Effect (p p' : T δ σ) : Op δ σ → Prop
  | .add pos storage => (entries p').Perm ((pos, storage) :: entries p)
  | .update pos storage => ∃ o rest, o.2.service = storage.service ∧ (entries p).Perm (o :: rest) ∧
      (entries p').Perm ((pos, storage) :: rest)
  | .remove storage => ∃ o, o.2.service = storage.service ∧ (entries p).Perm (o :: entries p')

theorem Wf.lookup_none (h : Wf p) {s : σ} (hs : ¬ Known p s) : p.lookup.lookup s = none := by
  refine h.files.none_of fun e he heq => hs ⟨_, mem_entries.mpr ⟨e, he, rfl, rfl⟩, heq⟩

variable [Std.Total (α := δ) (· ≤ ·)]

theorem step_spec (h : Wf p) (op : Op δ σ) : Answer p op (step p op).1 ∧ Wf (step p op).2 ∧
    (∀ e, (step p op).1 = .error e → (step p op).2 = p) ∧ ((step p op).1 = .ok () → Effect p (step p op).2 op) := by
  cases op with
  | add pos q =>
    by_cases hq : Known p q.service
    · obtain ⟨⟨d, q'⟩, he, hs⟩ := hq
      obtain ⟨e, hmem, -, rfl⟩ := mem_entries.mp he
      have hlookup : p.lookup.lookup q.service = some e.1.1 := by
        rw [← hs]
        exact (h.files.filed e hmem).2
      have hin : q.service ∈ p.lookup := AList.lookup_isSome.mp (by rw [hlookup]; rfl)
      have hstep : step p (.add pos q) = (.error .keyExists, p) := by
        unfold step addTo Table.add
        dsimp only
        rw [if_pos hin]
      rw [hstep]
      exact ⟨.inl ⟨⟨_, he, hs⟩, rfl⟩, h, fun _ _ => rfl, nofun⟩
    · obtain ⟨p', hp', hwf, hperm⟩ := add_spec h pos (q := q) fun e he hs => hq ⟨e, he, hs⟩
      have hstep : step p (.add pos q) = (.ok (), p') := addTo_ok hp'
      rw [hstep]
      exact ⟨.inr ⟨hq, rfl⟩, hwf, nofun, fun _ => hperm⟩
  | update pos q =>
    by_cases hq : Known p q.service
    · obtain ⟨o, ho, hs⟩ := hq
      obtain ⟨p', rest, hp', hwf, hold, hnew⟩ := update_spec h ho pos hs
      have hstep : step p (.update pos q) = (.ok (), p') := updateIn_ok hp'
      rw [hstep]
      exact ⟨.inl ⟨⟨o, ho, hs⟩, rfl⟩, hwf, nofun, fun _ => ⟨o, rest, hs, hold, hnew⟩⟩
    · have hget : get p q.service = .ok none := by
        unfold get
        rw [h.lookup_none hq]
      have hstep : step p (.update pos q) = (.error .keyDoesNotExist, p) := by
        unfold step updateIn
        dsimp only
        rw [hget]
      rw [hstep]
      exact ⟨.inr ⟨hq, rfl⟩, h, fun _ _ => rfl, nofun⟩
  | remove q =>
    by_cases hq : Known p q.service
    · obtain ⟨o, ho, hs⟩ := hq
      obtain ⟨p', hp', hwf, hperm⟩ := remove_spec h ho hs
      have hstep : step p (.remove q) = (.ok (), p') := removeFrom_ok hp'
      rw [hstep]
      exact ⟨.inl ⟨⟨o, ho, hs⟩, rfl⟩, hwf, nofun, fun _ => ⟨o, hs, hperm⟩⟩
    · have hstep : step p (.remove q) = (.error .keyDoesNotExist, p) := by
        unfold step removeFrom Table.remove
        dsimp only
        rw [h.lookup_none hq]
      rw [hstep]
      exact ⟨.inr ⟨hq, rfl⟩, h, fun _ _ => rfl, nofun⟩

theorem run_wf (h : Wf p) (ops : List (Op δ σ)) : Wf (run p ops) := by
  induction ops generalizing p with
  | nil => exact h
  | cons op ops ih => exact ih (step_spec h op).2.1

/-! ## Coherence -/

/-- Tree and table hold the same entries, and each service once. -/
structure Coherent (p : T δ σ) : Prop where
  same : ∀ (s : σ) (d : δ), p.lookup.lookup s = some d ↔ ∃ q, ((d, some s), q) ∈ toList p.tree
  own : ∀ e ∈ toList p.tree, e.1.2 = some e.2.service
  once : ((toList p.tree).map fun e => e.2.service).Nodup

omit [Std.Total (α := δ) (· ≤ ·)] in
theorem Wf.coherent (h : Wf p) : Coherent p where
  same := by
    intro s d
    constructor
    · intro hd
      obtain ⟨e, he, rfl⟩ := h.files.found s d hd
      obtain ⟨hkey, hfiled⟩ := h.files.filed e he
      have hsame : e.1.1 = d := Option.some.inj (hfiled.symm.trans hd)
      refine ⟨e.2, ?_⟩
      rw [← hsame, ← hkey]
      exact he
    · rintro ⟨q, hq⟩
      obtain ⟨hkey, hfiled⟩ := h.files.filed _ hq
      have hs : s = q.service := Option.some.inj hkey
      rw [hs]
      exact hfiled
  own := fun e he => (h.files.filed e he).1
  once := h.files.nodup

/-- The entries come in the order of their densities. -/
theorem entries_sorted (h : Wf p) : (entries p).Pairwise fun a b => a.1 ≤ b.1 := by
  unfold entries
  rw [List.pairwise_map]
  exact h.valid.sorted.imp fun hab => (less_false.mp hab).1

/-- A range: the entries of its densities, in their order. -/
structure Ranged (p : T δ σ) (start stop : δ) (l : List (δ × StoragePeer σ)) : Prop where
  mem : ∀ e, e ∈ l ↔ e ∈ entries p ∧ start ≤ e.1 ∧ e.1 < stop
  once : (l.map fun e => e.2.service).Nodup
  sorted : l.Pairwise fun a b => a.1 ≤ b.1

theorem range_ranged (h : Wf p) (start stop : δ) : ∃ l, range p start stop = .ok l ∧ Ranged p start stop l := by
  refine ⟨_, range_spec h start stop, ⟨?_, ?_, ?_⟩⟩
  · intro e
    rw [List.mem_filter, decide_eq_true_iff]
    constructor
    · rintro ⟨he, hstart, hstop⟩
      exact ⟨he, le_of_not_lt hstart, hstop⟩
    · rintro ⟨he, hstart, hstop⟩
      exact ⟨he, not_lt_of_ge hstart, hstop⟩
  · exact h.nodup.sublist ((List.filter_sublist).map _)
  · exact (entries_sorted h).filter _

/-- After any operations, and at the next one. -/
theorem storagePool_coherent (before : List (Op δ σ)) (op : Op δ σ) :
    let p := run (new : T δ σ) before
    Coherent p ∧ Answer p op (step p op).1 ∧ (∀ e, (step p op).1 = .error e → (step p op).2 = p) ∧
      ((step p op).1 = .ok () → Effect p (step p op).2 op) ∧
      (∀ s, (Known p s ∧ ∃ e ∈ entries p, e.2.service = s ∧ get p s = .ok (some e)) ∨ (¬ Known p s ∧ get p s = .ok none)) ∧
      ∀ start stop, ∃ l, range p start stop = .ok l ∧ Ranged p start stop l := by
  intro p
  have h : Wf p := run_wf wf_new before
  obtain ⟨hanswer, -, hsame, heffect⟩ := step_spec h op
  refine ⟨h.coherent, hanswer, hsame, heffect, ?_, range_ranged h⟩
  intro s
  rcases get_spec h s with ⟨hnone, hno⟩ | ⟨e, he, hes, hget⟩
  · exact .inr ⟨fun ⟨e, he, hes⟩ => hno e he hes, hnone⟩
  · exact .inl ⟨⟨e, he, hes⟩, e, he, hes, hget⟩

/-- Two peers of one density; the second moves up, and is not added again. -/
theorem storagePool_coherent_two : Coherent (run (new : T Nat Nat) [.add 5 ⟨1, 0⟩, .add 5 ⟨2, 0⟩, .update 7 ⟨2, 1⟩]) ∧
    (step (run (new : T Nat Nat) [.add 5 ⟨1, 0⟩, .add 5 ⟨2, 0⟩, .update 7 ⟨2, 1⟩]) (.add 9 ⟨2, 2⟩)).1 = .error .keyExists := by
  obtain ⟨hcoherent, hanswer, -⟩ := storagePool_coherent [.add 5 ⟨1, 0⟩, .add 5 ⟨2, 0⟩, .update 7 ⟨2, 1⟩] (.add (9 : Nat) (⟨2, 2⟩ : StoragePeer Nat))
  refine ⟨hcoherent, ?_⟩
  rcases hanswer with ⟨-, hraised⟩ | ⟨hnot, -⟩
  · exact hraised
  · refine absurd ⟨(7, ⟨2, 1⟩), ?_, rfl⟩ hnot
    decide

end BubbleStorm.Managed.StoragePool
