/-
  BubbleStorm.Managed.PhaseProgress — how an entry of the storage pool gets old
  (`src/bubblestorm/managed/maintainer/density-position.sml`, with `onRoundSwitch` of
  `src/bubblestorm/managed/maintainer/frontend.sml`).

  A density is a position, the degree sum it was measured at, and a phase that goes from
  NEW over UPDATED to STABLE, one step at a round switch. But a round switch files an
  entry anew only if its density has changed, and the comparison of densities does not see
  the phase. So an entry goes on to the next phase only at a round that moves it
  (`moves`): the degree sum has grown, and the position is not zero.

  After two rounds every entry is STABLE exactly if two rounds have moved it
  (`stable_iff`).

  `Real64.real` is any linear order with a division: there is no number that is not one.
-/

import Mathlib.Algebra.Field.Basic
import Mathlib.Data.List.Induction
import BubbleStorm.Lib.Outcome
import BubbleStorm.Managed.Replication

namespace BubbleStorm.Managed

open BubbleStorm.Managed.StoragePool (Wf entries)

/-! ## Densities -/

structure Density (R : Type) where
  pos : R
  D1 : R
  phase : Phase
  deriving DecidableEq, Repr

namespace Density

variable {R : Type} [LinearOrder R] [Div R]

def toReal64 (d : Density R) : R := d.pos / d.D1

/-- `compare` does not look at the phase. -/
instance : Preorder (Density R) := Preorder.lift toReal64

instance : DecidableLT (Density R) := fun a b => inferInstanceAs (Decidable (toReal64 a < toReal64 b))

instance : Std.Total (α := Density R) (· ≤ ·) where
  total a b := le_total (toReal64 a) (toReal64 b)

theorem lt_iff (a b : Density R) : a < b ↔ a.toReal64 < b.toReal64 := Iff.rfl

variable [Mul R] [IntCast R] (floor : R → Int)

/-- `d1` is what `getD1` measures. -/
def new (d1 : R) (pos : Int) (capacity theirD1 : R) : Density R := ⟨(pos : R) / capacity, max theirD1 d1, .new⟩

def update (d1 : R) (d : Density R) : Density R :=
  match d.phase with
  | .new => ⟨d.pos, max d.D1 d1, .updated⟩
  | .updated => ⟨d.pos, max d.D1 d1, .stable⟩
  | .stable => d

/-- The structure, for bubble sizes that are numbers and statistics that are a degree sum. -/
def densities : Densities (Density R) Int R where
  minVal := ⟨((0 : Int) : R), ((1 : Int) : R), .stable⟩
  maxVal := ⟨((1 : Int) : R), ((1 : Int) : R), .stable⟩
  bubbleSize size d1 := ⟨(size : R), d1, .new⟩
  update := update
  phase d := d.phase
  toPosition d1 d := floor (d.pos * d1 / d.D1)
  fromPosition d1 pos := new d1 pos ((1 : Int) : R) ((0 : Int) : R)

/-- The degree sum of the round moves the density. -/
def moves (d1 : R) (d : Density R) : Bool := decide (d.pos / max d.D1 d1 ≠ d.toReal64)

/-- With exact numbers: the sum has grown, and the position is not zero. -/
theorem moves_iff {R : Type} [Field R] [LinearOrder R] (d1 : R) (d : Density R) :
    d.moves d1 = true ↔ d.pos ≠ 0 ∧ d.D1 < d1 := by
  rw [moves, decide_eq_true_eq, toReal64]
  by_cases zero : d.pos = 0
  · simp [zero]
  · rw [Ne, div_eq_mul_inv, div_eq_mul_inv, mul_right_inj' zero, inv_inj, max_eq_left_iff, not_le]
    exact ⟨fun grown => ⟨zero, grown⟩, fun h => h.2⟩

end Density

/-! ## What a step does to the pool -/

namespace Frontend

variable {δ σ β ι α Size Stats : Type} [Preorder δ] [DecidableLT δ] [LinearOrder σ]
variable {D : Densities δ Size Stats} {t t' : T δ σ β ι α Size Stats} {q : StoragePeer σ}

/-- The service that an event registers, or registers again, and the density it is filed under. -/
def registers (t : T δ σ β ι α Size Stats) : Event δ σ β ι α Size Stats → Option (σ × δ)
  | .offer service density filter =>
    if filter t.bucket then
      match StoragePool.get t.pool service with
      | .ok (some (old, _)) => if density < old then some (service, density) else none
      | _ => none
    else none
  | .connected i =>
    match t.connecting[i]? with
    | none => none
    | some (service, density) =>
      match StoragePool.get t.pool service with
      | .ok none => some (service, density)
      | .ok (some (old, _)) => if density < old then some (service, density) else none
      | .error _ => none
  | _ => none

/-- The measurement that an event calls `onRoundSwitch` with. -/
def switches (t : T δ σ β ι α Size Stats) : Event δ σ β ι α Size Stats → Option Stats
  | .round stats _ _ => if t.types.isEmpty || t.status != .online then none else some stats
  | _ => none

/-- Peers have left the pool, and nothing else has changed. -/
structure Fewer (p p' : StoragePool.T δ σ) : Prop where
  wf : Wf p'
  sub : ∀ e ∈ entries p', e ∈ entries p

theorem Fewer.refl {p : StoragePool.T δ σ} (wf : Wf p) : Fewer p p := ⟨wf, fun _ mem => mem⟩

theorem Fewer.trans {p₁ p₂ p₃ : StoragePool.T δ σ} (first : Fewer p₁ p₂) (second : Fewer p₂ p₃) : Fewer p₁ p₃ :=
  ⟨second.wf, fun e mem => first.sub e (second.sub e mem)⟩

/-- A step that only takes peers out. -/
structure Gone (t t' : T δ σ β ι α Size Stats) : Prop where
  pool : Wf t.pool → Fewer t.pool t'.pool
  connecting : t'.connecting = t.connecting

theorem Gone.refl (t : T δ σ β ι α Size Stats) : Gone t t := ⟨.refl, rfl⟩

theorem Gone.trans {t₁ t₂ t₃ : T δ σ β ι α Size Stats} (first : Gone t₁ t₂) (second : Gone t₂ t₃) : Gone t₁ t₃ where
  pool wf := (first.pool wf).trans (second.pool (first.pool wf).wf)
  connecting := second.connecting.trans first.connecting

theorem gone_foldlM {X : Type} {g : T δ σ β ι α Size Stats → X → Except Exn (T δ σ β ι α Size Stats)}
    (each : ∀ t t' x, g t x = .ok t' → Gone t t') (xs : List X) : ∀ t t', xs.foldlM g t = .ok t' → Gone t t' := by
  induction xs with
  | nil =>
    intro t t' done
    cases done
    exact .refl t
  | cons x xs ih =>
    intro t t' done
    rw [List.foldlM_cons] at done
    obtain ⟨t₁, first, rest⟩ := Lib.bind_eq_ok.mp done
    exact (each t t₁ x first).trans (ih t₁ t' rest)

theorem gone_request {bubble : BubbleType β ι α Size} {request : Request β ι α}
    (done : Frontend.request D t bubble request = .ok t') : Gone t t' := by
  obtain ⟨it, -, rest⟩ := Lib.bind_eq_ok.mp done
  rw [send_eq] at rest
  cases rest
  exact ⟨.refl, rfl⟩

/-- What is filed for a service, and what of the rest is left. -/
structure Refiled (p : StoragePool.T δ σ) (service : σ) (density : δ) (p' : StoragePool.T δ σ) : Prop where
  wf : Wf p'
  same : ∀ e ∈ entries p', e.2.service = service → e.1 = density
  other : ∀ e ∈ entries p', e.2.service ≠ service → e ∈ entries p

theorem Fewer.refiled {p₁ p₂ p₃ : StoragePool.T δ σ} {service : σ} {density : δ} (first : Fewer p₁ p₂)
    (second : Refiled p₂ service density p₃) : Refiled p₁ service density p₃ :=
  ⟨second.wf, second.same, fun e mem ne => first.sub e (second.other e mem ne)⟩

theorem refiled_cons {p' : StoragePool.T δ σ} (wf : Wf p') {p : StoragePool.T δ σ} {rest : List (δ × StoragePeer σ)} {d : δ}
    (perm : (entries p').Perm ((d, q) :: rest)) (sub : ∀ e ∈ rest, e ∈ entries p) : Refiled p q.service d p' where
  wf := wf
  same := by
    intro e mem service
    rw [wf.unique mem (perm.symm.subset (List.mem_cons_self ..)) service]
  other := by
    intro e mem ne
    rcases List.mem_cons.mp (perm.subset mem) with rfl | mem
    · exact absurd rfl ne
    · exact sub e mem

variable [Std.Total (α := δ) (· ≤ ·)]

theorem fewer_remove {p p' : StoragePool.T δ σ} (wf : Wf p) (done : StoragePool.remove p q = .ok p') : Fewer p p' := by
  cases found : p.lookup.lookup q.service with
  | none =>
    simp only [StoragePool.remove, Table.remove, found] at done
    cases done
  | some d =>
    obtain ⟨e, mem, service⟩ := wf.files.found q.service d found
    obtain ⟨p₁, removed, wf₁, perm⟩ :=
      StoragePool.remove_spec wf (StoragePool.mem_entries.mpr ⟨e, mem, rfl, rfl⟩) (q := q) service
    rw [removed] at done
    cases done
    exact ⟨wf₁, fun x here => perm.symm.subset (List.mem_cons_of_mem _ here)⟩

theorem gone_die (done : die t q = .ok t') : Gone t t' := by
  unfold die at done
  split at done
  · cases done
    exact .refl t
  · simp only at done
    split at done
    · obtain ⟨p, removed, rest⟩ := Lib.bind_eq_ok.mp done
      cases rest
      exact ⟨fun wf => fewer_remove wf removed, rfl⟩
    · cases done
      exact ⟨.refl, rfl⟩

/-- What is sent before does not matter. -/
theorem gone_quit {l : Log σ β ι α} (done : quit (t.logged l) q = .ok t') : Gone t t' := by
  have gone := gone_die (t := enqueue (t.logged l) q .shutdown) done
  exact ⟨gone.pool, gone.connecting⟩

theorem gone_leave (done : leave D t = .ok t') : Gone t t' := by
  unfold leave at done
  simp only at done
  split at done
  · cases done
    exact ⟨.refl, rfl⟩
  · obtain ⟨it, -, rest⟩ := Lib.bind_eq_ok.mp done
    have gone := gone_foldlM (g := fun this e => leavePeer D this e.1 e.2) (fun t t' e left => by
      unfold leavePeer at left
      rw [sendItems_eq] at left
      exact gone_quit left) it { t with status := .leaving } t' rest
    exact ⟨gone.pool, gone.connecting⟩

theorem gone_truncateStorage {pos : Int} (done : truncateStorage D t pos = .ok t') : Gone t t' := by
  obtain ⟨surplus, -, rest⟩ := Lib.bind_eq_ok.mp done
  exact gone_foldlM (g := fun this (e : δ × StoragePeer σ) => quit this e.2) (fun t t' e quits => by
    rw [← t.logged_nil] at quits
    exact gone_quit quits) _ t t' rest

theorem refiled_update {p p' : StoragePool.T δ σ} (wf : Wf p) {d : δ} (done : StoragePool.update p d q = .ok p') :
    Refiled p q.service d p' := by
  rcases StoragePool.get_spec wf q.service with ⟨none, -⟩ | ⟨o, mem, service, -⟩
  · simp only [StoragePool.update, none] at done
    cases done
  · obtain ⟨p₁, rest, updated, wf₁, perm, perm₁⟩ := StoragePool.update_spec wf mem d service
    rw [updated] at done
    cases done
    exact refiled_cons wf₁ perm₁ fun e here => perm.symm.subset (List.mem_cons_of_mem _ here)

theorem refiled_updateDensity {new old : δ} (wf : Wf t.pool) (done : updateDensity D t q new old = .ok t') :
    Refiled t.pool q.service new t'.pool := by
  obtain ⟨p, updated, rest⟩ := Lib.bind_eq_ok.mp done
  simp only [sendItems_eq] at rest
  cases rest
  exact refiled_update wf updated

omit [Std.Total (α := δ) (· ≤ ·)] in
theorem updateDensity_connecting {new old : δ} (done : updateDensity D t q new old = .ok t') :
    t'.connecting = t.connecting := by
  obtain ⟨p, updated, rest⟩ := Lib.bind_eq_ok.mp done
  simp only [sendItems_eq] at rest
  cases rest
  rfl

theorem get_service {p : StoragePool.T δ σ} (wf : Wf p) {service : σ} {d : δ} (got : StoragePool.get p service = .ok (some (d, q))) :
    q.service = service := by
  rcases StoragePool.get_spec wf service with ⟨none, -⟩ | ⟨o, -, same, some⟩
  · rw [none] at got
    cases got
  · rw [some] at got
    cases got
    exact same

/-- The densities after a step. -/
def Filed (D : Densities δ Size Stats) (t t' : T δ σ β ι α Size Stats) (e : Event δ σ β ι α Size Stats) : Prop :=
  match registers t e with
  | some (service, density) => Refiled t.pool service density t'.pool
  | none =>
    match switches t e with
    | none => Fewer t.pool t'.pool
    | some stats =>
      Wf t'.pool ∧ ∀ x ∈ entries t'.pool, ∃ y ∈ entries t.pool, x = (settled ⟨y.2, D.update stats y.1, y.1⟩, y.2)

theorem filed_offer {service : σ} {density : δ} {filter : Bool → Bool} (wf : Wf t.pool)
    (done : addStorage D t service density filter = .ok t') : Filed D t t' (.offer service density filter) := by
  unfold addStorage at done
  unfold Filed
  simp only [registers, switches]
  cases kind : filter t.bucket with
  | false =>
    simp only [kind] at done
    cases done
    exact .refl wf
  | true =>
    simp only [kind, not_true, if_false] at done
    obtain ⟨found, got, rest⟩ := Lib.bind_eq_ok.mp done
    rw [got]
    cases found with
    | none =>
      cases rest
      exact .refl wf
    | some found =>
      obtain ⟨old, storage⟩ := found
      simp only at rest ⊢
      by_cases better : density < old
      · rw [if_neg (not_not_intro better)] at rest
        rw [if_pos better]
        have := refiled_updateDensity wf rest
        rw [get_service wf got] at this
        exact this
      · rw [if_pos better] at rest
        cases rest
        rw [if_neg better]
        exact .refl wf

theorem filed_connected {i : Nat} {service : σ} {density : δ} (here : t.connecting[i]? = some (service, density))
    (wf : Wf t.pool) (done : onNewStorage D { t with connecting := t.connecting.eraseIdx i, streams := t.streams + 1 } density
      ⟨service, t.streams⟩ = .ok t') : Filed D t t' (.connected i) := by
  unfold Filed
  simp only [registers, switches, here]
  obtain ⟨found, got, rest⟩ := Lib.bind_eq_ok.mp done
  simp only at got
  rw [got]
  cases found with
  | none =>
    simp only at rest ⊢
    obtain ⟨p, added, rest⟩ := Lib.bind_eq_ok.mp rest
    simp only [sendItems_eq] at rest
    cases rest
    rcases StoragePool.get_spec wf service with ⟨-, fresh⟩ | ⟨o, -, -, some⟩
    · obtain ⟨p₁, added₁, wf₁, perm⟩ := StoragePool.add_spec wf density (q := ⟨service, t.streams⟩) fresh
      rw [added] at added₁
      cases added₁
      exact refiled_cons wf₁ perm fun e mem => mem
    · rw [some] at got
      cases got
  | some found =>
    obtain ⟨old, storage⟩ := found
    simp only at rest ⊢
    obtain ⟨t₁, quits, rest⟩ := Lib.bind_eq_ok.mp rest
    rw [← T.logged_nil (t := { t with connecting := t.connecting.eraseIdx i, streams := t.streams + 1 })] at quits
    have fewer : Fewer t.pool t₁.pool := (gone_quit quits).pool wf
    by_cases better : density < old
    · rw [if_neg (not_not_intro better)] at rest
      rw [if_pos better]
      have := fewer.refiled (refiled_updateDensity fewer.wf rest)
      rw [get_service wf got] at this
      exact this
    · rw [if_pos better] at rest
      cases rest
      rw [if_neg better]
      exact fewer

theorem filed_round {stats : Stats} {size : β → Size} {targetSize : Int} (wf : Wf t.pool)
    (done : round D t stats size targetSize = .ok t') : Filed D t t' (.round stats size targetSize) := by
  unfold round at done
  unfold Filed
  simp only [registers, switches]
  simp only [List.isEmpty_map] at done
  by_cases skip : (t.types.isEmpty || t.status != .online) = true
  · rw [if_pos skip] at done ⊢
    cases done
    exact .refl wf
  · rw [if_neg skip] at done ⊢
    obtain ⟨it, walked, rest⟩ := Lib.bind_eq_ok.mp done
    rw [show StoragePool.iterator _ = .ok (entries t.pool) from StoragePool.iterator_spec wf] at walked
    cases walked
    obtain ⟨p, moved, rest⟩ := Lib.bind_eq_ok.mp rest
    let changes := (entries t.pool).map (getChange D (measured t stats size))
    let sent := changes.foldl (updatePos D) { measured t stats size with pool := p }
    change truncateStorage D (sent.types.foldl (fun t bubble => adjustBubble D t changes bubble) sent) targetSize = .ok t' at rest
    have still : (sent.types.foldl (fun t bubble => adjustBubble D t changes bubble) sent).pool = p := by
      rw [adjustBubbles_eq, T.logged_pool, show sent = _ from updatePos_eq D changes, T.logged_pool]
    have files : (entries t.pool).Perm (changes.map (fun c => (c.old, c.storage)) ++ []) := by
      rw [List.append_nil, List.map_map]
      exact List.Perm.of_eq (List.map_id _).symm
    obtain ⟨p₁, moved₁, wf₁, perm⟩ := updatePool_spec wf changes files
    rw [show updatePool t.pool changes = .ok p from moved] at moved₁
    cases moved₁
    have fewer : Fewer p t'.pool := by
      have := (gone_truncateStorage rest).pool (by rw [still]; exact wf₁)
      rw [still] at this
      exact this
    refine ⟨fewer.wf, ?_⟩
    intro x mem
    rw [List.append_nil] at perm
    obtain ⟨c, change, rfl⟩ := List.mem_map.mp (perm.subset (fewer.sub x mem))
    obtain ⟨y, here, rfl⟩ := List.mem_map.mp change
    exact ⟨y, here, rfl⟩

omit [Std.Total (α := δ) (· ≤ ·)] in
theorem filed_same {e : Event δ σ β ι α Size Stats} (quiet : registers t e = none) (still : switches t e = none)
    (fewer : Fewer t.pool t'.pool) : Filed D t t' e := by
  unfold Filed
  rw [quiet, still]
  exact fewer

variable [DecidableEq β]

omit [Std.Total (α := δ) (· ≤ ·)] in
theorem filed_request {e : Event δ σ β ι α Size Stats} {bubble : BubbleType β ι α Size} {request : Request β ι α} {typeId : β}
    {cache : Table ι α} (wf : Wf t.pool) (quiet : registers t e = none) (still : switches t e = none)
    (done : Frontend.request D (setCache t typeId cache) bubble request = .ok t') : Filed D t t' e :=
  filed_same quiet still ((gone_request done).pool wf)

variable [DecidableEq ι]

theorem filed_step {e : Event δ σ β ι α Size Stats} (wf : Wf t.pool) (done : step D t e = .ok t') : Filed D t t' e := by
  cases e with
  | register typeId size =>
    simp only [step, register] at done
    split at done
    · cases done
    · cases done
      exact filed_same rfl rfl (.refl wf)
  | insert typeId id data =>
    obtain ⟨bubble, -, rest⟩ := Lib.bind_eq_ok.mp done
    obtain ⟨cache, -, rest⟩ := Lib.bind_eq_ok.mp rest
    exact filed_request wf rfl rfl rest
  | update typeId id data =>
    obtain ⟨bubble, -, rest⟩ := Lib.bind_eq_ok.mp done
    obtain ⟨cache, -, rest⟩ := Lib.bind_eq_ok.mp rest
    exact filed_request wf rfl rfl rest
  | delete typeId id =>
    obtain ⟨bubble, -, rest⟩ := Lib.bind_eq_ok.mp done
    obtain ⟨cache, -, rest⟩ := Lib.bind_eq_ok.mp rest
    exact filed_request wf rfl rfl rest
  | offer service density filter => exact filed_offer wf done
  | connected i =>
    simp only [step] at done
    cases here : t.connecting[i]? with
    | none =>
      rw [here] at done
      cases done
      exact filed_same (by simp [registers, here]) rfl (.refl wf)
    | some c =>
      obtain ⟨service, density⟩ := c
      rw [here] at done
      exact filed_connected here wf done
  | died storage =>
    simp only [step] at done
    split at done
    · exact filed_same rfl rfl ((gone_die done).pool wf)
    · cases done
      exact filed_same rfl rfl (.refl wf)
  | round stats size targetSize => exact filed_round wf done
  | status status =>
    cases done
    exact filed_same rfl rfl (.refl wf)
  | leave => exact filed_same rfl rfl ((gone_leave done).pool wf)

/-- Where a registration under way comes from. -/
theorem connecting_step {e : Event δ σ β ι α Size Stats} (done : step D t e = .ok t') : ∀ c ∈ t'.connecting,
    c ∈ t.connecting ∨ ∃ service density filter, e = .offer service density filter ∧ c = (service, density) := by
  cases e with
  | register typeId size =>
    simp only [step, register] at done
    split at done
    · cases done
    · cases done
      exact fun c mem => .inl mem
  | insert typeId id data =>
    obtain ⟨bubble, -, rest⟩ := Lib.bind_eq_ok.mp done
    obtain ⟨cache, -, rest⟩ := Lib.bind_eq_ok.mp rest
    exact fun c mem => .inl ((gone_request rest).connecting ▸ mem)
  | update typeId id data =>
    obtain ⟨bubble, -, rest⟩ := Lib.bind_eq_ok.mp done
    obtain ⟨cache, -, rest⟩ := Lib.bind_eq_ok.mp rest
    exact fun c mem => .inl ((gone_request rest).connecting ▸ mem)
  | delete typeId id =>
    obtain ⟨bubble, -, rest⟩ := Lib.bind_eq_ok.mp done
    obtain ⟨cache, -, rest⟩ := Lib.bind_eq_ok.mp rest
    exact fun c mem => .inl ((gone_request rest).connecting ▸ mem)
  | offer service density filter =>
    simp only [step, addStorage] at done
    split at done
    · cases done
      exact fun c mem => .inl mem
    · obtain ⟨found, -, rest⟩ := Lib.bind_eq_ok.mp done
      cases found with
      | none =>
        cases rest
        intro c mem
        rcases List.mem_append.mp mem with mem | mem
        · exact .inl mem
        · exact .inr ⟨service, density, filter, rfl, List.mem_singleton.mp mem⟩
      | some found =>
        simp only at rest
        split at rest
        · cases rest
          exact fun c mem => .inl mem
        · exact fun c mem => .inl (updateDensity_connecting rest ▸ mem)
  | connected i =>
    simp only [step] at done
    cases here : t.connecting[i]? with
    | none =>
      rw [here] at done
      cases done
      exact fun c mem => .inl mem
    | some c =>
      rw [here] at done
      obtain ⟨found, -, rest⟩ := Lib.bind_eq_ok.mp done
      have kept : t'.connecting = t.connecting.eraseIdx i := by
        cases found with
        | none =>
          obtain ⟨p, -, rest⟩ := Lib.bind_eq_ok.mp rest
          simp only [sendItems_eq] at rest
          cases rest
          rfl
        | some found =>
          obtain ⟨t₁, quits, rest⟩ := Lib.bind_eq_ok.mp rest
          rw [← T.logged_nil (t := { t with connecting := t.connecting.eraseIdx i, streams := t.streams + 1 })] at quits
          have first := (gone_quit quits).connecting
          split at rest
          · cases rest
            exact first
          · exact (updateDensity_connecting rest).trans first
      exact fun c mem => .inl ((List.eraseIdx_sublist _ _).subset (kept ▸ mem))
  | died storage =>
    simp only [step] at done
    split at done
    · exact fun c mem => .inl ((gone_die done).connecting ▸ mem)
    · cases done
      exact fun c mem => .inl mem
  | round stats size targetSize =>
    simp only [step, round] at done
    split at done
    · cases done
      exact fun c mem => .inl mem
    · obtain ⟨it, -, rest⟩ := Lib.bind_eq_ok.mp done
      obtain ⟨p, -, rest⟩ := Lib.bind_eq_ok.mp rest
      let changes := it.map (getChange D (measured t stats size))
      let sent := changes.foldl (updatePos D) { measured t stats size with pool := p }
      change truncateStorage D (sent.types.foldl (fun t bubble => adjustBubble D t changes bubble) sent) targetSize = .ok t' at rest
      have still : (sent.types.foldl (fun t bubble => adjustBubble D t changes bubble) sent).connecting = t.connecting := by
        rw [adjustBubbles_eq, show sent = _ from updatePos_eq D changes]
        rfl
      exact fun c mem => .inl (((gone_truncateStorage rest).connecting.trans still) ▸ mem)
  | status status =>
    cases done
    exact fun c mem => .inl mem
  | leave => exact fun c mem => .inl ((gone_leave done).connecting ▸ mem)

omit [Std.Total (α := δ) (· ≤ ·)] [DecidableEq β] [DecidableEq ι] in
/-- A density that is registered is that of an offer, or of a registration under way. -/
theorem registers_from {e : Event δ σ β ι α Size Stats} {service : σ} {density : δ} (registered : registers t e = some (service, density)) :
    (service, density) ∈ t.connecting ∨ ∃ filter, e = .offer service density filter := by
  cases e with
  | offer service' density' filter =>
    simp only [registers] at registered
    split at registered
    · split at registered
      · split at registered
        · cases registered
          exact .inr ⟨filter, rfl⟩
        · cases registered
      · cases registered
    · cases registered
  | connected i =>
    simp only [registers] at registered
    split at registered
    · cases registered
    · rename_i here
      have mem := List.mem_of_getElem? here
      split at registered
      · cases registered
        exact .inl mem
      · split at registered
        · cases registered
          exact .inl mem
        · cases registered
      · cases registered
  | _ => cases registered

end Frontend

/-! ## Runs -/

namespace PhaseProgress

open Frontend

variable {R σ β ι α : Type} [LinearOrder R] [Div R] [Mul R] [IntCast R] [LinearOrder σ] [DecidableEq β] [DecidableEq ι]
variable (floor : R → Int)

/-- The events of the maintainer; the density of a storage offer is what `Density.new` makes
of it. -/
inductive Input (R σ β ι α : Type) where
  | offer (service : σ) (position : Int) (capacity d1 : R) (filter : Bool → Bool)
  | other (e : Event (Density R) σ β ι α Int R) (noOffer : ∀ service density filter, e ≠ .offer service density filter)

def Input.event (t : T (Density R) σ β ι α Int R) : Input R σ β ι α → Event (Density R) σ β ι α Int R
  | .offer service position capacity d1 filter => .offer service (Density.new t.stats position capacity d1) filter
  | .other e _ => e

/-- The round switches since a service was last registered, and how many of them moved its
entry. -/
structure Rounds where
  rounds : Nat
  moves : Nat
  deriving DecidableEq, Repr

structure St (R σ β ι α : Type) [LinearOrder R] [Div R] [LinearOrder σ] where
  frontend : T (Density R) σ β ι α Int R
  rounds : σ → Rounds

/-- The density a service is filed under is moved. -/
def movedBy (t : T (Density R) σ β ι α Int R) (d1 : R) (service : σ) : Nat :=
  match t.pool.lookup.lookup service with
  | none => 0
  | some density => if density.moves d1 then 1 else 0

def follow (s : St R σ β ι α) (e : Event (Density R) σ β ι α Int R) (service : σ) : Rounds :=
  match registers s.frontend e with
  | some (registered, _) => if service = registered then ⟨0, 0⟩ else s.rounds service
  | none =>
    match switches s.frontend e with
    | none => s.rounds service
    | some d1 => ⟨(s.rounds service).rounds + 1, (s.rounds service).moves + movedBy s.frontend d1 service⟩

def next (s : St R σ β ι α) (i : Input R σ β ι α) : St R σ β ι α :=
  let e := i.event s.frontend
  match step (Density.densities floor) s.frontend e with
  | .ok frontend => ⟨frontend, follow s e⟩
  | .error _ => s

def start (d1 : R) (bucket : Bool) : St R σ β ι α := ⟨Frontend.new d1 bucket, fun _ => ⟨0, 0⟩⟩

def run (d1 : R) (bucket : Bool) (inputs : List (Input R σ β ι α)) : St R σ β ι α :=
  inputs.foldl (next floor) (start d1 bucket)

/-- The phase of an entry that was moved so often. -/
def phaseOf : Nat → Phase
  | 0 => .new
  | 1 => .updated
  | _ => .stable

structure Inv (s : St R σ β ι α) : Prop where
  wf : Wf s.frontend.pool
  phase : ∀ e ∈ entries s.frontend.pool, e.1.phase = phaseOf (s.rounds e.2.service).moves
  /-- A registration under way is of a new density. -/
  connecting : ∀ c ∈ s.frontend.connecting, c.2.phase = .new

variable {floor} {s : St R σ β ι α}

theorem phaseOf_stable (n : Nat) : phaseOf n = .stable ↔ 2 ≤ n := by
  match n with
  | 0 => simp [phaseOf]
  | 1 => simp [phaseOf]
  | n + 2 => simp [phaseOf]

omit [Mul R] [IntCast R] [LinearOrder σ] in
/-- An entry that has not moved is left as it is. -/
theorem settled_eq (d1 : R) (q : StoragePeer σ) (d : Density R) (phase : Phase) :
    settled ⟨q, ⟨d.pos, max d.D1 d1, phase⟩, d⟩ = if d.moves d1 then ⟨d.pos, max d.D1 d1, phase⟩ else d := by
  unfold settled
  simp only [Density.lt_iff, ← ne_iff_lt_or_gt, Density.moves, decide_eq_true_eq]
  rfl

omit [Mul R] [IntCast R] [LinearOrder σ] in
/-- What a round switch makes of the phase. -/
theorem settled_phase (d1 : R) (q : StoragePeer σ) (d : Density R) (n : Nat) (phase : d.phase = phaseOf n) :
    (settled ⟨q, Density.update d1 d, d⟩).phase = phaseOf (n + if d.moves d1 then 1 else 0) := by
  match n with
  | 0 =>
    have updated : Density.update d1 d = ⟨d.pos, max d.D1 d1, .updated⟩ := by simp [Density.update, phase, phaseOf]
    rw [updated, settled_eq]
    split
    · rfl
    · exact phase
  | 1 =>
    have updated : Density.update d1 d = ⟨d.pos, max d.D1 d1, .stable⟩ := by simp [Density.update, phase, phaseOf]
    rw [updated, settled_eq]
    split
    · rfl
    · exact phase
  | n + 2 =>
    have updated : Density.update d1 d = d := by simp [Density.update, phase, phaseOf]
    rw [settled, updated, ite_self, phase]
    split
    · rfl
    · rfl

omit [Mul R] [IntCast R] [DecidableEq β] [DecidableEq ι] in
/-- The density a service is filed under. -/
theorem movedBy_entry (inv : Inv s) {e : Density R × StoragePeer σ} (mem : e ∈ entries s.frontend.pool) (d1 : R) :
    movedBy s.frontend d1 e.2.service = if e.1.moves d1 then 1 else 0 := by
  obtain ⟨d, q⟩ := e
  obtain ⟨x, here, rfl, rfl⟩ := StoragePool.mem_entries.mp mem
  simp only [movedBy, (inv.wf.files.filed x here).2]

omit [Mul R] [DecidableEq β] [DecidableEq ι] in
theorem registers_new (inv : Inv s) (i : Input R σ β ι α) {service : σ} {d : Density R}
    (registered : registers s.frontend (i.event s.frontend) = some (service, d)) : d.phase = .new := by
  rcases registers_from registered with under | ⟨filter, offer⟩
  · exact inv.connecting _ under
  · cases i with
    | offer service' position capacity d1 filter' =>
      cases offer
      rfl
    | other e noOffer => exact absurd offer (noOffer service d filter)

theorem Inv.next (inv : Inv s) (i : Input R σ β ι α) : Inv (next floor s i) := by
  unfold PhaseProgress.next
  cases done : step (Density.densities floor) s.frontend (i.event s.frontend) with
  | error x => simpa only [done] using inv
  | ok t' =>
    simp only [done]
    have connecting : ∀ c ∈ t'.connecting, c.2.phase = .new := by
      intro c mem
      rcases connecting_step done c mem with old | ⟨service, d, filter, offer, rfl⟩
      · exact inv.connecting c old
      · cases i with
        | offer service' position capacity d1 filter' =>
          cases offer
          rfl
        | other e noOffer => exact absurd offer (noOffer service d filter)
    have filed := filed_step inv.wf done
    unfold Filed at filed
    cases registered : registers s.frontend (i.event s.frontend) with
    | some c =>
      obtain ⟨service, d⟩ := c
      rw [registered] at filed
      refine ⟨filed.wf, ?_, connecting⟩
      intro e mem
      simp only [follow, registered]
      by_cases same : e.2.service = service
      · rw [if_pos same, filed.same e mem same]
        exact registers_new inv i registered
      · rw [if_neg same]
        exact inv.phase e (filed.other e mem same)
    | none =>
      rw [registered] at filed
      cases switched : switches s.frontend (i.event s.frontend) with
      | none =>
        rw [switched] at filed
        refine ⟨filed.wf, ?_, connecting⟩
        intro e mem
        simp only [follow, registered, switched]
        exact inv.phase e (filed.sub e mem)
      | some d1 =>
        rw [switched] at filed
        refine ⟨filed.1, ?_, connecting⟩
        intro e mem
        obtain ⟨y, here, rfl⟩ := filed.2 e mem
        simp only [follow, registered, switched]
        rw [movedBy_entry inv here]
        exact settled_phase d1 y.2 y.1 _ (inv.phase y here)

theorem inv_run (floor : R → Int) (d1 : R) (bucket : Bool) (inputs : List (Input R σ β ι α)) :
    Inv (run floor d1 bucket inputs) := by
  have start : Inv (start d1 bucket : St R σ β ι α) := ⟨StoragePool.wf_new, nofun, nofun⟩
  induction inputs using List.reverseRecOn with
  | nil => exact start
  | append_singleton inputs i ih =>
    rw [run, List.foldl_append]
    exact ih.next i

/-- Every entry that has been through two round switches is STABLE. -/
def Aged (s : St R σ β ι α) : Prop :=
  ∀ e ∈ entries s.frontend.pool, 2 ≤ (s.rounds e.2.service).rounds → e.1.phase = .stable

/-- Two of them moved it. -/
def Moved (s : St R σ β ι α) : Prop :=
  ∀ e ∈ entries s.frontend.pool, 2 ≤ (s.rounds e.2.service).rounds → 2 ≤ (s.rounds e.2.service).moves

/-- In every state of a run the entries that are two rounds old are STABLE exactly if two
rounds have moved each of them. -/
theorem stable_iff (d1 : R) (bucket : Bool) (inputs : List (Input R σ β ι α)) :
    (∀ k, Aged (run floor d1 bucket (inputs.take k))) ↔ ∀ k, Moved (run floor d1 bucket (inputs.take k)) := by
  apply forall_congr'
  intro k
  have inv := inv_run floor d1 bucket (inputs.take k)
  apply forall₂_congr
  intro e mem
  rw [inv.phase e mem, phaseOf_stable]

/-- A storage peer at position zero, and two round switches. -/
def zeroPosition : List (Input Int Nat Nat Nat Nat) :=
  [.other (.register 1 0) nofun, .other (.status .online) nofun, .offer 7 0 1 10 (fun _ => true), .other (.connected 0) nofun,
    .other (.round 11 (fun _ => 1) 0) nofun, .other (.round 12 (fun _ => 1) 0) nofun]

/-- It is as new as it was. -/
theorem never_stable : ¬ ∀ (d1 : Int) (bucket : Bool) (inputs : List (Input Int Nat Nat Nat Nat)),
    ∀ k, Aged (run id d1 bucket (inputs.take k)) := by
  intro all
  have aged := all 10 true zeroPosition 6
  have filed : entries (run id 10 true (zeroPosition.take 6)).frontend.pool = [(⟨0, 10, .new⟩, ⟨7, 0⟩)] := by decide
  have old : ((run id 10 true (zeroPosition.take 6)).rounds 7).rounds = 2 := by decide
  have stable := aged (⟨0, 10, .new⟩, ⟨7, 0⟩) (filed ▸ List.mem_singleton_self _) old.ge
  cases stable

end PhaseProgress

end BubbleStorm.Managed
