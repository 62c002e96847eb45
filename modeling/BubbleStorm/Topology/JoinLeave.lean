/-
  BubbleStorm.Topology.JoinLeave — joining and leaving the topology
  (`create`, `join` and `leave` of `src/bubblestorm/topology/public/topology.sml`,
  `setGoal` of `src/bubblestorm/topology/state/locations.sml`, and
  `src/bubblestorm/topology/actions/evaluateN.sml`).

  The application gives a callback with each call, and has handlers run when a join
  completes and when a leave starts. They may call again: a state has a stack with one
  frame for each piece of application code that is running, which says what goes on when
  it returns. They return; an exception of this code goes to the event loop. The phases
  of the slots and the clients change at any time, as does the event of `evaluateN` come
  whenever no code is running.

  `setGoal` runs the callback before it stores the goal. Proved (`goals_followed`): as
  long as the last call that is accepted from inside a completing transition is in its
  direction, no exception is raised, every callback runs at most once, and once all code
  has returned the goals are those of the last call. A leave from inside a callback or a
  handler of a join, or a join from inside the callback of a leave, is overwritten, or
  makes `setGoal` raise (`goals_overwritten`).
-/

import BubbleStorm.Topology.Locations

namespace BubbleStorm.Topology.JoinLeave

open BubbleStorm.Cusp (Exn)
open Locations

inductive Direction where
  | join
  | leave
  deriving DecidableEq, Repr

def direction : Goal → Direction
  | .join _ => .join
  | .leave _ => .leave

/-- What a call does after `setGoal`. -/
inductive After where
  | done
  /-- `cb' ()`, of call number `call`. -/
  | joined (call : Nat)
  /-- The onLeave handlers. -/
  | left
  deriving DecidableEq, Repr

/-- Application code that is running, and what it returns to. -/
inductive Frame where
  /-- A callback within `setGoal`, which has still to store the goal. -/
  | store (goal : Goal) (after : After)
  /-- The onJoin handlers, within `joinComplete`. -/
  | onJoin
  | onLeave
  | joined
  deriving DecidableEq, Repr

structure St where
  locations : T
  /-- `Clients.empty`. -/
  noClients : Bool
  stack : List Frame
  next : Nat
  /-- The direction of the last call that was accepted. -/
  last : Direction
  /-- The calls whose callbacks have run. -/
  called : List Nat
  raised : List Exn
  deriving DecidableEq, Repr

def init (desiredDegree : Nat) : St :=
  { locations := Locations.new desiredDegree, noClients := true, stack := [], next := 0, last := .leave, called := [], raised := [] }

def push (s : St) (f : Frame) : St := { s with stack := f :: s.stack }

def callback (s : St) (call : Nat) (f : Frame) : St := { push s f with called := s.called ++ [call] }

/-- To the event loop, through all the code that is running. -/
def raise (s : St) (e : Exn) : St := { s with raised := s.raised ++ [e], stack := [] }

def finish (s : St) : After → St
  | .done => s
  | .joined call => callback s call .joined
  | .left => push s .onLeave

/-- `goal := goal'`, and what follows. -/
def store (s : St) (goal : Goal) (after : After) : St := finish { s with locations := s.locations.store goal } after

def setGoal (s : St) (goal : Goal) (after : After) : St :=
  match transition s.locations.goal goal with
  | .error e => raise s e
  | .ok (.user call) => callback s call (.store goal after)
  | .ok _ => store s goal after

/-! ## Calls -/

def accept (s : St) (d : Direction) : St := { s with next := s.next + 1, last := d }

/-- A call that is not accepted raises, and changes nothing. -/
def create (s : St) : Option St :=
  match s.locations.goal with
  | .leave (.complete _) =>
    let numLocations := s.locations.desiredDegree / 2
    let s' := { accept s .join with locations := { s.locations with activeLocations := numLocations } }
    some (setGoal s' (.join (.inProgress (.user s.next))) .done)
  | _ => none

def join (s : St) : Option St :=
  match s.locations.goal with
  | .join _ => none
  | .leave (.inProgress _) => some (setGoal (accept s .join) (.join (.inProgress .noop)) (.joined s.next))
  | .leave (.complete _) => some (setGoal (accept s .join) (.join (.inProgress (.user s.next))) .done)

def leave (s : St) : Option St :=
  match s.locations.goal with
  | .leave _ => none
  | .join _ => some (setGoal (accept s .leave) (.leave (.inProgress (.user s.next))) .left)

/-- The code on top returns. -/
def ret (s : St) : Option St :=
  match s.stack with
  | [] => none
  | .store goal after :: rest => some (store { s with stack := rest } goal after)
  | .onJoin :: rest => some (setGoal { s with stack := rest } (.join (.complete .unadvertise)) .done)
  | _ :: rest => some { s with stack := rest }

/-! ## Events -/

def attempt (s : St) : Except Exn T → St
  | .ok t => { s with locations := t }
  | .error e => raise s e

/-- An event of its own: no other code is running. -/
def evaluateN (s : St) : Option St :=
  if s.stack ≠ [] then none
  else
    match action s.locations s.noClients with
    | .error e => some (raise s e)
    | .ok .nothing => some s
    | .ok .joinComplete => some (push s .onJoin)
    | .ok .leaveComplete => some (setGoal s (.leave (.complete .noop)) .done)
    | .ok .increaseDegree => some (attempt s s.locations.increaseDegree)
    | .ok .decreaseDegree => some (attempt s s.locations.decreaseDegree)

/-- The slots of location `i` change. -/
def slots (t : T) (i : Nat) (master : Peer Bool) (slave : Peer Unit) : T :=
  { t with table := t.table.modify i fun l => { l with master := master, slave := slave } }

inductive Event where
  | create
  | join
  | leave
  | ret
  | evaluateN
  | slots (i : Nat) (master : Peer Bool) (slave : Peer Unit)
  | clients (empty : Bool)
  deriving DecidableEq, Repr

def step (s : St) : Event → Option St
  | .create => create s
  | .join => join s
  | .leave => leave s
  | .ret => ret s
  | .evaluateN => evaluateN s
  | .slots i master slave => some { s with locations := slots s.locations i master slave }
  | .clients empty => some { s with noClients := empty }

def run : St → List Event → Option St
  | s, [] => some s
  | s, e :: es => (step s e).bind (run · es)

/-- Code that a completing transition called returns to it when the last call was in the
    transition's direction. -/
def Settled (s : St) : Event → Prop
  | .ret =>
    match s.stack with
    | .store goal _ :: _ => s.last = direction goal
    | .onJoin :: _ => s.last = .join
    | _ => True
  | _ => True

/-- A run in which `ok` holds of every step. -/
inductive Reach (ok : St → Event → Prop) (desiredDegree : Nat) : St → Prop where
  | init : Reach ok desiredDegree (init desiredDegree)
  | step {s s' : St} {e : Event} (h : Reach ok desiredDegree s) (hok : ok s e) (hs : step s e = some s') :
      Reach ok desiredDegree s'

/-! ## The invariant -/

def Frame.light : Frame → Bool
  | .store _ _ => false
  | .onJoin => false
  | _ => true

/-- Only the code at the bottom is called by a completing transition. -/
def Layered : List Frame → Prop
  | [] => True
  | [_] => True
  | f :: rest => f.light = true ∧ Layered rest

theorem Layered.tail {f : Frame} {rest : List Frame} (h : Layered (f :: rest)) : Layered rest := by
  cases rest with
  | nil => trivial
  | cons g rest => exact h.2

theorem Layered.push {f : Frame} {rest : List Frame} (h : Layered rest) (hf : f.light = true) : Layered (f :: rest) := by
  cases rest with
  | nil => trivial
  | cons g rest => exact ⟨hf, h⟩

theorem Layered.bottom {f : Frame} {rest : List Frame} (h : Layered (f :: rest)) (hf : f.light = false) : rest = [] := by
  cases rest with
  | nil => rfl
  | cons g rest =>
    have hl := h.1
    rw [hf] at hl
    cases hl

def progress : Goal → Progress
  | .join p => p
  | .leave p => p

/-- What is known of a goal: what it runs when it completes, and that only a goal in
    progress runs code of the application. -/
structure Pending (s : St) : Prop where
  user : ∀ k, progress s.locations.goal ≠ .complete (.user k)
  fresh : ∀ k, progress s.locations.goal = .inProgress (.user k) → k < s.next
  once : ∀ k, progress s.locations.goal = .inProgress (.user k) → k ∈ s.called → ∃ goal after, .store goal after ∈ s.stack
  /-- A completing transition completes a goal that is in progress. -/
  completing : ∀ f ∈ s.stack, f.light = false → ∃ cb, progress s.locations.goal = .inProgress cb

structure Inv (s : St) : Prop where
  agrees : Agrees s.locations
  direction : direction s.locations.goal = s.last
  raised : s.raised = []
  fresh : ∀ k ∈ s.called, k < s.next
  nodup : s.called.Nodup
  layered : Layered s.stack
  /-- Goals that are stored after a callback are complete. -/
  frames : ∀ goal after, .store goal after ∈ s.stack →
    after = .done ∧ (goal = .join (.complete .unadvertise) ∨ goal = .leave (.complete .noop))
  pending : Pending s

theorem inv_init (desiredDegree : Nat) : Inv (init desiredDegree) where
  agrees := agrees_new desiredDegree
  direction := rfl
  raised := rfl
  fresh := nofun
  nodup := List.nodup_nil
  layered := trivial
  frames := nofun
  pending := ⟨nofun, nofun, nofun, nofun⟩

variable {s s' : St}

@[simp] theorem store_goal (t : T) (g : Goal) : (t.store g).goal = g := by
  unfold T.store
  split <;> rfl

theorem setGoal_store {g : Goal} {after : After} {cb : Callback} (h : transition s.locations.goal g = .ok cb)
    (hcb : ∀ k, cb ≠ .user k) : setGoal s g after = store s g after := by
  unfold setGoal
  rw [h]
  cases cb with
  | noop => rfl
  | unadvertise => rfl
  | user k => exact absurd rfl (hcb k)

theorem setGoal_user {g : Goal} {after : After} {k : Nat} (h : transition s.locations.goal g = .ok (.user k)) :
    setGoal s g after = callback s k (.store g after) := by
  unfold setGoal
  rw [h]

theorem nodup_snoc {l : List Nat} {k : Nat} (h : l.Nodup) (hk : k ∉ l) : (l ++ [k]).Nodup := by
  refine List.nodup_append.mpr ⟨h, List.pairwise_singleton _ k, fun a ha b hb e => hk ?_⟩
  rw [← List.mem_singleton.mp hb, ← e]
  exact ha

theorem Inv.push (h : Inv s) {f : Frame} (hf : f.light = true) : Inv (push s f) := by
  have hmem : ∀ goal after, .store goal after ∈ f :: s.stack → .store goal after ∈ s.stack := by
    intro goal after hm
    rcases List.mem_cons.mp hm with e | hm
    · subst e
      cases hf
    · exact hm
  refine ⟨h.agrees, h.direction, h.raised, h.fresh, h.nodup, h.layered.push hf,
    fun goal after hm => h.frames goal after (hmem goal after hm), h.pending.user, h.pending.fresh, ?_, ?_⟩
  · intro k hk hc
    obtain ⟨goal, after, hm⟩ := h.pending.once k hk hc
    exact ⟨goal, after, List.mem_cons_of_mem _ hm⟩
  · intro g hg hl
    rcases List.mem_cons.mp hg with rfl | hg
    · rw [hf] at hl
      cases hl
    · exact h.pending.completing g hg hl

/-- A callback that no goal holds any more, and that has not run. -/
theorem Inv.callback (h : Inv s) {k : Nat} (hk : k < s.next) (hc : k ∉ s.called)
    (hp : progress s.locations.goal ≠ .inProgress (.user k)) : Inv (callback s k .joined) := by
  have hpush := h.push (f := .joined) rfl
  refine { hpush with fresh := ?_, nodup := ?_, pending := { hpush.pending with once := ?_ } }
  · intro j hj
    rcases List.mem_append.mp hj with hj | hj
    · exact h.fresh j hj
    · rw [List.mem_singleton.mp hj]
      exact hk
  · exact nodup_snoc h.nodup hc
  · intro j hj hm
    rcases List.mem_append.mp hm with hm | hm
    · exact hpush.pending.once j hj hm
    · rw [List.mem_singleton.mp hm] at hj
      exact absurd hj hp

/-- A call is accepted: its goal is in progress, in its direction. -/
theorem Inv.accept (h : Inv s) {g : Goal} {cb : Callback} {t : T} (ht : t.table = s.locations.table)
    (hd : t.desiredDegree = s.locations.desiredDegree) (hp : progress g = .inProgress cb)
    (hcb : cb = .noop ∨ cb = .user s.next) : Inv { accept s (JoinLeave.direction g) with locations := t.store g } := by
  have hgoal : (t.store g).goal = g := store_goal t g
  have hagrees : Agrees (t.store g) := by
    refine store_agrees (by rw [ht, hd]; exact h.agrees.length) (by rw [hd]; exact h.agrees.least) fun cb' e => ?_
    rw [e] at hp
    cases hp
  refine ⟨hagrees, congrArg JoinLeave.direction hgoal, h.raised, fun k hk => Nat.lt_succ_of_lt (h.fresh k hk), h.nodup, h.layered,
    h.frames, ?_⟩
  refine ⟨fun k => ?_, fun k hk => ?_, fun k hk hc => ?_, fun f hf hl => ⟨cb, by rw [hgoal]; exact hp⟩⟩
  · rw [hgoal, hp]
    exact Progress.noConfusion
  · rw [hgoal, hp] at hk
    rcases hcb with rfl | rfl
    · cases hk
    · cases hk
      exact Nat.lt_succ_self _
  · rw [hgoal, hp] at hk
    rcases hcb with rfl | rfl
    · cases hk
    · cases hk
      exact absurd (h.fresh _ hc) (Nat.lt_irrefl _)

/-! ## Calls -/

theorem Inv.create (h : Inv s) (hs : create s = some s') : Inv s' := by
  unfold JoinLeave.create at hs
  split at hs
  · rename_i cb hg
    cases hs
    have hcb : ∀ k, cb ≠ .user k := fun k e => h.pending.user k (by rw [hg, e]; rfl)
    have ht : transition s.locations.goal (.join (.inProgress (.user s.next))) = .ok cb := by rw [hg]; rfl
    rw [setGoal_store (s := { JoinLeave.accept s .join with
      locations := { s.locations with activeLocations := s.locations.desiredDegree / 2 } }) ht hcb]
    exact h.accept (t := { s.locations with activeLocations := s.locations.desiredDegree / 2 }) rfl rfl rfl (.inr rfl)
  · cases hs

theorem Inv.join (h : Inv s) (hs : join s = some s') : Inv s' := by
  unfold JoinLeave.join at hs
  split at hs
  · cases hs
  · rename_i cb hg
    cases hs
    have ht : transition s.locations.goal (.join (.inProgress .noop)) = .ok .noop := by rw [hg]; rfl
    rw [setGoal_store (s := JoinLeave.accept s .join) ht nofun]
    have ha := h.accept (t := s.locations) (g := .join (.inProgress .noop)) rfl rfl rfl (.inl rfl)
    exact ha.callback (Nat.lt_succ_self _) (fun hm => Nat.lt_irrefl _ (h.fresh _ hm)) (by simp [progress])
  · rename_i cb hg
    cases hs
    have hcb : ∀ k, cb ≠ .user k := fun k e => h.pending.user k (by rw [hg, e]; rfl)
    have ht : transition s.locations.goal (.join (.inProgress (.user s.next))) = .ok cb := by rw [hg]; rfl
    rw [setGoal_store (s := JoinLeave.accept s .join) ht hcb]
    exact h.accept (t := s.locations) rfl rfl rfl (.inr rfl)

theorem Inv.leave (h : Inv s) (hs : leave s = some s') : Inv s' := by
  unfold JoinLeave.leave at hs
  split at hs
  · cases hs
  · rename_i p hg
    cases hs
    have ht : ∃ cb, transition s.locations.goal (.leave (.inProgress (.user s.next))) = .ok cb ∧ ∀ k, cb ≠ .user k := by
      rw [hg]
      cases p with
      | inProgress cb => exact ⟨.noop, rfl, nofun⟩
      | complete cb => exact ⟨cb, rfl, fun k e => h.pending.user k (by rw [hg, e]; rfl)⟩
    obtain ⟨cb, ht, hcb⟩ := ht
    rw [setGoal_store (s := JoinLeave.accept s .leave) ht hcb]
    exact (h.accept (t := s.locations) (g := .leave (.inProgress (.user s.next))) rfl rfl rfl (.inr rfl)).push rfl

/-! ## Returning -/

/-- Code that goes back to code of the application, or to the event loop. -/
theorem Inv.pop (h : Inv s) {f : Frame} {rest : List Frame} (hst : s.stack = f :: rest) (hf : f.light = true) :
    Inv { s with stack := rest } := by
  have hl := h.layered
  rw [hst] at hl
  have hmem : ∀ g ∈ rest, g ∈ s.stack := fun g hg => by rw [hst]; exact List.mem_cons_of_mem _ hg
  refine ⟨h.agrees, h.direction, h.raised, h.fresh, h.nodup, hl.tail, fun goal after hm => h.frames goal after (hmem _ hm),
    h.pending.user, h.pending.fresh, ?_, fun g hg => h.pending.completing g (hmem g hg)⟩
  intro k hk hc
  obtain ⟨goal, after, hm⟩ := h.pending.once k hk hc
  rw [hst] at hm
  rcases List.mem_cons.mp hm with e | hm
  · subst e
    cases hf
  · exact ⟨goal, after, hm⟩

/-- The goal of a transition that completes is stored. -/
theorem Inv.complete (h : Inv s) {g : Goal} {cb : Callback} (hp : progress s.locations.goal = .inProgress cb)
    (hd : s.last = JoinLeave.direction g) (hg : g = .join (.complete .unadvertise) ∨ g = .leave (.complete .noop)) :
    Inv { s with locations := s.locations.store g, stack := [] } := by
  have hgoal : (s.locations.store g).goal = g := store_goal _ g
  have hagrees : Agrees (s.locations.store g) := by
    refine store_agrees h.agrees.length h.agrees.least fun cb' e => ⟨h.agrees, cb, ?_⟩
    have hdir := h.direction
    rw [hd, e] at hdir
    cases hl : s.locations.goal with
    | join p =>
      rw [hl] at hp
      exact congrArg Goal.join hp
    | leave p =>
      rw [hl] at hdir
      cases hdir
  refine ⟨hagrees, by rw [hgoal]; exact hd.symm, h.raised, h.fresh, h.nodup, trivial, nofun, ?_, ?_, ?_, nofun⟩
  all_goals
    intro k
    rw [hgoal]
    rcases hg with rfl | rfl
    all_goals simp [progress]

/-- A transition completes, and runs what the goal holds. -/
theorem Inv.transition (h : Inv s) (hst : ∀ goal after, .store goal after ∉ s.stack) {g : Goal} {cb : Callback}
    (hp : progress s.locations.goal = .inProgress cb) (hd : s.last = JoinLeave.direction g)
    (hg : g = .join (.complete .unadvertise) ∨ g = .leave (.complete .noop)) :
    Inv (setGoal { s with stack := [] } g .done) := by
  have ht : Locations.transition s.locations.goal g = .ok cb := by
    have hdir := h.direction
    rw [hd] at hdir
    cases hl : s.locations.goal with
    | join p =>
      rw [hl] at hp hdir
      cases hp
      rcases hg with rfl | rfl
      · rfl
      · cases hdir
    | leave p =>
      rw [hl] at hp hdir
      cases hp
      rcases hg with rfl | rfl
      · cases hdir
      · rfl
  cases cb with
  | noop =>
    rw [setGoal_store (s := { s with stack := [] }) ht nofun]
    exact h.complete hp hd hg
  | unadvertise =>
    rw [setGoal_store (s := { s with stack := [] }) ht nofun]
    exact h.complete hp hd hg
  | user k =>
    rw [setGoal_user (s := { s with stack := [] }) ht]
    have hc : k ∉ s.called := by
      intro hm
      obtain ⟨goal, after, hs⟩ := h.pending.once k hp hm
      exact hst goal after hs
    refine ⟨h.agrees, h.direction, h.raised, ?_, ?_, trivial, ?_, h.pending.user, h.pending.fresh, ?_, fun _ _ _ => ⟨_, hp⟩⟩
    · intro j hj
      rcases List.mem_append.mp hj with hj | hj
      · exact h.fresh j hj
      · rw [List.mem_singleton.mp hj]
        exact h.pending.fresh k hp
    · exact nodup_snoc h.nodup hc
    · intro goal after hm
      cases List.mem_singleton.mp hm
      exact ⟨rfl, hg⟩
    · intro j _ _
      exact ⟨g, .done, List.mem_singleton.mpr rfl⟩

theorem Inv.ret (h : Inv s) (hok : Settled s .ret) (hs : ret s = some s') : Inv s' := by
  have hl := h.layered
  have hcomp := h.pending.completing
  unfold JoinLeave.ret at hs
  unfold Settled at hok
  split at hs
  · cases hs
  · rename_i goal after rest hst
    cases hs
    rw [hst] at hl hcomp hok
    have hrest := hl.bottom rfl
    subst hrest
    obtain ⟨cb, hp⟩ := hcomp _ (.head _) rfl
    obtain ⟨rfl, hg⟩ := h.frames goal after (by rw [hst]; exact .head _)
    exact h.complete hp hok hg
  · rename_i rest hst
    cases hs
    rw [hst] at hl hcomp hok
    have hrest := hl.bottom rfl
    subst hrest
    obtain ⟨cb, hp⟩ := hcomp _ (.head _) rfl
    exact h.transition (by rw [hst]; simp) hp hok (.inl rfl)
  · rename_i f rest h1 h2 hst
    cases hs
    refine h.pop hst ?_
    cases f with
    | store goal after => exact absurd rfl (h1 goal after)
    | onJoin => exact absurd rfl h2
    | onLeave => rfl
    | joined => rfl

/-! ## Events of the peer -/

/-- The goals agree again, and are those of the same goal. -/
theorem Inv.relocate (h : Inv s) {t : T} (ha : Agrees t) (hg : t.goal = s.locations.goal) : Inv { s with locations := t } := by
  refine { h with agrees := ha, direction := ?_, pending := ⟨?_, ?_, ?_, ?_⟩ }
  · show JoinLeave.direction t.goal = s.last
    rw [hg]
    exact h.direction
  · show ∀ k, progress t.goal ≠ _
    rw [hg]
    exact h.pending.user
  · show ∀ k, progress t.goal = _ → _
    rw [hg]
    exact h.pending.fresh
  · show ∀ k, progress t.goal = _ → _
    rw [hg]
    exact h.pending.once
  · show ∀ f ∈ s.stack, f.light = false → ∃ cb, progress t.goal = _
    rw [hg]
    exact h.pending.completing

theorem Inv.evaluateN (h : Inv s) (hs : evaluateN s = some s') : Inv s' := by
  obtain ⟨a, ha, hready⟩ := action_ready h.agrees s.noClients
  unfold JoinLeave.evaluateN at hs
  split at hs
  · cases hs
  rename_i hst
  have hnil : s.stack = [] := not_not.mp hst
  rw [ha] at hs
  cases a with
  | nothing =>
    cases hs
    exact h
  | joinComplete =>
    cases hs
    obtain ⟨cb, hg⟩ := hready
    have hmem : ∀ f ∈ Frame.onJoin :: s.stack, f = .onJoin := by
      intro f hf
      rw [hnil] at hf
      exact List.mem_singleton.mp hf
    refine ⟨h.agrees, h.direction, h.raised, h.fresh, h.nodup, ?_, ?_, h.pending.user, h.pending.fresh, ?_, ?_⟩
    · show Layered (Frame.onJoin :: s.stack)
      rw [hnil]
      trivial
    · intro goal after hm
      cases hmem _ hm
    · intro k hk hc
      obtain ⟨goal, after, hm⟩ := h.pending.once k hk hc
      rw [hnil] at hm
      cases hm
    · intro f _ _
      exact ⟨cb, by show progress s.locations.goal = _; rw [hg]; rfl⟩
  | leaveComplete =>
    cases hs
    obtain ⟨cb, hg⟩ := hready
    have hd : s.last = .leave := by rw [← h.direction, hg]; rfl
    have hp : progress s.locations.goal = .inProgress cb := by rw [hg]; rfl
    have ht := h.transition (by rw [hnil]; simp) (g := .leave (.complete .noop)) hp hd (.inr rfl)
    rw [← hnil] at ht
    exact ht
  | increaseDegree =>
    cases hs
    obtain ⟨t, e, ht, hg⟩ := increaseDegree_agrees h.agrees hready
    rw [e]
    exact h.relocate ht hg
  | decreaseDegree =>
    cases hs
    obtain ⟨t, e, ht, hg⟩ := decreaseDegree_agrees h.agrees hready
    rw [e]
    exact h.relocate ht hg

theorem slots_agrees {t : T} (h : Agrees t) (i : Nat) (master : Peer Bool) (slave : Peer Unit) :
    Agrees (slots t i master slave) := by
  have hlen : (slots t i master slave).table.length = t.table.length := List.length_modify _ _ _
  refine ⟨hlen.trans h.length, h.least, ?_, fun j l hl => ?_⟩
  · rw [hlen]
    exact h.active
  · have hget : ∃ l', t.table[j]? = some l' ∧ l.goal = l'.goal := by
      unfold slots at hl
      dsimp only at hl
      rw [List.getElem?_modify, Option.map_eq_map, Option.map_eq_some_iff] at hl
      obtain ⟨l', h1, h2⟩ := hl
      refine ⟨l', h1, ?_⟩
      rw [← h2]
      split
      · rfl
      · rfl
    obtain ⟨l', hl', e⟩ := hget
    rw [e]
    exact h.goals j l' hl'

theorem Inv.step (h : Inv s) {e : Event} (hok : Settled s e) (hs : step s e = some s') : Inv s' := by
  cases e with
  | create => exact h.create hs
  | join => exact h.join hs
  | leave => exact h.leave hs
  | ret => exact h.ret hok hs
  | evaluateN => exact h.evaluateN hs
  | slots i master slave =>
    cases hs
    exact h.relocate (slots_agrees h.agrees i master slave) rfl
  | clients empty =>
    cases hs
    exact ⟨h.agrees, h.direction, h.raised, h.fresh, h.nodup, h.layered, h.frames,
      ⟨h.pending.user, h.pending.fresh, h.pending.once, h.pending.completing⟩⟩

theorem inv_reach {desiredDegree : Nat} (h : Reach Settled desiredDegree s) : Inv s := by
  induction h with
  | init => exact inv_init desiredDegree
  | step _ hok hs ih => exact ih.step hok hs

/-! ## The protocol -/

/-- No exception, every callback at most once, and after all calls the goals of the last. -/
def Followed (s : St) : Prop :=
  s.raised = [] ∧ s.called.Nodup ∧ (s.stack = [] → direction s.locations.goal = s.last ∧ Agrees s.locations)

/-- When code that a completing transition called returns only after the last call was in
    its direction, the goals follow the calls. -/
theorem goals_followed {desiredDegree : Nat} (h : Reach Settled desiredDegree s) : Followed s := by
  have hi := inv_reach h
  exact ⟨hi.raised, hi.nodup, fun _ => ⟨hi.direction, hi.agrees⟩⟩

theorem Reach.run {ok : St → Event → Prop} {desiredDegree : Nat} (hok : ∀ s e, ok s e) :
    ∀ {es : List Event} {s s' : St}, Reach ok desiredDegree s → JoinLeave.run s es = some s' → Reach ok desiredDegree s'
  | [], s, s', h, hr => by
    cases hr
    exact h
  | e :: es, s, s', h, hr => by
    obtain ⟨s1, h1, h2⟩ := Option.bind_eq_some_iff.mp hr
    exact (h.step (hok s e) h1).run hok h2

/-- Two locations that have both their neighbours. -/
def linked : List Event := [.slots 0 (.connected true) (.connected ()), .slots 1 (.connected true) (.connected ())]

/-- A join that completes, and whose callback calls nothing. -/
theorem goals_followed_joined : ∃ s, Reach Settled 16 s ∧ s.called = [0] ∧ s.stack = [] ∧ Followed s := by
  have h0 : Reach Settled 16 (init 16) := .init
  have h1 := h0.step (e := .join) trivial rfl
  have h2 := h1.step (e := .slots 0 (.connected true) (.connected ())) trivial rfl
  have h3 := h2.step (e := .slots 1 (.connected true) (.connected ())) trivial rfl
  have h4 := h3.step (e := .evaluateN) trivial rfl
  have h5 := h4.step (e := .ret) rfl rfl
  have h6 := h5.step (e := .ret) rfl rfl
  exact ⟨_, h6, rfl, rfl, goals_followed h6⟩

/-- A leave from the callback of a join, and a join from the callback of a leave, are
    overwritten; a leave from an onJoin handler makes the join raise. -/
theorem goals_overwritten :
    (¬ ∀ s, Reach (fun _ _ => True) 16 s → Followed s) ∧
    (∃ s, Reach (fun _ _ => True) 16 s ∧ s.stack = [] ∧ s.last = .leave ∧
      s.locations.goal = .join (.complete .unadvertise) ∧ s.locations.activeLocations = 0) ∧
    (∃ s, Reach (fun _ _ => True) 16 s ∧ s.stack = [] ∧ s.last = .join ∧ s.called = [0, 1, 2] ∧
      s.locations.goal = .leave (.complete .noop)) ∧
    ∃ s, Reach (fun _ _ => True) 16 s ∧ s.raised = [.fail "bad goal transition"] := by
  have h1 : ∃ s, run (init 16) (.join :: linked ++ [.evaluateN, .ret, .leave, .ret, .ret]) = some s ∧ s.stack = [] ∧
      s.last = .leave ∧ s.locations.goal = .join (.complete .unadvertise) ∧ s.locations.activeLocations = 0 :=
    ⟨_, rfl, rfl, rfl, rfl, rfl⟩
  have h2 : ∃ s, run (init 16) (.join :: linked ++ [.evaluateN, .ret, .ret, .leave, .ret, .slots 0 .nothing .nothing,
      .slots 1 .nothing .nothing, .evaluateN, .join, .ret, .ret]) = some s ∧ s.stack = [] ∧ s.last = .join ∧
      s.called = [0, 1, 2] ∧ s.locations.goal = .leave (.complete .noop) := ⟨_, rfl, rfl, rfl, rfl, rfl⟩
  have h3 : ∃ s, run (init 16) (.join :: linked ++ [.evaluateN, .leave, .ret, .ret]) = some s ∧
      s.raised = [.fail "bad goal transition"] := ⟨_, rfl, rfl⟩
  obtain ⟨s1, hr1, hs1⟩ := h1
  obtain ⟨s2, hr2, hs2⟩ := h2
  obtain ⟨s3, hr3, hs3⟩ := h3
  have reach : ∀ {es s}, run (init 16) es = some s → Reach (fun _ _ => True) 16 s :=
    fun hr => Reach.init.run (fun _ _ => trivial) hr
  refine ⟨fun h => ?_, ⟨s1, reach hr1, hs1⟩, ⟨s2, reach hr2, hs2⟩, s3, reach hr3, hs3⟩
  have hf := (h s3 (reach hr3)).1
  rw [hs3] at hf
  cases hf

end BubbleStorm.Topology.JoinLeave
