/-
  BubbleStorm.Topology.Clients — the clients, slackers and wanna-be clients a node still has.

  Three rings (`clients`, `slackers`, `abort`); a leaving node is done once all three are
  empty. They change from the callbacks of the neighbours listed in them, and every change
  between empty and not empty is to be followed by a call of `evaluate`, which schedules the
  evaluation of the node's state.

  The neighbours appear as far as the rings depend on them: the unhook each has at the
  moment and its chain of death handlers, which ends in the handler that kills it, in
  nothing (while it is being reset) or in the detector of a second death.

  Every operation reports its change but one: the function `addAbort` returns removes its
  element and does not look (`reported_iff`, `release_unreported`). No iteration breaks and
  no listed slacker is without a scheduled kick.
-/

import Mathlib.Data.List.Nodup
import Mathlib.Logic.Function.Basic

namespace BubbleStorm.Topology

open Function (update_eq_self update_of_ne)

/-! ## Rings -/

namespace Ring

variable {α : Type}

/-- A link of a ring: to its head, to an element, or the null of an element in no ring. -/
inductive Link
  | null
  | head
  | elt (id : Nat)
  deriving Repr, DecidableEq

/-- The elements after the first one of this name. -/
def after (id : α → Nat) (e : Nat) : List α → Option (List α)
  | [] => none
  | x :: rest => if id x = e then some rest else after id e rest

def link (id : α → Nat) : List α → Link
  | [] => .head
  | x :: _ => .elt (id x)

/-- The `next` of an element. -/
def next (id : α → Nat) (ring : List α) (e : Nat) : Link :=
  match after id e ring with
  | none => .null
  | some rest => link id rest

end Ring

namespace Clients

/-- A ring element that knows its neighbour; `makeClient` is what the `ref` still holds. -/
structure Client where
  id : Nat
  client : Nat
  makeClient : Bool
  deriving Repr, DecidableEq

structure Slacker where
  id : Nat
  slacker : Nat
  /-- Whether the event `kick` is scheduled. -/
  kick : Bool
  /-- Listed by `addSlackerRW`. -/
  rw : Bool
  deriving Repr, DecidableEq

/-- A registered abort function; `releases` tells whether it calls its own release. -/
structure Abort where
  id : Nat
  releases : Bool
  deriving Repr, DecidableEq

/-- The unhook of a neighbour. -/
inductive Hook
  | noop
  | client (id : Nat)
  | slacker (id : Nat)
  | other
  deriving Repr, DecidableEq

inductive Handler
  | destroy (id : Nat)
  | cancelKill
  deriving Repr, DecidableEq

/-- The end of a chain of death handlers. -/
inductive Last
  | kill
  | noop
  | bug
  deriving Repr, DecidableEq

structure Chain where
  handlers : List Handler
  last : Last
  deriving Repr, DecidableEq

inductive Exn
  | brokenRing
  | option
  | diedTwice
  deriving Repr, DecidableEq

/-- What a leaving node finds when it looks for someone to pass its clients on to: nobody,
or neighbours, with the clients whose address is known. -/
abbrev Push := Option (Nat → Bool)

structure T where
  clients : List Client
  slackers : List Slacker
  abort : List Abort
  leaving : Bool
  /-- The emptiness each call of `evaluate` found, the last call first. -/
  evaluated : List Bool
  hook : Nat → Hook
  death : Nat → Chain
  fresh : Nat

def new : T :=
  { clients := [], slackers := [], abort := [], leaving := false, evaluated := [],
    hook := fun _ => .noop, death := fun _ => { handlers := [], last := .kill }, fresh := 0 }

/-- What an operation leaves, and what it raised. -/
structure Outcome where
  state : T
  raised : Option Exn

def ok (s : T) : Outcome := { state := s, raised := none }

def raise (s : T) (e : Exn) : Outcome := { state := s, raised := some e }

/-- What follows an exception is not run. -/
def Outcome.andThen (o : Outcome) (k : T → Outcome) : Outcome :=
  match o.raised with
  | none => k o.state
  | some _ => o

namespace T

def empty (s : T) : Bool := s.clients.isEmpty && s.slackers.isEmpty && s.abort.isEmpty

def evaluate (s : T) : T := { s with evaluated := s.empty :: s.evaluated }

/-- `if empty this then evaluate () else ()`. -/
def evaluateIfEmpty (s : T) : T := if s.empty then s.evaluate else s

def removeClient (s : T) (id : Nat) : T := { s with clients := s.clients.filter (·.id ≠ id) }

/-- A slacker that is taken off the list has its kick cancelled. -/
def removeSlacker (s : T) (id : Nat) : T := { s with slackers := s.slackers.filter (·.id ≠ id) }

def removeAbort (s : T) (id : Nat) : T := { s with abort := s.abort.filter (·.id ≠ id) }

/-! ## The neighbours' side -/

/-- `(!unhook) ()`: an unhook takes itself off before it runs. -/
def runHook (s : T) (n : Nat) : T :=
  match s.hook n with
  | .noop => s
  | .other => { s with hook := Function.update s.hook n .noop }
  | .client id => ({ s with hook := Function.update s.hook n .noop }.removeClient id).evaluateIfEmpty
  | .slacker id => ({ s with hook := Function.update s.hook n .noop }.removeSlacker id).evaluateIfEmpty

def setUnhook (s : T) (n : Nat) (h : Hook) : T :=
  let s := s.runHook n
  { s with hook := Function.update s.hook n h }

def addDeathHandler (s : T) (n : Nat) (h : Handler) : T :=
  let c := s.death n
  { s with death := Function.update s.death n { c with handlers := h :: c.handlers } }

def setDeath (s : T) (n : Nat) (c : Chain) : T := { s with death := Function.update s.death n c }

def runHandler (s : T) : Handler → T
  | .destroy id => (s.removeSlacker id).evaluateIfEmpty
  | .cancelKill => s

def runHandlers (s : T) (handlers : List Handler) : T := handlers.foldl runHandler s

/-- `Neighbour.reset`. -/
def reset (s : T) (n : Nat) : Outcome :=
  let s := s.runHook n
  let old := s.death n
  let s := s.setDeath n { handlers := [], last := .noop }
  let s := s.runHandlers old.handlers
  match old.last with
  | .kill => ok (s.setDeath n { handlers := [], last := .bug })
  | .noop => ok s
  | .bug => raise s .diedTwice

/-- The death handlers run because both sides are done or the grace period is over; then the
killing may reset the neighbour and run them once more. -/
def die (s : T) (n : Nat) (again : Bool) : Outcome :=
  let old := s.death n
  let s := s.runHandlers old.handlers
  match old.last with
  | .kill =>
    let s := if again then (s.runHook n).runHandlers old.handlers else s
    ok (s.setDeath n { handlers := [], last := .bug })
  | .noop => ok s
  | .bug => raise s .diedTwice

/-! ## The operations -/

def pushClient (known : Nat → Bool) (s : T) (client : Nat) : Outcome :=
  let s := s.addDeathHandler client .cancelKill
  if known client then ok s else s.reset client

/-- Push one client, if the node is leaving. -/
def push (p : Push) (s : T) (client : Nat) : Outcome :=
  match p with
  | none => s.reset client
  | some known => pushClient known s client

def pushClients (s : T) (p : Push) (client : Nat) : Outcome :=
  if s.leaving then push p s client else ok s

def addClient (s : T) (client : Nat) (p : Push) : Outcome :=
  let needEval := s.empty
  let id := s.fresh
  let s := { s with fresh := id + 1 }
  let s := s.setUnhook client (.client id)
  let s := { s with clients := { id := id, client := client, makeClient := true } :: s.clients }
  (s.pushClients p client).andThen fun s => ok (if needEval then s.evaluate else s)

def addSlackerRO (s : T) (client : Nat) : T :=
  let needEval := s.empty
  let id := s.fresh
  let s := { s with fresh := id + 1 }
  let s := s.addDeathHandler client (.destroy id)
  let s := { s with slackers := { id := id, slacker := client, kick := true, rw := false } :: s.slackers }
  if needEval then s.evaluate else s

def addSlackerRW (s : T) (client : Nat) : T :=
  let needEval := s.empty
  let id := s.fresh
  let s := { s with fresh := id + 1 }
  let s := s.setUnhook client (.slacker id)
  let s := { s with slackers := { id := id, slacker := client, kick := true, rw := true } :: s.slackers }
  if needEval then s.evaluate else s

def addAbort (s : T) (releases : Bool) : T :=
  let needEval := s.empty
  let id := s.fresh
  let s := { s with fresh := id + 1, abort := { id := id, releases := releases } :: s.abort }
  if needEval then s.evaluate else s

/-- The function `addAbort` returns. -/
def release (s : T) (id : Nat) : T := s.removeAbort id

/-- `initiateTeardown` and `completeTeardown` unhook the neighbour; when its conversation has
nothing left to do it may die before they return. -/
def teardown (s : T) (n : Nat) (dies : Bool) : Outcome :=
  let s := s.runHook n
  if dies then s.die n false else ok s

/-- The event `kick` of a slacker is no longer scheduled. -/
def fired (s : T) (id : Nat) : T :=
  { s with slackers := s.slackers.map fun (x : Slacker) => if x.id = id then { x with kick := false } else x }

/-- The event `kick` of a listed slacker has fired. -/
def kick (s : T) (e : Slacker) (dies : Bool) : Outcome :=
  let s := s.fired e.id
  if e.rw then (s.teardown e.slacker dies).andThen fun s => ok (s.addSlackerRO e.slacker)
  else s.reset e.slacker

/-- The elements are listed first; one that has been removed since is passed over. -/
def kickSlackersSoon : List Slacker → T → Outcome
  | [], s => ok s
  | e :: rest, s =>
    match s.slackers.find? (·.id = e.id) with
    | none => kickSlackersSoon rest s
    | some now => if now.kick then kickSlackersSoon rest s else raise s .option

/-- The `ref` of a client that is told to move on is emptied. -/
def forget (s : T) (id : Nat) : T :=
  { s with clients := s.clients.map fun (x : Client) => if x.id = id then { x with makeClient := false } else x }

/-- `pushClients (this, clientsWhoNeedAPush this)`. -/
def pushListed (p : Push) : List Client → T → Outcome
  | [], s => ok s
  | e :: rest, s =>
    match s.clients.find? (·.id = e.id) with
    | none => pushListed p rest s
    | some now =>
      if now.makeClient then (push p (s.forget e.id) now.client).andThen (pushListed p rest)
      else pushListed p rest (s.forget e.id)

def flushClients (s : T) (p : Push) : Outcome :=
  if s.leaving then ok s
  else
    let s := { s with leaving := true }
    (kickSlackersSoon s.slackers s).andThen fun s => pushListed p s.clients s

def allowClients (s : T) : T := { s with leaving := false }

/-- `run` of `abortAll`: call the function, which may release itself, and remove it. -/
def runAbort (s : T) (id : Nat) : T :=
  match s.abort.find? (·.id = id) with
  | some e => (if e.releases then s.release id else s).removeAbort id
  | none => s.removeAbort id

/-- `Iterator.app run (Ring.iterator abort)`: the link to the next element is read before
the current one is run. An iteration that does not end counts as broken. -/
def runAborts : Nat → Ring.Link → T → Outcome
  | 0, _, s => raise s .brokenRing
  | _ + 1, .null, s => raise s .brokenRing
  | _ + 1, .head, s => ok s
  | fuel + 1, .elt id, s => runAborts fuel (Ring.next Abort.id s.abort id) (s.runAbort id)

def abortAll (s : T) : Outcome :=
  (runAborts (s.abort.length + 1) (Ring.link Abort.id s.abort) s).andThen fun s => ok s.evaluateIfEmpty

end T

inductive Op
  | addClient (client : Nat) (p : Push)
  | addSlackerRO (client : Nat)
  | addSlackerRW (client : Nat)
  | addAbort (releases : Bool)
  | release (id : Nat)
  | setUnhook (client : Nat)
  | teardown (client : Nat) (dies : Bool)
  | reset (client : Nat)
  | die (client : Nat) (again : Bool)
  | addDeathHandler (client : Nat)
  | kick (e : Slacker) (dies : Bool)
  | abortAll
  | flushClients (p : Push)
  | allowClients

/-- A kick fires only while it is scheduled. -/
def enabled (s : T) : Op → Prop
  | .kick e _ => e ∈ s.slackers ∧ e.kick = true
  | _ => True

def exec (s : T) : Op → Outcome
  | .addClient client p => s.addClient client p
  | .addSlackerRO client => ok (s.addSlackerRO client)
  | .addSlackerRW client => ok (s.addSlackerRW client)
  | .addAbort releases => ok (s.addAbort releases)
  | .release id => ok (s.release id)
  | .setUnhook client => ok (s.setUnhook client .other)
  | .teardown client dies => s.teardown client dies
  | .reset client => s.reset client
  | .die client again => s.die client again
  | .addDeathHandler client => ok (s.addDeathHandler client .cancelKill)
  | .kick e dies => s.kick e dies
  | .abortAll => s.abortAll
  | .flushClients p => s.flushClients p
  | .allowClients => ok s.allowClients

/-- An operation of a run: the state before it and what it did. -/
structure Step where
  before : T
  op : Op
  outcome : Outcome

/-- The state after the steps of a run, the last step first. -/
inductive Run : List Step → T → Prop
  | start : Run [] new
  | step {steps s} (op : Op) (run : Run steps s) (enabled : enabled s op) :
      Run ({ before := s, op := op, outcome := exec s op } :: steps) (exec s op).state

/-- A change of `empty` is followed by a call of `evaluate`. -/
def Reported (s s' : T) : Prop :=
  s.empty ≠ s'.empty → s.evaluated.length < s'.evaluated.length ∧ s'.evaluated.head? = some s'.empty

def Step.Good (step : Step) : Prop :=
  Reported step.before step.outcome.state ∧ step.outcome.raised ≠ some .brokenRing ∧
    step.outcome.raised ≠ some .option

/-- The step releases the only thing left. -/
def Step.ReleasesLast (step : Step) : Prop :=
  ∃ id e, step.op = .release id ∧ e.id = id ∧ step.before.clients = [] ∧ step.before.slackers = [] ∧
    step.before.abort = [e]

/-! ## Reporting -/

namespace T

/-- Whatever was reported is still true: nothing has changed since the last report, and a
change was reported. -/
def Tracked (s s' : T) : Prop :=
  ∃ calls, s'.evaluated = calls ++ s.evaluated ∧ (calls = [] → s'.empty = s.empty) ∧
    ∀ b, calls.head? = some b → b = s'.empty

theorem Tracked.refl (s : T) : Tracked s s := ⟨[], rfl, fun _ => rfl, by simp⟩

theorem Tracked.of_eq {s s' : T} (evaluated : s'.evaluated = s.evaluated) (empty : s'.empty = s.empty) :
    Tracked s s' :=
  ⟨[], evaluated, fun _ => empty, by simp⟩

theorem Tracked.trans {s₁ s₂ s₃ : T} (first : Tracked s₁ s₂) (second : Tracked s₂ s₃) :
    Tracked s₁ s₃ := by
  obtain ⟨calls, evaluated, same, last⟩ := first
  obtain ⟨calls', evaluated', same', last'⟩ := second
  refine ⟨calls' ++ calls, by rw [evaluated', evaluated, List.append_assoc], ?_, ?_⟩
  · intro none
    obtain ⟨none', none⟩ := List.append_eq_nil_iff.mp none
    rw [same' none', same none]
  · intro b found
    cases calls' with
    | nil =>
      rw [same' rfl]
      exact last b found
    | cons b' rest => exact last' b found

theorem Tracked.reported {s s' : T} (tracked : Tracked s s') : Reported s s' := by
  obtain ⟨calls, evaluated, same, last⟩ := tracked
  intro changed
  cases calls with
  | nil => exact absurd (same rfl).symm changed
  | cons b rest =>
    obtain rfl := last b rfl
    rw [evaluated]
    refine ⟨?_, rfl⟩
    rw [List.length_append, List.length_cons]
    omega

theorem Tracked.length_le {s s' : T} (tracked : Tracked s s') : s.evaluated.length ≤ s'.evaluated.length := by
  obtain ⟨calls, evaluated, -⟩ := tracked
  simp [evaluated]

@[simp] theorem empty_evaluate (s : T) : s.evaluate.empty = s.empty := rfl

/-- Elements may go as long as an empty outcome is reported. -/
theorem tracked_evaluateIfEmpty {s s' : T} (evaluated : s'.evaluated = s.evaluated)
    (shrunk : s.empty = true → s'.empty = true) : Tracked s s'.evaluateIfEmpty := by
  unfold evaluateIfEmpty
  split
  · rename_i empty
    exact ⟨[s'.empty], by simp [evaluate, evaluated], by simp, by rintro b ⟨⟩; rfl⟩
  · rename_i full
    refine .of_eq evaluated ?_
    cases empty : s.empty with
    | false => simpa using full
    | true => exact absurd (shrunk empty) full

theorem empty_iff (s : T) : s.empty = true ↔ s.clients = [] ∧ s.slackers = [] ∧ s.abort = [] := by
  simp [empty, and_assoc]

theorem tracked_removeSlacker (s : T) (id : Nat) : Tracked s (s.removeSlacker id).evaluateIfEmpty := by
  refine tracked_evaluateIfEmpty (show (s.removeSlacker id).evaluated = s.evaluated from rfl) ?_
  simp +contextual [empty_iff, removeSlacker]

theorem tracked_removeClient (s : T) (id : Nat) : Tracked s (s.removeClient id).evaluateIfEmpty := by
  refine tracked_evaluateIfEmpty (show (s.removeClient id).evaluated = s.evaluated from rfl) ?_
  simp +contextual [empty_iff, removeClient]

theorem tracked_runHook (s : T) (n : Nat) : Tracked s (s.runHook n) := by
  unfold runHook
  split
  · exact .refl s
  · exact .of_eq rfl rfl
  · exact .trans (.of_eq rfl rfl) (tracked_removeClient { s with hook := Function.update s.hook n .noop } _)
  · exact .trans (.of_eq rfl rfl) (tracked_removeSlacker { s with hook := Function.update s.hook n .noop } _)

theorem tracked_runHandlers (s : T) (handlers : List Handler) : Tracked s (s.runHandlers handlers) := by
  induction handlers generalizing s with
  | nil => exact .refl s
  | cons h rest ih =>
    refine .trans ?_ (ih (s.runHandler h))
    cases h with
    | destroy id => exact tracked_removeSlacker s id
    | cancelKill => exact .refl s

theorem tracked_setDeath (s : T) (n : Nat) (c : Chain) : Tracked s (s.setDeath n c) := .of_eq rfl rfl

theorem tracked_reset (s : T) (n : Nat) : Tracked s (s.reset n).state := by
  have tracked := ((tracked_runHook s n).trans (tracked_setDeath _ n { handlers := [], last := .noop })).trans
    (tracked_runHandlers _ ((s.runHook n).death n).handlers)
  simp only [reset]
  split
  · exact tracked.trans (tracked_setDeath _ n _)
  · exact tracked
  · exact tracked

theorem tracked_die (s : T) (n : Nat) (again : Bool) : Tracked s (s.die n again).state := by
  have tracked := tracked_runHandlers s (s.death n).handlers
  simp only [die]
  split
  · refine .trans ?_ (tracked_setDeath _ n { handlers := [], last := .bug })
    cases again with
    | false => exact tracked
    | true => exact (tracked.trans (tracked_runHook _ n)).trans (tracked_runHandlers _ _)
  · exact tracked
  · exact tracked

theorem tracked_andThen {s : T} {o : Outcome} {k : T → Outcome} (first : Tracked s o.state)
    (second : Tracked o.state (k o.state).state) : Tracked s (o.andThen k).state := by
  unfold Outcome.andThen
  split
  · exact first.trans second
  · exact first

theorem tracked_push (p : Push) (s : T) (client : Nat) : Tracked s (push p s client).state := by
  cases p with
  | none => exact tracked_reset s client
  | some known =>
    have added : Tracked s (s.addDeathHandler client .cancelKill) := .of_eq rfl rfl
    simp only [push, pushClient]
    split
    · exact added
    · exact added.trans (tracked_reset _ client)

theorem tracked_pushClients (s : T) (p : Push) (client : Nat) :
    Tracked s (s.pushClients p client).state := by
  unfold pushClients
  split
  · exact tracked_push p s client
  · exact .refl s

/-- An operation that lists an element reports it where it looked before it began. -/
theorem reported_listed {s s₁ s₂ : T} (grown : s.evaluated.length ≤ s₁.evaluated.length)
    (full : s₁.empty = false) (rest : Tracked s₁ s₂) :
    Reported s (if s.empty then s₂.evaluate else s₂) := by
  have longer := rest.length_le
  obtain ⟨calls, evaluated, same, last⟩ := rest
  cases before : s.empty with
  | true =>
    intro _
    refine ⟨?_, rfl⟩
    simp only [if_true, evaluate, List.length_cons]
    omega
  | false =>
    intro changed
    cases calls with
    | nil =>
      refine absurd ?_ changed
      simp [before, same rfl, full]
    | cons b calls =>
      obtain rfl := last b rfl
      simp only [Bool.false_eq_true, if_false, evaluated, List.length_append, List.length_cons,
        List.cons_append, List.head?_cons]
      exact ⟨by omega, trivial⟩

theorem tracked_listed {s s₁ : T} (evaluated : s₁.evaluated = s.evaluated) (full : s₁.empty = false) :
    Tracked s (if s.empty then s₁.evaluate else s₁) := by
  cases before : s.empty with
  | true => exact ⟨[s₁.empty], by simp [evaluate, evaluated], by simp, by rintro b ⟨⟩; rfl⟩
  | false => exact .of_eq evaluated (by simp [before, full])

theorem tracked_addSlackerRO (s : T) (client : Nat) : Tracked s (s.addSlackerRO client) := by
  refine tracked_listed rfl ?_
  simp [empty]

theorem tracked_addAbort (s : T) (releases : Bool) : Tracked s (s.addAbort releases) := by
  refine tracked_listed rfl ?_
  simp [empty]

theorem tracked_setUnhook (s : T) (n : Nat) (h : Hook) : Tracked s (s.setUnhook n h) :=
  (tracked_runHook s n).trans (.of_eq rfl rfl)

theorem reported_addSlackerRW (s : T) (client : Nat) : Reported s (s.addSlackerRW client) := by
  refine reported_listed ?_ ?_ (.refl _)
  · exact (tracked_setUnhook { s with fresh := s.fresh + 1 } client (.slacker s.fresh)).length_le
  · simp [empty]

theorem tracked_teardown (s : T) (n : Nat) (dies : Bool) : Tracked s (s.teardown n dies).state := by
  simp only [teardown]
  split
  · exact (tracked_runHook s n).trans (tracked_die _ n false)
  · exact tracked_runHook s n

theorem tracked_fired (s : T) (id : Nat) : Tracked s (s.fired id) := by
  refine .of_eq rfl ?_
  simp [empty, fired]

theorem tracked_kick (s : T) (e : Slacker) (dies : Bool) : Tracked s (s.kick e dies).state := by
  refine (tracked_fired s e.id).trans ?_
  simp only [kick]
  split
  · exact tracked_andThen (tracked_teardown _ _ dies) (tracked_addSlackerRO _ _)
  · exact tracked_reset _ _

theorem kickSlackersSoon_state (l : List Slacker) (s : T) : (kickSlackersSoon l s).state = s := by
  induction l with
  | nil => rfl
  | cons e rest ih =>
    simp only [kickSlackersSoon]
    split
    · exact ih
    · split
      · exact ih
      · rfl

theorem tracked_forget (s : T) (id : Nat) : Tracked s (s.forget id) := by
  refine .of_eq rfl ?_
  simp [empty, forget]

theorem tracked_pushListed (p : Push) (l : List Client) (s : T) : Tracked s (pushListed p l s).state := by
  induction l generalizing s with
  | nil => exact .refl s
  | cons e rest ih =>
    simp only [pushListed]
    split
    · exact ih s
    · refine .trans (tracked_forget s e.id) ?_
      split
      · exact tracked_andThen (tracked_push p _ _) (ih _)
      · exact ih _

theorem tracked_flushClients (s : T) (p : Push) : Tracked s (s.flushClients p).state := by
  simp only [flushClients]
  split
  · exact .refl s
  · have leaving : Tracked s { s with leaving := true } := .of_eq rfl rfl
    refine leaving.trans (tracked_andThen ?_ (tracked_pushListed p _ _))
    rw [kickSlackersSoon_state]
    exact .refl _

/-! ## The iteration over the abort functions -/

theorem runAbort_cons (s : T) (e : Abort) (rest : List Abort) (h : s.abort = e :: rest)
    (unique : (s.abort.map Abort.id).Nodup) : s.runAbort e.id = { s with abort := rest } := by
  rw [h, List.map_cons, List.nodup_cons] at unique
  have others : rest.filter (·.id ≠ e.id) = rest := by
    refine List.filter_eq_self.mpr ?_
    intro x hx
    simp only [decide_eq_true_eq]
    intro same
    exact unique.1 (same ▸ List.mem_map_of_mem hx)
  have kept : s.removeAbort e.id = { s with abort := rest } := by
    simp only [removeAbort, h]
    rw [List.filter_cons_of_neg (by simp), others]
  have found : s.abort.find? (·.id = e.id) = some e := by simp [h]
  simp only [runAbort, found]
  split
  · rw [release, kept]
    simp only [removeAbort]
    rw [others]
  · exact kept

/-- Each function is called once, and the iteration finds its way. -/
theorem runAborts_eq (l : List Abort) (s : T) (h : s.abort = l) (unique : (l.map Abort.id).Nodup) :
    runAborts (l.length + 1) (Ring.link Abort.id l) s = ok { s with abort := [] } := by
  induction l generalizing s with
  | nil =>
    show ok s = ok { s with abort := [] }
    rw [← h]
  | cons e rest ih =>
    have following : Ring.next Abort.id s.abort e.id = Ring.link Abort.id rest := by
      simp [Ring.next, Ring.after, h]
    rw [← h] at unique
    rw [Ring.link, List.length_cons, runAborts, following, runAbort_cons s e rest h unique]
    rw [h, List.map_cons, List.nodup_cons] at unique
    exact ih { s with abort := rest } rfl unique.2

theorem abortAll_eq (s : T) (unique : (s.abort.map Abort.id).Nodup) :
    s.abortAll = ok { s with abort := [] }.evaluateIfEmpty := by
  rw [abortAll, runAborts_eq s.abort s rfl unique]
  rfl

theorem tracked_abortAll (s : T) (unique : (s.abort.map Abort.id).Nodup) :
    Tracked s s.abortAll.state := by
  rw [abortAll_eq s unique]
  refine tracked_evaluateIfEmpty (show ({ s with abort := [] } : T).evaluated = s.evaluated from rfl) ?_
  simp +contextual [empty_iff]

/-! ## What is listed -/

theorem runHandlers_spec (s : T) (handlers : List Handler) :
    (∀ x, x ∈ (s.runHandlers handlers).slackers ↔ x ∈ s.slackers ∧ Handler.destroy x.id ∉ handlers) ∧
      (s.runHandlers handlers).hook = s.hook ∧ (s.runHandlers handlers).death = s.death ∧
      (s.runHandlers handlers).clients = s.clients ∧ (s.runHandlers handlers).abort = s.abort ∧
      (s.runHandlers handlers).fresh = s.fresh := by
  induction handlers generalizing s with
  | nil => simp [runHandlers]
  | cons h rest ih =>
    obtain ⟨slackers, ih⟩ := ih (s.runHandler h)
    cases h with
    | cancelKill =>
      refine ⟨?_, ih⟩
      intro x
      rw [show s.runHandlers (.cancelKill :: rest) = s.runHandlers rest from rfl]
      simpa [runHandler] using slackers x
    | destroy id =>
      have left : (s.runHandler (.destroy id)).slackers = s.slackers.filter (·.id ≠ id) ∧
          (s.runHandler (.destroy id)).hook = s.hook ∧ (s.runHandler (.destroy id)).death = s.death ∧
          (s.runHandler (.destroy id)).clients = s.clients ∧ (s.runHandler (.destroy id)).abort = s.abort ∧
          (s.runHandler (.destroy id)).fresh = s.fresh := by
        simp only [runHandler, evaluateIfEmpty]
        split <;> simp [evaluate, removeSlacker]
      obtain ⟨here, others⟩ := left
      simp only [others] at ih
      refine ⟨?_, ih⟩
      intro x
      rw [show s.runHandlers (.destroy id :: rest) = (s.runHandler (.destroy id)).runHandlers rest from rfl,
        slackers x, here]
      simp [and_assoc]

theorem runHook_spec (s : T) (n : Nat) :
    (∀ x, x ∈ (s.runHook n).slackers ↔ x ∈ s.slackers ∧ s.hook n ≠ .slacker x.id) ∧
      (∀ x ∈ (s.runHook n).clients, x ∈ s.clients ∧ s.hook n ≠ .client x.id) ∧
      (s.runHook n).hook = Function.update s.hook n .noop ∧ (s.runHook n).death = s.death ∧
      (s.runHook n).abort = s.abort ∧ (s.runHook n).fresh = s.fresh := by
  unfold runHook
  split <;> rename_i hook
  · have same : Function.update s.hook n .noop = s.hook := by
      rw [← hook, update_eq_self]
    simp [hook, same]
  · simp [hook]
  · rename_i id
    have swap : ∀ x : Nat, Hook.client id ≠ Hook.client x ↔ x ≠ id := by
      intro x
      rw [ne_eq, Hook.client.injEq, ne_comm]
    simp only [evaluateIfEmpty]
    split <;> simp [hook, evaluate, removeClient, swap]
  · rename_i id
    have swap : ∀ x : Nat, Hook.slacker id ≠ Hook.slacker x ↔ x ≠ id := by
      intro x
      rw [ne_eq, Hook.slacker.injEq, ne_comm]
    simp only [evaluateIfEmpty]
    split <;> simp [hook, evaluate, removeSlacker, swap]

/-- What every listed element and its neighbour agree on. At most the kick of the slacker
`late` has fired. -/
structure Inv (s : T) (late : Option Nat) : Prop where
  aborts : (s.abort.map Abort.id).Nodup
  abortFresh : ∀ e ∈ s.abort, e.id < s.fresh
  scheduled : ∀ e ∈ s.slackers, some e.id ≠ late → e.kick = true
  destroyed : ∀ e ∈ s.slackers, e.rw = false → Handler.destroy e.id ∈ (s.death e.slacker).handlers
  hooked : ∀ e ∈ s.slackers, e.rw = true → s.hook e.slacker = .slacker e.id

variable {s : T} {late : Option Nat}

theorem Inv.of_eq {s' : T} (inv : Inv s late) (abort : s'.abort = s.abort) (fresh : s.fresh ≤ s'.fresh)
    (slackers : ∀ e ∈ s'.slackers, e ∈ s.slackers)
    (destroyed : ∀ e ∈ s'.slackers, Handler.destroy e.id ∈ (s.death e.slacker).handlers →
      Handler.destroy e.id ∈ (s'.death e.slacker).handlers)
    (hooked : ∀ e ∈ s'.slackers, e.rw = true → s'.hook e.slacker = s.hook e.slacker) : Inv s' late where
  aborts := abort ▸ inv.aborts
  abortFresh := by
    intro e he
    rw [abort] at he
    exact Nat.lt_of_lt_of_le (inv.abortFresh e he) fresh
  scheduled := by
    intro e he
    exact inv.scheduled e (slackers e he)
  destroyed := by
    intro e he ro
    exact destroyed e he (inv.destroyed e (slackers e he) ro)
  hooked := by
    intro e he rw_
    exact (hooked e he rw_).trans (inv.hooked e (slackers e he) rw_)

theorem Inv.runHook (inv : Inv s late) (n : Nat) : Inv (s.runHook n) late := by
  obtain ⟨slackers, -, hook, death, abort, fresh⟩ := runHook_spec s n
  refine inv.of_eq abort (Nat.le_of_eq fresh.symm) (fun e he => ((slackers e).mp he).1) ?_ ?_
  · intro e _ found
    rwa [death]
  · intro e he rw_
    obtain ⟨listed, other⟩ := (slackers e).mp he
    have mine := inv.hooked e listed rw_
    rw [hook, update_of_ne]
    rintro same
    exact other (same ▸ mine)

/-- After the unhook no slacker of the neighbour is hooked any more. -/
theorem Inv.runHook_rw (inv : Inv s late) (n : Nat) :
    ∀ e ∈ (s.runHook n).slackers, e.slacker = n → e.rw = false := by
  obtain ⟨slackers, -⟩ := runHook_spec s n
  intro e he same
  obtain ⟨listed, other⟩ := (slackers e).mp he
  by_contra rw_
  simp only [Bool.not_eq_false] at rw_
  exact other (same ▸ inv.hooked e listed rw_)

theorem Inv.setUnhook (inv : Inv s late) (n : Nat) (h : Hook) : Inv (s.setUnhook n h) late := by
  refine (inv.runHook n).of_eq rfl (Nat.le_refl _) (fun e he => he) (fun e _ found => found) ?_
  intro e he rw_
  refine update_of_ne ?_ _ _
  intro same
  simp [inv.runHook_rw n e he same] at rw_

theorem Inv.runHandlers (inv : Inv s late) (handlers : List Handler) : Inv (s.runHandlers handlers) late := by
  obtain ⟨slackers, hook, death, -, abort, fresh⟩ := runHandlers_spec s handlers
  refine inv.of_eq abort (Nat.le_of_eq fresh.symm) (fun e he => ((slackers e).mp he).1) ?_ ?_
  · intro e _ found
    rwa [death]
  · intro e _ _
    rw [hook]

/-- Once its handlers have run a neighbour has no slacker listed for reading only. -/
theorem Inv.runHandlers_ro (inv : Inv s late) (n : Nat) :
    ∀ e ∈ (s.runHandlers (s.death n).handlers).slackers, e.slacker = n → e.rw = true := by
  obtain ⟨slackers, -⟩ := runHandlers_spec s (s.death n).handlers
  intro e he same
  obtain ⟨listed, other⟩ := (slackers e).mp he
  by_contra ro
  simp only [Bool.not_eq_true] at ro
  exact other (same ▸ inv.destroyed e listed ro)

/-- The chain of a neighbour may be replaced once its handlers have run. -/
theorem Inv.setDeath (inv : Inv s late) (n : Nat) (c : Chain)
    (none : ∀ e ∈ s.slackers, e.slacker = n → e.rw = true) : Inv (s.setDeath n c) late where
  aborts := inv.aborts
  abortFresh := inv.abortFresh
  scheduled := inv.scheduled
  destroyed := by
    intro e he ro
    have other : e.slacker ≠ n := by
      intro same
      simp [none e he same] at ro
    simpa [T.setDeath, update_of_ne other] using inv.destroyed e he ro
  hooked := inv.hooked

theorem runHandlers_setDeath (s : T) (n : Nat) (c : Chain) (handlers : List Handler) :
    (s.setDeath n c).runHandlers handlers = (s.runHandlers handlers).setDeath n c := by
  induction handlers generalizing s with
  | nil => rfl
  | cons h rest ih =>
    have step : (s.setDeath n c).runHandler h = (s.runHandler h).setDeath n c := by
      cases h with
      | cancelKill => rfl
      | destroy id =>
        simp only [runHandler, evaluateIfEmpty]
        rw [show ((s.setDeath n c).removeSlacker id).empty = (s.removeSlacker id).empty from rfl]
        split <;> rfl
    exact (congrArg (fun t => T.runHandlers t rest) step).trans (ih (s.runHandler h))

@[simp] theorem setDeath_setDeath (s : T) (n : Nat) (c c' : Chain) :
    (s.setDeath n c).setDeath n c' = s.setDeath n c' := by
  simp [setDeath]

/-- What a reset leaves, whatever the end of the chain. -/
theorem reset_state (s : T) (n : Nat) : ∃ c,
    (s.reset n).state = ((s.runHook n).runHandlers ((s.runHook n).death n).handlers).setDeath n c := by
  simp only [reset, runHandlers_setDeath]
  split
  · exact ⟨_, setDeath_setDeath _ _ _ _⟩
  · exact ⟨_, rfl⟩
  · exact ⟨_, rfl⟩

theorem Inv.reset (inv : Inv s late) (n : Nat) : Inv (s.reset n).state late := by
  obtain ⟨c, left⟩ := reset_state s n
  rw [left]
  exact ((inv.runHook n).runHandlers _).setDeath n c ((inv.runHook n).runHandlers_ro n)

theorem Inv.die (inv : Inv s late) (n : Nat) (again : Bool) : Inv (s.die n again).state late := by
  have ran := inv.runHandlers (s.death n).handlers
  have gone := inv.runHandlers_ro n
  simp only [T.die]
  split
  · cases again with
    | false => exact ran.setDeath n _ gone
    | true =>
      refine ((ran.runHook n).runHandlers _).setDeath n { handlers := [], last := .bug } ?_
      intro e he
      exact gone e (((runHook_spec _ n).1 e).mp (((runHandlers_spec _ _).1 e).mp he).1).1
  · exact ran
  · exact ran

theorem Inv.addDeathHandler (inv : Inv s late) (n : Nat) (h : Handler) : Inv (s.addDeathHandler n h) late := by
  refine inv.of_eq rfl (Nat.le_refl _) (fun e he => he) ?_ (fun e _ _ => rfl)
  intro e _ found
  simp only [T.addDeathHandler]
  by_cases same : e.slacker = n
  · subst same
    simp [found]
  · simpa [update_of_ne same] using found

theorem Inv.push (inv : Inv s late) (p : Push) (client : Nat) : Inv (push p s client).state late := by
  cases p with
  | none => exact inv.reset client
  | some known =>
    simp only [T.push, pushClient]
    split
    · exact inv.addDeathHandler client _
    · exact (inv.addDeathHandler client _).reset client

theorem Inv.pushClients (inv : Inv s late) (p : Push) (client : Nat) :
    Inv (s.pushClients p client).state late := by
  unfold T.pushClients
  split
  · exact inv.push p client
  · exact inv

theorem Inv.evaluate (inv : Inv s late) : Inv s.evaluate late :=
  inv.of_eq rfl (Nat.le_refl _) (fun _ he => he) (fun _ _ h => h) (fun _ _ _ => rfl)

theorem Inv.ite (inv : Inv s late) (needEval : Bool) : Inv (if needEval then s.evaluate else s) late := by
  split
  · exact inv.evaluate
  · exact inv

theorem Inv.fresh (inv : Inv s late) : Inv { s with fresh := s.fresh + 1 } late :=
  inv.of_eq rfl (Nat.le_succ _) (fun _ he => he) (fun _ _ h => h) (fun _ _ _ => rfl)

theorem Inv.withClients (inv : Inv s late) (clients : List Client) : Inv { s with clients := clients } late :=
  inv.of_eq rfl (Nat.le_refl _) (fun _ he => he) (fun _ _ h => h) (fun _ _ _ => rfl)

theorem inv_andThen {o : Outcome} {k : T → Outcome} (first : Inv o.state late)
    (second : Inv (k o.state).state late) : Inv (o.andThen k).state late := by
  unfold Outcome.andThen
  split
  · exact second
  · exact first

theorem Inv.addClient (inv : Inv s late) (client : Nat) (p : Push) : Inv (s.addClient client p).state late := by
  refine inv_andThen ?_ (Inv.ite ?_ _)
  all_goals
    apply Inv.pushClients
    apply Inv.withClients
    exact inv.fresh.setUnhook client (.client s.fresh)

theorem Inv.addSlackerRO (inv : Inv s late) (client : Nat) : Inv (s.addSlackerRO client) late := by
  refine Inv.ite ?_ _
  have added := inv.fresh.addDeathHandler client (.destroy s.fresh)
  exact {
    aborts := added.aborts
    abortFresh := added.abortFresh
    scheduled := by
      intro e he
      rcases List.mem_cons.mp he with rfl | he
      · exact fun _ => rfl
      · exact added.scheduled e he
    destroyed := by
      intro e he
      rcases List.mem_cons.mp he with rfl | he
      · intro _
        simp [T.addDeathHandler]
      · exact added.destroyed e he
    hooked := by
      intro e he
      rcases List.mem_cons.mp he with rfl | he
      · intro rw_
        cases rw_
      · exact added.hooked e he }

theorem Inv.addSlackerRW (inv : Inv s late) (client : Nat) : Inv (s.addSlackerRW client) late := by
  refine Inv.ite ?_ _
  have added := inv.fresh.setUnhook client (.slacker s.fresh)
  exact {
    aborts := added.aborts
    abortFresh := added.abortFresh
    scheduled := by
      intro e he
      rcases List.mem_cons.mp he with rfl | he
      · exact fun _ => rfl
      · exact added.scheduled e he
    destroyed := by
      intro e he
      rcases List.mem_cons.mp he with rfl | he
      · intro ro
        cases ro
      · exact added.destroyed e he
    hooked := by
      intro e he
      rcases List.mem_cons.mp he with rfl | he
      · intro _
        simp [T.setUnhook]
      · exact added.hooked e he }

theorem Inv.addAbort (inv : Inv s late) (releases : Bool) : Inv (s.addAbort releases) late := by
  refine Inv.ite ?_ _
  exact {
    aborts := by
      refine List.nodup_cons.mpr ⟨?_, inv.aborts⟩
      intro found
      obtain ⟨e, he, same⟩ := List.mem_map.mp found
      have := inv.abortFresh e he
      simp only at same
      omega
    abortFresh := by
      intro e he
      rcases List.mem_cons.mp he with rfl | he
      · exact Nat.lt_succ_self _
      · exact Nat.lt_succ_of_lt (inv.abortFresh e he)
    scheduled := inv.scheduled
    destroyed := inv.destroyed
    hooked := inv.hooked }

theorem Inv.withAborts (inv : Inv s late) {aborts : List Abort} (sub : aborts.Sublist s.abort) :
    Inv { s with abort := aborts } late where
  aborts := inv.aborts.sublist (sub.map Abort.id)
  abortFresh := by
    intro e he
    exact inv.abortFresh e (sub.subset he)
  scheduled := inv.scheduled
  destroyed := inv.destroyed
  hooked := inv.hooked

theorem Inv.teardown (inv : Inv s late) (n : Nat) (dies : Bool) : Inv (s.teardown n dies).state late := by
  simp only [T.teardown]
  split
  · exact (inv.runHook n).die n false
  · exact inv.runHook n

theorem Inv.inTime {id : Nat} (inv : Inv s (some id)) (gone : ∀ e ∈ s.slackers, e.id ≠ id) : Inv s none where
  aborts := inv.aborts
  abortFresh := inv.abortFresh
  scheduled := by
    intro e he _
    refine inv.scheduled e he ?_
    simpa using gone e he
  destroyed := inv.destroyed
  hooked := inv.hooked

theorem Inv.fired (inv : Inv s none) (id : Nat) : Inv (s.fired id) (some id) where
  aborts := inv.aborts
  abortFresh := inv.abortFresh
  scheduled := by
    intro e he other
    obtain ⟨x, hx, rfl⟩ := List.mem_map.mp he
    by_cases same : x.id = id
    · simp [same] at other
    · simpa [same] using inv.scheduled x hx (by simp)
  destroyed := by
    intro e he ro
    obtain ⟨x, hx, rfl⟩ := List.mem_map.mp he
    have found := inv.destroyed x hx (by split at ro <;> exact ro)
    split <;> exact found
  hooked := by
    intro e he rw_
    obtain ⟨x, hx, rfl⟩ := List.mem_map.mp he
    have found := inv.hooked x hx (by split at rw_ <;> exact rw_)
    split <;> exact found

theorem die_slackers (s : T) (n : Nat) (again : Bool) : ∀ e ∈ (s.die n again).state.slackers, e ∈ s.slackers := by
  intro e he
  have first : ∀ (s : T) (l : List Handler), e ∈ (s.runHandlers l).slackers → e ∈ s.slackers := by
    intro s l h
    exact (((runHandlers_spec s l).1 e).mp h).1
  simp only [die] at he
  split at he
  · cases again with
    | false => exact first _ _ he
    | true => exact first _ _ (((runHook_spec _ n).1 e).mp (first _ _ he)).1
  · exact first _ _ he
  · exact first _ _ he

/-- A slacker that is being kicked is taken off the list by it. -/
theorem Inv.kick (inv : Inv s none) {e : Slacker} (he : e ∈ s.slackers) (dies : Bool) :
    Inv (s.kick e dies).state none := by
  have late := inv.fired e.id
  simp only [T.kick]
  split
  · rename_i rw_
    have unhooked : ∀ x ∈ ((s.fired e.id).runHook e.slacker).slackers, x.id ≠ e.id := by
      intro x hx same
      refine (((runHook_spec _ _).1 x).mp hx).2 ?_
      rw [same]
      exact inv.hooked e he rw_
    have torn : Inv ((s.fired e.id).teardown e.slacker dies).state none := by
      refine (late.teardown e.slacker dies).inTime ?_
      intro x hx
      simp only [T.teardown] at hx
      split at hx
      · exact unhooked x (die_slackers _ _ _ x hx)
      · exact unhooked x hx
    exact inv_andThen torn (torn.addSlackerRO _)
  · rename_i ro
    refine (late.reset e.slacker).inTime ?_
    obtain ⟨c, left⟩ := reset_state (s.fired e.id) e.slacker
    rw [left]
    intro x hx same
    refine (((runHandlers_spec _ _).1 x).mp hx).2 ?_
    rw [same, (runHook_spec _ _).2.2.2.1]
    exact inv.destroyed e he (by simpa using ro)

theorem Inv.pushListed (inv : Inv s late) (p : Push) (l : List Client) : Inv (pushListed p l s).state late := by
  induction l generalizing s with
  | nil => exact inv
  | cons e rest ih =>
    simp only [T.pushListed]
    split
    · exact ih inv
    · have forgotten : Inv (s.forget e.id) late := inv.withClients _
      split
      · exact inv_andThen (forgotten.push p _) (ih (forgotten.push p _))
      · exact ih forgotten

theorem Inv.flushClients (inv : Inv s late) (p : Push) : Inv (s.flushClients p).state late := by
  simp only [T.flushClients]
  split
  · exact inv
  · have leaving : Inv { s with leaving := true } late :=
      inv.of_eq rfl (Nat.le_refl _) (fun _ he => he) (fun _ _ h => h) (fun _ _ _ => rfl)
    refine inv_andThen ?_ (Inv.pushListed ?_ p _) <;>
    · rw [kickSlackersSoon_state]
      exact leaving

/-- No listed slacker is without a scheduled kick. -/
theorem kickSlackersSoon_raised (l : List Slacker) (scheduled : ∀ e ∈ s.slackers, e.kick = true) :
    (kickSlackersSoon l s).raised = none := by
  induction l with
  | nil => rfl
  | cons e rest ih =>
    simp only [kickSlackersSoon]
    split
    · exact ih
    · rename_i now found
      rw [if_pos (scheduled now (List.mem_of_find?_eq_some found))]
      exact ih

end T

/-- The only exception is the neighbour's. -/
def Outcome.Sound (o : Outcome) : Prop := ∀ e, o.raised = some e → e = .diedTwice

namespace T

theorem sound_ok (s : T) : (ok s).Sound := by
  intro e raised
  cases raised

theorem sound_andThen {o : Outcome} {k : T → Outcome} (first : o.Sound) (second : (k o.state).Sound) :
    (o.andThen k).Sound := by
  unfold Outcome.andThen
  split
  · exact second
  · exact first

theorem sound_reset (s : T) (n : Nat) : (s.reset n).Sound := by
  intro e raised
  simp only [reset] at raised
  split at raised
  · cases raised
  · cases raised
  · exact (Option.some.inj raised).symm

theorem sound_die (s : T) (n : Nat) (again : Bool) : (s.die n again).Sound := by
  intro e raised
  simp only [die] at raised
  split at raised
  · cases raised
  · cases raised
  · exact (Option.some.inj raised).symm

theorem sound_push (p : Push) (s : T) (client : Nat) : (push p s client).Sound := by
  cases p with
  | none => exact sound_reset s client
  | some known =>
    simp only [push, pushClient]
    split
    · exact sound_ok _
    · exact sound_reset _ client

theorem sound_pushClients (s : T) (p : Push) (client : Nat) : (s.pushClients p client).Sound := by
  unfold pushClients
  split
  · exact sound_push p s client
  · exact sound_ok s

theorem sound_teardown (s : T) (n : Nat) (dies : Bool) : (s.teardown n dies).Sound := by
  simp only [teardown]
  split
  · exact sound_die _ n false
  · exact sound_ok _

theorem sound_kick (s : T) (e : Slacker) (dies : Bool) : (s.kick e dies).Sound := by
  simp only [kick]
  split
  · exact sound_andThen (sound_teardown _ _ dies) (sound_ok _)
  · exact sound_reset _ _

theorem sound_pushListed (p : Push) (l : List Client) (s : T) : (pushListed p l s).Sound := by
  induction l generalizing s with
  | nil => exact sound_ok s
  | cons e rest ih =>
    simp only [pushListed]
    split
    · exact ih s
    · split
      · exact sound_andThen (sound_push p _ _) (ih _)
      · exact ih _

theorem Inv.sound_flushClients (inv : Inv s none) (p : Push) : (s.flushClients p).Sound := by
  simp only [T.flushClients]
  split
  · exact sound_ok s
  · refine sound_andThen ?_ (sound_pushListed p _ _)
    intro e raised
    rw [kickSlackersSoon_raised] at raised
    · cases raised
    · exact fun e he => inv.scheduled e he (by simp)

/-! ## The operations -/

/-- A reset takes the last client with it. -/
theorem emptied_reset (s : T) (n : Nat) (clients : ∀ x ∈ s.clients, s.hook n = .client x.id)
    (slackers : s.slackers = []) (abort : s.abort = []) : (s.reset n).state.empty = true := by
  obtain ⟨c, left⟩ := reset_state s n
  obtain ⟨unhooked, gone, -, -, aborts, -⟩ := runHook_spec s n
  obtain ⟨ran, -, -, same, aborts', -⟩ := runHandlers_spec (s.runHook n) ((s.runHook n).death n).handlers
  rw [left, empty_iff]
  refine ⟨?_, ?_, ?_⟩
  · refine List.eq_nil_iff_forall_not_mem.mpr ?_
    intro x hx
    have listed : x ∈ (s.runHook n).clients := same ▸ hx
    exact (gone x listed).2 (clients x (gone x listed).1)
  · refine List.eq_nil_iff_forall_not_mem.mpr ?_
    intro x hx
    have listed := ((unhooked x).mp ((ran x).mp hx).1).1
    rw [slackers] at listed
    cases listed
  · exact (aborts'.trans aborts).trans abort

/-- When listing the client raises, it has been taken off again. -/
theorem pushClients_raised (s : T) (p : Push) (n : Nat) (raised : (s.pushClients p n).raised ≠ none)
    (clients : ∀ x ∈ s.clients, s.hook n = .client x.id) (slackers : s.slackers = [])
    (abort : s.abort = []) : (s.pushClients p n).state.empty = true := by
  unfold pushClients at raised ⊢
  split at raised
  · rename_i leaving
    rw [if_pos leaving]
    cases p with
    | none => exact emptied_reset s n clients slackers abort
    | some known =>
      simp only [push, pushClient] at raised ⊢
      split at raised
      · exact absurd rfl raised
      · rename_i unknown
        rw [if_neg unknown]
        exact emptied_reset _ n clients slackers abort
  · exact absurd rfl raised

theorem reported_addClient (s : T) (client : Nat) (p : Push) : Reported s (s.addClient client p).state := by
  have hooked := tracked_setUnhook { s with fresh := s.fresh + 1 } client (.client s.fresh)
  simp only [addClient]
  generalize listed : ({ ({ s with fresh := s.fresh + 1 } : T).setUnhook client (.client s.fresh) with
    clients := { id := s.fresh, client := client, makeClient := true } ::
      (({ s with fresh := s.fresh + 1 } : T).setUnhook client (.client s.fresh)).clients } : T) = s₁
  have grown : s.evaluated.length ≤ s₁.evaluated.length := by
    rw [← listed]
    exact hooked.length_le
  have full : s₁.empty = false := by
    rw [← listed]
    simp [empty]
  have report := reported_listed grown full (tracked_pushClients s₁ p client)
  cases raised : (s₁.pushClients p client).raised with
  | none => simpa [Outcome.andThen, raised, ok] using report
  | some e =>
    simp only [Outcome.andThen, raised]
    cases before : s.empty with
    | false => simpa [before] using report
    | true =>
      -- nothing was listed before, and the client is not any more
      obtain ⟨clients, slackers, abort⟩ := (empty_iff s).mp before
      obtain ⟨unhooked, gone, -, -, aborts, -⟩ := runHook_spec { s with fresh := s.fresh + 1 } client
      intro changed
      refine absurd ?_ changed
      rw [before]
      refine (pushClients_raised s₁ p client (by simp [raised]) ?_ ?_ ?_).symm
      · rw [← listed]
        intro x hx
        rcases List.mem_cons.mp hx with rfl | hx
        · simp [setUnhook]
        · have found := (gone x hx).1
          simp [clients] at found
      · rw [← listed]
        refine List.eq_nil_iff_forall_not_mem.mpr ?_
        intro x hx
        have found := ((unhooked x).mp hx).1
        simp [slackers] at found
      · rw [← listed]
        exact aborts.trans abort

theorem inv_exec (inv : Inv s none) (op : Op) (enabled : enabled s op) : Inv (exec s op).state none := by
  cases op with
  | addClient client p => exact inv.addClient client p
  | addSlackerRO client => exact inv.addSlackerRO client
  | addSlackerRW client => exact inv.addSlackerRW client
  | addAbort releases => exact inv.addAbort releases
  | release id => exact inv.withAborts List.filter_sublist
  | setUnhook client => exact inv.setUnhook client .other
  | teardown client dies => exact inv.teardown client dies
  | reset client => exact inv.reset client
  | die client again => exact inv.die client again
  | addDeathHandler client => exact inv.addDeathHandler client .cancelKill
  | kick e dies => exact inv.kick enabled.1 dies
  | abortAll =>
    have none := inv.withAborts (List.nil_sublist s.abort)
    rw [exec, abortAll_eq s inv.aborts]
    exact none.ite _
  | flushClients p => exact inv.flushClients p
  | allowClients =>
    exact inv.of_eq rfl (Nat.le_refl _) (fun _ he => he) (fun _ _ h => h) (fun _ _ _ => rfl)

theorem sound_exec (inv : Inv s none) (op : Op) : (exec s op).Sound := by
  cases op with
  | addClient client p => exact sound_andThen (sound_pushClients _ p client) (sound_ok _)
  | teardown client dies => exact sound_teardown s client dies
  | reset client => exact sound_reset s client
  | die client again => exact sound_die s client again
  | kick e dies => exact sound_kick s e dies
  | abortAll =>
    rw [exec, abortAll_eq s inv.aborts]
    exact sound_ok _
  | flushClients p => exact inv.sound_flushClients p
  | _ => exact sound_ok _

/-- Every operation reports what it changes, or it is a release. -/
theorem reported_exec (inv : Inv s none) (op : Op) (other : ∀ id, op ≠ .release id) :
    Reported s (exec s op).state := by
  cases op with
  | addClient client p => exact reported_addClient s client p
  | addSlackerRO client => exact (tracked_addSlackerRO s client).reported
  | addSlackerRW client => exact reported_addSlackerRW s client
  | addAbort releases => exact (tracked_addAbort s releases).reported
  | release id => exact absurd rfl (other id)
  | setUnhook client => exact (tracked_setUnhook s client .other).reported
  | teardown client dies => exact (tracked_teardown s client dies).reported
  | reset client => exact (tracked_reset s client).reported
  | die client again => exact (tracked_die s client again).reported
  | addDeathHandler client => exact (Tracked.of_eq rfl rfl : Tracked s _).reported
  | kick e dies => exact (tracked_kick s e dies).reported
  | abortAll => exact (tracked_abortAll s inv.aborts).reported
  | flushClients p => exact (tracked_flushClients s p).reported
  | allowClients => exact (Tracked.of_eq rfl rfl : Tracked s _).reported

/-- A release reports nothing, so it must not empty the rings. -/
theorem reported_release (unique : (s.abort.map Abort.id).Nodup) (id : Nat) :
    Reported s (s.release id) ↔
      ¬ ∃ e, e.id = id ∧ s.clients = [] ∧ s.slackers = [] ∧ s.abort = [e] := by
  have silent : Reported s (s.release id) ↔ s.empty = (s.release id).empty := by
    constructor
    · intro report
      by_contra changed
      exact absurd (report changed).1 (Nat.lt_irrefl _)
    · intro same changed
      exact absurd same changed
  rw [silent]
  constructor
  · rintro same ⟨e, rfl, clients, slackers, abort⟩
    simp [empty, release, removeAbort, clients, slackers, abort] at same
  · intro others
    cases left : (s.release id).empty with
    | false =>
      by_contra full
      obtain ⟨clients, slackers, abort⟩ := (empty_iff s).mp (by simpa using full)
      simp [empty, release, removeAbort, clients, slackers, abort] at left
    | true =>
      obtain ⟨clients, slackers, none⟩ := (empty_iff _).mp left
      have only : ∀ e ∈ s.abort, e.id = id := by
        intro e he
        by_contra other
        have kept : e ∈ (s.release id).abort := List.mem_filter.mpr ⟨he, by simpa using other⟩
        rw [none] at kept
        cases kept
      refine (empty_iff s).mpr ⟨clients, slackers, ?_⟩
      cases abort : s.abort with
      | nil => rfl
      | cons e rest =>
        cases rest with
        | nil => exact absurd ⟨e, only e (by simp [abort]), clients, slackers, abort⟩ others
        | cons e' rest =>
          have first := only e (by simp [abort])
          have second := only e' (by simp [abort])
          simp [abort, first, second] at unique

end T

theorem Run.inv {steps : List Step} {s : T} (run : Run steps s) : s.Inv none := by
  induction run with
  | start => constructor <;> simp [new]
  | step op _ enabled ih => exact T.inv_exec ih op enabled

/-- In every run each operation reports the emptiness it changes, no iteration breaks and no
kick is missing, if and only if no step releases the only thing left. -/
theorem reported_iff {steps : List Step} {s : T} (run : Run steps s) :
    (∀ step ∈ steps, step.Good) ↔ ∀ step ∈ steps, ¬ step.ReleasesLast := by
  induction run with
  | start => simp
  | @step steps s op run enabled ih =>
    have inv := run.inv
    have sound := T.sound_exec inv op
    have unbroken : (exec s op).raised ≠ some .brokenRing ∧ (exec s op).raised ≠ some .option := by
      constructor <;>
      · intro raised
        cases sound _ raised
    have here : Step.Good { before := s, op := op, outcome := exec s op } ↔
        ¬ Step.ReleasesLast { before := s, op := op, outcome := exec s op } := by
      by_cases releasing : ∃ id, op = .release id
      · obtain ⟨id, rfl⟩ := releasing
        have := T.reported_release inv.aborts id
        simp only [Step.Good, Step.ReleasesLast, unbroken, ne_eq, not_false_eq_true, and_true,
          Op.release.injEq, exists_and_left, exists_eq_left']
        exact this
      · refine iff_of_true ⟨T.reported_exec inv op ?_, unbroken⟩ ?_
        · intro id same
          exact releasing ⟨id, same⟩
        · rintro ⟨id, e, same, -⟩
          exact releasing ⟨id, same⟩
    simp only [List.forall_mem_cons, here, ih]

/-- The witness and the failing run: a contact is begun while nothing is listed. -/
def contacting : T := (exec new (.addAbort false)).state

theorem reported_iff_contact :
    Step.Good { before := contacting, op := .abortAll, outcome := exec contacting .abortAll } ∧
      Step.Good { before := new, op := .addAbort false, outcome := exec new (.addAbort false) } := by
  have run := (Run.start.step (.addAbort false) trivial).step .abortAll trivial
  have good := (reported_iff run).mpr (by
    intro step found
    rcases List.mem_cons.mp found with rfl | found
    · rintro ⟨id, e, same, -⟩
      cases same
    · obtain rfl := List.mem_singleton.mp found
      rintro ⟨id, e, same, -⟩
      cases same)
  exact ⟨good _ List.mem_cons_self, good _ (List.mem_cons_of_mem _ List.mem_cons_self)⟩

/-- A failed contact empties the rings, and nobody is told. -/
theorem release_unreported : ∃ steps s, Run steps s ∧ ∃ step ∈ steps, ¬ step.Good := by
  have run := (Run.start.step (.addAbort false) trivial).step (.release 0) trivial
  refine ⟨_, _, run, _, List.mem_cons_self, ?_⟩
  rintro ⟨report, -⟩
  have changed := report (by decide)
  exact absurd changed.1 (by decide)

end Clients
end BubbleStorm.Topology
