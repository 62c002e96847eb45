/-
  BubbleStorm.Topology.NeighbourProofs — every death handler of a neighbour runs once.

  `Inv` lists the shapes of the calls that are still to be made, with what holds of the
  neighbour in each: it is alive with its whole chain; the chain is being run where it is,
  and nothing can reach the neighbour any more; the chain was taken off, and whatever
  reaches the neighbour runs nothing; or it is dead. Proved:
  - `Inv.steps`: each call keeps it, and none dies twice;
  - `inv_alive`, `inv_dead`: so does each event;
  - `death_once`: the handlers run at most once, and once both streams are closed exactly
    once; `grace_runs_twice` is the run in which the grace period ends too early.
-/

import BubbleStorm.Topology.Neighbour
import Mathlib.Data.List.Nodup
import Mathlib.Data.List.Range

namespace BubbleStorm.Topology.Neighbour

/-! ## What holds between the calls -/

def users : List Handler → List Nat
  | [] => []
  | .user id :: rest => id :: users rest
  | .cancelTimeout _ :: rest => users rest

/-- Every handler registered, the newest first. -/
def all (n : T) : List Nat := (List.range n.registered).reverse

def Quiet (calls : List Code) : Prop := ∀ c ∈ calls, c = .checkClose ∨ c = .convReset

/-- There is at most one session, and its grace period is stopped by one of these handlers. -/
structure Timed (n : T) (handlers : List Handler) : Prop where
  one : n.sessions.length ≤ 1
  stopped : ∀ s ∈ n.sessions, s.timeout = true → .cancelTimeout 0 ∈ handlers

def Loose (n : T) : Prop := n.outstream = .opened ∨ n.outstream = .reset

/-- No teardown has been started. -/
structure Idle (n : T) : Prop where
  closing : n.closing = []
  sessions : n.sessions = []
  loose : Loose n
  them : ∀ i, n.teardownHandler ≠ .them i
  started : n.started = false
  finished : n.finished = false

/-- A teardown has been started, and its shutdown is still to be sent. -/
structure Due (n : T) (c : Close) : Prop where
  sessions : n.sessions = []
  loose : Loose n
  them : ∀ i, n.teardownHandler ≠ .them i
  started : n.started = true
  finished : n.finished = false
  deaf : n.instream = .active → n.teardownHandler = .noop
  zombie : c = .complete → n.instream ≠ .active

structure Waiting (n : T) (c : Close) : Prop extends Due n c where
  closing : n.closing = [c]
  busy : n.busy = true

/-- The shutdown of `completeTeardown` has been sent. -/
structure SentDeath (n : T) : Prop where
  closing : n.closing = []
  sessions : n.sessions = []
  zombie : n.instream ≠ .active
  started : n.started = true
  out : n.outstream = .shutting .death ∨ n.outstream = .acked ∨ n.outstream = .reset

/-- The shutdown of `initiateTeardown` has been sent. -/
structure SentUs (n : T) (s : Session) : Prop where
  closing : n.closing = []
  sessions : n.sessions = [s]
  started : n.started = true
  them : n.instream = .active → n.teardownHandler = .them 0
  out : n.outstream = .shutting (.us 0) ∧ s.weAreDone = false ∨ n.outstream = .acked ∨ n.outstream = .reset
  they : s.theyAreDone = true → n.instream ≠ .active

/-- Any stage of the teardown. -/
inductive Free (n : T) : Prop
  | idle (h : Idle n)
  | waiting (c : Close) (h : Waiting n c)
  | sentDeath (h : SentDeath n)
  | sentUs (s : Session) (h : SentUs n s)

/-- A stage in which one side is not done. -/
inductive Undecided (n : T) : Prop
  | idle (h : Idle n)
  | waiting (c : Close) (h : Waiting n c)
  | sentDeath (h : SentDeath n) (out : n.outstream = .shutting .death) (open_ : n.finished = false)
  | sentUs (s : Session) (h : SentUs n s) (writing : s.theyAreDone = false → n.instream = .active)
      (out : n.outstream = .shutting (.us 0) ∧ n.finished = false ∨ s.weAreDone = true ∧ s.theyAreDone = false)

/-- Nothing can reach the neighbour any more but the end of its own shutdown, which then does
nothing. -/
structure Exhausted (n : T) : Prop where
  zombie : n.instream ≠ .active
  closing : n.closing = []
  out : n.isShutting = true → n.outstream = .shutting (.us 0) ∧ ∃ s, n.sessions = [s] ∧ s.theyAreDone = false

structure Gone (n : T) : Prop where
  zombie : n.instream ≠ .active
  closing : n.closing = []
  out : n.outstream = .reset
  finished : n.finished = true
  timed : Timed n []

/-- The whole chain is still in place. -/
structure Whole (n : T) : Prop where
  last : n.deathHandler.last = .kill
  ran : n.ran = []
  users : users n.deathHandler.handlers = all n
  timed : Timed n n.deathHandler.handlers

/-- The chain was taken off and has been run. -/
structure Cut (n : T) : Prop where
  last : n.deathHandler.last = .noop
  users : users n.deathHandler.handlers = []
  ran : n.ran = all n

/-- At most one close waits, and then no shutdown has been sent. -/
def Parked (n : T) : Prop := n.closing = [] ∨ ∃ c, n.closing = [c] ∧ n.sessions = []

inductive Inv (n : T) : List Code → Prop
  | idle {q} (whole : Whole n) (stage : Undecided n) (quiet : Quiet q) : Inv n q
  | check {q} (c : Close) (whole : Whole n) (due : Due n c) (closing : n.closing = [c]) (quiet : Quiet q) :
      Inv n (.checkClose :: q)
  | closed {q} (c : Close) (whole : Whole n) (due : Due n c) (closing : n.closing = []) (quiet : Quiet q) :
      Inv n (.closed c :: q)
  | outReset {q} (whole : Whole n) (stage : Undecided n) (shutting : n.isShutting = true) (quiet : Quiet q) :
      Inv n (.outReset :: q)
  | sentDeath {q} (whole : Whole n) (stage : SentDeath n) (out : n.isShutting = false) (quiet : Quiet q) :
      Inv n (.sent .death :: q)
  | sentUs {q} (s : Session) (whole : Whole n) (stage : SentUs n s) (out : n.isShutting = false)
      (writing : s.theyAreDone = false → n.instream = .active) (quiet : Quiet q) : Inv n (.sent (.us 0) :: q)
  | reset {q} (whole : Whole n) (stage : Free n) (quiet : Quiet q) : Inv n (.reset :: q)
  | die {q} (whole : Whole n) (stage : Exhausted n) (quiet : Quiet q) : Inv n (.die :: q)
  -- the chain is run where it is
  | running {q} (left : List Handler) (last : n.deathHandler.last = .kill) (stage : Exhausted n)
      (ran : n.ran ++ users left = all n) (timed : Timed n left) (quiet : Quiet q) :
      Inv n (.handlers left .kill :: q)
  | kill {q} (stage : Exhausted n) (ran : n.ran = all n) (timed : Timed n []) (quiet : Quiet q) :
      Inv n (.outReset :: .convReset :: .bug :: q)
  | killUs {q} (s : Session) (gone : Gone n) (sessions : n.sessions = [s]) (they : s.theyAreDone = false)
      (ran : n.ran = all n) (quiet : Quiet q) : Inv n (.sent (.us 0) :: .checkClose :: .convReset :: .bug :: q)
  | killed {q} (before : List Code) (gone : Gone n) (ran : n.ran = all n) (calm : Quiet before) (quiet : Quiet q) :
      Inv n (before ++ .bug :: q)
  -- the chain was taken off
  | cut {q} (left : List Handler) (last : n.deathHandler.last = .noop) (none : n.deathHandler.handlers = [])
      (stage : Free n) (ran : n.ran ++ users left = all n) (timed : Timed n left) (quiet : Quiet q) :
      Inv n (.handlers left .kill :: q)
  | cutKill {q} (cut : Cut n) (stage : Free n) (timed : Timed n []) (quiet : Quiet q) :
      Inv n (.outReset :: .convReset :: .bug :: q)
  | cutSent {q} (c : Sent) (cut : Cut n) (closing : n.closing = []) (out : n.outstream = .reset)
      (finished : n.finished = true)
      (session : ∀ i, c = .us i → i = 0 ∧ ∃ s, n.sessions = [s] ∧
        (s.timeout = true → s.theyAreDone = true ∧ .cancelTimeout 0 ∈ n.deathHandler.handlers))
      (timed : c = .death → Timed n []) (quiet : Quiet q) :
      Inv n (.sent c :: .checkClose :: .convReset :: .bug :: q)
  | cutDie {q} (cut : Cut n) (closing : n.closing = []) (out : n.outstream = .reset)
      (finished : n.finished = true) (timed : Timed n n.deathHandler.handlers) (quiet : Quiet q) :
      Inv n (.die :: .checkClose :: .convReset :: .bug :: q)
  | cutHandlers {q} (left : List Handler) (before : List Code) (cut : Cut n)
      (parked : Parked n) (busy : n.closing ≠ [] → n.busy = true)
      (out : n.outstream = .reset) (finished : n.finished = true) (none : users left = [])
      (timed : Timed n left) (calm : before = [.convReset] ∨ before = [.checkClose, .convReset] ∧ n.closing = [])
      (quiet : Quiet q) : Inv n (.handlers left .noop :: (before ++ .bug :: q))
  | cutReset {q} (cut : Cut n) (parked : Parked n) (busy : n.closing ≠ [] → n.busy = true)
      (out : n.outstream = .reset) (finished : n.finished = true) (timed : Timed n [])
      (quiet : Quiet q) : Inv n (.reset :: .convReset :: .bug :: q)
  | cutConv {q} (cut : Cut n) (parked : Parked n) (busy : n.closing ≠ [] → n.busy = true)
      (out : n.outstream = .reset) (finished : n.finished = true) (timed : Timed n [])
      (quiet : Quiet q) : Inv n (.convReset :: .bug :: q)
  | cutCheck {q} (cut : Cut n) (parked : Parked n) (zombie : n.closing ≠ [] → n.instream ≠ .active)
      (out : n.outstream = .reset) (finished : n.finished = true) (timed : Timed n [])
      (quiet : Quiet q) : Inv n (.checkClose :: .convReset :: .bug :: q)
  | cutClosed {q} (c : Close) (cut : Cut n) (closing : n.closing = []) (sessions : n.sessions = [])
      (zombie : n.instream ≠ .active) (out : n.outstream = .reset) (finished : n.finished = true)
      (quiet : Quiet q) : Inv n (.closed c :: .convReset :: .bug :: q)
  | dead {q} (last : n.deathHandler = { handlers := [], last := .bug }) (gone : Gone n) (ran : n.ran = all n)
      (quiet : Quiet q) : Inv n q

/-! ## One call -/

variable {n : T} {q : List Code} {first : Bool} {n' : T} {calls : List Code}

/-- What a call must give. -/
def Steps (n : T) (first : Bool) (c : Code) (rest : List Code) : Prop :=
  (∀ n' calls, n.call first c = .ok (n', calls) → Inv n' (calls ++ rest)) ∧
    n.call first c ≠ .error .diedTwice

theorem Steps.of_eq {c : Code} {rest : List Code} (n' : T) (calls : List Code) (eq : n.call first c = .ok (n', calls))
    (inv : Inv n' (calls ++ rest)) : Steps n first c rest := by
  refine ⟨?_, by simp [eq]⟩
  intro n₁ calls₁ made
  rw [eq] at made
  cases made
  exact inv

theorem Quiet.cons {c : Code} (head : c = .checkClose ∨ c = .convReset) (quiet : Quiet q) : Quiet (c :: q) :=
  List.forall_mem_cons.mpr ⟨head, quiet⟩

theorem Quiet.tail {c : Code} (quiet : Quiet (c :: q)) : Quiet q := (List.forall_mem_cons.mp quiet).2

theorem closing_eq (h : n.closing = []) : { n with closing := [] } = n := by
  cases n
  simp_all

theorem Whole.copy {m : T} (whole : Whole n) (death : m.deathHandler = n.deathHandler) (ran : m.ran = n.ran)
    (registered : m.registered = n.registered) (sessions : m.sessions = n.sessions) : Whole m where
  last := by rw [death, whole.last]
  ran := by rw [ran, whole.ran]
  users := by rw [death, whole.users, all, all, registered]
  timed := by
    refine ⟨sessions ▸ whole.timed.one, ?_⟩
    rw [sessions, death]
    exact whole.timed.stopped

/-- All that the stages of a teardown are about. -/
def footing (n : T) : Teardown × InStream × OutStream × Bool × Bool × List Close × List Session × Bool :=
  (n.teardownHandler, n.instream, n.outstream, n.finished, n.busy, n.closing, n.sessions, n.started)

theorem Undecided.copy {m : T} (stage : Undecided n) (same : footing m = footing n) : Undecided m := by
  cases n
  cases m
  simp only [footing, Prod.mk.injEq] at same
  obtain ⟨rfl, rfl, rfl, rfl, rfl, rfl, rfl, rfl⟩ := same
  cases stage with
  | idle h => exact .idle ⟨h.closing, h.sessions, h.loose, h.them, h.started, h.finished⟩
  | waiting c h =>
    exact .waiting c ⟨⟨h.sessions, h.loose, h.them, h.started, h.finished, h.deaf, h.zombie⟩, h.closing, h.busy⟩
  | sentDeath h out open_ => exact .sentDeath ⟨h.closing, h.sessions, h.zombie, h.started, h.out⟩ out open_
  | sentUs s h writing out => exact .sentUs s ⟨h.closing, h.sessions, h.started, h.them, h.out, h.they⟩ writing out

theorem Free.copy {m : T} (stage : Free n) (same : footing m = footing n) : Free m := by
  cases n
  cases m
  simp only [footing, Prod.mk.injEq] at same
  obtain ⟨rfl, rfl, rfl, rfl, rfl, rfl, rfl, rfl⟩ := same
  cases stage with
  | idle h => exact .idle ⟨h.closing, h.sessions, h.loose, h.them, h.started, h.finished⟩
  | waiting c h =>
    exact .waiting c ⟨⟨h.sessions, h.loose, h.them, h.started, h.finished, h.deaf, h.zombie⟩, h.closing, h.busy⟩
  | sentDeath h => exact .sentDeath ⟨h.closing, h.sessions, h.zombie, h.started, h.out⟩
  | sentUs s h => exact .sentUs s ⟨h.closing, h.sessions, h.started, h.them, h.out, h.they⟩

theorem Undecided.free (stage : Undecided n) : Free n := by
  cases stage with
  | idle h => exact .idle h
  | waiting c h => exact .waiting c h
  | sentDeath h => exact .sentDeath h
  | sentUs s h => exact .sentUs s h

theorem Loose.not_shutting (loose : Loose n) : n.isShutting = false := by
  rcases loose with out | out <;> simp [T.isShutting, out]

/-- When the in stream is reset every stage stays what it is. -/
theorem Free.zombie (stage : Free n) : Free { n with instream := .reset } := by
  cases stage with
  | idle h => exact .idle ⟨h.closing, h.sessions, h.loose, h.them, h.started, h.finished⟩
  | waiting c h =>
    exact .waiting c ⟨⟨h.sessions, h.loose, h.them, h.started, h.finished, by simp, by simp⟩, h.closing, h.busy⟩
  | sentDeath h => exact .sentDeath ⟨h.closing, h.sessions, by simp, h.started, h.out⟩
  | sentUs s h => exact .sentUs s ⟨h.closing, h.sessions, h.started, by simp, h.out, by simp⟩

/-- The conversation has no more to reset than what it calls here. -/
theorem convReset_zombie (h : n.instream ≠ .active) : n.call first .convReset =
    if n.isShutting then
      if n.busy then
        if first then .ok (n, [.outReset, .convReset])
        else .ok ({ n with busy := false }, [.checkClose, .convReset])
      else .ok (n, [.outReset, .convReset])
    else if n.busy then .ok ({ n with busy := false }, [.checkClose, .convReset]) else .ok (n, []) := by
  cases instream : n.instream <;> cases out : n.outstream <;> cases busy : n.busy <;>
    simp_all [T.call, T.isShutting]

theorem Whole.busy (whole : Whole n) (b : Bool) : Whole { n with busy := b } :=
  whole.copy rfl rfl rfl rfl

theorem steps_checkClose (whole : Whole n) (stage : Undecided n) (quiet : Quiet q) :
    Steps n first .checkClose q := by
  cases pending : n.pending with
  | true => exact .of_eq n [] (by simp [T.call, pending]) (.idle whole stage quiet)
  | false =>
    have closing : n.closing = [] := by
      cases stage with
      | idle h => exact h.closing
      | waiting c h => simp [T.pending, h.busy] at pending
      | sentDeath h => exact h.closing
      | sentUs s h => exact h.closing
    refine .of_eq n [] ?_ (.idle whole stage quiet)
    simp [T.call, pending, closing_eq closing, closing]

theorem Undecided.quiet (stage : Undecided n) (none : n.closing = []) : Undecided { n with busy := false } := by
  cases stage with
  | idle h => exact .idle ⟨h.closing, h.sessions, h.loose, h.them, h.started, h.finished⟩
  | waiting c h => simp [h.closing] at none
  | sentDeath h out open_ => exact .sentDeath ⟨h.closing, h.sessions, h.zombie, h.started, h.out⟩ out open_
  | sentUs s h writing out =>
    exact .sentUs s ⟨h.closing, h.sessions, h.started, h.them, h.out, h.they⟩ writing out

/-- Only a close that waits for the other out streams waits at all. -/
theorem Undecided.closing (stage : Undecided n) : n.closing = [] ∨ ∃ c, Waiting n c := by
  cases stage with
  | idle h => exact .inl h.closing
  | waiting c h => exact .inr ⟨c, h⟩
  | sentDeath h => exact .inl h.closing
  | sentUs s h => exact .inl h.closing

theorem steps_convReset (whole : Whole n) (stage : Undecided n) (quiet : Quiet q) :
    Steps n first .convReset q := by
  have again : Quiet (.convReset :: q) := quiet.cons (.inr rfl)
  by_cases active : n.instream = .active
  · refine .of_eq { n with instream := .reset } [.reset, .convReset] (by simp only [T.call, active])
      (.reset ?_ stage.free.zombie again)
    exact whole.copy rfl rfl rfl rfl
  have out : Steps n first .convReset q ∨ n.busy = true := by
    cases busy : n.busy with
    | true => exact .inr rfl
    | false =>
      refine .inl ?_
      cases shutting : n.isShutting with
      | true =>
        exact .of_eq n [.outReset, .convReset] (by simp [convReset_zombie active, shutting, busy])
          (.outReset whole stage shutting again)
      | false =>
        exact .of_eq n [] (by simp [convReset_zombie active, shutting, busy]) (.idle whole stage quiet)
  rcases out with done | busy
  · exact done
  -- the other out streams are reset, before or after the neighbour's own
  by_cases mine : n.isShutting = true ∧ first = true
  · exact .of_eq n [.outReset, .convReset] (by simp [convReset_zombie active, mine, busy])
      (.outReset whole stage mine.1 again)
  · refine .of_eq { n with busy := false } [.checkClose, .convReset] ?_ ?_
    · rw [convReset_zombie active]
      cases shutting : n.isShutting <;> cases first <;> simp_all
    · rcases stage.closing with none | ⟨c, h⟩
      · exact .idle (whole.busy false) (stage.quiet none) (again.cons (.inl rfl))
      · exact .check c (whole.busy false)
          ⟨h.sessions, h.loose, h.them, h.started, h.finished, h.deaf, h.zombie⟩ h.closing again

theorem Whole.closing (whole : Whole n) (l : List Close) : Whole { n with closing := l } :=
  whole.copy rfl rfl rfl rfl

theorem steps_check {c : Close} (whole : Whole n) (due : Due n c) (closing : n.closing = [c]) (quiet : Quiet q) :
    Steps n first .checkClose q := by
  have loose := due.loose.not_shutting
  cases busy : n.busy with
  | true => exact .of_eq n [] (by simp [T.call, T.pending, busy]) (.idle whole (.waiting c ⟨due, closing, busy⟩) quiet)
  | false =>
    refine .of_eq { n with closing := [] } [.closed c] (by simp [T.call, T.pending, busy, loose, closing]) ?_
    exact .closed c (whole.closing []) ⟨due.sessions, due.loose, due.them, due.started, due.finished, due.deaf, due.zombie⟩
      rfl quiet

theorem steps_closed {c : Close} (whole : Whole n) (due : Due n c) (closing : n.closing = []) (quiet : Quiet q) :
    Steps n first (.closed c) q := by
  have soon : Quiet (.checkClose :: q) := quiet.cons (.inl rfl)
  cases c with
  | complete =>
    have zombie := due.zombie rfl
    rcases due.loose with out | out
    · refine .of_eq { n with outstream := .shutting .death } [] (by simp [T.call, T.sendShutdown, out]) ?_
      exact .idle (whole.copy rfl rfl rfl rfl)
        (.sentDeath ⟨closing, due.sessions, zombie, due.started, .inl rfl⟩ rfl due.finished) quiet
    · refine .of_eq { n with finished := true } [.sent .death, .checkClose] (by simp [T.call, T.sendShutdown, out]) ?_
      exact .sentDeath (whole.copy rfl rfl rfl rfl)
        ⟨closing, due.sessions, zombie, due.started, .inr (.inr out)⟩ (by simp [T.isShutting, out]) soon
  | initiate =>
    have none := due.sessions
    have timed : ∀ m : T, m.sessions = [{ theyAreDone := n.instream ≠ .active, weAreDone := false, timeout := true }] →
        Timed m (.cancelTimeout 0 :: n.deathHandler.handlers) := by
      intro m h
      exact ⟨by simp [h], by simp⟩
    rcases due.loose with out | out
    · refine .of_eq { n with
          sessions := [{ theyAreDone := n.instream ≠ .active, weAreDone := false, timeout := true }],
          teardownHandler := .them 0, outstream := .shutting (.us 0),
          deathHandler := { n.deathHandler with handlers := .cancelTimeout 0 :: n.deathHandler.handlers } } [] ?_ ?_
      · simp [T.call, T.sendShutdown, T.addDeathHandler, out, none]
      · refine .idle ⟨whole.last, whole.ran, whole.users, timed _ rfl⟩ (.sentUs _ ⟨closing, rfl, due.started, fun _ => rfl, .inl ⟨rfl, rfl⟩, ?_⟩ ?_ (.inl ⟨rfl, due.finished⟩)) quiet
        · simp
        · simp
    · refine .of_eq { n with
          sessions := [{ theyAreDone := n.instream ≠ .active, weAreDone := false, timeout := true }],
          teardownHandler := .them 0, finished := true,
          deathHandler := { n.deathHandler with handlers := .cancelTimeout 0 :: n.deathHandler.handlers } }
          [.sent (.us 0), .checkClose] ?_ ?_
      · simp [T.call, T.sendShutdown, T.addDeathHandler, out, none]
      · refine .sentUs _ ⟨whole.last, whole.ran, whole.users, timed _ rfl⟩ ⟨closing, rfl, due.started, fun _ => rfl, .inr (.inr out), ?_⟩ ?_ ?_ soon
        · simp
        · simp [T.isShutting, out]
        · simp

/-- The sent shutdown is completed, in one way or the other. -/
theorem inv_completed (whole : Whole n) (stage : Undecided n) (shutting : n.isShutting = true) (o : OutStream)
    (closed : o = .acked ∨ o = .reset) (quiet : Quiet q) : ∃ c, n.outstream = .shutting c ∧
      Inv { n with outstream := o, finished := true } (.sent c :: .checkClose :: q) := by
  have still : Whole { n with outstream := o, finished := true } := whole.copy rfl rfl rfl rfl
  have soon : Quiet (.checkClose :: q) := quiet.cons (.inl rfl)
  have shut : ({ n with outstream := o, finished := true } : T).isShutting = false := by
    rcases closed with rfl | rfl <;> rfl
  cases stage with
  | idle h => simp [h.loose.not_shutting] at shutting
  | waiting c h => simp [h.loose.not_shutting] at shutting
  | sentDeath h out _ =>
    exact ⟨_, out, .sentDeath still ⟨h.closing, h.sessions, h.zombie, h.started, .inr closed⟩ shut soon⟩
  | sentUs s h writing out =>
    rcases h.out with ⟨out, -⟩ | out | out
    · exact ⟨_, out, .sentUs s still ⟨h.closing, h.sessions, h.started, h.them, .inr closed, h.they⟩ shut writing soon⟩
    · simp [T.isShutting, out] at shutting
    · simp [T.isShutting, out] at shutting

theorem steps_outReset (whole : Whole n) (stage : Undecided n) (shutting : n.isShutting = true) (quiet : Quiet q) :
    Steps n first .outReset q := by
  obtain ⟨c, out, inv⟩ := inv_completed whole stage shutting .reset (.inr rfl) quiet
  exact .of_eq { n with outstream := .reset, finished := true } [.sent c, .checkClose] (by simp [T.call, out]) inv

theorem steps_sentDeath (whole : Whole n) (stage : SentDeath n) (out : n.isShutting = false) (quiet : Quiet q) :
    Steps n first (.sent .death) q :=
  .of_eq n [.die] rfl (.die whole ⟨stage.zombie, stage.closing, by simp [out]⟩ quiet)

/-- What a session is after one of its two flags or its timer is set. -/
theorem setSession_eq {s : Session} (sessions : n.sessions = [s]) (f : Session → Session) :
    n.setSession 0 f = { n with sessions := [f s] } := by
  simp [T.setSession, sessions]

theorem steps_sentUs {s : Session} (whole : Whole n) (stage : SentUs n s) (out : n.isShutting = false)
    (writing : s.theyAreDone = false → n.instream = .active) (quiet : Quiet q) :
    Steps n first (.sent (.us 0)) q := by
  have loose : n.outstream = .acked ∨ n.outstream = .reset := by
    rcases stage.out with ⟨shutting, -⟩ | loose
    · simp [T.isShutting, shutting] at out
    · exact loose
  have still : Whole { n with sessions := [{ s with weAreDone := true }] } := by
    refine ⟨whole.last, whole.ran, whole.users, ⟨by simp, ?_⟩⟩
    intro s' hs' ticking
    obtain rfl := List.mem_singleton.mp hs'
    exact whole.timed.stopped s (by simp [stage.sessions]) ticking
  cases they : s.theyAreDone with
  | true =>
    refine .of_eq { n with sessions := [{ s with weAreDone := true }] } [.die] ?_ ?_
    · simp [T.call, setSession_eq stage.sessions, T.maybeBothAreDone, they]
    · exact .die still ⟨stage.they they, stage.closing, by simp [show T.isShutting { n with sessions := [{ s with weAreDone := true }] } = n.isShutting from rfl, out]⟩ quiet
  | false =>
    refine .of_eq { n with sessions := [{ s with weAreDone := true }] } [] ?_ ?_
    · simp [T.call, setSession_eq stage.sessions, T.maybeBothAreDone, they]
    · refine .idle still (.sentUs { s with weAreDone := true } ⟨stage.closing, rfl, stage.started, stage.them, .inr loose, stage.they⟩ writing (.inr ⟨rfl, they⟩)) quiet

theorem steps_reset (whole : Whole n) (stage : Free n) (quiet : Quiet q) : Steps n first .reset q := by
  refine .of_eq { n with deathHandler := { handlers := [], last := .noop } }
    [.handlers n.deathHandler.handlers .kill] (by simp [T.call, whole.last]) ?_
  refine .cut _ rfl rfl (stage.copy rfl) ?_ ⟨whole.timed.one, whole.timed.stopped⟩ quiet
  simpa [whole.ran, all] using whole.users

theorem steps_die (whole : Whole n) (stage : Exhausted n) (quiet : Quiet q) : Steps n first .die q := by
  refine .of_eq n [.handlers n.deathHandler.handlers .kill] (by simp [T.call, whole.last]) ?_
  exact .running _ whole.last stage (by simpa [whole.ran] using whole.users) whole.timed quiet

/-! ### The chain is run where it is -/

theorem Timed.stop {i : Nat} {left : List Handler} (timed : Timed n (.cancelTimeout i :: left)) :
    Timed (n.setSession i fun s => { s with timeout := false }) left := by
  obtain ⟨one, stopped⟩ := timed
  rcases sessions : n.sessions with _ | ⟨s, _ | ⟨s', rest⟩⟩
  · exact ⟨by simp [T.setSession, sessions], by simp [T.setSession, sessions]⟩
  · refine ⟨by simp [T.setSession, sessions], ?_⟩
    cases i with
    | zero => simp [T.setSession, sessions]
    | succ i =>
      intro s' hs' ticking
      have := stopped s' (by simpa [T.setSession, sessions] using hs') ticking
      simpa using this
  · simp [sessions] at one

theorem Timed.user {i : Nat} {left : List Handler} (timed : Timed n (.user i :: left)) :
    Timed (n.runHandler (.user i)) left := by
  refine ⟨timed.one, ?_⟩
  intro s hs ticking
  simpa using timed.stopped s hs ticking

theorem Exhausted.stop {i : Nat} (stage : Exhausted n) :
    Exhausted (n.setSession i fun s => { s with timeout := false }) := by
  refine ⟨stage.zombie, stage.closing, ?_⟩
  intro shutting
  obtain ⟨out, s, sessions, they⟩ := stage.out shutting
  refine ⟨out, ?_⟩
  cases i with
  | zero => exact ⟨{ s with timeout := false }, by simp [T.setSession, sessions], they⟩
  | succ i => exact ⟨s, by simp [T.setSession, sessions], they⟩

theorem steps_running {left : List Handler} (last : n.deathHandler.last = .kill) (stage : Exhausted n)
    (ran : n.ran ++ users left = all n) (timed : Timed n left) (quiet : Quiet q) :
    Steps n first (.handlers left .kill) q := by
  cases left with
  | nil =>
    refine .of_eq n [.outReset, .convReset, .bug] rfl (.kill stage ?_ timed quiet)
    simpa [users] using ran
  | cons h left =>
    cases h with
    | user i =>
      refine .of_eq (n.runHandler (.user i)) [.handlers left .kill] rfl (.running left last ?_ ?_ timed.user quiet)
      · exact ⟨stage.zombie, stage.closing, stage.out⟩
      · simpa [users, T.runHandler, all] using ran
    | cancelTimeout i =>
      exact .of_eq (n.runHandler (.cancelTimeout i)) [.handlers left .kill] rfl
        (.running left last stage.stop ran timed.stop quiet)

theorem steps_kill (stage : Exhausted n) (ran : n.ran = all n) (timed : Timed n []) (quiet : Quiet q) :
    Steps n first .outReset (.convReset :: .bug :: q) := by
  have gone : Gone { n with outstream := .reset, finished := true } :=
    ⟨stage.zombie, stage.closing, rfl, rfl, ⟨timed.one, timed.stopped⟩⟩
  cases shutting : n.isShutting with
  | true =>
    obtain ⟨out, s, sessions, they⟩ := stage.out shutting
    exact .of_eq { n with outstream := .reset, finished := true } [.sent (.us 0), .checkClose] (by simp [T.call, out])
      (.killUs s gone sessions they ran quiet)
  | false =>
    refine .of_eq { n with outstream := .reset, finished := true } [] ?_
      (.killed [.convReset] gone ran (by simp [Quiet]) quiet)
    cases out : n.outstream <;> simp_all [T.call, T.isShutting]

theorem steps_killUs {s : Session} (gone : Gone n) (sessions : n.sessions = [s]) (they : s.theyAreDone = false)
    (ran : n.ran = all n) (quiet : Quiet q) : Steps n first (.sent (.us 0)) (.checkClose :: .convReset :: .bug :: q) := by
  refine .of_eq { n with sessions := [{ s with weAreDone := true }] } [] ?_ ?_
  · simp [T.call, setSession_eq sessions, T.maybeBothAreDone, they]
  · refine .killed [.checkClose, .convReset] ⟨gone.zombie, gone.closing, gone.out, gone.finished, ⟨by simp, ?_⟩⟩ ran
      (by simp [Quiet]) quiet
    intro s' hs' ticking
    obtain rfl := List.mem_singleton.mp hs'
    exact gone.timed.stopped s (by simp [sessions]) ticking

theorem Gone.busy (gone : Gone n) (b : Bool) : Gone { n with busy := b } :=
  ⟨gone.zombie, gone.closing, gone.out, gone.finished, ⟨gone.timed.one, gone.timed.stopped⟩⟩

/-- What the conversation still does once nothing is left to reset. -/
theorem gone_call (first : Bool) (gone : Gone n) {c : Code} (calm : c = .checkClose ∨ c = .convReset) :
    (n.call first c = .ok (n, []) ∨
      c = .convReset ∧ n.call first c = .ok ({ n with busy := false }, [.checkClose, .convReset])) := by
  have shut : n.isShutting = false := by simp [T.isShutting, gone.out]
  rcases calm with rfl | rfl
  · refine .inl ?_
    cases pending : n.pending <;> simp [T.call, pending, gone.closing, closing_eq gone.closing]
  · cases busy : n.busy with
    | true => exact .inr ⟨rfl, by simp [convReset_zombie gone.zombie, shut, busy]⟩
    | false => exact .inl (by simp [convReset_zombie gone.zombie, shut, busy])

theorem steps_killed_calm {c : Code} {before : List Code} (gone : Gone n) (ran : n.ran = all n)
    (calm : Quiet (c :: before)) (quiet : Quiet q) : Steps n first c (before ++ .bug :: q) := by
  rcases gone_call first gone (calm c List.mem_cons_self) with eq | ⟨rfl, eq⟩
  · exact .of_eq n [] eq (.killed before gone ran calm.tail quiet)
  · exact .of_eq { n with busy := false } [.checkClose, .convReset] eq
      (.killed (.checkClose :: .convReset :: before) (gone.busy false) ran (calm.cons (.inl rfl)) quiet)

theorem steps_killed (gone : Gone n) (ran : n.ran = all n) (quiet : Quiet q) : Steps n first .bug q :=
  .of_eq { n with deathHandler := { handlers := [], last := .bug } } [] rfl
    (.dead rfl ⟨gone.zombie, gone.closing, gone.out, gone.finished, ⟨gone.timed.one, gone.timed.stopped⟩⟩ ran quiet)

theorem steps_dead {c : Code} (last : n.deathHandler = { handlers := [], last := .bug }) (gone : Gone n)
    (ran : n.ran = all n) (calm : Quiet (c :: q)) : Steps n first c q := by
  rcases gone_call first gone (calm c List.mem_cons_self) with eq | ⟨rfl, eq⟩
  · exact .of_eq n [] eq (.dead last gone ran calm.tail)
  · exact .of_eq { n with busy := false } [.checkClose, .convReset] eq
      (.dead last (gone.busy false) ran (calm.cons (.inl rfl)))

/-! ### The chain was taken off -/

theorem Free.one (stage : Free n) : n.sessions.length ≤ 1 := by
  cases stage with
  | idle h => simp [h.sessions]
  | waiting c h => simp [h.sessions]
  | sentDeath h => simp [h.sessions]
  | sentUs s h => simp [h.sessions]

theorem Free.stop {i : Nat} (stage : Free n) : Free (n.setSession i fun s => { s with timeout := false }) := by
  cases stage with
  | idle h =>
    exact .idle ⟨h.closing, by simp [T.setSession, h.sessions], h.loose, h.them, h.started, h.finished⟩
  | waiting c h =>
    exact .waiting c ⟨⟨by simp [T.setSession, h.sessions], h.loose, h.them, h.started, h.finished, h.deaf, h.zombie⟩,
      h.closing, h.busy⟩
  | sentDeath h => exact .sentDeath ⟨h.closing, by simp [T.setSession, h.sessions], h.zombie, h.started, h.out⟩
  | sentUs s h =>
    cases i with
    | zero =>
      exact .sentUs { s with timeout := false }
        ⟨h.closing, by simp [T.setSession, h.sessions], h.started, h.them, h.out, h.they⟩
    | succ i =>
      exact .sentUs s ⟨h.closing, by simp [T.setSession, h.sessions], h.started, h.them, h.out, h.they⟩

theorem Free.parked (stage : Free n) : Parked n ∧ (n.closing ≠ [] → n.busy = true) := by
  cases stage with
  | idle h => exact ⟨.inl h.closing, fun some => absurd h.closing some⟩
  | waiting c h => exact ⟨.inr ⟨c, h.closing, h.sessions⟩, fun _ => h.busy⟩
  | sentDeath h => exact ⟨.inl h.closing, fun some => absurd h.closing some⟩
  | sentUs s h => exact ⟨.inl h.closing, fun some => absurd h.closing some⟩

theorem steps_cut {left : List Handler} (last : n.deathHandler.last = .noop) (none : n.deathHandler.handlers = [])
    (stage : Free n) (ran : n.ran ++ users left = all n) (timed : Timed n left) (quiet : Quiet q) :
    Steps n first (.handlers left .kill) q := by
  cases left with
  | nil =>
    refine .of_eq n [.outReset, .convReset, .bug] rfl (.cutKill ⟨last, by simp [none, users], ?_⟩ stage timed quiet)
    simpa [users] using ran
  | cons h left =>
    cases h with
    | user i =>
      refine .of_eq (n.runHandler (.user i)) [.handlers left .kill] rfl
        (.cut left last none (stage.copy rfl) ?_ timed.user quiet)
      simpa [users, T.runHandler, all] using ran
    | cancelTimeout i =>
      exact .of_eq (n.runHandler (.cancelTimeout i)) [.handlers left .kill] rfl
        (.cut left last none stage.stop ran timed.stop quiet)

theorem steps_cutKill (cut : Cut n) (stage : Free n) (timed : Timed n []) (quiet : Quiet q) :
    Steps n first .outReset (.convReset :: .bug :: q) := by
  have cut' : Cut { n with outstream := .reset, finished := true } := ⟨cut.last, cut.users, cut.ran⟩
  have timed' : Timed { n with outstream := .reset, finished := true } [] := ⟨timed.one, timed.stopped⟩
  cases shutting : n.isShutting with
  | false =>
    refine .of_eq { n with outstream := .reset, finished := true } [] ?_
      (.cutConv cut' stage.parked.1 stage.parked.2 rfl rfl timed' quiet)
    cases out : n.outstream <;> simp_all [T.call, T.isShutting]
  | true =>
    cases stage with
    | idle h => simp [h.loose.not_shutting] at shutting
    | waiting c h => simp [h.loose.not_shutting] at shutting
    | sentDeath h =>
      rcases h.out with out | out | out
      · refine .of_eq { n with outstream := .reset, finished := true } [.sent .death, .checkClose] (by simp [T.call, out])
          (.cutSent .death cut' h.closing rfl rfl ?_ (fun _ => timed') quiet)
        rintro i ⟨⟩
      · simp [T.isShutting, out] at shutting
      · simp [T.isShutting, out] at shutting
    | sentUs s h =>
      rcases h.out with ⟨out, -⟩ | out | out
      · refine .of_eq { n with outstream := .reset, finished := true } [.sent (.us 0), .checkClose] (by simp [T.call, out])
          (.cutSent (.us 0) cut' h.closing rfl rfl ?_ (by rintro ⟨⟩) quiet)
        rintro i ⟨⟩
        refine ⟨rfl, s, h.sessions, ?_⟩
        intro ticking
        cases timed.stopped s (by simp [h.sessions]) ticking
      · simp [T.isShutting, out] at shutting
      · simp [T.isShutting, out] at shutting

theorem Timed.mono {l l' : List Handler} (timed : Timed n l) (sub : ∀ h ∈ l, h ∈ l') : Timed n l' :=
  ⟨timed.one, fun s hs ticking => sub _ (timed.stopped s hs ticking)⟩

theorem steps_cutSent {c : Sent} (cut : Cut n) (closing : n.closing = []) (out : n.outstream = .reset)
    (finished : n.finished = true)
    (session : ∀ i, c = .us i → i = 0 ∧ ∃ s, n.sessions = [s] ∧
      (s.timeout = true → s.theyAreDone = true ∧ .cancelTimeout 0 ∈ n.deathHandler.handlers))
    (timed : c = .death → Timed n []) (quiet : Quiet q) :
    Steps n first (.sent c) (.checkClose :: .convReset :: .bug :: q) := by
  cases c with
  | death =>
    exact .of_eq n [.die] rfl (.cutDie cut closing out finished ((timed rfl).mono (by simp)) quiet)
  | us i =>
    obtain ⟨rfl, s, sessions, ticking⟩ := session i rfl
    have cut' : Cut { n with sessions := [{ s with weAreDone := true }] } := ⟨cut.last, cut.users, cut.ran⟩
    cases they : s.theyAreDone with
    | true =>
      refine .of_eq { n with sessions := [{ s with weAreDone := true }] } [.die] ?_
        (.cutDie cut' closing out finished ⟨by simp, ?_⟩ quiet)
      · simp [T.call, setSession_eq sessions, T.maybeBothAreDone, they]
      · intro s' hs' on
        obtain rfl := List.mem_singleton.mp hs'
        exact (ticking on).2
    | false =>
      refine .of_eq { n with sessions := [{ s with weAreDone := true }] } [] ?_
        (.cutCheck cut' (.inl closing) (fun some => absurd closing some) out finished ⟨by simp, ?_⟩ quiet)
      · simp [T.call, setSession_eq sessions, T.maybeBothAreDone, they]
      · intro s' hs' on
        obtain rfl := List.mem_singleton.mp hs'
        simp [they] at ticking
        exact absurd on (by simp [ticking])

theorem steps_cutDie (cut : Cut n) (closing : n.closing = []) (out : n.outstream = .reset)
    (finished : n.finished = true) (timed : Timed n n.deathHandler.handlers) (quiet : Quiet q) :
    Steps n first .die (.checkClose :: .convReset :: .bug :: q) :=
  .of_eq n [.handlers n.deathHandler.handlers .noop] (by simp [T.call, cut.last])
    (.cutHandlers _ [.checkClose, .convReset] cut (.inl closing) (fun some => absurd closing some) out finished
      cut.users timed (.inr ⟨rfl, closing⟩) quiet)

theorem steps_cutHandlers {left : List Handler} {before : List Code} (cut : Cut n)
    (parked : Parked n) (busy : n.closing ≠ [] → n.busy = true)
    (out : n.outstream = .reset) (finished : n.finished = true) (none : users left = [])
    (timed : Timed n left) (calm : before = [.convReset] ∨ before = [.checkClose, .convReset] ∧ n.closing = [])
    (quiet : Quiet q) : Steps n first (.handlers left .noop) (before ++ .bug :: q) := by
  cases left with
  | nil =>
    refine .of_eq n [] rfl ?_
    rcases calm with rfl | ⟨rfl, closing⟩
    · exact .cutConv cut parked busy out finished timed quiet
    · exact .cutCheck cut parked (fun some => absurd closing some) out finished timed quiet
  | cons h left =>
    cases h with
    | user i => simp [users] at none
    | cancelTimeout i =>
      refine .of_eq (n.runHandler (.cancelTimeout i)) [.handlers left .noop] rfl
        (.cutHandlers left before ⟨cut.last, cut.users, cut.ran⟩ ?_ busy out finished none timed.stop calm quiet)
      rcases parked with closing | ⟨c, closing, sessions⟩
      · exact .inl closing
      · exact .inr ⟨c, closing, by simp [T.runHandler, T.setSession, sessions]⟩

theorem steps_cutReset (cut : Cut n) (parked : Parked n) (busy : n.closing ≠ [] → n.busy = true)
    (out : n.outstream = .reset) (finished : n.finished = true) (timed : Timed n [])
    (quiet : Quiet q) : Steps n first .reset (.convReset :: .bug :: q) :=
  .of_eq { n with deathHandler := { handlers := [], last := .noop } } [.handlers n.deathHandler.handlers .noop]
    (by simp [T.call, cut.last])
    (.cutHandlers _ [.convReset] ⟨rfl, rfl, cut.ran⟩ parked busy out finished cut.users
      (⟨timed.one, fun s hs on => absurd (timed.stopped s hs on) (by simp)⟩) (.inl rfl) quiet)

theorem Cut.busy (cut : Cut n) (b : Bool) : Cut { n with busy := b } := ⟨cut.last, cut.users, cut.ran⟩

theorem steps_cutConv (cut : Cut n) (parked : Parked n) (busy : n.closing ≠ [] → n.busy = true)
    (out : n.outstream = .reset) (finished : n.finished = true) (timed : Timed n [])
    (quiet : Quiet q) : Steps n first .convReset (.bug :: q) := by
  have shut : n.isShutting = false := by simp [T.isShutting, out]
  by_cases active : n.instream = .active
  · exact .of_eq { n with instream := .reset } [.reset, .convReset] (by simp only [T.call, active])
      (.cutReset ⟨cut.last, cut.users, cut.ran⟩ parked busy out finished ⟨timed.one, timed.stopped⟩ quiet)
  · cases work : n.busy with
    | true =>
      exact .of_eq { n with busy := false } [.checkClose, .convReset] (by simp [convReset_zombie active, shut, work])
        (.cutCheck (cut.busy false) parked (fun _ => active) out finished ⟨timed.one, timed.stopped⟩ quiet)
    | false =>
      have closing : n.closing = [] := by
        by_contra some
        simp [busy some] at work
      exact .of_eq n [] (by simp [convReset_zombie active, shut, work])
        (.killed [] ⟨active, closing, out, finished, timed⟩ cut.ran (by simp [Quiet]) quiet)

theorem steps_cutCheck (cut : Cut n) (parked : Parked n) (zombie : n.closing ≠ [] → n.instream ≠ .active)
    (out : n.outstream = .reset) (finished : n.finished = true) (timed : Timed n [])
    (quiet : Quiet q) : Steps n first .checkClose (.convReset :: .bug :: q) := by
  have shut : n.isShutting = false := by simp [T.isShutting, out]
  cases work : n.busy with
  | true =>
    exact .of_eq n [] (by simp [T.call, T.pending, work]) (.cutConv cut parked (fun _ => work) out finished timed quiet)
  | false =>
    rcases parked with closing | ⟨c, closing, sessions⟩
    · have pending : n.pending = false := by simp [T.pending, work, shut]
      exact .of_eq n [] (by simp [T.call, pending, closing, closing_eq closing])
        (.cutConv cut (.inl closing) (fun some => absurd closing some) out finished timed quiet)
    · exact .of_eq { n with closing := [] } [.closed c] (by simp [T.call, T.pending, work, shut, closing])
        (.cutClosed c ⟨cut.last, cut.users, cut.ran⟩ rfl sessions (zombie (by simp [closing])) out finished quiet)

theorem steps_cutClosed {c : Close} (cut : Cut n) (closing : n.closing = []) (sessions : n.sessions = [])
    (zombie : n.instream ≠ .active) (out : n.outstream = .reset) (quiet : Quiet q) :
    Steps n first (.closed c) (.convReset :: .bug :: q) := by
  cases c with
  | complete =>
    refine .of_eq { n with finished := true } [.sent .death, .checkClose] (by simp [T.call, T.sendShutdown, out])
      (.cutSent .death ⟨cut.last, cut.users, cut.ran⟩ closing out rfl ?_ ?_ quiet)
    · rintro i ⟨⟩
    · exact fun _ => ⟨by simp [sessions], by simp [sessions]⟩
  | initiate =>
    refine .of_eq { n with
        sessions := [{ theyAreDone := true, weAreDone := false, timeout := true }],
        teardownHandler := .them 0, finished := true,
        deathHandler := { n.deathHandler with handlers := .cancelTimeout 0 :: n.deathHandler.handlers } }
      [.sent (.us 0), .checkClose] ?_ (.cutSent (.us 0) ⟨cut.last, cut.users, cut.ran⟩ closing out rfl ?_ (by rintro ⟨⟩) quiet)
    · simp [T.call, T.sendShutdown, T.addDeathHandler, out, sessions, zombie]
    · rintro i ⟨⟩
      exact ⟨rfl, _, rfl, by simp⟩

/-- Whatever call is made, what holds between the calls goes on holding, and nobody dies
twice. -/
theorem Inv.steps {c : Code} {rest : List Code} (inv : Inv n (c :: rest)) (first : Bool) : Steps n first c rest := by
  generalize here : c :: rest = calls at inv
  cases inv with
  | idle whole stage quiet =>
    subst here
    rcases quiet c List.mem_cons_self with rfl | rfl
    · exact steps_checkClose whole stage quiet.tail
    · exact steps_convReset whole stage quiet.tail
  | check c whole due closing quiet => cases here; exact steps_check whole due closing quiet
  | closed c whole due closing quiet => cases here; exact steps_closed whole due closing quiet
  | outReset whole stage shutting quiet => cases here; exact steps_outReset whole stage shutting quiet
  | sentDeath whole stage out quiet => cases here; exact steps_sentDeath whole stage out quiet
  | sentUs s whole stage out writing quiet => cases here; exact steps_sentUs whole stage out writing quiet
  | reset whole stage quiet => cases here; exact steps_reset whole stage quiet
  | die whole stage quiet => cases here; exact steps_die whole stage quiet
  | running left last stage ran timed quiet => cases here; exact steps_running last stage ran timed quiet
  | kill stage ran timed quiet => cases here; exact steps_kill stage ran timed quiet
  | killUs s gone sessions they ran quiet => cases here; exact steps_killUs gone sessions they ran quiet
  | killed before gone ran calm quiet =>
    cases before with
    | nil => cases here; exact steps_killed gone ran quiet
    | cons c' before => cases here; exact steps_killed_calm gone ran calm quiet
  | cut left last none stage ran timed quiet => cases here; exact steps_cut last none stage ran timed quiet
  | cutKill cut stage timed quiet => cases here; exact steps_cutKill cut stage timed quiet
  | cutSent c cut closing out finished session timed quiet =>
    cases here; exact steps_cutSent cut closing out finished session timed quiet
  | cutDie cut closing out finished timed quiet => cases here; exact steps_cutDie cut closing out finished timed quiet
  | cutHandlers left before cut parked busy out finished none timed calm quiet =>
    cases here; exact steps_cutHandlers cut parked busy out finished none timed calm quiet
  | cutReset cut parked busy out finished timed quiet =>
    cases here; exact steps_cutReset cut parked busy out finished timed quiet
  | cutConv cut parked busy out finished timed quiet =>
    cases here; exact steps_cutConv cut parked busy out finished timed quiet
  | cutCheck cut parked zombie out finished timed quiet =>
    cases here; exact steps_cutCheck cut parked zombie out finished timed quiet
  | cutClosed c cut closing sessions zombie out _ quiet =>
    cases here; exact steps_cutClosed cut closing sessions zombie out quiet
  | dead last gone ran quiet => subst here; exact steps_dead last gone ran quiet

/-! ### One event -/

/-- When no call is left the neighbour is alive with its whole chain, or dead. -/
theorem Inv.rest (inv : Inv n []) : (Whole n ∧ Undecided n) ∨
    n.deathHandler = { handlers := [], last := .bug } ∧ Gone n ∧ n.ran = all n := by
  generalize here : ([] : List Code) = calls at inv
  cases inv with
  | idle whole stage _ => exact .inl ⟨whole, stage⟩
  | killed before => simp at here
  | dead last gone ran _ => exact .inr ⟨last, gone, ran⟩
  | _ => cases here

theorem quiet_nil : Quiet [] := by simp [Quiet]

theorem quiet_one {c : Code} (h : c = .checkClose ∨ c = .convReset) : Quiet [c] := quiet_nil.cons h

/-- A teardown is started while none is. -/
theorem Idle.close {c : Close} (whole : Whole n) (h : Idle n) (m : T) (started : m = { n with started := true } ∨
      m = { n with started := true, teardownHandler := .noop })
    (deaf : n.instream = .active → m.teardownHandler = .noop) (zombie : c = .complete → n.instream ≠ .active) :
    Inv (m.close c).1 (m.close c).2 := by
  have due : Due m c := by
    rcases started with rfl | rfl
    · exact ⟨h.sessions, h.loose, h.them, rfl, h.finished, deaf, zombie⟩
    · exact ⟨h.sessions, h.loose, by simp, rfl, h.finished, deaf, zombie⟩
  have closing : m.closing = [] := by
    rcases started with rfl | rfl <;> exact h.closing
  have whole' : Whole m := by
    rcases started with rfl | rfl <;>
      exact whole.copy rfl rfl rfl rfl
  simp only [T.close]
  split
  · rename_i pending
    have busy : m.busy = true := by simpa [T.pending, due.loose.not_shutting] using pending
    refine .idle (whole'.closing _) (.waiting c ⟨⟨due.sessions, due.loose, due.them, due.started, due.finished, due.deaf, due.zombie⟩, ?_, busy⟩) quiet_nil
    simp [closing]
  · exact .closed c whole' due closing quiet_nil

theorem Undecided.idle_of_started (stage : Undecided n) (started : n.started = false) : Idle n := by
  cases stage with
  | idle h => exact h
  | waiting c h => simp [h.started] at started
  | sentDeath h => simp [h.started] at started
  | sentUs s h => simp [h.started] at started

theorem inv_receiveShutdown (whole : Whole n) (stage : Undecided n) (active : n.instream = .active)
    (took : T.receiveShutdown { n with instream := .shutdown } = .ok (n', calls)) : Inv n' calls := by
  have whole' : Whole { n with instream := .shutdown } :=
    (whole.copy rfl rfl rfl rfl)
  cases stage with
  | idle h =>
    have idle : Idle { n with instream := .shutdown } :=
      ⟨h.closing, h.sessions, h.loose, h.them, h.started, h.finished⟩
    cases teardown : n.teardownHandler with
    | noop =>
      simp only [T.receiveShutdown, teardown, Except.ok.injEq, Prod.mk.injEq] at took
      obtain ⟨rfl, rfl⟩ := took
      rw [← teardown]
      exact .idle whole' (.idle idle) quiet_nil
    | them i => exact absurd teardown (h.them i)
    | user completes =>
      cases completes with
      | false =>
        simp only [T.receiveShutdown, teardown, Bool.false_eq_true, if_false, Except.ok.injEq, Prod.mk.injEq] at took
        obtain ⟨rfl, rfl⟩ := took
        rw [← teardown]
        exact .idle whole' (.idle idle) quiet_nil
      | true =>
        simp only [T.receiveShutdown, teardown, if_true, T.completeTeardown, Except.ok.injEq] at took
        have := Idle.close (c := .complete) whole' idle _ (.inl rfl) (by simp) (by simp)
        simp only [teardown] at this
        rw [took] at this
        exact this
  | waiting c h =>
    have noop := h.deaf active
    simp only [T.receiveShutdown, noop, Except.ok.injEq, Prod.mk.injEq] at took
    obtain ⟨rfl, rfl⟩ := took
    rw [← noop]
    exact .idle whole' (.waiting c ⟨⟨h.sessions, h.loose, h.them, h.started, h.finished, by simp, by simp⟩, h.closing, h.busy⟩) quiet_nil
  | sentDeath h => exact absurd active h.zombie
  | sentUs s h writing out =>
    have them := h.them active
    have zombie : ({ n with instream := .shutdown } : T).instream ≠ .active := by simp
    have done : Whole { n with instream := .shutdown, sessions := [{ s with theyAreDone := true }] } := by
      refine ⟨whole.last, whole.ran, whole.users, ⟨by simp, ?_⟩⟩
      intro s' hs' ticking
      obtain rfl := List.mem_singleton.mp hs'
      exact whole.timed.stopped s (by simp [h.sessions]) ticking
    cases we : s.weAreDone with
    | true =>
      simp [T.receiveShutdown, them, T.setSession, h.sessions, T.maybeBothAreDone, we] at took
      obtain ⟨rfl, rfl⟩ := took
      rw [← them]
      refine .die (we ▸ done) ⟨by simp, h.closing, ?_⟩ quiet_nil
      intro shutting
      rcases h.out with ⟨-, not⟩ | out | out
      · simp [we] at not
      · simp [T.isShutting, out] at shutting
      · simp [T.isShutting, out] at shutting
    | false =>
      simp [T.receiveShutdown, them, T.setSession, h.sessions, T.maybeBothAreDone, we] at took
      obtain ⟨rfl, rfl⟩ := took
      rw [← them]
      refine .idle (we ▸ done) (.sentUs { s with theyAreDone := true, weAreDone := false } ⟨h.closing, rfl, h.started, by simp, ?_, by simp⟩ (by simp) ?_) quiet_nil
      · rcases h.out with ⟨out, -⟩ | out
        · exact .inl ⟨out, rfl⟩
        · exact .inr out
      · rcases out with open_ | ⟨yes, -⟩
        · exact .inl open_
        · simp [we] at yes

theorem inv_grace {i : Nat} (whole : Whole n) (stage : Undecided n) (zombie : n.instream ≠ .active)
    (ticking : ∃ s, n.sessions[i]? = some s ∧ s.timeout = true) :
    Inv (n.setSession i fun s => { s with timeout := false, theyAreDone := false }) [.die] := by
  obtain ⟨s', found, -⟩ := ticking
  cases stage with
  | idle h => simp [h.sessions] at found
  | waiting c h => simp [h.sessions] at found
  | sentDeath h => simp [h.sessions] at found
  | sentUs s h =>
    cases i with
    | succ i => simp [h.sessions] at found
    | zero =>
      rw [setSession_eq h.sessions]
      refine .die ⟨whole.last, whole.ran, whole.users, ⟨by simp, by simp⟩⟩ ⟨zombie, h.closing, ?_⟩ quiet_nil
      intro shutting
      rcases h.out with ⟨out, -⟩ | out | out
      · exact ⟨out, _, rfl, rfl⟩
      · simp [T.isShutting, out] at shutting
      · simp [T.isShutting, out] at shutting

theorem inv_alive {e : Event} (whole : Whole n) (stage : Undecided n) (enabled : enabled n e) (ok : Proper n e)
    (took : take n e = .ok (n', calls)) : Inv n' calls := by
  cases e with
  | remoteShutdown => exact inv_receiveShutdown whole stage enabled took
  | remoteReset =>
    cases took
    exact .reset (whole.copy rfl rfl rfl rfl) stage.free.zombie quiet_nil
  | outstreamReset =>
    rcases enabled with opened | shutting
    · simp only [take, opened, Except.ok.injEq, Prod.mk.injEq] at took
      obtain ⟨rfl, rfl⟩ := took
      refine .idle (whole.copy rfl rfl rfl rfl) ?_ quiet_nil
      cases stage with
      | idle h => exact .idle ⟨h.closing, h.sessions, .inr rfl, h.them, h.started, h.finished⟩
      | waiting c h =>
        exact .waiting c ⟨⟨h.sessions, .inr rfl, h.them, h.started, h.finished, h.deaf, h.zombie⟩, h.closing, h.busy⟩
      | sentDeath h out _ => simp [opened] at out
      | sentUs s h =>
        have := h.out
        simp [opened] at this
    · obtain ⟨c, out, inv⟩ := inv_completed whole stage shutting .reset (.inr rfl) quiet_nil
      simp only [take, out, Except.ok.injEq, Prod.mk.injEq] at took
      obtain ⟨rfl, rfl⟩ := took
      exact inv
  | acknowledged =>
    obtain ⟨c, out, inv⟩ := inv_completed whole stage enabled .acked (.inl rfl) quiet_nil
    simp only [take, out, Except.ok.injEq, Prod.mk.injEq] at took
    obtain ⟨rfl, rfl⟩ := took
    exact inv
  | grace i =>
    cases took
    exact inv_grace whole stage ok enabled
  | conversationReset =>
    cases took
    exact .idle whole stage (quiet_one (.inr rfl))
  | busy =>
    cases took
    refine .idle (whole.busy true) ?_ quiet_nil
    cases stage with
    | idle h => exact .idle ⟨h.closing, h.sessions, h.loose, h.them, h.started, h.finished⟩
    | waiting c h =>
      exact .waiting c ⟨⟨h.sessions, h.loose, h.them, h.started, h.finished, h.deaf, h.zombie⟩, h.closing, rfl⟩
    | sentDeath h out open_ => exact .sentDeath ⟨h.closing, h.sessions, h.zombie, h.started, h.out⟩ out open_
    | sentUs s h writing out => exact .sentUs s ⟨h.closing, h.sessions, h.started, h.them, h.out, h.they⟩ writing out
  | drained =>
    cases took
    rcases stage.closing with none | ⟨c, h⟩
    · exact .idle (whole.busy false) (stage.quiet none) (quiet_one (.inl rfl))
    · exact .check c (whole.busy false) ⟨h.sessions, h.loose, h.them, h.started, h.finished, h.deaf, h.zombie⟩
        h.closing quiet_nil
  | addDeathHandler =>
    cases took
    refine .idle ⟨whole.last, whole.ran, ?_, ⟨whole.timed.one, ?_⟩⟩ (stage.copy rfl) quiet_nil
    · simp [T.addDeathHandler, users, all, List.range_succ, whole.users]
    · intro s hs ticking
      exact List.mem_cons_of_mem _ (whole.timed.stopped s hs ticking)
  | setTeardownHandler completes =>
    cases took
    have h := stage.idle_of_started ok.2
    exact .idle (whole.copy rfl rfl rfl rfl)
      (.idle ⟨h.closing, h.sessions, h.loose, by simp, h.started, h.finished⟩) quiet_nil
  | reset =>
    cases took
    exact .reset whole stage.free quiet_nil
  | initiateTeardown =>
    have := Idle.close (c := .initiate) whole (stage.idle_of_started ok.2)
      { n with started := true, teardownHandler := .noop } (.inr rfl) (fun _ => rfl) (by rintro ⟨⟩)
    rw [take, T.initiateTeardown, Except.ok.injEq] at took
    rw [took] at this
    exact this
  | completeTeardown =>
    by_cases active : n.instream = .active
    · simp [take, T.completeTeardown, active] at took
    · have := Idle.close (c := .complete) whole (stage.idle_of_started ok.2) { n with started := true } (.inl rfl)
        (fun h => absurd h active) (fun _ => active)
      have close : n.completeTeardown = .ok ({ n with started := true }.close .complete) := by
        cases instream : n.instream <;> simp_all [T.completeTeardown]
      rw [take, close, Except.ok.injEq] at took
      rw [took] at this
      exact this

theorem inv_dead {e : Event} (last : n.deathHandler = { handlers := [], last := .bug }) (gone : Gone n)
    (ran : n.ran = all n) (enabled : enabled n e) (ok : Proper n e) (took : take n e = .ok (n', calls)) :
    Inv n' calls := by
  have unreached : ¬ alive n := by simp [alive, last]
  cases e with
  | remoteShutdown => exact absurd enabled gone.zombie
  | remoteReset => exact absurd enabled gone.zombie
  | outstreamReset =>
    have := gone.out
    rcases enabled with out | shutting
    · simp [out] at this
    · simp [T.isShutting, this] at shutting
  | acknowledged =>
    have shutting : n.isShutting = true := enabled
    simp [T.isShutting, gone.out] at shutting
  | grace i =>
    obtain ⟨s, found, ticking⟩ := enabled
    cases gone.timed.stopped s (List.mem_of_getElem? found) ticking
  | conversationReset =>
    cases took
    exact .dead last gone ran (quiet_one (.inr rfl))
  | busy =>
    cases took
    exact .dead last (gone.busy true) ran quiet_nil
  | drained =>
    cases took
    exact .dead last (gone.busy false) ran (quiet_one (.inl rfl))
  | addDeathHandler => exact absurd ok unreached
  | reset => exact absurd ok unreached
  | setTeardownHandler _ => exact absurd ok.1 unreached
  | initiateTeardown => exact absurd ok.1 unreached
  | completeTeardown => exact absurd ok.1 unreached

theorem inv_new : Inv new [] := by
  refine .idle ⟨rfl, rfl, rfl, ⟨by simp [new], by simp [new]⟩⟩ (.idle ⟨rfl, rfl, .inl rfl, by simp [new], rfl, rfl⟩) quiet_nil

theorem Run.inv (run : Run Proper n calls) : Inv n calls := by
  induction run with
  | start => exact inv_new
  | event e _ enabled ok took ih =>
    rcases ih.rest with ⟨whole, stage⟩ | ⟨last, gone, ran⟩
    · exact inv_alive whole stage enabled ok took
    · exact inv_dead last gone ran enabled ok took
  | call first _ made ih => exact (ih.steps first).1 _ _ made

/-! ## Every handler once -/

/-- What has been run is the beginning of the list of all handlers. -/
theorem Inv.ran (inv : Inv n calls) : ∃ l, n.ran ++ l = all n := by
  cases inv with
  | idle whole => exact ⟨all n, by simp [whole.ran]⟩
  | check c whole => exact ⟨all n, by simp [whole.ran]⟩
  | closed c whole => exact ⟨all n, by simp [whole.ran]⟩
  | outReset whole => exact ⟨all n, by simp [whole.ran]⟩
  | sentDeath whole => exact ⟨all n, by simp [whole.ran]⟩
  | sentUs s whole => exact ⟨all n, by simp [whole.ran]⟩
  | reset whole => exact ⟨all n, by simp [whole.ran]⟩
  | die whole => exact ⟨all n, by simp [whole.ran]⟩
  | running left _ _ ran => exact ⟨_, ran⟩
  | cut left _ _ _ ran => exact ⟨_, ran⟩
  | kill _ ran => exact ⟨[], by simp [ran]⟩
  | killUs _ _ _ _ ran => exact ⟨[], by simp [ran]⟩
  | killed _ _ ran => exact ⟨[], by simp [ran]⟩
  | dead _ _ ran => exact ⟨[], by simp [ran]⟩
  | cutKill cut => exact ⟨[], by simp [cut.ran]⟩
  | cutSent c cut => exact ⟨[], by simp [cut.ran]⟩
  | cutDie cut => exact ⟨[], by simp [cut.ran]⟩
  | cutHandlers _ _ cut => exact ⟨[], by simp [cut.ran]⟩
  | cutReset cut => exact ⟨[], by simp [cut.ran]⟩
  | cutConv cut => exact ⟨[], by simp [cut.ran]⟩
  | cutCheck cut => exact ⟨[], by simp [cut.ran]⟩
  | cutClosed c cut => exact ⟨[], by simp [cut.ran]⟩

/-- A neighbour that is alive and has both streams closed does not wait for its death. -/
theorem Undecided.open (stage : Undecided n) (zombie : n.instream ≠ .active) : n.finished = false := by
  cases stage with
  | idle h => exact h.finished
  | waiting c h => exact h.finished
  | sentDeath h out open_ => exact open_
  | sentUs s h writing out =>
    rcases out with ⟨-, open_⟩ | ⟨-, they⟩
    · exact open_
    · exact absurd (writing they) zombie

/-- In a proper run no death handler is run twice, all have been run once both streams are
closed, and the neighbour never dies twice. -/
theorem death_once (run : Run Proper n calls) :
    n.ran.Nodup ∧
      (calls = [] → n.instream ≠ .active → n.finished = true → ∀ i < n.registered, i ∈ n.ran) ∧
      ∀ c rest first, calls = c :: rest → n.call first c ≠ .error .diedTwice := by
  have inv := run.inv
  refine ⟨?_, ?_, ?_⟩
  · obtain ⟨l, ran⟩ := inv.ran
    have unique : (all n).Nodup := List.nodup_reverse.mpr List.nodup_range
    rw [← ran] at unique
    exact unique.of_append_left
  · rintro rfl zombie finished i hi
    rcases inv.rest with ⟨-, stage⟩ | ⟨-, -, ran⟩
    · simp [stage.open zombie] at finished
    · simpa [ran, all] using hi
  · rintro c rest first rfl
    exact (inv.steps first).2

theorem Run.makeCalls {proper : T → Event → Prop} {cs : List Code} (k : Nat) (run : Run proper n cs) :
    ∀ n' cs', Neighbour.makeCalls k n cs = some (n', cs') → Run proper n' cs' := by
  induction k generalizing n cs with
  | zero =>
    intro n' cs' made
    cases made
    exact run
  | succ k ih =>
    intro n' cs' made
    cases cs with
    | nil =>
      cases made
      exact run
    | cons c rest =>
      simp only [Neighbour.makeCalls] at made
      split at made
      · rename_i next
        exact ih (run.call false next) n' cs' made
      · cases made

/-- A neighbour with a handler is reset. -/
theorem death_once_reset : ∃ n, Run Proper n [] ∧ n.instream ≠ .active ∧ n.finished = true ∧ n.ran.Nodup ∧ 0 ∈ n.ran := by
  have added := (Run.start : Run Proper new []).event .addDeathHandler trivial rfl rfl
  have dead := (added.event .reset trivial rfl rfl).makeCalls 9 _ _ rfl
  have once := death_once dead
  exact ⟨_, dead, by decide, rfl, once.1, once.2.1 rfl (by decide) rfl 0 (by decide)⟩

/-- The grace period of a teardown ends while the other side is still writing. -/
theorem grace_runs_twice : ∃ n cs, Run (fun _ _ => True) n cs ∧ n.ran = [0, 0] := by
  have added := (Run.start : Run (fun _ _ => True) new []).event .addDeathHandler trivial trivial rfl
  have torn := (added.event .initiateTeardown trivial trivial rfl).makeCalls 1 _ _ rfl
  have late := (torn.event (.grace 0) ⟨_, rfl, rfl⟩ trivial rfl).makeCalls 13 _ _ rfl
  exact ⟨_, _, late, rfl⟩

end BubbleStorm.Topology.Neighbour
