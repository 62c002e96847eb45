/-
  BubbleStorm.Topology.Neighbour — the life and death of a neighbour.

  A neighbour holds a chain of death handlers that ends in `kill`, which resets the out
  stream and the conversation and leaves the detector of a second death behind. The chain
  is run when both sides are done, when the grace period of a teardown is over and when the
  neighbour is reset; what it resets calls the neighbour back before it returns. The model
  therefore keeps the calls that are still to be made (`Code`): an event is taken when none
  is left, and each step makes the first one.

  `reset` takes the chain off before it runs it. The grace period does not: while the other
  side is still writing, the conversation's reset reaches `receiveShutdown`, and the chain is
  run a second time from within its own end. Apart from that, and from calls on a neighbour
  that is already dying or torn down, every handler runs once (`NeighbourProofs`).

  The unhook belongs to whoever lists the neighbour and calls nothing of it back; it is left
  out here, as are the handlers' own effects.
-/

import Mathlib.Data.List.Basic

namespace BubbleStorm.Topology.Neighbour

/-! ## The neighbour and its conversation -/

inductive InStream
  | active
  | shutdown
  | reset
  deriving Repr, DecidableEq

/-- The `complete` of a sent shutdown: `completeTeardown`'s, or that of a teardown this side
initiated. -/
inductive Sent
  | death
  | us (session : Nat)
  deriving Repr, DecidableEq

inductive OutStream
  | opened
  | shutting (complete : Sent)
  | acked
  | reset
  deriving Repr, DecidableEq

/-- A death handler: one added by the neighbour's users, or the one that stops the grace
period of a teardown. -/
inductive Handler
  | user (id : Nat)
  | cancelTimeout (session : Nat)
  deriving Repr, DecidableEq

inductive Last
  | kill
  | noop
  | bug
  deriving Repr, DecidableEq

structure Chain where
  handlers : List Handler
  last : Last
  deriving Repr, DecidableEq

/-- A teardown handler: nothing, one of the neighbour's users that completes the teardown at
once or leaves it for later, or `makeThemDone`. -/
inductive Teardown
  | noop
  | user (completes : Bool)
  | them (session : Nat)
  deriving Repr, DecidableEq

/-- What `Conversation.close` completes. -/
inductive Close
  | complete
  | initiate
  deriving Repr, DecidableEq

structure Session where
  theyAreDone : Bool
  weAreDone : Bool
  timeout : Bool
  deriving Repr, DecidableEq

structure T where
  deathHandler : Chain
  teardownHandler : Teardown
  instream : InStream
  outstream : OutStream
  /-- The out stream was reset by this side, or its shutdown has been completed. -/
  finished : Bool
  /-- Other out streams of the conversation are at work. -/
  busy : Bool
  /-- What waits for the out streams of the conversation, the newest first. -/
  closing : List Close
  sessions : List Session
  started : Bool
  registered : Nat
  /-- The handlers that have been run, in order. -/
  ran : List Nat
  deriving Repr, DecidableEq

def new : T :=
  { deathHandler := { handlers := [], last := .kill }, teardownHandler := .noop, instream := .active,
    outstream := .opened, finished := false, busy := false, closing := [], sessions := [],
    started := false, registered := 0, ran := [] }

inductive Exn
  | diedTwice
  | raceCondition
  | notZombie
  deriving Repr, DecidableEq

/-- A call that is still to be made. -/
inductive Code
  | die
  | handlers (left : List Handler) (last : Last)
  | bug
  | reset
  | outReset
  | convReset
  | sent (complete : Sent)
  | checkClose
  | closed (c : Close)
  deriving Repr, DecidableEq

namespace T

def addDeathHandler (n : T) (h : Handler) : T :=
  { n with deathHandler := { n.deathHandler with handlers := h :: n.deathHandler.handlers } }

def setSession (n : T) (i : Nat) (f : Session → Session) : T := { n with sessions := n.sessions.modify i f }

def runHandler (n : T) : Handler → T
  | .user id => { n with ran := n.ran ++ [id] }
  | .cancelTimeout i => n.setSession i fun s => { s with timeout := false }

/-- A sent shutdown is not yet completed. -/
def isShutting (n : T) : Bool :=
  match n.outstream with
  | .shutting _ => true
  | _ => false

/-- The conversation has out streams at work. -/
def pending (n : T) : Bool := n.busy || n.isShutting

/-- `maybeBothAreDone`. -/
def maybeBothAreDone (n : T) (i : Nat) : List Code :=
  match n.sessions[i]? with
  | some s => if s.theyAreDone && s.weAreDone then [.die] else []
  | none => []

/-- `Conversation.Manual.sendShutdown`: a stream that has been reset completes at once. -/
def sendShutdown (n : T) (complete : Sent) : Except Exn (T × List Code) :=
  match n.outstream with
  | .opened => .ok ({ n with outstream := .shutting complete }, [])
  | .reset => .ok ({ n with finished := true }, [.sent complete, .checkClose])
  | _ => .error .raceCondition

/-- `Conversation.close`. -/
def close (n : T) (c : Close) : T × List Code :=
  if n.pending then ({ n with closing := c :: n.closing }, []) else (n, [.closed c])

def completeTeardown (n : T) : Except Exn (T × List Code) :=
  match n.instream with
  | .active => .error .notZombie
  | _ => .ok ({ n with started := true }.close .complete)

def initiateTeardown (n : T) : T × List Code :=
  { n with started := true, teardownHandler := .noop }.close .initiate

/-- `receiveShutdown true`. -/
def receiveShutdown (n : T) : Except Exn (T × List Code) :=
  match n.teardownHandler with
  | .noop => .ok (n, [])
  | .user completes => if completes then n.completeTeardown else .ok (n, [])
  | .them i =>
    let n := n.setSession i fun s => { s with theyAreDone := true }
    .ok (n, n.maybeBothAreDone i)

/-- Make one call. In a conversation that is reset, `first` tells whether the neighbour's out
stream comes before the others. -/
def call (n : T) (first : Bool) : Code → Except Exn (T × List Code)
  | .die => .ok (n, [.handlers n.deathHandler.handlers n.deathHandler.last])
  | .handlers (h :: left) last => .ok (n.runHandler h, [.handlers left last])
  | .handlers [] .noop => .ok (n, [])
  | .handlers [] .kill => .ok (n, [.outReset, .convReset, .bug])
  | .handlers [] .bug => .error .diedTwice
  | .bug => .ok ({ n with deathHandler := { handlers := [], last := .bug } }, [])
  | .reset =>
    .ok ({ n with deathHandler := { handlers := [], last := .noop } },
      [.handlers n.deathHandler.handlers n.deathHandler.last])
  | .outReset =>
    match n.outstream with
    | .shutting complete => .ok ({ n with outstream := .reset, finished := true }, [.sent complete, .checkClose])
    | _ => .ok ({ n with outstream := .reset, finished := true }, [])
  | .convReset =>
    match n.instream with
    | .active => .ok ({ n with instream := .reset }, [.reset, .convReset])
    | _ =>
      match n.outstream, n.busy with
      | .shutting _, true => if first then .ok (n, [.outReset, .convReset])
          else .ok ({ n with busy := false }, [.checkClose, .convReset])
      | .shutting _, false => .ok (n, [.outReset, .convReset])
      | _, true => .ok ({ n with busy := false }, [.checkClose, .convReset])
      | _, false => .ok (n, [])
  | .sent .death => .ok (n, [.die])
  | .sent (.us i) =>
    let n := n.setSession i fun s => { s with weAreDone := true }
    .ok (n, n.maybeBothAreDone i)
  | .checkClose => if n.pending then .ok (n, []) else .ok ({ n with closing := [] }, n.closing.map .closed)
  | .closed .complete => n.sendShutdown .death
  | .closed .initiate =>
    let i := n.sessions.length
    let session := { theyAreDone := n.instream ≠ .active, weAreDone := false, timeout := true }
    let n := { n with sessions := n.sessions ++ [session], teardownHandler := .them i }
    (n.addDeathHandler (.cancelTimeout i)).sendShutdown (.us i)

end T

/-! ## Runs -/

inductive Event
  | remoteShutdown
  | remoteReset
  | outstreamReset
  | acknowledged
  | grace (session : Nat)
  | conversationReset
  | busy
  | drained
  | addDeathHandler
  | setTeardownHandler (completes : Bool)
  | reset
  | initiateTeardown
  | completeTeardown
  deriving Repr, DecidableEq

/-- Each callback fires at most once. -/
def enabled (n : T) : Event → Prop
  | .remoteShutdown => n.instream = .active
  | .remoteReset => n.instream = .active
  | .outstreamReset => n.outstream = .opened ∨ n.isShutting = true
  | .acknowledged => n.isShutting = true
  | .grace i => ∃ s, n.sessions[i]? = some s ∧ s.timeout = true
  | .drained => n.busy = true
  | _ => True

def take (n : T) : Event → Except Exn (T × List Code)
  | .remoteShutdown => T.receiveShutdown { n with instream := .shutdown }
  | .remoteReset => .ok ({ n with instream := .reset }, [.reset])
  | .outstreamReset =>
    match n.outstream with
    | .shutting complete => .ok ({ n with outstream := .reset, finished := true }, [.sent complete, .checkClose])
    | _ => .ok ({ n with outstream := .reset }, [])
  | .acknowledged =>
    match n.outstream with
    | .shutting complete => .ok ({ n with outstream := .acked, finished := true }, [.sent complete, .checkClose])
    | _ => .ok (n, [])
  | .grace i => .ok (n.setSession i fun s => { s with timeout := false, theyAreDone := false }, [.die])
  | .conversationReset => .ok (n, [.convReset])
  | .busy => .ok ({ n with busy := true }, [])
  | .drained => .ok ({ n with busy := false }, [.checkClose])
  | .addDeathHandler =>
    .ok ({ n with registered := n.registered + 1 }.addDeathHandler (.user n.registered), [])
  | .setTeardownHandler completes => .ok ({ n with teardownHandler := .user completes }, [])
  | .reset => .ok (n, [.reset])
  | .initiateTeardown => .ok n.initiateTeardown
  | .completeTeardown => n.completeTeardown

/-- The neighbour and the calls still to be made. -/
inductive Run (proper : T → Event → Prop) : T → List Code → Prop
  | start : Run proper new []
  | event {n n' calls} (e : Event) (run : Run proper n []) (enabled : enabled n e) (ok : proper n e)
      (took : take n e = .ok (n', calls)) : Run proper n' calls
  | call {n c rest n' calls} (first : Bool) (run : Run proper n (c :: rest))
      (made : n.call first c = .ok (n', calls)) : Run proper n' (calls ++ rest)

/-- Alive, and neither dying nor dead. -/
def alive (n : T) : Prop := n.deathHandler.last = .kill

/-- The grace period ends only after the other side has stopped writing, and the neighbour's
users call it only while it is alive and start its teardown once. -/
def Proper (n : T) : Event → Prop
  | .grace _ => n.instream ≠ .active
  | .addDeathHandler => alive n
  | .reset => alive n
  | .setTeardownHandler _ => alive n ∧ n.started = false
  | .initiateTeardown => alive n ∧ n.started = false
  | .completeTeardown => alive n ∧ n.started = false
  | _ => True

/-- Make the first calls there are. -/
def makeCalls : Nat → T → List Code → Option (T × List Code)
  | 0, n, cs => some (n, cs)
  | _ + 1, n, [] => some (n, [])
  | k + 1, n, c :: rest =>
    match n.call false c with
    | .ok (n', cs) => makeCalls k n' (cs ++ rest)
    | .error _ => none

end BubbleStorm.Topology.Neighbour
