/-
  BubbleStorm.Cusp.Conversation.Reset — a conversation that is reset (`reset` of
  conversation.fun, with `addInStream`, `addOutStream` and `close`).

  The loops of `reset` take no record out of a heap themselves: they reset the stream of
  the first record, which calls the callback of the operation that waits, and `done`
  unregisters it. So the streams are the queues of Cusp.Stream here, and an answer is what
  a call of a queue logs for the callbacks it was given; what is still to do after a
  completion callback, or after the reset of a stream, is a stack of tasks. The callbacks
  are code: `user` says which calls a completion callback makes on an answer.

  An exception that leaves a callback is not modelled, nor the timeout, which `reset`
  cancels. What `setLimits` and the checks of the quota do is to reset streams, which is a
  call like others here; the costs are the matter of Quota.
-/

import BubbleStorm.Cusp.Conversation.Conversation
import BubbleStorm.Cusp.Stream.InStreamQueue
import BubbleStorm.Cusp.Stream.OutStreamQueue
import Mathlib.Logic.Function.Basic

namespace BubbleStorm.Cusp.Conversation.Reset

open BubbleStorm.Cusp.Stream
open Function (update)

/-! ## Code -/

/-- How a stream answers. -/
inductive Answer where
  | reader (s : InStreamQueue.Status)
  | writer (s : OutStreamQueue.Status)
  | shutdowner (ok : Bool)
  deriving DecidableEq, Repr

/-- What a stream that is reset answers. -/
inductive Answer.Failed : Answer → Prop
  | reader : Failed (.reader .reset)
  | writer : Failed (.writer .reset)
  | shutdowner : Failed (.shutdowner false)

/-- What the code of a callback may call. -/
inductive Call where
  /-- An operation that reads once, as that of `TailData.vector` does. -/
  | addInStream (stream : Nat) (bufferSize : Int) (cost : Nat) (reliability : Real32)
  | addWrite (stream : Nat) (buffer : OutStreamQueue.Word8Vector) (cost : Nat) (reliability : Real32)
  | addShutdown (stream : Nat) (cost : Nat) (reliability : Real32)
  | resetIn (stream : Nat)
  | resetOut (stream : Nat)
  | reset
  | close (code : List Call)
  /-- `response`, and the host's choice of a service. -/
  | response (service : Nat)
  | unhook (service : Nat)

/-- Code that registers no operation. -/
inductive Call.Quiet : Call → Prop
  | resetIn (i : Nat) : Quiet (.resetIn i)
  | resetOut (i : Nat) : Quiet (.resetOut i)
  | reset : Quiet .reset
  | close {code : List Call} (all : ∀ c ∈ code, Quiet c) : Quiet (.close code)
  | response (service : Nat) : Quiet (.response service)
  | unhook (service : Nat) : Quiet (.unhook service)

inductive Task where
  | call (c : Call)
  /-- `done`, after `complete`. -/
  | checkClose
  /-- A second callback of one call of a queue. -/
  | answer (d : Side) (id : Nat) (a : Answer)
  /-- The loops of `reset`; the sides still to empty. -/
  | resetting (todo : List Side)

/-! ## The state -/

structure St where
  heap : Side → List Record
  /-- The callbacks of `close`, in the order they will run. -/
  close : List (List Call)
  /-- The ring, and the services the host listens to for the conversation. -/
  listeners : List Nat
  hosted : List Nat
  ins : Nat → InStreamQueue.T
  outs : Nat → OutStreamQueue.T
  next : Nat
  /-- The records whose `complete` has been called. -/
  called : List Nat

def init : St :=
  { heap := fun _ => [], close := [], listeners := [], hosted := [], ins := InStreamQueue.new, outs := fun _ => OutStreamQueue.new,
    next := 0, called := [] }

def inTold (l : List InStreamQueue.Out) : List (Nat × Answer) :=
  l.filterMap fun
    | .reader id s => some (id, .reader s)
    | .event _ => none

def outTold (l : List OutStreamQueue.Out) : List (Nat × Answer) :=
  l.filterMap fun
    | .writer id s => some (id, .writer s)
    | .shutdowner id ok => some (id, .shutdowner ok)
    | .event _ | .wrote _ => none

/-- The callbacks that a call of the queue ran. -/
def inAnswers (q q' : InStreamQueue.T) : List (Nat × Answer) := inTold (q'.log.drop q.log.length)

def outAnswers (q q' : OutStreamQueue.T) : List (Nat × Answer) := outTold (q'.log.drop q.log.length)

/-! ## What the conversation does -/

/-- `Heap.remove` of the record with an identity; one in no heap is left alone. -/
def unregister (h : List Record) (id : Nat) : List Record :=
  match h.find? (·.id == id) with
  | some r => heapRemove h r
  | none => h

section machine

variable (user : Nat → Answer → List Call)

/-- `done`, as far as `complete` and with it. -/
def done (s : St) (d : Side) (id : Nat) (a : Answer) (k : List Task) : St × List Task :=
  ({ s with heap := update s.heap d (unregister (s.heap d) id), called := s.called ++ [id] },
    (user id a).map .call ++ match d with
      | .inn => k
      | .out => .checkClose :: k)

def answers (s : St) (d : Side) (k : List Task) : List (Nat × Answer) → St × List Task
  | [] => (s, k)
  | (id, a) :: rest => done user s d id a (rest.map (fun x => .answer d x.1 x.2) ++ k)

def resetStream (s : St) (i : Nat) (k : List Task) : Side → St × List Task
  | .inn =>
    let q := s.ins i
    answers user { s with ins := update s.ins i (InStreamQueue.reset q) } .inn k (inAnswers q (InStreamQueue.reset q))
  | .out =>
    let q := s.outs i
    answers user { s with outs := update s.outs i (OutStreamQueue.reset q) } .out k (outAnswers q (OutStreamQueue.reset q))

/-- `addInStream` and `addOutStream`, as far as the operation. -/
def register (s : St) (d : Side) (r : Record) : St :=
  { s with heap := update s.heap d (BinHeap.push Record.less (s.heap d) r), next := s.next + 1 }

/-- The handler of an operation that raised. The identity can be used again. -/
def refuse (s : St) (d : Side) (r : Record) : St :=
  { s with heap := update s.heap d (unregister (BinHeap.push Record.less (s.heap d) r) r.id) }

def addInStream (s : St) (i : Nat) (r : Record) (k : List Task) : Except Exn InStreamQueue.T → St × List Task
  | .error _ => (refuse s .inn r, k)
  | .ok q => answers user { register s .inn r with ins := update s.ins i q } .inn k (inAnswers (s.ins i) q)

def addOutStream (s : St) (i : Nat) (r : Record) (k : List Task) : Except Exn OutStreamQueue.T → St × List Task
  | .error _ => (refuse s .out r, k)
  | .ok q => answers user { register s .out r with outs := update s.outs i q } .out k (outAnswers (s.outs i) q)

def exec (s : St) (k : List Task) : Call → St × List Task
  | .addInStream i bufferSize cost reliability =>
    addInStream user s i ⟨s.next, i, reliability, cost⟩ k (InStreamQueue.read (s.ins i) bufferSize s.next)
  | .addWrite i buffer cost reliability =>
    addOutStream user s i ⟨s.next, i, reliability, cost⟩ k (OutStreamQueue.write (s.outs i) buffer s.next)
  | .addShutdown i cost reliability =>
    addOutStream user s i ⟨s.next, i, reliability, cost⟩ k (OutStreamQueue.shutdown (s.outs i) s.next)
  | .resetIn i => resetStream user s i k .inn
  | .resetOut i => resetStream user s i k .out
  | .reset => (s, .resetting [.inn, .out] :: k)
  | .close code =>
    -- with nothing to wait for, the callback runs at once
    if (s.heap .out).isEmpty then (s, code.map .call ++ k) else ({ s with close := code :: s.close }, k)
  | .response service => ({ s with listeners := service :: s.listeners, hosted := service :: s.hosted }, k)
  | .unhook service =>
    -- an element that has left the ring is solo
    if service ∈ s.listeners then ({ s with listeners := s.listeners.erase service, hosted := s.hosted.erase service }, k) else (s, k)

def step (s : St) : List Task → Option (St × List Task)
  | [] => none
  | .call c :: k => some (exec user s k c)
  | .checkClose :: k =>
    if (s.heap .out).isEmpty then some ({ s with close := [] }, (s.close.flatten.map .call) ++ k) else some (s, k)
  | .answer d id a :: k => some (done user s d id a k)
  | .resetting [] :: k =>
    some ({ s with listeners := [], hosted := s.hosted.filter (· ∉ s.listeners) }, k)
  | .resetting (d :: todo) :: k =>
    match s.heap d with
    | [] => some (s, .resetting todo :: k)
    | r :: _ => some (resetStream user s r.stream (.resetting (d :: todo) :: k) d)

/-- `n` steps. -/
def steps : Nat → St → List Task → Option (St × List Task)
  | 0, s, k => some (s, k)
  | n + 1, s, k => (step user s k).bind fun x => steps n x.1 x.2

end machine

/-! ## Runs -/

/-- One call of an in-stream. `readFully` is handed a piece and reads `more`. -/
inductive InStep : InStreamQueue.T → InStreamQueue.T → List (Nat × Answer) → Prop
  | recvData (q : InStreamQueue.T) (offset : Int) (data : Bytes) :
    InStep q (InStreamQueue.recvData q offset data).1 (inAnswers q (InStreamQueue.recvData q offset data).1)
  | shutdown (q : InStreamQueue.T) (eof : Int) : InStep q (InStreamQueue.shutdown q eof) (inAnswers q (InStreamQueue.shutdown q eof))
  | reset (q : InStreamQueue.T) : InStep q (InStreamQueue.reset q) (inAnswers q (InStreamQueue.reset q))
  /-- The writer resets. -/
  | down (q : InStreamQueue.T) : InStep q { q with state := .amShutdown 0 } []
  | pull {q q' : InStreamQueue.T} {id seq : Nat} {p : InStreamQueue.Pulled} (pulled : InStreamQueue.pull q id seq = .ok (p, q')) :
    InStep q q' (inAnswers q q')
  | ack (q : InStreamQueue.T) (a : InStreamQueue.Ack) (ok : Bool) :
    InStep q (InStreamQueue.ack q a ok) (inAnswers q (InStreamQueue.ack q a ok))
  | more {q q' q'' : InStreamQueue.T} {id : Nat} {slice : Bytes} {bufferSize : Int} (piece : InStep q q' [(id, .reader (.data slice))])
    (read : InStreamQueue.read q' bufferSize id = .ok q'') : InStep q q'' (inAnswers q' q'')

/-- The operation of an incoming record: a `read`, and for `readFully` perhaps `more`. -/
inductive Opens (id : Nat) : InStreamQueue.T → InStreamQueue.T → List (Nat × Answer) → Prop
  | read {q q' : InStreamQueue.T} {bufferSize : Int} (read : InStreamQueue.read q bufferSize id = .ok q') : Opens id q q' (inAnswers q q')
  | more {q q' q'' : InStreamQueue.T} {slice : Bytes} {bufferSize : Int} (piece : Opens id q q' [(id, .reader (.data slice))])
    (read : InStreamQueue.read q' bufferSize id = .ok q'') : Opens id q q'' (inAnswers q' q'')

/-- The callbacks of an out-stream and what decides when it calls them are left alone. -/
structure Aside (q q' : OutStreamQueue.T) : Prop where
  buffer : q'.buffer = q.buffer
  writer : q'.writer = q.writer
  shutdowner : q'.shutdowner = q.shutdowner
  connected : q'.state = .amConnected ↔ q.state = .amConnected
  stopped : q'.state = .amReset ↔ q.state = .amReset
  log : ∃ l, q'.log = q.log ++ l ∧ outTold l = []

/-- The pieces that the calls of an out-stream are made of. -/
inductive OutStep : OutStreamQueue.T → OutStreamQueue.T → List (Nat × Answer) → Prop
  | aside {q q' : OutStreamQueue.T} (same : Aside q q') : OutStep q q' []
  | makeProgress (q : OutStreamQueue.T) : OutStep q (OutStreamQueue.makeProgress q) (outAnswers q (OutStreamQueue.makeProgress q))
  | checkDone (q : OutStreamQueue.T) : OutStep q (OutStreamQueue.checkDone q) (outAnswers q (OutStreamQueue.checkDone q))
  | doReset (q : OutStreamQueue.T) : OutStep q (OutStreamQueue.doReset q) (outAnswers q (OutStreamQueue.doReset q))

/-- No code of the callbacks: what they call comes as further steps. -/
def nobody : Nat → Answer → List Call := fun _ _ => []

/-- A conversation at any moment: its code, its streams and any other code take turns. -/
inductive Reach : St → List Task → Prop
  | init : Reach init []
  | call {s : St} {k : List Task} (before : Reach s k) (c : Call) : Reach s (.call c :: k)
  | step {s s' : St} {k k' : List Task} (before : Reach s k) (next : step nobody s k = some (s', k')) : Reach s' k'
  | add {s : St} {k : List Task} {i cost : Nat} {reliability : Real32} {q : InStreamQueue.T} {l : List (Nat × Answer)} (before : Reach s k)
    (opens : Opens s.next (s.ins i) q l) :
    Reach (answers nobody { register s .inn ⟨s.next, i, reliability, cost⟩ with ins := update s.ins i q } .inn k l).1
      (answers nobody { register s .inn ⟨s.next, i, reliability, cost⟩ with ins := update s.ins i q } .inn k l).2
  /-- `readFully` of an empty buffer does not ask the stream. -/
  | instant {s : St} {k : List Task} {i cost : Nat} {reliability : Real32} (before : Reach s k) (a : Answer) :
    Reach (done nobody (register s .inn ⟨s.next, i, reliability, cost⟩) .inn s.next a k).1
      (done nobody (register s .inn ⟨s.next, i, reliability, cost⟩) .inn s.next a k).2
  | inn {s : St} {k : List Task} {i : Nat} {q : InStreamQueue.T} {l : List (Nat × Answer)} (before : Reach s k)
    (turn : InStep (s.ins i) q l) :
    Reach (answers nobody { s with ins := update s.ins i q } .inn k l).1 (answers nobody { s with ins := update s.ins i q } .inn k l).2
  | out {s : St} {k : List Task} {i : Nat} {q : OutStreamQueue.T} {l : List (Nat × Answer)} (before : Reach s k)
    (turn : OutStep (s.outs i) q l) :
    Reach (answers nobody { s with outs := update s.outs i q } .out k l).1 (answers nobody { s with outs := update s.outs i q } .out k l).2

end BubbleStorm.Cusp.Conversation.Reset
