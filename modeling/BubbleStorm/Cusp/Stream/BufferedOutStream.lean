/-
  BubbleStorm.Cusp.Stream.BufferedOutStream — writes that wait for their turn
  (cusp/stream/buffered-out-stream.fun).

  A stream takes one write at a time; this wrapper queues the others in a ring, and holds
  a shutdown back until the queue is written. It calls code it does not know in the middle
  of its own: a write callback with READY, after which it goes on with the next buffer;
  the callbacks of the queue with RESET, one after the other, walking the ring as it is
  then; and `OutStream.shutdown`, after which it is ready. So a state has a stack with one
  frame for each such call. An event is what the code on top does: call the wrapper, have
  the stream answer a callback given to `OutStream.write` or `OutStream.shutdown`, or
  return. A call that raises `RaceCondition` changes nothing.

  Callbacks are numbered in the order they are given. `passed` are the buffers handed to
  `OutStream.write`, `called` and `closed` the callbacks run, in order.
-/

import BubbleStorm.Cusp.Stream.OutStreamQueue

namespace BubbleStorm.Cusp.Stream.BufferedOutStream

open OutStreamQueue (Status)

/-- An element of the ring. -/
structure Item where
  cb : Nat
  data : Bytes
  deriving DecidableEq, Repr

inductive State where
  | active
  | reset
  | shutdown
  | closing (cb : Nat)
  deriving DecidableEq, Repr

structure T where
  buffer : List Item
  ready : Bool
  state : State
  deriving DecidableEq, Repr

/-- Where an iterator of the ring goes on; an element out of the ring has no links. -/
inductive Link where
  | null
  | head
  | elt (x : Item)
  deriving DecidableEq, Repr

/-- Who called `resetQueued`: `reset`, or `continue` with RESET for a write. -/
inductive After where
  | reset
  | remote (cb : Nat)
  deriving DecidableEq, Repr

inductive Frame where
  /-- `cb READY`, within `continue`. -/
  | ready
  /-- `OutStream.shutdown`, within `writer`. -/
  | closing
  /-- `cb RESET` of an element, within `resetQueued`. -/
  | resetting (next : Link) (after : After)
  deriving DecidableEq, Repr

structure St where
  str : T
  stack : List Frame
  /-- The callbacks the stream has to call: of writes, and of the shutdown. -/
  writes : List Nat
  shutdowns : List Nat
  next : Nat
  accepted : List Item
  passed : List Item
  /-- The callbacks taken. -/
  asked : List Nat
  asks : List Nat
  called : List (Nat × Status)
  closed : List (Nat × Bool)
  deriving DecidableEq, Repr

def new : St :=
  { str := { buffer := [], ready := true, state := .active }, stack := [], writes := [], shutdowns := [], next := 0,
    accepted := [], passed := [], asked := [], asks := [], called := [], closed := [] }

def push (s : St) (f : Frame) : St := { s with stack := f :: s.stack }

def call (s : St) (cb : Nat) (status : Status) : St := { s with called := s.called ++ [(cb, status)] }

/-! ## Resetting the queue -/

/-- The links of the ring: from its head, and from an element. -/
def headOf : List Item → Link
  | [] => .head
  | x :: _ => .elt x

def nextOf (ring : List Item) (x : Item) : Link :=
  match ring.dropWhile (·.cb ≠ x.cb) with
  | [] => .null
  | _ :: rest => headOf rest

/-- The end of `resetQueued`, and what its caller does then. -/
def finish (s : St) : After → St
  | .reset => { s with str := { buffer := [], ready := true, state := .reset } }
  | .remote cb => call { s with str := { s.str with buffer := [], ready := true } } cb .reset

/-- The loop of `resetQueued`: the iterator has read an element's link before the
    element's callback runs. -/
def iterate (s : St) (after : After) : Link → Except Exn St
  | .null => .error (.fail "Impossible. Broken ring.")
  | .head => .ok (finish s after)
  | .elt x => .ok (push (call s x.cb .reset) (.resetting (nextOf s.str.buffer x) after))

def resetQueued (s : St) (after : After) : Except Exn St := iterate s after (headOf s.str.buffer)

/-! ## Writing and shutting down -/

def execShutdown (s : St) (cb : Nat) : St :=
  { s with str := { s.str with state := .shutdown }, shutdowns := s.shutdowns ++ [cb] }

/-- Write to the stream. -/
def writer (s : St) : St :=
  match s.str.buffer with
  | item :: rest =>
    { s with str := { s.str with buffer := rest, ready := false }, writes := s.writes ++ [item.cb],
             passed := s.passed ++ [item] }
  | [] =>
    match s.str.state with
    | .closing cb => push (execShutdown s cb) .closing
    | _ => { s with str := { s.str with ready := true } }

/-- Put incoming data into the buffer. -/
def write (s : St) (data : Bytes) : Except Exn St :=
  let asked := { s with asked := s.asked ++ [s.next], next := s.next + 1 }
  match s.str.state with
  | .reset => .ok (call asked s.next .reset)
  | .active =>
    let item : Item := ⟨s.next, data⟩
    let queued := { asked with str := { s.str with buffer := s.str.buffer ++ [item] }, accepted := s.accepted ++ [item] }
    .ok (if s.str.ready then writer queued else queued)
  | _ => .error .raceCondition

/-- Delay the shutdown to flush the buffer. -/
def shutdown (s : St) : Except Exn St :=
  let asked := { s with asks := s.asks ++ [s.next], next := s.next + 1 }
  match s.str.state with
  | .reset => .ok { asked with closed := s.closed ++ [(s.next, false)] }
  | .active => .ok (if s.str.ready then execShutdown asked s.next else { asked with str := { s.str with state := .closing s.next } })
  | _ => .error .raceCondition

inductive Ev where
  | write (data : Bytes)
  | shutdown
  | reset
  /-- The stream answers a write, or the shutdown. -/
  | answerWrite (cb : Nat) (status : Status)
  | answerShutdown (cb : Nat) (ok : Bool)
  | ret
  deriving DecidableEq, Repr

/-- What is left to do when the call of a frame returns. -/
def resume (s : St) : Frame → Except Exn St
  | .ready => .ok (writer s)
  | .closing => .ok { s with str := { s.str with ready := true } }
  | .resetting next after => iterate s after next

def step (s : St) : Ev → Except Exn St
  | .write data => write s data
  | .shutdown => shutdown s
  -- `OutStream.reset`, which ends it, calls the stream
  | .reset => resetQueued s .reset
  | .answerWrite cb status =>
    if cb ∈ s.writes then
      let s := { s with writes := s.writes.erase cb }
      match status with
      | .reset => resetQueued s (.remote cb)
      | .ready => .ok (push (call s cb .ready) .ready)
    else .ok s
  | .answerShutdown cb ok =>
    if cb ∈ s.shutdowns then .ok { s with shutdowns := s.shutdowns.erase cb, closed := s.closed ++ [(cb, ok)] } else .ok s
  | .ret =>
    match s.stack with
    | [] => .ok s
    | f :: stack => resume { s with stack := stack } f

end BubbleStorm.Cusp.Stream.BufferedOutStream
