/-
  BubbleStorm.Cusp.Conversation.Conversation — the buffer accounts of a conversation
  (cusp/conversation/conversation.fun: `addInStream`, `addOutStream`, the limits, `reset`
  and `close`).

  Each read or write of a stream is a record in one of two heaps, ordered by reliability,
  and its cost is counted in `inbuffer` or `outbuffer` until its callback `done` runs. The
  conversation runs code of others in the middle of its own: the operation that is given
  `done`, the `complete` inside `done`, the reset of a stream it kills, `quota`, and the
  callbacks of `close`. So a state has a stack with one frame for each such call, and an
  event is what the code on top does: call into the conversation, have a stream answer
  a record, return, or raise through any number of frames to whoever catches it.

  A stream answers a record once, and never one whose operation raised (`waiting` is what
  it has still to answer): the streams raise before they take a callback. The pair of an
  in and an out account is one definition over `Side`.
-/

import BubbleStorm.Lib.BinHeap
import BubbleStorm.Cusp.Stream.Offset

namespace BubbleStorm.Cusp.Conversation

open BubbleStorm.Cusp.Stream

inductive Side where
  | inn
  | out
  deriving DecidableEq, Repr

/-- What `Heap.wrap` makes, with the cost that `done` and the handler of `operation`
    keep. `id` is the identity of the reference. -/
structure Record where
  id : Nat
  stream : Nat
  reliability : Real32
  cost : Nat
  deriving DecidableEq, Repr

/-- `HeapKey`: smallest first. -/
def Record.less (r s : Record) : Bool := Real32.lt r.reliability s.reliability

/-- A heap of records and the counter of their costs: `instreams` and `inbuffer`, or
    `outstreams` and `outbuffer`. -/
structure Account where
  streams : List Record
  buffer : Int
  deriving DecidableEq, Repr

structure Limits where
  recv : Int
  send : Int
  quota : Nat
  deriving DecidableEq, Repr

def Limits.of (l : Limits) : Side → Int
  | .inn => l.recv
  | .out => l.send

structure T where
  progress : Int
  inn : Account
  out : Account
  traffic : Int
  /-- The callbacks of `close`, in the order they will run. -/
  close : List Nat
  limits : Option Limits
  deriving DecidableEq, Repr

namespace T

def account (t : T) : Side → Account
  | .inn => t.inn
  | .out => t.out

def setAccount (t : T) (a : Account) : Side → T
  | .inn => { t with inn := a }
  | .out => { t with out := a }

end T

/-- Code of others that the conversation has called. -/
inductive Frame where
  /-- `operation done`, within `addInStream` or `addOutStream`. -/
  | operation (d : Side) (r : Record)
  /-- `complete`, within `done`. -/
  | complete (d : Side) (r : Record)
  /-- The reset of a stream, within `checkLimits`; the sides still to check. -/
  | killing (todo : List Side)
  | quota (todo : List Side)
  /-- The reset of a stream, within `reset`; the sides still to empty. -/
  | resetting (todo : List Side)
  /-- A callback of `close`, and the callbacks after it. -/
  | closing (rest : List Nat)
  deriving DecidableEq, Repr

structure St where
  conv : T
  stack : List Frame
  /-- The callbacks the streams have to call. -/
  waiting : List (Side × Record)
  next : Nat
  deriving DecidableEq, Repr

/-- `new`, at time `now`. -/
def init (now : Int) : St :=
  { conv := { progress := now, inn := ⟨[], 0⟩, out := ⟨[], 0⟩, traffic := 0, close := [], limits := none },
    stack := [], waiting := [], next := 0 }

def push (s : St) (f : Frame) : St := { s with stack := f :: s.stack }

/-- `Heap.remove`: a record in no heap is left alone. -/
def heapRemove (h : List Record) (r : Record) : List Record :=
  match h.findIdx? (·.id == r.id) with
  | some i => BinHeap.removeAt Record.less h i
  | none => h

/-- What `done` and the handler both do: take the cost off and the record out. -/
def release (t : T) (d : Side) (r : Record) : T :=
  t.setAccount ⟨heapRemove (t.account d).streams r, (t.account d).buffer - r.cost⟩ d

/-! ## The limits -/

/-- `peekBounded (.., maxFinite)`: the least reliable record, unless it is reliable. -/
def peekUnreliable (a : Account) : Option Record := a.streams.head?.filter (·.reliability ≠ .posInf)

/-- `checkLimitsIn` and `checkLimitsOut`, one after the other: kill a stream, whose reset
    is a call, or give up. -/
def checkLimits : List Side → St → St
  | [], s => s
  | d :: todo, s =>
    match s.conv.limits with
    | none => checkLimits todo s
    | some l =>
      if l.of d < (s.conv.account d).buffer then
        match peekUnreliable (s.conv.account d) with
        | none => push { s with conv := { s.conv with limits := none } } (.quota todo)
        | some _ => push s (.killing (d :: todo))
      else checkLimits todo s

/-- `reset`: one stream after the other, until the heaps are empty. -/
def resetStreams : List Side → St → St
  | [], s => s
  | d :: todo, s => if (s.conv.account d).streams.isEmpty then resetStreams todo s else push s (.resetting (d :: todo))

/-! ## Calls -/

/-- `addInStream` and `addOutStream`, as far as the operation; the cost of an outgoing
    record has the stream's `queue` in it. -/
def add (s : St) (now : Int) (d : Side) (stream cost : Nat) (reliability : Real32) : St :=
  let r : Record := ⟨s.next, stream, reliability, cost⟩
  let a := s.conv.account d
  let progress := if a.streams.isEmpty then now else s.conv.progress
  let conv := { s.conv with progress := progress }.setAccount ⟨BinHeap.push Record.less a.streams r, a.buffer + cost⟩ d
  { conv := conv, stack := .operation d r :: s.stack, waiting := (d, r) :: s.waiting, next := s.next + 1 }

/-- `done`, as far as `complete`. -/
def done (s : St) (d : Side) (r : Record) : St :=
  { s with conv := release s.conv d r, stack := .complete d r :: s.stack, waiting := s.waiting.erase (d, r) }

/-- `checkClose`: the callbacks of `close` run once no outgoing record is left. -/
def checkClose (s : St) : St :=
  if s.conv.out.streams.isEmpty then
    match s.conv.close with
    | [] => s
    | _ :: rest => push { s with conv := { s.conv with close := [] } } (.closing rest)
  else s

/-- `done`, after `complete` returned `ok`; `queue` is what the stream has still to send. -/
def completed (s : St) (now : Int) (ok : Bool) (queue : Nat) (r : Record) : Side → St
  | .inn => if ok then { s with conv := { s.conv with progress := now } } else s
  | .out =>
    if ok then
      let progress := if r.cost ≤ queue then s.conv.progress else now
      checkClose { s with conv := { s.conv with progress := progress, traffic := s.conv.traffic + (r.cost - queue) } }
    else checkClose s

/-- What is left to do when the call of a frame returns. -/
def resume (s : St) (now : Int) (ok : Bool) (queue : Nat) : Frame → St
  | .operation d _ => checkLimits [d] s
  | .complete d r => completed s now ok queue r d
  | .killing todo => checkLimits todo s
  | .quota todo => checkLimits todo s
  | .resetting todo => resetStreams todo s
  | .closing [] => s
  | .closing (_ :: rest) => push s (.closing rest)

/-- An exception passes a frame: only the operation's has a handler, which undoes the
    registration and raises again. -/
def unwind (s : St) : Frame → St
  | .operation d r => { s with conv := release s.conv d r, waiting := s.waiting.erase (d, r) }
  | _ => s

inductive Ev where
  | addInStream (stream cost : Nat) (reliability : Real32)
  | addOutStream (stream cost queue : Nat) (reliability : Real32)
  | done (d : Side) (r : Record)
  | setLimits (limits : Option Limits)
  | reset
  | close (complete : Nat)
  | ret (ok : Bool) (queue : Nat)
  /-- An exception that passes `frames` frames and is caught by the code below. -/
  | raise (frames : Nat)
  deriving DecidableEq, Repr

def step (s : St) (now : Int) : Ev → Option St
  | .addInStream stream cost reliability => some (add s now .inn stream cost reliability)
  | .addOutStream stream cost queue reliability => some (add s now .out stream (cost + queue) reliability)
  | .done d r => if (d, r) ∈ s.waiting then some (done s d r) else none
  | .setLimits limits => some (checkLimits [.inn, .out] { s with conv := { s.conv with limits := limits } })
  | .reset => some (resetStreams [.inn, .out] s)
  | .close complete =>
    -- with nothing to wait for, the callback runs at once
    if s.conv.out.streams.isEmpty then some (push s (.closing []))
    else some { s with conv := { s.conv with close := complete :: s.conv.close } }
  | .ret ok queue =>
    match s.stack with
    | [] => none
    | f :: stack => some (resume { s with stack := stack } now ok queue f)
  | .raise frames => some ((s.stack.take frames).foldl unwind { s with stack := s.stack.drop frames })

end BubbleStorm.Cusp.Conversation
