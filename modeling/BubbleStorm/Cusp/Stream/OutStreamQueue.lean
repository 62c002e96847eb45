/-
  BubbleStorm.Cusp.Stream.OutStreamQueue — the sending half of a stream
  (cusp/stream/out-stream-queue.sml).

  A call of the source runs callbacks: the host's `callback` with an event, and the
  application's `writer` and `shutdowner`. A call appends what it runs to `log`, in
  order; a callback of the application is a number the application chose. Callbacks
  that end a call need no more than that: what the application does in them is the
  next call. The one place where the source goes on after an application callback and
  looks at the queue again is inside `pull` (`makeProgress` runs a writer between two
  segments), so `pull` takes what the writers it runs do to this stream (`Op`), one
  list for each writer run.

  `Seg.ref` stands for the identity of a heap record; `fresh` is the next one.
-/

import BubbleStorm.Cusp.Stream.Offset

namespace BubbleStorm.Cusp.Stream.OutStreamQueue

/-- `Word8Vector.vector`: a length is an `int`. -/
abbrev Word8Vector := { b : Bytes // b.length < 2 ^ 31 }

inductive Status where
  | reset
  | ready
  deriving DecidableEq, Repr

inductive Event where
  | rts (prio : Real32)
  | becameReset
  | becameComplete
  | inflightBytes (n : Int)
  | retransmitBytes (n : Int)
  deriving DecidableEq, Repr

inductive Progress where
  | retransmit
  | inflight
  | ackd
  deriving DecidableEq, Repr

inductive State where
  | amConnected
  | amReset
  | amShutdown (p : Progress)
  deriving DecidableEq, Repr

/-- A callback run by a call; `wrote` records the buffers `write` has taken. -/
inductive Out where
  | event (e : Event)
  | writer (cb : Nat) (s : Status)
  | shutdowner (cb : Nat) (ok : Bool)
  | wrote (buffer : Word8Vector)
  deriving DecidableEq, Repr

/-- A heap record: the slice `data` of the stream, from `offset` on. -/
structure Seg where
  ref : Nat
  offset : Int
  data : Bytes
  deriving DecidableEq, Repr

def Seg.len (s : Seg) : Int := s.data.length

/-- `Heap = ManagedHeap(Key)`, keyed by offset. -/
def Seg.less (s t : Seg) : Bool := Key.lt s.offset t.offset

structure T where
  state : State
  priority : Real32
  inflight : List Seg
  inflightBytes : Int
  retransmit : List Seg
  retransmitBytes : Int
  bytesSent : Int
  sendOffset : Int
  barrier : Int
  buffer : Option Word8Vector
  writer : Option Nat
  shutdowner : Option Nat
  id : Nat
  fresh : Nat
  log : List Out
  deriving DecidableEq, Repr

def new : T :=
  { state := .amConnected, priority := .finite 0, inflight := [], inflightBytes := 0, retransmit := [],
    retransmitBytes := 0, bytesSent := 0, sendOffset := 0, barrier := minimumWindow, buffer := none, writer := none,
    shutdowner := none, id := 0xffff, fresh := 0, log := [] }

def emit (q : T) (o : Out) : T := { q with log := q.log ++ [o] }

def callback (q : T) (e : Event) : T := emit q (.event e)

/-- Run a writer; `none` is `fn _ => ()`. -/
def runWriter (q : T) (cb : Option Nat) (s : Status) : T :=
  match cb with
  | some cb => emit q (.writer cb s)
  | none => q

def runShutdowner (q : T) (cb : Option Nat) (ok : Bool) : T :=
  match cb with
  | some cb => emit q (.shutdowner cb ok)
  | none => q

/-- Ready to send: something to indicate, or data before the edge of the silly window. -/
def amRTS (q : T) : Bool :=
  match q.state with
  | .amReset => true
  | .amShutdown .retransmit => true
  | _ =>
    match q.retransmit.head? with
    | none => false
    | some r => Key.lt r.offset (q.barrier - 2048)

def updateRTS (q : T) : T := callback q (.rts (if amRTS q then q.priority else .negInf))

def setPriority (q : T) (prio : Real32) : Except Exn T :=
  if prio.isFinite then .ok (updateRTS { q with priority := prio }) else .error .domain

/-- Move data from the buffer into the retransmit heap (if it is empty). -/
def makeProgress (q : T) : T :=
  if q.retransmit ≠ [] then updateRTS q
  else
    match q.buffer with
    | none => q
    | some buffer =>
      let q1 := { q with retransmit := BinHeap.push Seg.less q.retransmit ⟨q.fresh, q.sendOffset, buffer.val⟩,
                         fresh := q.fresh + 1 }
      let q2 := callback q1 (.retransmitBytes buffer.val.length)
      let q3 := { q2 with buffer := none, writer := none, retransmitBytes := q2.retransmitBytes + buffer.val.length,
                          sendOffset := q2.sendOffset + buffer.val.length }
      runWriter (updateRTS q3) q.writer .ready

def write (q : T) (buffer : Word8Vector) (writer : Nat) : Except Exn T :=
  if q.buffer.isSome then .error .raceCondition
  else
    match q.state with
    | .amShutdown _ => .error .raceCondition
    | .amReset => .ok (runWriter q (some writer) .reset)
    | .amConnected => .ok (makeProgress (emit { q with buffer := some buffer, writer := some writer } (.wrote buffer)))

def shutdown (q : T) (cb : Nat) : Except Exn T :=
  if q.buffer.isSome then .error .raceCondition
  else
    match q.state with
    | .amShutdown _ => .error .raceCondition
    | .amReset => .ok (runShutdowner q (some cb) false)
    | .amConnected => .ok (updateRTS { q with state := .amShutdown .retransmit, shutdowner := some cb })

def doReset (q : T) : T :=
  let q1 := callback q (.retransmitBytes (-q.retransmitBytes))
  let q2 := { q1 with state := .amReset, retransmit := [], retransmitBytes := 0, writer := none, shutdowner := none,
                      buffer := none }
  runWriter (runShutdowner (callback q2 .becameReset) q.shutdowner false) q.writer .reset

def reset (q : T) : T := updateRTS (doReset q)

def amDone (q : T) : Bool := q.state = .amShutdown .ackd && q.inflight.isEmpty && q.retransmit.isEmpty

def checkDone (q : T) : T :=
  if amDone q then runShutdowner { callback q .becameComplete with shutdowner := none } q.shutdowner true else q

/-! ## What the application may do inside a callback -/

inductive Op where
  | write (buffer : Word8Vector) (writer : Nat)
  | shutdown (cb : Nat)
  | reset
  | setPriority (prio : Real32)
  deriving DecidableEq, Repr

/-- A call that raises does so before it changes anything. -/
def attempt (q : T) (r : Except Exn T) : T :=
  match r with
  | .ok q' => q'
  | .error _ => q

def exec (q : T) : Op → T
  | .write buffer writer => attempt q (write q buffer writer)
  | .shutdown cb => attempt q (shutdown q cb)
  | .reset => reset q
  | .setPriority prio => attempt q (setPriority q prio)

/-- `makeProgress` runs a writer exactly when it moves the buffer. -/
def progresses (q : T) : Bool := q.retransmit.isEmpty && q.buffer.isSome

/-- `makeProgress`, followed by what the writer it runs does to this stream. -/
def makeProgressThen (q : T) (react : List (List Op)) : T × List (List Op) :=
  if progresses q then ((react.headD []).foldl exec (makeProgress q), react.tail) else (makeProgress q, react)

/-! ## Pulling -/

/-- Pop the segments that continue the stream at `offset`, up to `room` bytes. The first
    argument bounds the number of pops: each one takes room or an empty segment. -/
def pullContiguousSegments : Nat → T → Nat → Int → List (List Op) → List Seg × T
  | 0, q, _, _, _ => ([], q)
  | fuel + 1, q, room, offset, react =>
    match BinHeap.popIf Seg.less (fun s => Key.le s.offset offset) q.retransmit with
    | none => ([], q)
    | some (segment, retransmit) =>
      let q1 := { q with retransmit := retransmit }
      if segment.data.length ≤ room then
        -- the entire segment is consumed
        let (q2, react) := makeProgressThen q1 react
        if segment.data.length = room then ([segment], q2)
        else
          let (segments, q3) := pullContiguousSegments fuel q2 (room - segment.data.length)
            (offset + segment.data.length) react
          (segment :: segments, q3)
      else
        -- the room is filled: the segment is split
        let tail : Seg := ⟨q1.fresh, offset + room, segment.data.drop room⟩
        ([⟨q1.fresh + 1, offset, segment.data.take room⟩],
          { q1 with retransmit := BinHeap.push Seg.less q1.retransmit tail, fresh := q1.fresh + 2 })

def pullSegments (q : T) (room : Nat) (react : List (List Op)) : List Seg × T :=
  match q.retransmit.head? with
  | none => ([], q)
  | some segment =>
    pullContiguousSegments (room + q.retransmit.length + react.length + 2) q room segment.offset react

/-- What the acknowledgement callback of a pulled segment keeps. -/
inductive Ack where
  | reset
  | data (segments : List Seg) (attachEOF : Bool)
  deriving DecidableEq, Repr

/-- A pulled segment: its header, what follows the header, and its callback. -/
structure Pulled where
  msg : PacketFormat.Segment
  body : Bytes
  ack : Ack
  deriving DecidableEq, Repr

def lens (segments : List Seg) : Int := (segments.map Seg.len).sum

def payload (segments : List Seg) : Bytes := (segments.map Seg.data).flatten

/-- The offset a pull starts at: the head of the retransmit heap, or the end of the
    stream when only the shutdown is left. -/
def pullOffset (q : T) : Int :=
  match q.retransmit.head? with
  | none => q.sendOffset
  | some segment => segment.offset

/-- Offset 0 is left out of the header. -/
def headerLen (offset : Int) : Nat := if word32 offset = 0 then 4 else 8

/-- What a pull puts into the buffer: the offset, the text, and zeroes up to the word
    size (the buffer is reused). -/
def dataSegment (id : Nat) (attachEOF : Bool) (offset : Int) (segments : List Seg) : Pulled :=
  let text := payload segments
  let body := (if word32 offset = 0 then [] else toBe32 (word32 offset).toNat) ++ text ++
    List.replicate (PacketFormat.align text.length - text.length) 0
  ⟨.reader (.data attachEOF (word32 offset ≠ 0) text.length) id, body, .data segments attachEOF⟩

/-- The length header only supports this much. -/
def pullLimit (q : T) (room : Nat) : Nat := min (room - headerLen (pullOffset q)) 4092

/-- Whether a pulled segment carries the end of the stream (`atEnd`: it reaches
    `sendOffset`), and the state that leaves. -/
def attachEOF (s : State) (atEnd : Bool) : Bool × State :=
  match s with
  | .amShutdown .ackd => (false, .amShutdown .ackd)
  | .amShutdown a => if atEnd then (true, .amShutdown .inflight) else (false, .amShutdown a)
  | s => (false, s)

/-- Pull a segment into a buffer of `room` bytes. Callers pass at least 8, and a multiple
    of the word size, so the padding fits. -/
def pull (q : T) (id : Nat) (room : Nat) (react : List (List Op)) : Pulled × T :=
  if q.state = .amReset then
    (⟨.reader .writerResets id, [], .reset⟩, callback q (.rts .negInf))
  else
    let offset := pullOffset q
    let (segments, q1) := pullSegments q (pullLimit q room) react
    let q2 := { q1 with inflight := segments.foldl (BinHeap.push Seg.less) q1.inflight }
    let len := lens segments
    let (eof, state) := attachEOF q2.state (word32 (offset + len) = word32 q2.sendOffset)
    let q3 := { q2 with state := state, inflightBytes := q2.inflightBytes + len,
                        retransmitBytes := q2.retransmitBytes - len }
    let q4 := callback (callback (updateRTS q3) (.inflightBytes len)) (.retransmitBytes (-len))
    (dataSegment id eof offset segments, q4)

/-- Remove a record from a heap; a record in no heap is left alone. -/
def heapRemove (h : List Seg) (x : Seg) : List Seg :=
  match h.findIdx? (·.ref == x.ref) with
  | some i => BinHeap.removeAt Seg.less h i
  | none => h

def ackState (s : State) (attachEOF ok : Bool) : State :=
  match attachEOF, s with
  | _, .amShutdown .ackd => .amShutdown .ackd
  | true, .amShutdown _ => .amShutdown (if ok then .ackd else .retransmit)
  | _, s => s

/-- The acknowledgement callback of a pulled segment. -/
def ack (q : T) : Ack → Bool → T
  | .reset, true => callback q .becameComplete
  | .reset, false => callback q (.rts .posInf)
  | .data segments attachEOF, ok =>
    let len := lens segments
    let q1 := callback { q with inflight := segments.foldl heapRemove q.inflight } (.inflightBytes (-len))
    let state := ackState q1.state attachEOF ok
    let shouldRequeue := !ok && state ≠ .amReset
    let q2 := { q1 with state := state, bytesSent := q1.bytesSent + (if ok then len else 0),
                        inflightBytes := q1.inflightBytes - len,
                        retransmitBytes := q1.retransmitBytes + (if shouldRequeue then len else 0) }
    if shouldRequeue then
      updateRTS (callback { q2 with retransmit := segments.foldl (BinHeap.push Seg.less) q2.retransmit }
        (.retransmitBytes len))
    else checkDone (makeProgress q2)

/-- A segment from the reader; the result is the number of bytes it takes. -/
def recv (q : T) (data : Slice) : PacketFormat.Writer → Except Exn (T × Nat)
  | .readerBarrier => do
    let barrier ← parser data
    return (makeProgress { q with barrier := barrier }, 8)
  | .readerResets => .ok (callback (doReset q) .becameComplete, 4)

def isReset (q : T) : Bool := q.state = .amReset

end BubbleStorm.Cusp.Stream.OutStreamQueue
