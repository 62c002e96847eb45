/-
  BubbleStorm.Cusp.Stream.InStreamQueue — the receiving half of a stream
  (cusp/stream/in-stream-queue.sml).

  As for the sending half, a call appends the callbacks it runs to `log`. `recv` is the
  one call that goes on after an application callback: a DATA segment first feeds the
  waiting reader and then, if it carries the end of the stream, shuts the queue down;
  it takes what that reader does to this stream (`Op`).

  `offset`, `barrier` and `lastBarrier` are positions; the offset and the end of a
  segment, as the heap keys, are the words that were received.
-/

import BubbleStorm.Cusp.Stream.Offset

namespace BubbleStorm.Cusp.Stream.InStreamQueue

inductive Status where
  | shutdown
  | reset
  | data (slice : Bytes)
  deriving DecidableEq, Repr

inductive Event where
  | rts (prio : Real32)
  | becameUnassigned
  | becameComplete
  | becameReset
  | unreadBytes (n : Int)
  | outOfOrderBytes (n : Int)
  deriving DecidableEq, Repr

inductive State where
  | amConnected
  | amShutdown (eof : Int)
  /-- Reset locally, and the sender has to be told. -/
  | amReset
  /-- Was reset and heard eof: no need to send the reset. -/
  | amResetDown
  deriving DecidableEq, Repr

inductive Out where
  | event (e : Event)
  | reader (cb : Nat) (s : Status)
  deriving DecidableEq, Repr

/-- An entry of the out-of-order heap. -/
structure Seg where
  offset : Int
  data : Bytes
  deriving DecidableEq, Repr

def Seg.less (s t : Seg) : Bool := Key.lt s.offset t.offset

/-- `minimumWindow div 0w4`. -/
def barrierIncrement : Int := 5392

def noBuffer : Int := -2

structure T where
  state : State
  barrier : Int
  lastBarrier : Int
  window : Int
  queue : List Seg
  queuedBytes : Int
  ready : List Bytes
  readyBytes : Int
  bytesReceived : Int
  offset : Int
  reader : Option Nat
  bufferSize : Int
  id : Nat
  log : List Out
  deriving DecidableEq, Repr

def new (id : Nat) : T :=
  { state := .amConnected, barrier := minimumWindow, lastBarrier := minimumWindow, window := minimumWindow, queue := [],
    queuedBytes := 0, ready := [], readyBytes := 0, bytesReceived := 0, offset := 0, reader := none,
    bufferSize := noBuffer, id := id, log := [] }

def emit (q : T) (o : Out) : T := { q with log := q.log ++ [o] }

def callback (q : T) (e : Event) : T := emit q (.event e)

/-- Run a reader; `none` is `fn _ => ()`. -/
def runReader (q : T) (cb : Option Nat) (s : Status) : T :=
  match cb with
  | some cb => emit q (.reader cb s)
  | none => q

def isReset (q : T) : Bool := q.state = .amReset || q.state = .amResetDown

/-- The test `eof = get#offset this`, made on words. -/
def endsAt (eof offset : Int) : Bool := word32 eof = word32 offset

def atEOF (q : T) : Bool :=
  match q.state with
  | .amShutdown eof => endsAt eof q.offset
  | _ => false

/-- A barrier update is due. -/
def amRTS (q : T) : Bool := barrierIncrement ≤ word32 (q.barrier - q.lastBarrier)

def fireEvent (q : T) : T :=
  match q.state with
  | .amShutdown eof => if endsAt eof q.offset then callback q .becameUnassigned else q
  | .amReset => q
  | .amResetDown => callback q .becameComplete
  | .amConnected => callback q (.rts (if amRTS q then .posInf else .negInf))

/-- The position of the reader: everything before it has been handed out. -/
def readerOffset (q : T) : Int := q.offset - q.readyBytes

/-- The end of `read`: `procBytes` bytes were handed out, which moves the barrier. -/
def finishRead (q : T) (ready : List Bytes) (bufferSize : Int) (reader : Option Nat) (procBytes : Int) : T :=
  let readyBytes := q.readyBytes - procBytes
  let q1 := { q with ready := ready, readyBytes := readyBytes, bytesReceived := q.bytesReceived + procBytes,
                     reader := reader, barrier := Key.max q.barrier (q.offset - readyBytes + q.window),
                     bufferSize := bufferSize }
  fireEvent (callback q1 (.unreadBytes (-procBytes)))

def read (q : T) (bufferSize : Int) (reader : Nat) : Except Exn T :=
  if isReset q then .ok (runReader q (some reader) .reset)
  else if q.bufferSize ≠ noBuffer then .error .raceCondition
  else if bufferSize < -1 then .error .domain
  else
    match q.ready with
    | [] =>
      if atEOF q then
        .ok (runReader (finishRead (callback q .becameComplete) [] noBuffer none 0) (some reader) .shutdown)
      else .ok (finishRead q [] bufferSize (some reader) 0)
    | slice :: ready =>
      if bufferSize = -1 ∨ (slice.length : Int) ≤ bufferSize then
        .ok (runReader (finishRead q ready noBuffer none slice.length) (some reader) (.data slice))
      else
        let report := slice.take bufferSize.toNat
        .ok (runReader (finishRead q (slice.drop bufferSize.toNat :: ready) noBuffer none report.length) (some reader)
          (.data report))

/-! ## Receiving -/

/-- Pop the slices of the heap that begin at or before `offset`, and append what they add
    to `ready`. The result is the new offset, the bytes taken off the heap, the ready
    list and the heap left. The first argument bounds the number of pops. -/
def process : Nat → Int → Int → List Bytes → List Seg → Int × Int × List Bytes × List Seg
  | 0, offset, ate, ready, queue => (offset, ate, ready, queue)
  | fuel + 1, offset, ate, ready, queue =>
    match BinHeap.popIf Seg.less (fun s => Key.le s.offset offset) queue with
    | none => (offset, ate, ready, queue)
    | some (slice, queue) =>
      let trim := word32 (offset - slice.offset)
      let sliceEnd := slice.offset + slice.data.length
      if Key.le sliceEnd offset then process fuel offset (ate + slice.data.length) ready queue
      else
        process fuel (offset + word32 (sliceEnd - offset)) (ate + slice.data.length)
          (ready ++ [slice.data.drop trim.toNat]) queue

def transferQueue (q : T) (data : Option Bytes) (recvd : Int) (hook : Option (Nat × Bytes)) : T :=
  let ready := q.ready ++ data.toList
  let len : Int := (data.getD []).length
  let readyOffset := q.offset + recvd
  let (newOffset, lostQueueBytes, ready, queue) := process q.queue.length (readyOffset + len) 0 ready q.queue
  -- a queue that is reset keeps track of the offset and drops the bytes
  let (newReadyBytes, ready) : Int × List Bytes :=
    if isReset q then (0, []) else (newOffset - readyOffset, ready)
  let readyBytes := q.readyBytes + newReadyBytes
  let readerOffset := newOffset - readyBytes
  let q1 := { q with queue := queue, queuedBytes := q.queuedBytes - lostQueueBytes, ready := ready,
                     readyBytes := readyBytes, barrier := Key.max q.barrier (readerOffset + q.window),
                     bytesReceived := q.bytesReceived + recvd, reader := none, bufferSize := noBuffer,
                     offset := newOffset }
  let q2 := fireEvent (callback (callback q1 (.outOfOrderBytes (-lostQueueBytes))) (.unreadBytes newReadyBytes))
  match hook with
  | some (cb, report) => runReader q2 (some cb) (.data report)
  | none => q2

def feedReader (q : T) (data : Bytes) : T :=
  if q.bufferSize = noBuffer then transferQueue q (some data) 0 none
  else
    let hook (report : Bytes) : Option (Nat × Bytes) := q.reader.map (·, report)
    if q.bufferSize = -1 ∨ (data.length : Int) ≤ q.bufferSize then transferQueue q none data.length (hook data)
    else
      let report := data.take q.bufferSize.toNat
      transferQueue q (some (data.drop q.bufferSize.toNat)) report.length (hook report)

def outOfOrder (q : T) (offset : Int) (data : Bytes) : T :=
  callback { q with queue := BinHeap.push Seg.less q.queue ⟨offset, data⟩, queuedBytes := q.queuedBytes + data.length }
    (.outOfOrderBytes data.length)

/-- The outcome of `recvData`: data past the barrier is rejected, data that precedes the
    offset is dropped, and what follows a gap waits in the heap. -/
inductive Take where
  | reject
  | drop
  | feed (data : Bytes)
  | queue
  deriving DecidableEq, Repr

def classify (q : T) (offset : Int) (data : Bytes) : Take :=
  let delta := word32 (q.offset - offset)
  if Key.lt q.barrier (offset + data.length) then .reject
  else if data.length = 0 then .drop
  else if delta < 2 ^ 31 then if data.length ≤ delta then .drop else .feed (data.drop delta.toNat)
  else .queue

def recvData (q : T) (offset : Int) (data : Bytes) : T × Bool :=
  match classify q offset data with
  | .reject => (q, false)
  | .drop => (q, true)
  | .feed data => (feedReader q data, true)
  | .queue => (outOfOrder q offset data, true)

/-- `recvData` ends in a reader of the application. -/
def feeds (q : T) (offset : Int) (data : Bytes) : Bool :=
  match classify q offset data with
  | .feed _ => q.bufferSize ≠ noBuffer && q.reader.isSome
  | _ => false

def stateTransition (eof : Int) : State → State
  | .amConnected => .amShutdown eof
  | .amReset => .amResetDown
  | s => s

def shutdown (q : T) (eof : Int) : T :=
  let q1 := if q.state = .amConnected then callback q (.rts .negInf) else q
  let q2 := fireEvent { q1 with state := stateTransition eof q1.state }
  if endsAt eof q2.offset && q2.ready.isEmpty && q2.bufferSize ≠ noBuffer then
    runReader { callback q2 .becameComplete with reader := none, bufferSize := noBuffer } q2.reader .shutdown
  else q2

def resetTransition : State → State
  | .amConnected => .amReset
  | .amShutdown _ => .amResetDown
  | s => s

def reset (q : T) : T :=
  let q1 := callback (callback q (.unreadBytes (-q.readyBytes))) (.outOfOrderBytes (-q.queuedBytes))
  let q2 := { q1 with state := resetTransition q1.state, ready := [], readyBytes := 0, queue := [], queuedBytes := 0, reader := none,
                      bufferSize := noBuffer }
  runReader (fireEvent (callback (callback q2 (.rts .posInf)) .becameReset)) q.reader .reset

/-- What the application may do inside a callback. -/
inductive Op where
  | read (bufferSize : Int) (reader : Nat)
  | reset
  deriving DecidableEq, Repr

/-- A call that raises does so before it changes anything. -/
def exec (q : T) : Op → T
  | .read bufferSize reader =>
    match read q bufferSize reader with
    | .ok q' => q'
    | .error _ => q
  | .reset => reset q

/-- A DATA segment whose bytes are all there; `react` is what the reader it feeds does. -/
def recvDATA (q : T) (eof : Bool) (offset : Int) (data : Bytes) (react : List Op) : T × Bool :=
  let (q1, ok) := recvData q offset data
  let q2 := if feeds q offset data then react.foldl exec q1 else q1
  (if eof then shutdown q2 (word32 (offset + data.length)) else q2, ok)

/-- A segment from the writer; the result is the number of bytes it takes, or -1 to drop
    the whole packet. -/
def recv (q : T) (data : Slice) (x : PacketFormat.Reader) (react : List Op) : Except Exn (T × Int) :=
  match x with
  -- become shutdown so that the reset leaves the queue reset and down
  | .writerResets => .ok (reset { q with state := .amShutdown 0 }, 4)
  | .data eof offset length => do
    let begin := if offset then 8 else 4
    let need := PacketFormat.align length + begin
    if data.length < need then return (q, -1)
    else
      let offset ← if offset then parser data else pure 0
      let data ← data.subslice begin length
      let (q', ok) := recvDATA q eof offset data.bytes react
      return (q', if ok then (need : Int) else -1)

/-! ## Pulling -/

/-- What the acknowledgement callback of a pulled segment keeps. -/
inductive Ack where
  | barrier (oldOffset barrier lastBarrier : Int)
  | reset
  deriving DecidableEq, Repr

/-- A pulled segment: its header, what follows the header, and its callback. -/
structure Pulled where
  msg : PacketFormat.Segment
  body : Bytes
  ack : Ack
  deriving DecidableEq, Repr

def pull (q : T) (id seq : Nat) : Except Exn (Pulled × T) :=
  match q.state with
  | .amShutdown _ => .error (.fail "unreachable")
  | .amConnected =>
    .ok (⟨.writer .readerBarrier id seq, toBe32 (word32 q.barrier).toNat, .barrier (readerOffset q) q.barrier q.lastBarrier⟩,
      callback { q with lastBarrier := q.barrier } (.rts .negInf))
  | _ => .ok (⟨.writer .readerResets id seq, [], .reset⟩, callback q (.rts .negInf))

/-- The window an acknowledged barrier update gives: twice the bytes read since it was
    sent, short of half the offset space by 16 megabytes. -/
def newWindow (oldOffset newOffset : Int) : Int :=
  max (min (word32 ((newOffset - oldOffset) * 2)) (0x7fffffff - 1024 * 1024 * 16)) minimumWindow

/-- The acknowledgement callback of a pulled segment. -/
def ack (q : T) : Ack → Bool → T
  | .reset, true => callback q .becameComplete
  | .reset, false => callback q (.rts .posInf)
  | .barrier oldOffset _ _, true =>
    let newOffset := readerOffset q
    let window := newWindow oldOffset newOffset
    fireEvent { q with barrier := Key.max (newOffset + window) q.barrier, window := window }
  | .barrier _ barrier lastBarrier, false =>
    if word32 q.lastBarrier ≠ word32 barrier then q else fireEvent { q with lastBarrier := lastBarrier }

end BubbleStorm.Cusp.Stream.InStreamQueue
