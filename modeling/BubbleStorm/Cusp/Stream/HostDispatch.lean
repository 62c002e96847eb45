/-
  BubbleStorm.Cusp.Stream.HostDispatch — the streams of one host
  (`src/cusp/stream/host-dispatch.fun`).

  A stream's record holds its queue, its id while it has one, and the service it still
  has to connect to. Records are numbered in the order they are made and stay in
  `records` after they leave the heap. The events a queue fires are those it appends to
  its log; they are heard after the call that fires them, since nothing they change is
  read by the queue.

  The heap hands out a record of the highest priority; among equals, which the source
  takes by the time of sending, `pull` is told which. What an application callback does
  to its own stream it does where the queue calls it; what it does to other streams
  (`App`) is done after the segment. The timers, the addresses and the statistics are
  left out.
-/

import Mathlib.Logic.Function.Basic
import BubbleStorm.Cusp.Stream.InStreamQueue
import BubbleStorm.Cusp.Stream.OutStreamQueue

namespace BubbleStorm.Cusp.Stream.HostDispatch

open Function (update)
open PacketFormat (Segment Reader Writer)

set_option linter.dupNamespace false in
inductive Stream where
  | inStream (q : InStreamQueue.T)
  | outStream (q : OutStreamQueue.T)
  | noStream
  deriving Repr

structure Record where
  stream : Stream
  id : Nat
  /-- The service in front of the first segments, until they are acknowledged. -/
  service : Nat
  inHeap : Bool
  priority : Real32

inductive Alloc where
  | alloc (record : Nat)
  | free (next : Nat)
  deriving DecidableEq, Repr

/-- Not an id: the end of a free list, and the id of a stream without one. -/
def nill : Nat := 0xffff

structure T where
  records : Nat → Record
  created : Nat
  queuedOutOfOrder : Int
  queuedUnread : Int
  queuedInFlight : Int
  queuedToRetransmit : Int
  listen : List Nat
  /-- The services that every host has. -/
  global : Nat → Bool
  /-- The length of `inStreams`, `outStreams` and `seqNums`. -/
  len : Nat
  inStreams : Nat → Option Nat
  outStreams : Nat → Alloc
  writeFree : Nat
  cooldownIndex : Nat
  cooldowns : Nat → Nat
  seqNums : Nat → Nat

def new (global : Nat → Bool) : T :=
  { records := fun _ => ⟨.noStream, nill, 0, false, .negInf⟩, created := 0, queuedOutOfOrder := 0, queuedUnread := 0,
    queuedInFlight := 0, queuedToRetransmit := 0, listen := [], global := global, len := 1, inStreams := fun _ => none,
    outStreams := fun _ => .free nill, writeFree := 0, cooldownIndex := 0, cooldowns := fun _ => nill,
    seqNums := fun _ => 0 }

def T.setRecord (t : T) (r : Nat) (record : Record) : T := { t with records := update t.records r record }

/-! ## The sequence numbers of the ids -/

/-- `Word8Array.update (seqNums, i, seq)`, of what the array holds there. -/
def tickSeq (t : T) (i : Nat) (tick : Nat → Nat) : Except Exn T :=
  if i < t.len then .ok { t with seqNums := update t.seqNums i (tick (t.seqNums i)) } else .error .subscript

/-- The writer's number is in the high four bits. -/
def tickWriterSeq (t : T) (i : Nat) : Except Exn T := tickSeq t i fun seq => (seq + 0x10) % 256

def tickReaderSeq (t : T) (i : Nat) : Except Exn T := tickSeq t i fun seq => seq / 16 * 16 + (seq + 1) % 16

def getWriterSeq (t : T) (i : Nat) : Nat := if t.len ≤ i then 0 else t.seqNums i / 16

def getReaderSeq (t : T) (i : Nat) : Nat := if t.len ≤ i then 0 else t.seqNums i % 16

/-! ## Ids that cool down -/

/-- Move a list of ids to the front of another. The first argument bounds its length. -/
def drain : Nat → T → Nat → Nat → Except Exn (T × Nat)
  | 0, t, id, tail => if id = nill then .ok (t, tail) else .error (.fail "endless stream free list")
  | fuel + 1, t, id, tail =>
    if id = nill then .ok (t, tail)
    else if t.len ≤ id then .error .subscript
    else
      match t.outStreams id with
      | .free next => drain fuel { t with outStreams := update t.outStreams id (.free tail) } next id
      | .alloc _ => .error (.fail "Corrupt stream free list")

def tickCooldown (t : T) : Except Exn T := do
  let index := if t.cooldownIndex = 15 then 0 else t.cooldownIndex + 1
  let (t, free) ← drain t.len t (t.cooldowns index) t.writeFree
  return { t with writeFree := free, cooldownIndex := index, cooldowns := update t.cooldowns index nill }

def pushCooldown (t : T) (id : Nat) : Except Exn T :=
  if id < t.len then
    .ok { t with outStreams := update t.outStreams id (.free (t.cooldowns t.cooldownIndex)),
                 cooldowns := update t.cooldowns t.cooldownIndex id }
  else .error .subscript

/-! ## What the queues fire -/

def hearRTS (t : T) (r : Nat) (prio : Real32) : T :=
  if (t.records r).inHeap then t.setRecord r { t.records r with priority := prio } else t

def outStreamCallback (t : T) (r : Nat) : OutStreamQueue.Event → Except Exn T
  | .rts prio => .ok (hearRTS t r prio)
  | .becameComplete => do
    let id := (t.records r).id
    let t := t.setRecord r { t.records r with id := nill, inHeap := false }
    if id = nill then return t else pushCooldown (← tickWriterSeq t id) id
  | .becameReset => .ok t
  | .inflightBytes x => .ok { t with queuedInFlight := t.queuedInFlight + x }
  | .retransmitBytes x => .ok { t with queuedToRetransmit := t.queuedToRetransmit + x }

/-- The id of an in-stream is given back. -/
def unassign (t : T) (id : Nat) : Except Exn T := do
  if id = nill then return t
  else
    let t ← tickReaderSeq t id
    return { t with inStreams := update t.inStreams id none }

def inStreamCallback (t : T) (r : Nat) : InStreamQueue.Event → Except Exn T
  | .rts prio => .ok (hearRTS t r prio)
  | .becameUnassigned => unassign (t.setRecord r { t.records r with id := nill }) (t.records r).id
  | .becameComplete => unassign (t.setRecord r { t.records r with id := nill, inHeap := false }) (t.records r).id
  | .becameReset => .ok t
  | .unreadBytes x => .ok { t with queuedUnread := t.queuedUnread + x }
  | .outOfOrderBytes x => .ok { t with queuedOutOfOrder := t.queuedOutOfOrder + x }

def hearOut (t : T) (r : Nat) : OutStreamQueue.Out → Except Exn T
  | .event e => outStreamCallback t r e
  | _ => .ok t

def hearIn (t : T) (r : Nat) : InStreamQueue.Out → Except Exn T
  | .event e => inStreamCallback t r e
  | _ => .ok t

/-- An out-stream's queue has moved from `q` to `q'`, and what it fired is heard. -/
def ranOut (t : T) (r : Nat) (q q' : OutStreamQueue.T) : Except Exn T :=
  (q'.log.drop q.log.length).foldlM (hearOut · r) (t.setRecord r { t.records r with stream := .outStream q' })

def ranIn (t : T) (r : Nat) (q q' : InStreamQueue.T) : Except Exn T :=
  (q'.log.drop q.log.length).foldlM (hearIn · r) (t.setRecord r { t.records r with stream := .inStream q' })

/-! ## Making ids and streams -/

/-- The tables grow, and the new ids go to the front of the free list. -/
def expand (t : T) (newLen : Nat) : T :=
  { t with
    len := newLen
    seqNums := fun i => if i < t.len then t.seqNums i else 0
    inStreams := fun i => if i < t.len then t.inStreams i else none
    outStreams := fun i =>
      if i < t.len then t.outStreams i else .free (if i = newLen - 1 then t.writeFree else (i + 1) % 2 ^ 16)
    writeFree := t.len % 2 ^ 16 }

def noExpandSubReader (t : T) (i : Nat) : Option Nat := if t.len ≤ i then none else t.inStreams i

def noExpandSubWriter (t : T) (i : Nat) : Alloc := if t.len ≤ i then .free nill else t.outStreams i

/-- All the bits below the highest one that is set. -/
def contain (w : Nat) : Nat :=
  let w := w ||| (w >>> 1)
  let w := w ||| (w >>> 2)
  let w := w ||| (w >>> 4)
  w ||| (w >>> 8)

def expandSubReader (t : T) (i : Nat) : Except Exn (T × Option Nat) :=
  let t := if t.len ≤ i then expand t (contain i + 1) else t
  if i < t.len then .ok (t, t.inStreams i) else .error .subscript

def allocId (t : T) : Except Exn (T × Nat) :=
  let t := if t.writeFree = nill then expand t (t.len * 2) else t
  let id := t.writeFree
  if t.len ≤ id then .error .subscript
  else
    match t.outStreams id with
    | .free next => .ok ({ t with writeFree := next }, id)
    | .alloc _ => .error (.fail "Impossible. Free id is allocated.")

/-- A new record in the heap. -/
def T.push (t : T) (stream : Stream) (id service : Nat) : T :=
  { t with records := update t.records t.created ⟨stream, id, service, true, .negInf⟩, created := t.created + 1 }

def connect (t : T) (port : Nat) : T := t.push (.outStream OutStreamQueue.new) nill port

def listens (t : T) (service : Nat) : Bool := t.listen.contains service || t.global service

/-- A stream nobody listens for is reset at once. -/
def gotConnection (t : T) (id service : Nat) : Except Exn T :=
  let r := t.created
  let stream := InStreamQueue.new id
  let t := t.push (.inStream stream) id 0
  if t.len ≤ id then .error .subscript
  else
    let t := { t with inStreams := update t.inStreams id (some r) }
    if listens t service then .ok t else ranIn t r stream (InStreamQueue.reset stream)

/-! ## The application -/

/-- A call of the application. -/
inductive App where
  | connect (port : Nat)
  | outStream (r : Nat) (op : OutStreamQueue.Op)
  | inStream (r : Nat) (op : InStreamQueue.Op)
  | listen (port : Nat)
  | unlisten (port : Nat)

def call (t : T) : App → Except Exn T
  | .connect port => .ok (connect t port)
  | .outStream r op =>
    match (t.records r).stream with
    | .outStream q => ranOut t r q (OutStreamQueue.exec q op)
    | _ => .ok t
  | .inStream r op =>
    match (t.records r).stream with
    | .inStream q => ranIn t r q (InStreamQueue.exec q op)
    | _ => .ok t
  | .listen port => .ok { t with listen := port :: t.listen }
  | .unlisten port => .ok { t with listen := t.listen.filter (· ≠ port) }

/-! ## Receiving -/

/-- The bytes of a segment nobody wants; -1 drops the rest of the packet. -/
def skipReader (data : Slice) : Reader → Int
  | .writerResets => 4
  | .data _ offset length =>
    let need := PacketFormat.align length + (if offset then 8 else 4)
    if data.length < need then -1 else need

def skipWriter : Writer → Int
  | .readerResets => 4
  | .readerBarrier => 8

/-- What the application does when a segment makes it run. -/
structure React where
  own : List InStreamQueue.Op
  app : List App

/-- A segment at the front of `data`; the result is the number of bytes it takes. -/
def recvSegment (t : T) (data : Slice) (own : List InStreamQueue.Op) : Except Exn (T × Int) := do
  match ← PacketFormat.parse data with
  | .corrupt => return (t, -1)
  | .reader msg id =>
    match noExpandSubReader t id with
    | none => return (t, skipReader data msg)
    | some r =>
      match (t.records r).stream with
      | .inStream q =>
        let (q', n) ← InStreamQueue.recv q data msg own
        return (← ranIn t r q q', n)
      | _ => throw (.fail "corrupt inStreams")
  | .writer msg id seq =>
    if seq ≠ getWriterSeq t id then return (t, skipWriter msg)
    else
      match noExpandSubWriter t id with
      | .free _ => return (t, skipWriter msg)
      | .alloc r =>
        match (t.records r).stream with
        | .outStream q =>
          let (q', n) ← OutStreamQueue.recv q data msg
          return (← ranOut t r q q', n)
        | _ => throw (.fail "corrupt outStreams")
  | .connect service seq =>
    let subdata ← data.tail 4
    match ← PacketFormat.parse subdata with
    | .reader msg id =>
      if seq ≠ getReaderSeq t id then
        let x := skipReader subdata msg
        return (t, if x = -1 then -1 else x + 4)
      else
        match ← expandSubReader t id with
        | (t, none) => return (← gotConnection t id service, 4)
        | (t, some _) => return (t, 4)
    | _ => return (t, -1)

/-- The segments of a packet, each with what the application does meanwhile. The first
    argument bounds their number. -/
def recvSegments : Nat → T → Slice → List React → Except Exn (T × Bool)
  | 0, t, _, _ => .ok (t, true)
  | fuel + 1, t, data, reacts => do
    if data.length = 0 then return (t, true)
    else
      let (t, n) ← recvSegment t data ((reacts.head?.map React.own).getD [])
      let t ← ((reacts.head?.map React.app).getD []).foldlM call t
      if n = -1 then return (t, false) else recvSegments fuel t (← data.tail n.toNat) reacts.tail

/-- A segment takes four bytes or more. -/
def recvPacket (t : T) (data : Slice) (reacts : List React) : Except Exn (T × Bool) :=
  recvSegments data.length t data reacts

/-! ## Sending -/

/-- A record that may be pulled first: none has a higher priority, and its own is not
    that of a stream with nothing to send. -/
def first (t : T) (r : Nat) : Prop :=
  r < t.created ∧ (t.records r).inHeap = true ∧ (t.records r).priority ≠ .negInf ∧
    ∀ r' < t.created, (t.records r').inHeap = true → Real32.lt (t.records r).priority (t.records r').priority = false

instance (t : T) (r : Nat) : Decidable (first t r) := inferInstanceAs (Decidable (_ ∧ _))

/-- The record the heap hands out: `pick`, if it may. -/
def peek (t : T) (pick : Nat) : Option Nat :=
  if first t pick then some pick else (List.range t.created).find? fun r => first t r

inductive Ack where
  | outStream (a : OutStreamQueue.Ack)
  | inStream (a : InStreamQueue.Ack)
  deriving DecidableEq

/-- A segment of a packet, as it was pulled. -/
structure Sent where
  record : Nat
  bytes : Bytes
  ack : Ack
  deriving DecidableEq

/-- A segment as it is written: `CONNECT` in front while there is a service to connect
    to, the header, and what the queue put behind it. -/
def writeSegment (connect : Option Segment) (msg : Segment) (body : Bytes) : Except Exn Bytes := do
  let front ← match connect with
    | some c => PacketFormat.write c
    | none => pure []
  return front ++ (← PacketFormat.write msg) ++ body

/-- A record is pulled for the first time. -/
def assign (t : T) (r : Nat) : Except Exn (T × Nat) := do
  let record := t.records r
  if record.id ≠ nill then return (t, record.id)
  else
    let (t, id) ← allocId t
    match record.stream with
    | .outStream q =>
      let t := t.setRecord r { t.records r with stream := .outStream { q with id := id }, id := id }
      return ({ t with outStreams := update t.outStreams id (.alloc r) }, id)
    | _ => throw (.fail "allocating ID to non outstream")

/-- Pull one segment of record `r` into `room` bytes. -/
def pullRecord (t : T) (r room : Nat) (own : List (List OutStreamQueue.Op)) : Except Exn (T × Sent) := do
  let (t, id) ← assign t r
  let record := t.records r
  let connect : Option Segment :=
    if record.service = 0 then none else some (.connect record.service (getWriterSeq t id))
  let room := if connect.isSome then room - 4 else room
  match record.stream with
  | .noStream => throw (.fail "Pulling no stream?! impossible")
  | .outStream q =>
    let (p, q') := OutStreamQueue.pull q id room own
    return (← ranOut t r q q', ⟨r, ← writeSegment connect p.msg p.body, .outStream p.ack⟩)
  | .inStream q =>
    let (p, q') ← InStreamQueue.pull q id (getReaderSeq t id)
    return (← ranIn t r q q', ⟨r, ← writeSegment connect p.msg p.body, .inStream p.ack⟩)

/-- Which record is pulled, and what the application does meanwhile. -/
structure Pick where
  record : Nat
  own : List (List OutStreamQueue.Op)
  app : List App

/-- Pull segments while there is room. The first argument bounds their number. -/
def pullSegments : Nat → T → Nat → List Pick → Except Exn (T × List Sent)
  | 0, t, _, _ => .ok (t, [])
  | fuel + 1, t, room, picks => do
    if room < 32 then return (t, [])
    else
      match peek t ((picks.head?.map Pick.record).getD 0) with
      | none => return (t, [])
      | some r =>
        let (t, s) ← pullRecord t r room ((picks.head?.map Pick.own).getD [])
        let t ← ((picks.head?.map Pick.app).getD []).foldlM call t
        let (t, rest) ← pullSegments fuel t (room - s.bytes.length) picks.tail
        return (t, s :: rest)

/-- A segment takes four bytes or more. -/
def pull (t : T) (room : Nat) (picks : List Pick) : Except Exn (T × List Sent) := do
  pullSegments room (← tickCooldown t) room picks

/-- The acknowledgement callback of a pulled segment. -/
def ackSegment (t : T) (s : Sent) (ok : Bool) : Except Exn T :=
  let t := if ok then t.setRecord s.record { t.records s.record with service := 0 } else t
  match s.ack, (t.records s.record).stream with
  | .outStream a, .outStream q => ranOut t s.record q (OutStreamQueue.ack q a ok)
  | .inStream a, .inStream q => ranIn t s.record q (InStreamQueue.ack q a ok)
  | _, _ => .ok t

/-- The acknowledgement callback of a packet, with what the application does after each
    segment. -/
def ack (t : T) (ok : Bool) : List Sent → List (List App) → Except Exn T
  | [], _ => .ok t
  | s :: sents, apps => do
    let t ← ackSegment t s ok
    let t ← (apps.headD []).foldlM call t
    ack t ok sents apps.tail

/-! ## Starting over -/

/-- `Real32.maxFinite`. -/
def maxFinite : Real32 := .finite 340282346638528859811704183484516925440

/-- A record that the heap may hand out: none has a higher priority. -/
def top (t : T) (r : Nat) : Prop :=
  r < t.created ∧ (t.records r).inHeap = true ∧
    ∀ r' < t.created, (t.records r').inHeap = true → Real32.lt (t.records r).priority (t.records r').priority = false

instance (t : T) (r : Nat) : Decidable (top t r) := inferInstanceAs (Decidable (_ ∧ _))

def heapIsEmpty (t : T) : Prop := ∀ r < t.created, (t.records r).inHeap = false

instance (t : T) : Decidable (heapIsEmpty t) := inferInstanceAs (Decidable (∀ _ < _, _))

/-- A record that is popped, and what the application does then. -/
structure Pop where
  record : Nat
  app : List App

/-- Pop records until the heap is empty, and `destroy` each; the list is of those it
    wants back. -/
def popAll (destroy : T → Nat → Except Exn (T × List Nat)) : T → List Nat → List Pop → Except Exn (T × List Nat)
  | t, recover, [] => .ok (t, recover)
  | t, recover, p :: pops => do
    if top t p.record then
      let (t, back) ← destroy (t.setRecord p.record { t.records p.record with id := nill, inHeap := false }) p.record
      popAll destroy (← p.app.foldlM call t) (back ++ recover) pops
    else popAll destroy t recover pops

/-- The streams are reset, but for out-streams no segment of which is acknowledged. -/
def wipeRecord (t : T) (r : Nat) : Except Exn (T × List Nat) := do
  match (t.records r).stream with
  | .inStream q => return (← ranIn t r q (InStreamQueue.reset q), [])
  | .outStream q =>
    if (t.records r).service = 0 then return (← ranOut t r q (OutStreamQueue.reset q), []) else return (t, [r])
  | .noStream => return (t, [])

def destroyRecord (t : T) (r : Nat) : Except Exn (T × List Nat) := do
  match (t.records r).stream with
  | .inStream q => return (← ranIn t r q (InStreamQueue.reset q), [])
  | .outStream q => return (← ranOut t r q (OutStreamQueue.reset q), [])
  | .noStream => return (t, [])

def restore (t : T) (r : Nat) : Except Exn T :=
  match (t.records r).stream with
  | .outStream q =>
    if OutStreamQueue.isReset q then .ok (t.setRecord r { t.records r with id := nill })
    else .ok (t.setRecord r { t.records r with id := nill, inHeap := true, priority := maxFinite })
  | _ => .error (.fail "impossible case")

/-- The tables of a host that has no stream yet. -/
def T.clear (t : T) : T :=
  { t with len := 1, inStreams := fun _ => none, outStreams := fun _ => .free nill, writeFree := 0, cooldownIndex := 0,
           cooldowns := fun _ => nill, seqNums := fun _ => 0 }

/-- Erase what a new session must not see. A list of pops that leaves a record in the
    heap is none that the loop makes. -/
def wipeState (t : T) (pops : List Pop) : Except Exn T := do
  let (t', recover) ← popAll wipeRecord t [] pops
  if heapIsEmpty t' then return (← recover.foldlM restore t').clear else return t

def destroy (t : T) (pops : List Pop) : Except Exn T := do
  let (t', _) ← popAll destroyRecord t [] pops
  if heapIsEmpty t' then return { t'.clear with listen := [] } else return t

/-! ## Runs of a host -/

/-- A host, and the segments it pulled; the callback of one runs at most once. -/
structure St where
  host : T
  sent : List (Sent × Bool)

/-- A packet is received, pulled and acknowledged segment by segment, with calls of the
    application in between. -/
inductive Ev where
  | call (a : App)
  | recv (data : Slice) (own : List InStreamQueue.Op)
  /-- A packet is begun. -/
  | tick
  | pull (r room : Nat) (own : List (List OutStreamQueue.Op))
  | ack (i : Nat) (ok : Bool)

def start (global : Nat → Bool) : St := ⟨new global, []⟩

def step (s : St) : Ev → Except Exn St
  | .call a => do return { s with host := ← call s.host a }
  | .recv data own => do return { s with host := (← recvSegment s.host data own).1 }
  | .tick => do return { s with host := ← tickCooldown s.host }
  | .pull r room own => do
    if first s.host r ∧ 32 ≤ room then
      let (t, sent) ← pullRecord s.host r room own
      return ⟨t, s.sent ++ [(sent, true)]⟩
    else return s
  | .ack i ok =>
    match s.sent[i]? with
    | some (sent, true) => do return ⟨← ackSegment s.host sent ok, s.sent.set i (sent, false)⟩
    | _ => .ok s

/-- A host may also start over. -/
inductive Move where
  | ev (e : Ev)
  | wipeState (pops : List Pop)
  | destroy (pops : List Pop)

def move (s : St) : Move → Except Exn St
  | .ev e => step s e
  | .wipeState pops => do return { s with host := ← wipeState s.host pops }
  | .destroy pops => do return { s with host := ← destroy s.host pops }

/-- The states of the runs from `start` whose every step meets `P`. -/
inductive Runs (global : Nat → Bool) (P : St → Move → Prop) : St → Prop
  | start : Runs global P (start global)
  | step {s s' : St} (m : Move) : Runs global P s → P s m → move s m = .ok s' → Runs global P s'

end BubbleStorm.Cusp.Stream.HostDispatch
