/-
  BubbleStorm.Kademlia.Receive — a datagram at a node (`receiveHandler` of
  `src/kademlia/rpc-udp.fun`, the request handlers and the responses of
  `src/kademlia/node-rpc.fun`, `updateNode` and the handlers of `src/kademlia/node.fun`,
  `storeHandler` of `src/kademlia/simple-value-store.fun`).

  A request that is under way keeps what its response is read with. What the callbacks of
  a lookup do, and what is sent, are effects. Of a response only the space it takes in
  the send buffer is modelled, besides what it says. Times are nanoseconds in 64 bits;
  `Env` has the clock and what floating point makes of a duration.
-/

import BubbleStorm.Kademlia.Buckets
import BubbleStorm.Util.Serial.Forms

namespace BubbleStorm.Kademlia

open BubbleStorm.Cusp (Exn Bytes)
open BubbleStorm.Util.Serial
open BubbleStorm.Util.Serial.Forms (Address)

/-! ## Serial forms -/

/-- An id is compared byte by byte, the first one first. -/
def ofBytes (b : List (BitVec 8)) : Id := BitVec.ofNat 160 (b.foldl (fun n byte => 256 * n + byte.toNat) 0)

def toBytes (id : Id) : List (BitVec 8) := (List.range 20).reverse.map fun i => id.extractLsb' (8 * i) 8

def idForm : Shape Id := .map toBytes ofBytes Forms.id
def idAddr : Shape (Id × Address) := Forms.pair idForm Forms.address
def idDate : Shape (Id × BitVec 64) := Forms.pair idForm Forms.int64l

abbrev RequestId := List (BitVec 8)

def headerForm : Shape (BitVec 16 × BitVec 16 × RequestId) :=
  .aggregate (fun (t, s, r, _) => (t, s, r)) (fun (t, s, r) => (t, s, r, ()))
    (.cons Forms.word16b (.cons Forms.word16b (.cons (.vector Forms.word8 20) .nil)))

inductive Header where
  | request (svcId : BitVec 16) (reqId : RequestId)
  | response (svcId : BitVec 16) (reqId : RequestId)
  | invalid

def headerSize : Nat := headerForm.serial.length

def parseHeader (buffer : ArraySlice) : Except Exn Header := do
  let (msgType, svcId, reqId) ← parseSlice headerForm.serial buffer
  return if msgType = 0x0101 then .request svcId reqId else if msgType = 0x0103 then .response svcId reqId else .invalid

def parseId (slice : ArraySlice) : Except Exn (Id × Nat) := do return (← parseSlice idForm.serial slice, idForm.serial.length)

def parseIdAddr (slice : ArraySlice) : Except Exn ((Id × Address) × Nat) := do
  return (← parseSlice idAddr.serial slice, idAddr.serial.length)

def parseIdDate (slice : ArraySlice) : Except Exn ((Id × BitVec 64) × Nat) := do
  return (← parseSlice idDate.serial slice, idDate.serial.length)

def parseWord32 (slice : ArraySlice) : Except Exn (BitVec 32 × Nat) := do
  return (← parseSlice Forms.word32l.serial slice, Forms.word32l.serial.length)

/-- The bytes of a slice. -/
def bytes (slice : ArraySlice) : Bytes := (slice.array.drop slice.i).take slice.n

/-! ## The node -/

def svcPing : BitVec 16 := 0x01
def svcFindNode : BitVec 16 := 0x10
def svcFindValue : BitVec 16 := 0x20
def svcStore : BitVec 16 := 0x22

def minTime : Int := -9223372036854775808
def maxTime : Int := 9223372036854775807

/-- `Time.+` and `Time.-` give one of these, or `Overflow`. -/
def toTime (x : Int) : Except Exn Int := if minTime ≤ x ∧ x ≤ maxTime then .ok x else .error .overflow

structure Env where
  now : Int
  /-- `Time.multReal32` of a duration and the expiration factor for so many closer nodes. -/
  multReal32 : Int → Nat → Except Exn Int
  /-- The size of the buffers. -/
  maxMTU : Nat
  ample : 1300 ≤ maxMTU

inductive Service where
  | ping
  | findNode
  | store
  | findValue
  deriving DecidableEq

def Service.svcId : Service → BitVec 16
  | .ping => svcPing
  | .findNode => svcFindNode
  | .store => svcStore
  | .findValue => svcFindValue

/-- A request of ours. -/
structure Pending where
  service : Service
  destAddr : Address
  destId : Option Id

structure Value where
  value : Bytes
  expiryDate : Int

structure Node where
  buckets : Buckets Address
  requests : List (RequestId × Pending)
  values : List (Id × Value)

/-- What a callback of a request is given. -/
inductive Answer where
  | none
  | id (fromId : Id)
  | nodes (fromId : Id) (nodes : List (Id × Address))
  | value (fromId id : Id) (value : Bytes) (expiryDate : Int)

/-- What a request is answered with. -/
inductive Response where
  | ping
  | nodes (nodes : List (Id × Address))
  | stored (result : Bool)
  | nodeList (nodes : List (Id × Address))
  | value (id : Id) (value : Value)

inductive Effect where
  | respond (dest : Address) (svcId : BitVec 16) (reqId : RequestId) (response : Response)
  | callback (request : Pending) (answer : Answer)
  | store (destAddr : Address) (destId id : Id) (value : Value)

variable (env : Env)

/-- The bytes a response takes behind the header; a value is cut to the room there is. -/
def Response.size (room : Nat) : Response → Nat
  | .ping => idForm.serial.length
  | .nodes l => idForm.serial.length + l.length * idAddr.serial.length
  | .stored _ => idForm.serial.length + Forms.word32l.serial.length
  | .nodeList l => idForm.serial.length + Forms.word32l.serial.length + l.length * idAddr.serial.length
  | .value _ v =>
    let l := idForm.serial.length + Forms.word32l.serial.length + idDate.serial.length
    l + min (room - l) v.value.length

/-- The response writers: the buffer has to hold what they write. -/
def write (dest : Address) (svcId : BitVec 16) (reqId : RequestId) (response : Response) : Except Exn Effect :=
  let room := env.maxMTU - headerSize
  if headerSize ≤ env.maxMTU ∧ response.size room ≤ room then .ok (.respond dest svcId reqId response) else .error .subscript

/-! ## Handlers -/

/-- A value goes to a new node that is among the `k` closest, if no node is closer to it
    than this one. -/
def checkStore (buckets : Buckets Address) (id : Id) (addr : Address) (entry : Id × Value) : Except Exn (List Effect) := do
  if ← Buckets.knowNodesCloserTo buckets entry.1 then return []
  else
    let closer ← Buckets.countCloserNodesFor buckets entry.1 id
    return if closer < Config.k then [.store addr id entry.1 entry.2] else []

def updateNode (s : Node) (id : Id) (addr : Address) : Except Exn (Node × List Effect) := do
  let (buckets, nodeWasAdded) ← Buckets.updateNode s.buckets id addr
  let stored ← if nodeWasAdded then s.values.mapM (checkStore buckets id addr) else .ok []
  return ({ s with buckets }, stored.flatten)

def nodeTimeout (s : Node) (id : Option Id) : Except Exn Node :=
  match id with
  | some id => do return { s with buckets := ← Buckets.nodeTimeout s.buckets id }
  | none => .ok s

def idAddrs (l : List (Contact Address)) : List (Id × Address) := l.map fun c => (c.id, c.addr)

def closeNodes (s : Node) (fromId targetId : Id) : Except Exn (List (Id × Address)) := do
  return idAddrs (← Buckets.getCloseNodes s.buckets targetId fromId Config.k)

/-- A value is kept until its date, the sooner the more nodes are closer to it. -/
def expiry (buckets : Buckets Address) (id : Id) (expiryDate : Int) : Except Exn Int := do
  let expire ← toTime (expiryDate - env.now)
  let expire ← env.multReal32 expire (← Buckets.countCloserNodes buckets id)
  toTime (env.now + expire)

def setValue (values : List (Id × Value)) (id : Id) (v : Value) : List (Id × Value) := (id, v) :: values.filter fun e => e.1 != id

def getValue (values : List (Id × Value)) (id : Id) : Option Value := (values.find? fun e => e.1 == id).map (·.2)

def storeHandler (s : Node) (id : Id) (value : Bytes) (expiryDate : Int) : Except Exn Node := do
  let expiryDate ← expiry env s.buckets id expiryDate
  match getValue s.values id with
  | some old => if old.expiryDate ≤ expiryDate then return { s with values := setValue s.values id ⟨value, expiryDate⟩ } else return s
  | none => return { s with values := setValue s.values id ⟨value, expiryDate⟩ }

def requestHandlerPing (s : Node) (data : ArraySlice) (fromAddr : Address) : Except Exn (Node × List Effect × Response) := do
  let (fromId, _) ← parseId data
  let (s, effects) ← updateNode s fromId fromAddr
  return (s, effects, .ping)

/-- The sender and the target of a FIND_NODE or a FIND_VALUE. -/
def parseIds (data : ArraySlice) : Except Exn (Id × Id) := do
  let (fromId, l) ← parseId data
  let (targetId, _) ← parseId (← subsliceFrom data l)
  return (fromId, targetId)

def requestHandlerFindNode (s : Node) (data : ArraySlice) (fromAddr : Address) : Except Exn (Node × List Effect × Response) := do
  let (fromId, targetId) ← parseIds data
  let (s, effects) ← updateNode s fromId fromAddr
  return (s, effects, .nodes (← closeNodes s fromId targetId))

/-- The sender of a STORE, the id and the date of the value, and the value. -/
def parseStore (data : ArraySlice) : Except Exn (Id × (Id × BitVec 64) × Bytes) := do
  let (fromId, l) ← parseId data
  let data ← subsliceFrom data (l + 4)
  let (idDate, l) ← parseIdDate data
  return (fromId, idDate, bytes (← subsliceFrom data l))

def requestHandlerStore (s : Node) (data : ArraySlice) (fromAddr : Address) : Except Exn (Node × List Effect × Response) := do
  let (fromId, (id, expiryDate), value) ← parseStore data
  let (s, effects) ← updateNode s fromId fromAddr
  let s ← storeHandler env s id value expiryDate.toInt
  return (s, effects, .stored true)

def requestHandlerFindValue (s : Node) (data : ArraySlice) (fromAddr : Address) : Except Exn (Node × List Effect × Response) := do
  let (fromId, targetId) ← parseIds data
  let (s, effects) ← updateNode s fromId fromAddr
  match getValue s.values targetId with
  | some v => return (s, effects, .value targetId v)
  | none => return (s, effects, .nodeList (← closeNodes s fromId targetId))

/-- The services a node has registered. -/
def serviceMap (svcId : BitVec 16) : Option Service :=
  if svcId = svcPing then some .ping
  else if svcId = svcFindNode then some .findNode
  else if svcId = svcStore then some .store
  else if svcId = svcFindValue then some .findValue
  else none

def Service.handler (service : Service) (s : Node) (data : ArraySlice) (fromAddr : Address) :
    Except Exn (Node × List Effect × Response) :=
  match service with
  | .ping => requestHandlerPing s data fromAddr
  | .findNode => requestHandlerFindNode s data fromAddr
  | .store => requestHandlerStore env s data fromAddr
  | .findValue => requestHandlerFindValue s data fromAddr

/-! ## Responses -/

/-- `fuel` is the length of the slice. -/
def readList : Nat → ArraySlice → Except Exn (List (Id × Address))
  | 0, data => if data.n = 0 then .ok [] else .error .subscript
  | fuel + 1, data => do
    if 0 < data.n then
      let (hd, l) ← parseIdAddr data
      let nextData ← subsliceFrom data l
      return hd :: (← readList fuel nextData)
    else return []

def findValueResultList : BitVec 32 := 0
def findValueResultValue : BitVec 32 := 1

def Service.validResponse (service : Service) (s : Node) (request : Pending) (fromId : Id) (data : ArraySlice) :
    Except Exn (Node × List Effect) :=
  match service with
  | .ping => do
    let (s, effects) ← updateNode s fromId request.destAddr
    return (s, effects ++ [.callback request (.id fromId)])
  | .findNode => do
    let idList ← readList data.n data
    let (s, effects) ← updateNode s fromId request.destAddr
    return (s, effects ++ [.callback request (.nodes fromId idList)])
  | .store => do
    let (res, _) ← parseWord32 data
    let (s, effects) ← updateNode s fromId request.destAddr
    return (s, effects ++ [.callback request (if res ≠ 0 then .id fromId else .none)])
  | .findValue => do
    let (tp, l) ← parseWord32 data
    let data ← subsliceFrom data l
    let (s, effects) ← updateNode s fromId request.destAddr
    if tp = findValueResultList then
      let nodes ← readList data.n data
      return (s, effects ++ [.callback request (.nodes fromId nodes)])
    else if tp = findValueResultValue then
      let ((id, expiryDate), l) ← parseIdDate data
      let value ← subsliceFrom data l
      return (s, effects ++ [.callback request (.value fromId id (bytes value) expiryDate.toInt)])
    else .error (.fail "Invalid FIND_VALUE response.")

def timeout (s : Node) (request : Pending) : Except Exn (Node × List Effect) := do
  return (← nodeTimeout s request.destId, [.callback request .none])

/-- A node that answers under another id than the one asked counts as a timeout. -/
def expected (destId : Option Id) (fromId : Id) : Bool :=
  match destId with
  | some id => fromId = id
  | none => true

/-- `response` of a request: a PING has no tail. -/
def response (s : Node) (request : Pending) (data : ArraySlice) : Except Exn (Node × List Effect) := do
  let (fromId, l) ← parseId data
  let tailData ← subsliceFrom data l
  if expected request.destId fromId then request.service.validResponse s request fromId tailData
  else timeout s request

/-! ## Dispatch -/

def handleRequest (s : Node) (sender : Address) (payload : ArraySlice) (svcId : BitVec 16) (reqId : RequestId) :
    Except Exn (Node × List Effect) :=
  match serviceMap svcId with
  | none => .ok (s, [])
  | some service => do
    let (s, effects, answer) ← service.handler env s payload sender
    return (s, effects ++ [← write env sender svcId reqId answer])

def handleResponse (s : Node) (payload : ArraySlice) (reqId : RequestId) (svcId : BitVec 16) : Except Exn (Node × List Effect) :=
  match s.requests.lookup reqId with
  | none => .ok (s, [])
  | some request =>
    let s := { s with requests := s.requests.filter fun e => e.1 != reqId }
    if svcId = request.service.svcId then response s request payload else .ok (s, [])

def receiveHandler (s : Node) (sender : Address) (datagram : Bytes) : Except Exn (Node × List Effect) := do
  let data := full datagram
  let header ← parseHeader data
  let payload ← subsliceFrom data headerSize
  match header with
  | .request svcId reqId => handleRequest env s sender payload svcId reqId
  | .response svcId reqId => handleResponse s payload reqId svcId
  | .invalid => return (s, [])

/-! ## Runs -/

/-- What a node can come to: besides datagrams it sends requests, some of which are
    forgotten after a while, and its values change. -/
inductive Reach (env : Nat → Env) : Node → Prop
  | new (myId : Id) : Reach env ⟨Buckets.new myId Config.k, [], []⟩
  | receive {s s' : Node} {effects : List Effect} (t : Nat) (sender : Address) (datagram : Bytes) :
      Reach env s → receiveHandler (env t) s sender datagram = .ok (s', effects) → Reach env s'
  | request {s : Node} (reqId : RequestId) (request : Pending) : Reach env s → s.requests.lookup reqId = none →
      Reach env { s with requests := (reqId, request) :: s.requests }
  | timeout {s s' : Node} {effects : List Effect} (reqId : RequestId) (request : Pending) : Reach env s →
      s.requests.lookup reqId = some request →
      Kademlia.timeout { s with requests := s.requests.filter fun e => e.1 != reqId } request = .ok (s', effects) → Reach env s'
  | values {s : Node} (values : List (Id × Value)) : Reach env s → Reach env { s with values := values }

end BubbleStorm.Kademlia
