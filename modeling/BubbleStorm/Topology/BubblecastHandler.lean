/-
  BubbleStorm.Topology.BubblecastHandler — a bubblecast as it comes from a neighbour, and
  what its bubble type does with it (`src/bubblestorm/topology/handlers/bubblecast.sml`;
  `defaultSizeReal` to `process` of `src/bubblestorm/basic/basic-bubble-type.sml`;
  `queryHandler` of `src/bubblestorm/query/query.sml`; the receivers of
  `src/bubblestorm/managed/storage/find-maintainer.sml` and
  `src/bubblestorm/managed/maintainer/find-storage.sml`).

  Floating point is a parameter. What the application, the frontend and the neighbour's
  conversation do with what they are given is their own: it is an `Effect` here. The
  payload of a message is its bytes. `Bubblecast` has the network of such nodes.
-/

import BubbleStorm.Topology.Bubblecast
import BubbleStorm.Util.Serial.Forms

namespace BubbleStorm.Topology.BubblecastHandler

open BubbleStorm.Cusp (Exn Bytes)
open BubbleStorm.Util.Serial
open BubbleStorm.Util.Serial.Forms (Id Address)
open BubbleStorm.Topology.Bubblecast

/-! ## Numbers -/

/-- An `int`: 32 bits. -/
abbrev Int32 := {x : Int // minInt ≤ x ∧ x ≤ maxInt}

def toInt32 (x : Int) : Except Exn Int32 := if h : minInt ≤ x ∧ x ≤ maxInt then .ok ⟨x, h⟩ else .error .overflow

/-- `R` is `Real64.real` and `F` is `Real32.real`. -/
structure Reals (R F : Type) where
  fromInt : Int → R
  fromBits : BitVec 64 → R
  neg : R → R
  exp : R → R
  ln : R → R
  add : R → R → R
  sub : R → R → R
  mul : R → R → R
  div : R → R → R
  max : R → R → R
  lt : R → R → Bool
  minPos : R
  /-- `Overflow` if there is no such `int`, `Domain` for what is not a number. -/
  ceil : R → Except Exn Int32
  maxBubbleOvershoot : R
  toReal32 : R → F
  toReal64 : F → R
  fromInt32 : Int → F
  add32 : F → F → F
  div32 : F → F → F
  isFinite : F → Bool
  defaultQueryPriority : F
  defaultBubblecastReliability : F

/-- `Priority.fromReal` and `Reliability.fromReal`. -/
def fromReal {R F : Type} (N : Reals R F) (x : F) : Except Exn F := if N.isFinite x then .ok x else .error .domain

/-! ## Serial forms -/

/-- An address and a `Conversation.Entry.t`: the callback of a notification, and
    `StorageService.Description.t`. -/
def callback : Shape (Address × BitVec 16) := Forms.pair Forms.address Forms.word16b

/-- The bucket selection filter, for even and for odd buckets. -/
def filter : Shape (Bool × Bool) := Forms.pair Forms.bool Forms.bool

structure Offer where
  service : Address × BitVec 16
  capacity : BitVec 64
  d1 : BitVec 64
  filter : Bool × Bool

/-- The payload of FindMaintainer. -/
def findMaintainer : Shape Offer :=
  .aggregate (fun (s, c, d, f, _) => ⟨s, c, d, f⟩) (fun o => (o.service, o.capacity, o.d1, o.filter, ()))
    (.cons callback (.cons Forms.real64l (.cons Forms.real64l (.cons filter .nil))))

/-- The payload of FindStorage: the maintainer, its entry and its degree sum. -/
def findStorage : Shape (Address × BitVec 16 × BitVec 64) :=
  .aggregate (fun (a, entry, d1, _) => (a, entry, d1)) (fun (a, entry, d1) => (a, entry, d1, ()))
    (.cons Forms.address (.cons Forms.word16b (.cons Forms.real64l .nil)))

/-! ## Bubble types -/

/-- The handler of a `MAXIMUM` type. -/
inductive Maximum (R : Type) where
  /-- With the counter of `probabilisticAnswer`. -/
  | findMaintainer (counter : R)
  /-- The storage service runs, or does not. -/
  | findStorage (running : Bool)

inductive Class (R : Type) where
  | instant
  | fading
  | managed
  | durable
  | maximum (handler : Maximum R)

/-- What the size of a bubble is read from. -/
structure Size (R : Type) where
  cls : Class R
  currentSize : R
  oldSize : R

/-- Who is told of a match: a `Query`, or a function of the application. -/
inductive MatchHandler where
  | query (responder : Nat)
  | application (handler : Nat)

structure MatchConstraint (R : Type) where
  object : Size R
  lambda : R
  handler : MatchHandler

structure BubbleType (R F : Type) where
  size : Size R
  priority : F
  reliability : F
  matchConstraints : List (MatchConstraint R)

/-- `SystemStats`, as it stands. -/
structure Stats (R F : Type) where
  d1 : R
  d1' : R
  d2 : R
  d2' : R
  dMax : R
  degree : F

structure State (R F Node : Type) where
  stats : Stats R F
  bubbletypes : Int → Option (BubbleType R F)
  locations : List (Location Node)

inductive Effect (R F Node : Type) where
  | store (id : Id) (data : VectorSlice)
  | handle (handler : Nat) (id : Id) (data : VectorSlice)
  | respond (responder : Nat) (sender : Address × BitVec 16) (query : VectorSlice)
  | counter (counter : R)
  | addStorage (offer : Offer) (position : Int)
  | associate (address : Address) (entry : BitVec 16) (d1 : BitVec 64) (position : Int)
  | bubblecast (priority reliability : F) (call : Call Node Bytes)

variable {R F Node : Type} (N : Reals R F) (stats : Stats R F)

def dependencyCompensator : R := N.div stats.d2 (N.sub stats.d2 (N.mul (N.fromInt 2) stats.d1))

def dependencyCompensator' : R := N.div stats.d2' (N.sub stats.d2' (N.mul (N.fromInt 2) stats.d1'))

def compensation : R := N.fromInt 1

def targetSizeReal (this : Size R) : R :=
  match this.cls with
  | .fading => N.mul this.currentSize (dependencyCompensator N stats)
  | .managed | .maximum _ => N.mul (N.mul this.currentSize (dependencyCompensator N stats)) (compensation N)
  | _ => this.currentSize

def oldSizeReal (this : Size R) : R :=
  match this.cls with
  | .fading => N.mul this.oldSize (dependencyCompensator' N stats)
  | .managed | .maximum _ => N.mul (N.mul this.oldSize (dependencyCompensator' N stats)) (compensation N)
  | _ => this.oldSize

def defaultSizeReal (this : Size R) : R := N.max (targetSizeReal N stats this) (oldSizeReal N stats this)

def defaultSize (this : Size R) : Except Exn Int32 := N.ceil (defaultSizeReal N stats this)

/-! ## Rendezvous -/

def intersects (constraint : MatchConstraint R) (pos : Int) : Except Exn Bool := do
  let one := N.fromInt 1
  let wm := N.div stats.dMax stats.d1
  let Sw2 := N.div stats.d2 (N.mul stats.d1 stats.d1)
  let size := N.fromInt (← defaultSize N stats constraint.object).val
  let threshold := N.sub one (N.exp (N.div (N.mul (N.mul (N.neg constraint.lambda) wm) wm) Sw2))
  let otherBubble := N.sub one (N.exp (N.mul (N.neg size) wm))
  let ratio := N.sub one (N.div threshold otherBubble)
  -- a rounding error makes it negative
  let ratio := N.max ratio N.minPos
  let matchSize ← N.ceil (N.div (N.neg (N.ln ratio)) wm)
  return decide (pos ≤ matchSize.val)

/-- A notification's callback, and how many bytes it takes. -/
def decode (data : VectorSlice) : Except Exn ((Address × BitVec 16) × Nat) := do
  return (← parseVector callback.serial data, callback.serial.length)

def queryHandler (responder : Nat) (data : VectorSlice) : Except Exn (Effect R F Node) := do
  let (sender, headerLen) ← decode data
  return .respond responder sender (← subsliceFrom data headerLen)

def MatchHandler.call (handler : MatchHandler) (id : Id) (data : VectorSlice) : Except Exn (Effect R F Node) :=
  match handler with
  | .query responder => queryHandler responder data
  | .application handler => .ok (.handle handler id data)

/-- One constraint: `match` of `doMatching`. -/
def doMatch (pos : Int) (id : Id) (data : VectorSlice) (constraint : MatchConstraint R) : Except Exn (List (Effect R F Node)) := do
  if ← intersects N stats constraint pos then return [← constraint.handler.call id data] else return []

def doMatching (typ : BubbleType R F) (pos : Int) (id : Id) (data : VectorSlice) : Except Exn (List (Effect R F Node)) := do
  return (← typ.matchConstraints.mapM (doMatch N stats pos id data)).flatten

/-! ## A bubble type processes a message -/

def maxSize (typ : BubbleType R F) : Except Exn Int32 :=
  N.ceil (N.mul (defaultSizeReal N stats typ.size) N.maxBubbleOvershoot)

def share (typ : BubbleType R F) (size : Int) : F :=
  N.div32 (N.fromInt32 size) (N.toReal32 (defaultSizeReal N stats typ.size))

def getPriority (typ : BubbleType R F) (size : Int) : F := N.add32 typ.priority (share N stats typ size)

def getReliability (typ : BubbleType R F) (size : Int) : F := N.add32 typ.reliability (share N stats typ size)

def fakeID : Id := List.replicate 20 0

def extractID (payload : Bytes) : Except Exn (Id × VectorSlice) := do
  let id ← parseVector Forms.id.serial (← slice payload 0 Forms.id.serial.length)
  let data ← sliceFrom payload Forms.id.serial.length
  return (id, data)

/-- The counter, moved up by the inverse of the capacity: the message is answered when it
    reaches one. -/
def raised (counter : R) : R := N.add counter (N.div (N.fromInt 16) (N.toReal64 stats.degree))

/-- `FindMaintainer.receive`. -/
def receive (counter : R) (pos : Int) (data : VectorSlice) : Except Exn (List (Effect R F Node)) := do
  let counter := raised N stats counter
  if N.lt counter (N.fromInt 1) then return [.counter counter]
  else return [.counter (N.sub counter (N.fromInt 1)), .addStorage (← parseVector findMaintainer.serial data) pos]

/-- `FindStorage`. -/
def respondWithOffer (running : Bool) (position : Int) (data : VectorSlice) : Except Exn (List (Effect R F Node)) := do
  if !running then return []
  else
    let (address, entry, d1) ← parseVector findStorage.serial data
    return [.associate address entry d1 position]

def process (typ : BubbleType R F) (pos : Int) (payload : Bytes) : Except Exn (List (Effect R F Node)) :=
  match typ.size.cls with
  | .instant => doMatching N stats typ pos fakeID (full payload)
  | .fading => do
    let (id, data) ← extractID payload
    return .store id data :: (← doMatching N stats typ pos id data)
  | .managed => .ok []
  | .durable => .ok []
  | .maximum (.findMaintainer counter) => receive N stats counter pos (full payload)
  | .maximum (.findStorage running) => respondWithOffer running pos (full payload)

/-! ## The topology's handler -/

/-- What the bubblecaster knows of a type, or of a type it does not know. -/
structure Methods (R F Node : Type) where
  maxSize : Except Exn Int32
  process : Int → Bytes → Except Exn (List (Effect R F Node))
  priority : Int → F
  reliability : Int → F

def bubblecaster (state : State R F Node) (typ : Int) : Methods R F Node :=
  match state.bubbletypes typ with
  | some btype =>
    { maxSize := maxSize N state.stats btype
      process := process N state.stats btype
      priority := getPriority N state.stats btype
      reliability := getReliability N state.stats btype }
  | none =>
    { maxSize := .ok ⟨maxInt, by decide⟩
      process := fun _ _ => .ok []
      priority := fun _ => N.defaultQueryPriority
      reliability := fun _ => N.defaultBubblecastReliability }

/-- The end of `cast`: the call leaves with a priority and a reliability for its size. -/
def send (methods : Methods R F Node) (call : Call Node Bytes) : Except Exn (Effect R F Node) := do
  let size ← toInt32 (call.sliceStop - call.sliceStart)
  let priority ← fromReal N (methods.priority size.val)
  let reliability ← fromReal N (methods.reliability size.val)
  return .bubblecast priority reliability call

/-- A node inside the slice processes its position. -/
def processLocally (methods : Methods R F Node) (c : Call Node Bytes) : Except Exn (List (Effect R F Node)) :=
  if c.sliceStart ≤ c.bubbleStart then methods.process c.bubbleStart c.payload else .ok []

/-- The permutation is the one the seed picks of the neighbours. -/
def handleBubblecast (state : State R F Node) (c : Call Node Bytes) (permutation : List Nat) :
    Except Exn (List (Effect R F Node)) := do
  let methods := bubblecaster N state c.typ
  let bubbleStop := max c.bubbleStart c.bubbleStop
  let sliceStop := max c.sliceStart c.sliceStop
  let processed ← processLocally methods c
  let bubbleStart ← toInt32 (c.bubbleStart + 1)
  let sum ← toInt32 (bubbleStart.val + bubbleStop)
  let midpoint := sum.val / 2
  let maxSize ← methods.maxSize
  let limit ← toInt32 (c.sliceStart + maxSize.val)
  let sliceStop := min sliceStop limit.val
  if sliceStop ≤ c.sliceStart then return processed
  else
    let sent ← (forward c ⟨state.locations, permutation, maxSize.val⟩ bubbleStart.val bubbleStop midpoint sliceStop).mapM (send N methods)
    return processed ++ sent

end BubbleStorm.Topology.BubblecastHandler
