/-
  BubbleStorm.Topology.Bubblecast — a bubblecast and how nodes pass it on
  (`src/bubblestorm/topology/handlers/bubblecast.sml`, `actions/bubblecast.sml`, and
  `slicecast` of `src/bubblestorm/basic/basic-bubble-type.sml`).

  `int` is 32 bits wide, and a result that does not fit raises `Overflow`. What a node has
  at the moment a message arrives (`Local`) is given with the event: its locations, the
  permutation its seed picks of them, and `maxSize ()`. Any permutation stands for the
  seed's. Priorities, reliabilities and costs are left out.
-/

import Mathlib.Algebra.Order.Ring.Int
import Mathlib.Data.List.Basic

namespace BubbleStorm.Topology.Bubblecast

/-! ## Integers -/

def minInt : Int := -2147483648
def maxInt : Int := 2147483647

def addInt (a b : Int) : Option Int := if minInt ≤ a + b ∧ a + b ≤ maxInt then some (a + b) else none

/-! ## Locations -/

/-- A neighbour, and the conversation with it. -/
structure Neighbour (Node : Type) where
  conversation : Nat
  node : Node

structure Location (Node : Type) where
  master : Option (Neighbour Node)
  slave : Option (Neighbour Node)

variable {Node Payload : Type}

/-- Number `i` of the masters, and then the slaves; none at the excluded conversation's
    location. -/
def toTotalNeighbour (table : List (Location Node)) (excludedConversation : Option Nat) (i : Nat) :
    Option (Neighbour Node) :=
  let (pickMaster, i) := if i < table.length then (true, i) else (false, i - table.length)
  match table[i]? with
  | none => none
  | some l =>
    let excluded (n : Neighbour Node) : Bool :=
      match excludedConversation with
      | some exC => exC == n.conversation
      | none => false
    if (l.master.map excluded).getD false || (l.slave.map excluded).getD false then none
    else if pickMaster then l.master
    else l.slave

def randomSplitTotalNeighbours (table : List (Location Node)) (excludedConversation : Option Nat) (permutation : List Nat) :
    List (Neighbour Node) × List (Neighbour Node) :=
  let get := List.filterMap (toTotalNeighbour table excludedConversation)
  (get permutation, get permutation.reverse)

/-! ## Messages -/

/-- A call of the `bubblecast` method of a node. -/
structure Call (Node Payload : Type) where
  node : Node
  source : Option Nat
  typ : Int
  seed : BitVec 64
  bubbleStart : Int
  bubbleStop : Int
  sliceStart : Int
  sliceStop : Int
  payload : Payload

structure Local (Node : Type) where
  table : List (Location Node)
  permutation : List Nat
  maxSize : Int

/-- `cast`: nothing is sent for an empty slice. -/
def cast (c : Call Node Payload) (seed : BitVec 64) (neighbour : Neighbour Node) (bubbleStart bubbleStop sliceStart sliceStop : Int) :
    List (Call Node Payload) :=
  if sliceStop ≤ sliceStart then []
  else [⟨neighbour.node, some neighbour.conversation, c.typ, seed, bubbleStart, bubbleStop, sliceStart, sliceStop, c.payload⟩]

def forward (c : Call Node Payload) (loc : Local Node) (bubbleStart bubbleStop midpoint sliceStop : Int) :
    List (Call Node Payload) :=
  let seed := c.seed ^^^ BitVec.ofInt 64 bubbleStart
  let (left, right) := randomSplitTotalNeighbours loc.table c.source loc.permutation
  match left.head?, right.head? with
  | none, _ => []
  | _, none => []
  | some left, some right =>
    cast c seed left bubbleStart midpoint (max c.sliceStart bubbleStart) (min sliceStop midpoint) ++
      cast c seed right midpoint bubbleStop (max c.sliceStart midpoint) (min sliceStop bubbleStop)

/-- What is sent, unless a sum overflows. -/
def pass (c : Call Node Payload) (loc : Local Node) : Option (List (Call Node Payload)) := do
  let bubbleStop := max c.bubbleStart c.bubbleStop
  let sliceStop := max c.sliceStart c.sliceStop
  let bubbleStart ← addInt c.bubbleStart 1
  let sum ← addInt bubbleStart bubbleStop
  let limit ← addInt c.sliceStart loc.maxSize
  let sliceStop := min sliceStop limit
  return if sliceStop ≤ c.sliceStart then [] else forward c loc bubbleStart bubbleStop (sum / 2) sliceStop

/-- The positions processed and the calls made: the node processes its position before it
    computes anything else. -/
def handleBubblecast (c : Call Node Payload) (loc : Local Node) : List (Int × Payload) × List (Call Node Payload) :=
  (if c.sliceStart ≤ c.bubbleStart then [(c.bubbleStart, c.payload)] else [], (pass c loc).getD [])

def doBubblecast (node : Node) (typ : Int) (seed : BitVec 64) (size start stop : Int) (payload : Payload) : Call Node Payload :=
  ⟨node, none, typ, seed, 0, size, start, stop, payload⟩

/-- One slice of a bubble of the size. -/
def slicecast (node : Node) (typ : Int) (seed : BitVec 64) (size : Int) (slice : Int × Int) (payload : Payload) :
    Call Node Payload :=
  doBubblecast node typ seed size (max slice.1 0) (min slice.2 size) payload

/-! ## The network -/

/-- The calls on their way, and what was processed so far. -/
structure St (Node Payload : Type) where
  calls : List (Call Node Payload)
  processed : List (Int × Payload)

/-- Call number `k` arrives. -/
structure Ev (Node : Type) where
  k : Nat
  loc : Local Node

def step (s : St Node Payload) (e : Ev Node) : St Node Payload :=
  match s.calls[e.k]? with
  | none => s
  | some c =>
    let (processed, sent) := handleBubblecast c e.loc
    ⟨s.calls.eraseIdx e.k ++ sent, s.processed ++ processed⟩

def run (s : St Node Payload) (evs : List (Ev Node)) : St Node Payload := evs.foldl step s

/-- The slices of a bubble, all cast by one node. -/
def start (node : Node) (typ : Int) (seed : BitVec 64) (size : Int) (slices : List (Int × Int)) (payload : Payload) :
    St Node Payload :=
  ⟨slices.map fun slice => slicecast node typ seed size slice payload, []⟩

/-- Every call that arrives does so under `Q`. -/
def Along (Q : Call Node Payload → Local Node → Prop) : St Node Payload → List (Ev Node) → Prop
  | _, [] => True
  | s, e :: evs => (∃ c, s.calls[e.k]? = some c ∧ Q c e.loc) ∧ Along Q (step s e) evs

/-- What a node needs to pass a call on: a neighbour, if there is a position after its own,
    and a `maxSize` that does not cut the slice. -/
structure Serves (c : Call Node Payload) (loc : Local Node) : Prop where
  permutation : loc.permutation.Perm (List.range (loc.table.length * 2))
  neighbours : c.bubbleStart + 1 < c.sliceStop → ∃ i < loc.table.length * 2, (toTotalNeighbour loc.table c.source i).isSome
  maxSize : c.sliceStop - c.sliceStart ≤ loc.maxSize

/-- There is a position after the node's own only where no sum overflows. -/
def Fits (c : Call Node Payload) (loc : Local Node) : Prop :=
  c.bubbleStart + 1 < c.sliceStop → c.bubbleStart + 1 + c.bubbleStop ≤ maxInt ∧ c.sliceStart + loc.maxSize ≤ maxInt

end BubbleStorm.Topology.Bubblecast
