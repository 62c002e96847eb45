/-
  BubbleStorm.Topology.Gossip — the gossip of measurements
  (`src/bubblestorm/topology/state/gossip.fun`).

  A number is a rational or an infinity: the infinities are what a node that skips a
  round holds for its minimums and maximums. The values are numbered: the minimums, the
  maximums, then the sums. When the values have changed enough (`isChanged`) is a
  parameter, since it only decides how long a round lasts; the reports to the
  application and their statistics are left out.

  A packet in flight is delivered or given back to its sender, once.
-/

import Mathlib.Algebra.Order.Ring.Rat
import Mathlib.Algebra.Order.Monoid.Unbundled.WithTop

namespace BubbleStorm.Topology.Gossip

open Function (update)

/-- A rational, `⊤` or `⊥`. -/
abbrev Real := WithBot (WithTop ℚ)

def Real.ofRat (x : ℚ) : Real := ((x : WithTop ℚ) : WithBot (WithTop ℚ))

def Real.scale (r : ℚ) (x : Real) : Real := WithBot.map (WithTop.map (r * ·)) x

/-! ## Rounds -/

namespace Round

/-- `a < b = (a-b) >= b31`. -/
def lt (a b : BitVec 32) : Bool := 2 ^ 31 ≤ (a - b).toNat

/-- `OrderFromLessEqual`. -/
def compare (a b : BitVec 32) : Ordering := if lt a b then .lt else if lt b a then .gt else .eq

end Round

/-! ## The state of a node -/

structure Data where
  round : BitVec 32
  fishSize : Nat
  fish : ℚ
  values : Nat → Real

structure Node where
  initd : Bool
  state : Data
  steady : Nat

/-- How many minimums and maximums there are, and what the measuring is set to. -/
structure Params where
  min : Nat
  max : Nat
  minFish : ℚ
  isChanged : Data → Data → Nat → Bool
  gossipExtraAgreement : Nat

variable (P : Params)

/-- What a node that does not take part starts with. -/
def nothing (i : Nat) : Real := if i < P.min then ⊤ else if i < P.min + P.max then ⊥ else Real.ofRat 0

def skipRound (node : Node) (newRound : BitVec 32) : Node :=
  { node with state := ⟨newRound, 0, 1, nothing P⟩, steady := 0 }

/-- What a node brings into a round: the hash of its address and the round, if it has an
    address, and what it measures. -/
structure Pull where
  hash : Option Nat
  values : Nat → ℚ

def newRound (node : Node) (own : Pull) (round : BitVec 32) : Node :=
  match own.hash with
  | none => skipRound P node round
  | some hash =>
    { node with state := ⟨round, if hash = 0 then 1 else hash, 1, fun i => Real.ofRat (own.values i)⟩, steady := 0 }

def combine (my : Nat → Real) (i : Nat) (v : Real) : Real :=
  if i < P.min then min v (my i) else if i < P.min + P.max then max v (my i) else v + my i

/-- Merge a packet into the state. -/
def process (node : Node) (data : Data) : Node :=
  let my := node.state
  let (fish, fishSize) :=
    if data.fishSize < my.fishSize then (my.fish, my.fishSize)
    else if data.fishSize = my.fishSize then (my.fish + data.fish, my.fishSize)
    else (data.fish, data.fishSize)
  { node with state := ⟨data.round, fishSize, fish, fun i => combine P my.values i (data.values i)⟩ }

def recv (node : Node) (own : Pull) (degree : Nat) (packet : Data) : Node :=
  if !node.initd then node
  else
    match Round.compare packet.round node.state.round with
    | .lt => node
    | .gt =>
      let node :=
        if node.state.fishSize = 0 || packet.round ≠ node.state.round + 1 then skipRound P node packet.round
        else newRound P node own packet.round
      process P node packet
    | .eq =>
      let merged := process P node packet
      let steady := if P.isChanged node.state merged.state packet.fishSize then 0 else node.steady + 1
      if steady < degree + P.gossipExtraAgreement then { merged with steady := steady }
      else newRound P { merged with steady := steady } own (node.state.round + 1)

/-- The half that was not sent comes back. -/
def recover (node : Node) (packet : Data) : Node :=
  if node.state.round ≠ packet.round then node else process P node packet

/-- The values of a share of the mass. -/
def share (ratio : ℚ) (data : Data) : Data :=
  { data with fish := data.fish * ratio
              values := fun i => if i < P.min + P.max then data.values i else Real.scale ratio (data.values i) }

def sample (node : Node) (ratio : ℚ) : Option (Node × Data) :=
  if !node.initd then none
  else
    let keep := 1 - ratio
    let fishTake := node.state.fish * ratio
    let fishKeep := node.state.fish * keep
    if P.minFish < fishTake ∧ (P.minFish < fishKeep ∨ ratio = 1) then
      some ({ node with state := share P keep node.state }, share P ratio node.state)
    else none

def initCreate (node : Node) (own : Pull) : Node :=
  if node.initd then node
  else newRound P { node with initd := true, state := ⟨41, 1, 1, fun i => Real.ofRat (own.values i)⟩ } own 42

def initJoin (node : Node) (lastRound : Data) : Node :=
  if node.initd then node
  else skipRound P { node with initd := true, state := lastRound } (lastRound.round + 1)

def deinit (node : Node) : Node := { node with initd := false, state := { node.state with fishSize := 0 } }

/-! ## Many nodes -/

/-- `n` nodes and the packets in flight. With each goes what was merged into it, and
    `joined` is what the nodes brought into the rounds. -/
structure St (n : Nat) where
  nodes : Fin n → Node
  merged : Fin n → List Data
  packets : List (Data × List Data)
  joined : List Data

inductive Ev (n : Nat) where
  | sample (i : Fin n) (ratio : ℚ)
  /-- Packet number `k` arrives. -/
  | recv (i : Fin n) (k : Nat) (own : Pull) (degree : Nat)
  | recover (i : Fin n) (k : Nat)
  | create (i : Fin n) (own : Pull)
  | join (i : Fin n) (lastRound : Data)
  | deinit (i : Fin n)

variable {n : Nat}

def St.setNode (s : St n) (i : Fin n) (node : Node) (merged : List Data) : St n :=
  { s with nodes := update s.nodes i node, merged := update s.merged i merged }

/-- A node begins a round: what it has then is what it brings. -/
def St.begin (s : St n) (i : Fin n) (node : Node) : St n :=
  { s.setNode i node [node.state] with joined := node.state :: s.joined }

/-- What a node has when it begins the round of a newer packet. -/
def catchUp (node : Node) (own : Pull) (packet : Data) : Node :=
  if node.state.fishSize = 0 || packet.round ≠ node.state.round + 1 then skipRound P node packet.round
  else newRound P node own packet.round

def stepRecv (s : St n) (i : Fin n) (own : Pull) (degree : Nat) (p : Data × List Data) : St n :=
  let node := s.nodes i
  let node' := recv P node own degree p.1
  if !node.initd then s
  else
    match Round.compare p.1.round node.state.round with
    | .lt => s
    | .gt => (s.begin i (catchUp P node own p.1)).setNode i node' (p.2 ++ [(catchUp P node own p.1).state])
    | .eq => if node'.state.round = node.state.round then s.setNode i node' (p.2 ++ s.merged i) else s.begin i node'

def step (s : St n) : Ev n → St n
  | .sample i ratio =>
    match sample P (s.nodes i) ratio with
    | none => s
    | some (node, packet) =>
      { s.setNode i node (s.merged i) with packets := s.packets ++ [(packet, s.merged i)] }
  | .recv i k own degree =>
    match s.packets[k]? with
    | none => s
    | some p => stepRecv P { s with packets := s.packets.eraseIdx k } i own degree p
  | .recover i k =>
    match s.packets[k]? with
    | none => s
    | some p =>
      let s := { s with packets := s.packets.eraseIdx k }
      if (s.nodes i).state.round ≠ p.1.round then s else s.setNode i (recover P (s.nodes i) p.1) (p.2 ++ s.merged i)
  | .create i own => if (s.nodes i).initd then s else s.begin i (initCreate P (s.nodes i) own)
  | .join i lastRound => if (s.nodes i).initd then s else s.begin i (initJoin P (s.nodes i) lastRound)
  | .deinit i => s.setNode i (deinit (s.nodes i)) (s.merged i)

/-- The node takes part in round `R`. -/
def InRound (R : BitVec 32) (node : Node) : Prop := node.initd = true ∧ node.state.round = R

instance (R : BitVec 32) (node : Node) : Decidable (InRound R node) := inferInstanceAs (Decidable (_ ∧ _))

/-- A packet of the round comes to a node that drops it. -/
def Drops (R : BitVec 32) (s : St n) : Ev n → Prop
  | .recv i k _ _ => ∃ p, s.packets[k]? = some p ∧ p.1.round = R ∧
      ((s.nodes i).initd = false ∨ Round.compare R (s.nodes i).state.round = .lt)
  | .recover i k => ∃ p, s.packets[k]? = some p ∧ p.1.round = R ∧ ¬ InRound R (s.nodes i)
  | _ => False

/-- No packet of the round is dropped, and no node leaves it. -/
structure Stays (R : BitVec 32) (s : St n) (e : Ev n) : Prop where
  packets : ¬ Drops R s e
  nodes : ∀ i, InRound R (s.nodes i) → InRound R ((step P s e).nodes i)

/-- Before a round: no node takes part, and no packet is of it. -/
structure Before (R : BitVec 32) (s : St n) : Prop where
  nodes : ∀ i, ¬ InRound R (s.nodes i)
  packets : ∀ p ∈ s.packets, p.1.round ≠ R
  joined : s.joined = []

inductive Reach (R : BitVec 32) : St n → Prop
  | start {s : St n} : Before R s → Reach R s
  | step {s : St n} (e : Ev n) : Reach R s → Stays P R s e → Reach R (step P s e)

end BubbleStorm.Topology.Gossip
