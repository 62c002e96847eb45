/-
  BubbleStorm.Cusp.Channel.FastRetransmit — when the callbacks of packets are fired
  (`src/cusp/channel/fast-retransmit.fun`).

  A callback may call back: what a fired callback does (`acts`) is up to it. So the code
  runs as a stack of what each call has still to do (`Frame`), one step at a time. A
  packet is the number the caller gives it (`tsn`), which only grows; the code sees its
  low 32 bits. The congestion control below is left out, as is the order in which
  `destroy` fires.
-/

import Mathlib.Algebra.Order.Ring.Int
import Mathlib.Data.List.Basic

namespace BubbleStorm.Cusp.Channel.FastRetransmit

/-- Nanoseconds. -/
abbrev Time := Int

inductive Status where
  | TIMEOUT
  | MISSING
  | MTU
  | ACK
  deriving DecidableEq

structure Record where
  seq : Nat
  sent : Time
  srtt : Time
  deriving DecidableEq

def newWeight : Int := 20
def maxRTT : Time := 60000000000
def maxInitialRTT : Time := 10000000000
def minRTT : Time := 100000000
def jitter : Time := 50000000
def reorderLimit : BitVec 32 := 3
def totalWeight : Int := 100
def oldWeight : Int := totalWeight - newWeight

/-- What a callback, or the caller, does: a packet is pulled, and sent or not; all is
    destroyed. -/
inductive Act where
  | pull (sent : Bool)
  | destroy
  deriving DecidableEq

/-- What a call has still to do. -/
inductive Frame where
  /-- The rest of a callback. -/
  | callback (acts : List Act)
  /-- `loop ()` of `recv`. -/
  | loop (asn : BitVec 32) (acklen : Nat)
  /-- `Q.pushFront (queue, r)` after a `loop ()`. -/
  | pushFront (r : Record)
  | updateRTT (r : Record)
  | scheduleAt
  /-- What `destroy` has still to fire. -/
  | app (l : List Record)
  deriving DecidableEq

structure T where
  queue : List Record
  rtt : Time
  /-- When the timer is set to expire. -/
  expiry : Option Time
  now : Time
  tsn : Nat
  stack : List Frame
  destroyed : Bool
  /-- What was sent, what was fired, and what was acknowledged. -/
  sent : List Nat
  fired : List (Nat × Status)
  acks : List (BitVec 32 × Nat)
  failed : Bool

def new (rtt : Time) : T :=
  ⟨[], max minRTT (min rtt maxInitialRTT), none, 0, 0, [], false, [], [], [], false⟩

def updateRTT (t : T) (r : Record) : T :=
  let new := t.now - r.sent
  let mix := t.rtt * oldWeight + new * newWeight
  let mix := mix / totalWeight
  let mix := min mix maxRTT
  let mix := max mix minRTT
  let mix := min mix (r.srtt + r.srtt)
  { t with rtt := mix }

/-- Fire the callback of `r`, which will do `acts`. -/
def fire (t : T) (r : Record) (status : Status) (acts : List Act) (rest : List Frame) : T :=
  { t with fired := t.fired ++ [(r.seq, status)], stack := .callback acts :: rest }

/-- `timeout`. -/
def timeout (t : T) (acts : List Act) (rest : List Frame) : T :=
  match t.queue with
  | [] => { t with failed := true, stack := rest }
  | r :: queue => fire { t with queue := queue } r .TIMEOUT acts (.updateRTT r :: .scheduleAt :: rest)

/-- `scheduleAt`. -/
def scheduleAt (t : T) (acts : List Act) (rest : List Frame) : T :=
  match t.queue with
  | [] => { t with expiry := none, stack := rest }
  | r :: _ =>
    let date := t.rtt + t.rtt / 2 + jitter + r.sent
    if date ≤ t.now then timeout t acts rest else { t with expiry := some date, stack := rest }

/-- Bit 31. -/
def b31 (x : BitVec 32) : Bool := x &&& 0x80000000#32 ≠ 0

/-- `loop ()`. -/
def loop (t : T) (asn : BitVec 32) (acklen : Nat) (acts : List Act) (rest : List Frame) : T :=
  let aln := BitVec.ofNat 32 acklen
  match t.queue with
  | [] => { t with stack := rest }
  | r :: queue =>
    let seq := BitVec.ofNat 32 r.seq
    -- if asn < seq, this ack tells nothing new
    if b31 (asn - seq) then { t with stack := rest }
    else if !b31 (seq - asn + aln) then
      fire { t with queue := queue } r .ACK acts (.updateRTT r :: .loop asn acklen :: rest)
    else if !b31 (asn - seq - reorderLimit) then
      fire { t with queue := queue } r .MISSING acts (.updateRTT r :: .loop asn acklen :: rest)
    else
      -- not past the limit, so hold on to it for now
      { t with queue := queue, stack := .loop asn acklen :: .pushFront r :: rest }

/-- `pull` and the call of `ack'` once the packet is sent, or is not; and `destroy`. -/
def act (t : T) (a : Act) (acts : List Act) (rest : List Frame) : T :=
  match a with
  | .pull true =>
    let record := ⟨t.tsn, t.now, t.rtt⟩
    { t with tsn := t.tsn + 1, sent := t.sent ++ [t.tsn], queue := t.queue ++ [record], stack := .scheduleAt :: rest }
  | .pull false => { t with tsn := t.tsn + 1, stack := .callback acts :: rest }
  | .destroy => { t with expiry := none, destroyed := true, stack := .app t.queue :: rest }

/-- The topmost call goes on. If that fires a callback, it will do `acts`. -/
def resume (t : T) (acts : List Act) : T :=
  match t.stack with
  | [] => t
  | .callback [] :: rest => { t with stack := rest }
  | .callback (a :: as) :: rest => act t a acts (.callback as :: rest)
  | .loop asn acklen :: rest => loop t asn acklen acts rest
  | .pushFront r :: rest => { t with queue := r :: t.queue, stack := rest }
  | .updateRTT r :: rest => { updateRTT t r with stack := rest }
  | .scheduleAt :: rest => scheduleAt t acts rest
  | .app [] :: rest => { t with stack := rest }
  | .app (r :: l) :: rest => fire t r .TIMEOUT acts (.app l :: rest)

inductive Ev where
  | resume (acts : List Act)
  | call (a : Act) (acts : List Act)
  /-- An acknowledgement of the `acklen + 1` packets up to `asn`. -/
  | recv (asn : BitVec 32) (acklen : Nat)
  | expire (acts : List Act)
  | tick (now : Time)

/-- While a call goes on nothing else happens, and nothing after `destroy`. -/
def Enabled (t : T) : Ev → Prop
  | .resume _ => t.stack ≠ []
  | .call _ _ => t.stack = [] ∧ t.destroyed = false
  | .recv _ acklen => t.stack = [] ∧ t.destroyed = false ∧ acklen < 2 ^ 31
  | .expire _ => t.stack = [] ∧ ∃ date, t.expiry = some date ∧ date ≤ t.now
  | .tick now => t.stack = [] ∧ t.now ≤ now

def step (t : T) : Ev → T
  | .resume acts => resume t acts
  | .call a acts => act t a acts []
  | .recv asn acklen => { t with acks := t.acks ++ [(asn, acklen)], stack := [.loop asn acklen, .scheduleAt] }
  | .expire acts => timeout { t with expiry := none } acts []
  | .tick now => { t with now := now }

/-- The records that a `loop` holds, in the order they are pushed back. -/
def held : List Frame → List Record
  | [] => []
  | .pushFront r :: rest => held rest ++ [r]
  | _ :: rest => held rest

/-- A callback does not destroy while a packet is pending, and sends nothing after. -/
def Fits (t : T) : Ev → Prop
  | .resume _ =>
    match t.stack with
    | .callback (.destroy :: _) :: _ => t.destroyed = false ∧ t.queue = [] ∧ held t.stack = []
    | .callback (.pull true :: _) :: _ => t.destroyed = false
    | _ => True
  | _ => True

/-- The runs of which every step meets `Q`. -/
inductive Runs (Q : T → Ev → Prop) (rtt : Time) : T → Prop
  | new : Runs Q rtt (new rtt)
  | step {t : T} (e : Ev) : Runs Q rtt t → Enabled t e → Q t e → Runs Q rtt (step t e)

end BubbleStorm.Cusp.Channel.FastRetransmit
