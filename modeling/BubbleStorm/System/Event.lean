/-
  BubbleStorm.System.Event — the event scheduler every protocol timer runs on.

  An event is a record of one managed heap, keyed by the time it is due. `runTill` pops
  the events that are due one by one, sets the clock to the time of each and calls it back;
  the callback may schedule and cancel events itself, so a run is a sequence of steps in
  which the loop and the code it calls take turns (`Machine`, `Step`).
-/

import BubbleStorm.Util.Heap.ManagedHeapQueue

namespace BubbleStorm.System

open Util.Heap (ManagedHeap Exn)
open Util.Heap

/-! ## Time, in nanoseconds -/

namespace Time

def zero : Int := 0

def lt (a b : Int) : Bool := decide (a < b)

def max (a b : Int) : Int := if lt a b then b else a

end Time

inductive Raised
  | heap (e : Exn)
  | pastEventScheduled
  | overflow
  deriving Repr, DecidableEq

/-- `Int64.+`. -/
def Time.add (a b : Int) : Except Raised Int :=
  if -9223372036854775808 ≤ a + b ∧ a + b < 9223372036854775808 then .ok (a + b) else .error .overflow

/-- The heap of events `ρ` with their callbacks `β`, and the clock. -/
structure Event (ρ β : Type) where
  heap : ManagedHeap ρ Int β
  now : Int

namespace Event

variable {ρ β : Type}

def raise {α : Type} : Except Exn α → Except Raised α
  | .ok a => .ok a
  | .error e => .error (.heap e)

/-- Every event was made with its callback, and nothing is scheduled. -/
def new (callback : ρ → β) : Event ρ β := { heap := ManagedHeap.new (fun _ => Time.zero) callback, now := Time.zero }

def timeOfExecution (s : Event ρ β) (event : ρ) : Option Int :=
  match s.heap.sub event with
  | (false, _, _) => none
  | (true, time, _) => some time

variable [DecidableEq ρ]

def scheduleAt (s : Event ρ β) (event : ρ) (time : Int) : Except Raised (Event ρ β) :=
  if Time.lt time s.now then .error .pastEventScheduled
  else do
    let heap ← raise (ManagedHeap.update Time.lt s.heap event time)
    pure { s with heap := heap }

def scheduleIn (s : Event ρ β) (event : ρ) (time : Int) : Except Raised (Event ρ β) := do
  let time ← Time.add time s.now
  scheduleAt s event time

def cancel (s : Event ρ β) (event : ρ) : Except Raised (Event ρ β) := do
  let heap ← raise (ManagedHeap.remove Time.lt s.heap event)
  pure { s with heap := heap }

/-- The clock is set to the time of the event that is called back. -/
def start (s : Event ρ β) (event : ρ) : Event ρ β := { s with now := (s.heap.sub event).2.1 }

/-- One round of `runTill`: the event to call back, or none when the loop is over. -/
def runTill (s : Event ρ β) (stop : Int) : Except Raised (Option ρ × Event ρ β) := do
  match ← raise (ManagedHeap.popBounded Time.lt s.heap stop) with
  | (none, heap) => pure (none, { heap := heap, now := Time.max stop s.now })
  | (some e, heap) => pure (some e, { s with heap := heap }.start e)

/-- The event to call back, if there is one. -/
def runNext (s : Event ρ β) : Except Raised (Option ρ × Event ρ β) := do
  match ← raise (ManagedHeap.pop Time.lt s.heap) with
  | (none, heap) => pure (none, { s with heap := heap })
  | (some e, heap) => pure (some e, { s with heap := heap }.start e)

end Event

/-! ## Runs -/

/-- What called the callback that is running. -/
inductive Caller
  | runTill (stop : Int)
  | runNext
  deriving Repr, DecidableEq

/-- What runs: code outside of the scheduler, inside of the callbacks of `callers`, the
    innermost first; or the loop of `runTill`, itself called inside of callbacks. -/
inductive Code
  | user (callers : List Caller)
  | loop (stop : Int) (callers : List Caller)
  deriving Repr, DecidableEq

structure Machine (ρ β : Type) where
  event : Event ρ β
  code : Code

/-- What is seen of a step. `ran` says whose call it was, and for which time. -/
inductive Label (ρ : Type)
  | scheduled (event : ρ) (time : Int)
  | refused (event : ρ)
  | cancelled (event : ρ)
  | till (stop : Int)
  | ran (caller : Caller) (event : ρ) (time : Int)
  | finished (stop : Int)
  | idle
  | returned
  | escaped
  deriving Repr, DecidableEq

variable {ρ β : Type} [DecidableEq ρ]

/-- Any code may be running: it schedules and cancels as it likes, runs the loop again,
    returns, or leaves the scheduler by an exception. -/
inductive Step (m : Machine ρ β) : Label ρ → Machine ρ β → Prop
  | scheduleAt {callers : List Caller} (e : ρ) (t : Int) {s : Event ρ β} (hc : m.code = .user callers)
    (h : m.event.scheduleAt e t = .ok s) : Step m (.scheduled e t) { m with event := s }
  | scheduleIn {callers : List Caller} (e : ρ) (t : Int) {s : Event ρ β} (hc : m.code = .user callers)
    (h : m.event.scheduleIn e t = .ok s) : Step m (.scheduled e (t + m.event.now)) { m with event := s }
  | refusedAt {callers : List Caller} (e : ρ) (t : Int) {x : Raised} (hc : m.code = .user callers)
    (h : m.event.scheduleAt e t = .error x) : Step m (.refused e) m
  | refusedIn {callers : List Caller} (e : ρ) (t : Int) {x : Raised} (hc : m.code = .user callers)
    (h : m.event.scheduleIn e t = .error x) : Step m (.refused e) m
  | cancel {callers : List Caller} (e : ρ) {s : Event ρ β} (hc : m.code = .user callers)
    (h : m.event.cancel e = .ok s) : Step m (.cancelled e) { m with event := s }
  | runTill {callers : List Caller} (stop : Int) (hc : m.code = .user callers) :
    Step m (.till stop) { m with code := .loop stop callers }
  | round {callers : List Caller} {stop : Int} {e : ρ} {s : Event ρ β} (hc : m.code = .loop stop callers)
    (h : m.event.runTill stop = .ok (some e, s)) :
    Step m (.ran (.runTill stop) e s.now) { event := s, code := .user (.runTill stop :: callers) }
  | finish {callers : List Caller} {stop : Int} {s : Event ρ β} (hc : m.code = .loop stop callers)
    (h : m.event.runTill stop = .ok (none, s)) : Step m (.finished stop) { event := s, code := .user callers }
  | runNext {callers : List Caller} {e : ρ} {s : Event ρ β} (hc : m.code = .user callers)
    (h : m.event.runNext = .ok (some e, s)) :
    Step m (.ran .runNext e s.now) { event := s, code := .user (.runNext :: callers) }
  | idle {callers : List Caller} {s : Event ρ β} (hc : m.code = .user callers)
    (h : m.event.runNext = .ok (none, s)) : Step m .idle { m with event := s }
  | returnTill {callers : List Caller} {stop : Int} (hc : m.code = .user (.runTill stop :: callers)) :
    Step m .returned { m with code := .loop stop callers }
  | returnNext {callers : List Caller} (hc : m.code = .user (.runNext :: callers)) :
    Step m .returned { m with code := .user callers }
  | escape {callers : List Caller} {c : Caller} (hc : m.code = .user (c :: callers)) :
    Step m .escaped { m with code := .user callers }

/-- The states that can be reached, and what was seen on the way. -/
inductive Reach (callback : ρ → β) : List (Label ρ) → Machine ρ β → Prop
  | start : Reach callback [] { event := Event.new callback, code := .user [] }
  | step {seen : List (Label ρ)} {m m' : Machine ρ β} {l : Label ρ} (h : Reach callback seen m) (hs : Step m l m') :
    Reach callback (seen ++ [l]) m'

/-- The step schedules the event anew, cancels it or runs it. -/
def Label.Touches (e : ρ) : Label ρ → Prop
  | .scheduled e' _ => e' = e
  | .cancelled e' => e' = e
  | .ran _ e' _ => e' = e
  | _ => False

/-- The time of a run of a callback. -/
def Label.ranAt : Label ρ → Option Int
  | .ran _ _ t => some t
  | _ => none

end BubbleStorm.System
