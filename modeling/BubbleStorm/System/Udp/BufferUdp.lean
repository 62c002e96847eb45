/-
  BubbleStorm.System.Udp.BufferUdp — the socket that sends no faster than its rate
  (`src/system/udp/buffer-udp.fun`).

  One event stands for all that is to be sent. It is scheduled when the socket becomes
  ready, and runs a loop: a packet is asked for, sent, and paid for with a delay; when the
  delay is not over yet, the event is scheduled for its end. The handlers in between may
  do with the socket what they like.

  While the loop is not running the event is scheduled exactly if the socket is ready,
  unless the end of a packet's delay was no time (`Timed`): a rate of zero raises in the
  middle of the loop, and nothing is left to go on with (`rate_zero_stalls`). At a constant
  rate what is sent in an interval is what the rate and the burst allow, and one packet
  (`awake_limited`).

  Numbers are exact. A delay, or the end of one, that does not fit in a time (`fits`)
  raises, and the packet is out by then. The clock is not within `waitGap` of the last
  time.
-/

import Mathlib.Algebra.Order.Field.Basic
import Mathlib.Tactic.Linarith
import Mathlib.Tactic.Positivity
import Mathlib.Tactic.Ring
import Mathlib.Data.List.Induction

namespace BubbleStorm.System.Udp.BufferUdp

/-! ## The socket -/

inductive Rate (K : Type) where
  | posInf
  | real (r : K)
  deriving DecidableEq, Repr

structure Limit (K : Type) where
  rate : Rate K
  burst : K
  deriving DecidableEq, Repr

/-- Where the callback of the event is; `idle` when it is not running. -/
inductive Phase where
  | idle
  /-- At the head of `sendLoop`. -/
  | loop
  /-- In the transmission handler. -/
  | handler
  /-- A packet of `len` bytes is being sent, after so many attempts. -/
  | sending (len attempts : Nat)
  /-- In `ok`. -/
  | done
  deriving DecidableEq, Repr

/-- `send` is the time the event is scheduled for. `sent` are the packets that went out,
with their headers, and when. -/
structure T (K : Type) where
  send : Option K
  ready : Bool
  limit : Limit K
  whenReady : K
  now : K
  phase : Phase
  sent : List (K × K)
  deriving DecidableEq, Repr

variable {K : Type} [Field K] [LinearOrder K] (fits : K → Bool)

def new : T K := ⟨none, false, ⟨.posInf, 0⟩, 0, 0, .idle, []⟩

def waitGap : K := 5 / 1000000000

/-- The event is never scheduled for the past: the clock runs ahead of it only here. -/
def schedule (this : T K) : T K := { this with send := some (max this.whenReady (this.now + waitGap)) }

def ready (this : T K) (x : Bool) : T K :=
  let last := this.ready
  let this := { this with ready := x }
  if x = last then this
  else
    match x, this.send with
    | false, none => this
    | false, some _ => { this with send := none }
    | true, none => schedule this
    | true, some _ => this

def setRate (this : T K) (newRate : Option (Limit K)) : T K :=
  let this := { this with limit := newRate.getD ⟨.posInf, 0⟩ }
  if this.ready then schedule this else this

/-- IP and UDP. -/
def headerLen : Nat := 28

/-- No number is infinite: nothing is left of the delay at an infinite rate, and without a
rate it is no time. -/
def delay (rate : Rate K) (len : Nat) : Option K :=
  match rate with
  | .posInf => some 0
  | .real r =>
    if r = 0 then none
    else if fits ((headerLen + len : Nat) / r) then some ((headerLen + len : Nat) / r)
    else none

/-- `sendLoop` up to the transmission handler. -/
def sendLoop (this : T K) : T K :=
  if !this.ready then { this with phase := .idle }
  else if this.now < this.whenReady then { schedule this with phase := .idle }
  else { this with phase := .handler }

/-- When the delay of a packet is over. -/
def nextReady (this : T K) (len : Nat) : Option K :=
  match delay fits this.limit.rate len with
  | none => none
  | some delay =>
    let cutoff := this.now - this.limit.burst
    let nextReady := max this.whenReady cutoff + delay
    if fits cutoff && fits nextReady then some nextReady else none

/-- The packet went out. -/
def record (this : T K) (len : Nat) : T K := { this with sent := this.sent ++ [(this.now, ((headerLen + len : Nat) : K))] }

/-- What is done after a packet was sent, or was not, up to `ok`. An exception leaves the
callback. -/
def account (this : T K) (len : Nat) (status : Bool) : T K :=
  let this := if status then record this len else this
  match nextReady fits this len with
  | none => { this with phase := .idle }
  | some nextReady => { this with whenReady := if status then nextReady else this.whenReady, phase := .done }

/-! ## Runs -/

inductive Event (K : Type) where
  | ready (x : Bool)
  | setRate (newRate : Option (Limit K))
  /-- Other events run, up to a time. -/
  | tick (time : K)
  /-- The time of the event has come. -/
  | fire
  /-- The loop goes on at its head. -/
  | loop
  /-- The transmission handler returns a packet. -/
  | transmit (len : Nat)
  /-- The socket sends the packet, or does not. -/
  | send (status : Bool)
  /-- The socket raises; the exception handler returns. -/
  | raised
  /-- `ok` returns. -/
  | ok
  deriving DecidableEq, Repr

/-- The code of the application runs at any time but inside of the loop itself. -/
def step (this : T K) : Event K → T K
  | .ready x => if this.phase = .loop then this else ready this x
  | .setRate newRate => if this.phase = .loop then this else setRate this newRate
  | .tick time =>
    if this.phase = .idle ∧ this.now ≤ time ∧ ∀ w ∈ this.send, time ≤ w then { this with now := time } else this
  | .fire =>
    match this.phase, this.send with
    | .idle, some w => { this with now := w, send := none, phase := .loop }
    | _, _ => this
  | .loop => if this.phase = .loop then sendLoop this else this
  | .transmit len => if this.phase = .handler then { this with phase := .sending len 0 } else this
  | .send status =>
    match this.phase with
    | .sending len _ => account fits this len status
    | _ => this
  | .raised =>
    match this.phase with
    | .sending len attempts => if attempts + 1 = 5 then account fits this len true else { this with phase := .sending len (attempts + 1) }
    | _ => this
  | .ok => if this.phase = .done then { this with phase := .loop } else this

def run (this : T K) (events : List (Event K)) : T K := events.foldl (step fits) this

/-- While the loop is not running the event is scheduled exactly if the socket is ready. -/
def Awake (this : T K) : Prop := this.phase = .idle → (this.send.isSome = true ↔ this.ready = true)

/-- The delay of a packet that is accounted for, and its end, are times. -/
def Timed (this : T K) : Event K → Prop
  | .send _ => ∀ len attempts, this.phase = .sending len attempts → nextReady fits this len ≠ none
  | .raised => ∀ len, this.phase = .sending len 4 → nextReady fits this len ≠ none
  | _ => True

/-! ## Wake-ups -/

/-- In the loop a socket that is not ready has nothing scheduled either. -/
structure Inv (this : T K) : Prop where
  awake : Awake this
  scheduled : this.send.isSome = true → this.ready = true
  later : ∀ w ∈ this.send, this.now ≤ w

theorem waitGap_nonneg [IsStrictOrderedRing K] : (0 : K) ≤ waitGap := by
  unfold waitGap
  positivity

variable {fits} {this : T K}

section Awake

variable [IsStrictOrderedRing K]

theorem schedule_later (this : T K) : ∀ w ∈ (schedule this).send, this.now ≤ w := by
  intro w mem
  cases mem
  exact le_max_of_le_right (le_add_of_nonneg_right waitGap_nonneg)

theorem Inv.ready (inv : Inv this) (x : Bool) : Inv (ready this x) := by
  unfold BufferUdp.ready
  by_cases same : x = this.ready
  · simp only [same, if_true]
    exact inv
  · simp only [same, if_false]
    cases x with
    | false =>
      cases here : this.send with
      | none => exact ⟨fun _ => by simp, by simp, by simp⟩
      | some w => exact ⟨fun _ => by simp, by simp, by simp⟩
    | true =>
      cases here : this.send with
      | none => exact ⟨fun _ => by simp [schedule], fun _ => rfl, schedule_later { this with ready := true }⟩
      | some w =>
        have := inv.scheduled (by rw [here]; rfl)
        exact absurd this.symm same

theorem Inv.setRate (inv : Inv this) (newRate : Option (Limit K)) : Inv (setRate this newRate) := by
  unfold BufferUdp.setRate
  dsimp only
  split
  · rename_i on
    exact ⟨fun _ => ⟨fun _ => on, fun _ => rfl⟩, fun _ => on, schedule_later { this with limit := newRate.getD ⟨.posInf, 0⟩ }⟩
  · exact ⟨inv.awake, inv.scheduled, inv.later⟩

omit [Field K] [IsStrictOrderedRing K] in
/-- In the callback nothing is promised of a socket that is ready. -/
theorem Inv.busy (scheduled : this.send.isSome = true → this.ready = true) (later : ∀ w ∈ this.send, this.now ≤ w)
    (running : this.phase ≠ .idle) : Inv this :=
  ⟨fun idle => absurd idle running, scheduled, later⟩

theorem Inv.sendLoop (inv : Inv this) : Inv (sendLoop this) := by
  unfold BufferUdp.sendLoop
  split
  · rename_i off
    rw [Bool.not_eq_true'] at off
    refine ⟨fun _ => ⟨inv.scheduled, fun on => ?_⟩, inv.scheduled, inv.later⟩
    rw [show this.ready = true from on] at off
    cases off
  · rename_i on
    rw [Bool.not_eq_true', Bool.not_eq_false] at on
    split
    · exact ⟨fun _ => ⟨fun _ => on, fun _ => rfl⟩, fun _ => on, schedule_later this⟩
    · exact .busy inv.scheduled inv.later (by simp)

omit [IsStrictOrderedRing K] in
/-- Where the packet is recorded, and where it is not, the delay is the same. -/
theorem account_eq {len : Nat} {w : K} (here : nextReady fits this len = some w) (status : Bool) :
    account fits this len status = { this with
      whenReady := if status then w else this.whenReady
      phase := .done
      sent := if status then this.sent ++ [(this.now, ((headerLen + len : Nat) : K))] else this.sent } := by
  have recorded : nextReady fits (record this len) len = some w := here
  unfold account
  cases status with
  | false =>
    dsimp only
    rw [if_neg Bool.false_ne_true, here]
    rfl
  | true =>
    dsimp only
    rw [if_pos rfl, recorded]
    rfl

omit [IsStrictOrderedRing K] in
theorem Inv.account (inv : Inv this) {len : Nat} {status : Bool} (timed : nextReady fits this len ≠ none) :
    Inv (account fits this len status) := by
  obtain ⟨w, here⟩ := Option.ne_none_iff_exists'.mp timed
  rw [account_eq here]
  exact .busy inv.scheduled inv.later (by simp)

theorem Inv.step (inv : Inv this) (e : Event K) (timed : Timed fits this e) : Inv (step fits this e) := by
  cases e with
  | ready x =>
    simp only [BufferUdp.step]
    split
    · exact inv
    · exact inv.ready x
  | setRate newRate =>
    simp only [BufferUdp.step]
    split
    · exact inv
    · exact inv.setRate newRate
  | tick time =>
    simp only [BufferUdp.step]
    split
    · rename_i h
      exact ⟨inv.awake, inv.scheduled, h.2.2⟩
    · exact inv
  | fire =>
    simp only [BufferUdp.step]
    split
    · exact .busy nofun nofun (by simp)
    · exact inv
  | loop =>
    simp only [BufferUdp.step]
    split
    · exact inv.sendLoop
    · exact inv
  | transmit len =>
    simp only [BufferUdp.step]
    split
    · exact .busy inv.scheduled inv.later (by simp)
    · exact inv
  | send status =>
    simp only [BufferUdp.step]
    split
    · rename_i here
      exact inv.account (timed _ _ here)
    · exact inv
  | raised =>
    simp only [BufferUdp.step]
    split
    · rename_i len attempts here
      split
      · rename_i last
        have : attempts = 4 := by omega
        subst this
        exact inv.account (timed _ here)
      · exact .busy inv.scheduled inv.later (by simp)
    · exact inv
  | ok =>
    simp only [BufferUdp.step]
    split
    · exact .busy inv.scheduled inv.later (by simp)
    · exact inv

omit [IsStrictOrderedRing K] in
theorem run_snoc (this : T K) (events : List (Event K)) (e : Event K) :
    run fits this (events ++ [e]) = BufferUdp.step fits (run fits this events) e := by
  simp [run]

omit [IsStrictOrderedRing K] in
theorem inv_new : Inv (new : T K) := ⟨fun _ => by simp [new], nofun, nofun⟩

omit [IsStrictOrderedRing K] in
theorem timed_snoc {events : List (Event K)} {e : Event K}
    (timed : ∀ k e', (events ++ [e])[k]? = some e' → Timed fits (run fits this ((events ++ [e]).take k)) e') :
    (∀ k e', events[k]? = some e' → Timed fits (run fits this (events.take k)) e') ∧ Timed fits (run fits this events) e := by
  constructor
  · intro k e' here
    have lt := (List.getElem?_eq_some_iff.mp here).1
    have := timed k e' (by rw [List.getElem?_append_left lt]; exact here)
    rw [List.take_append_of_le_length lt.le] at this
    exact this
  · have := timed events.length e (by simp)
    rw [List.take_left] at this
    exact this

theorem inv_run (events : List (Event K)) (timed : ∀ k e, events[k]? = some e → Timed fits (run fits new (events.take k)) e) :
    Inv (run fits new events) := by
  induction events using List.reverseRecOn with
  | nil => exact inv_new
  | append_singleton events e ih =>
    obtain ⟨before, last⟩ := timed_snoc timed
    rw [run_snoc]
    exact (ih before).step e last

end Awake

/-! ## The rate -/

def bytes (l : List (K × K)) : K := (l.map Prod.snd).sum

/-- What was sent in an interval. -/
def within (l : List (K × K)) (s t : K) : List (K × K) := l.filter fun p => decide (s ≤ p.1 ∧ p.1 ≤ t)

/-- In any interval it is no more than the rate and the burst allow, and one packet. -/
def Limited (l : List (K × K)) (r b : K) : Prop :=
  ∀ s t, s ≤ t → within l s t = [] ∨ ∃ p ∈ within l s t, bytes (within l s t) ≤ r * (t - s + b) + p.2

/-- What the clock does not run ahead of, at any rate. -/
structure Clock (this : T K) : Prop where
  later : ∀ w ∈ this.send, this.now ≤ w
  /-- A packet is asked for when the delay is over. -/
  elapsed : this.phase = .handler ∨ (∃ len attempts, this.phase = .sending len attempts) → this.whenReady ≤ this.now

/-- The packets sent since the rate was set are `l`. -/
structure Paid (this : T K) (r b : K) (l : List (K × K)) : Prop where
  limit : this.limit = ⟨.real r, b⟩
  past : ∀ p ∈ l, p.1 ≤ this.now
  /-- What was sent from a time on has been paid for up to `whenReady`. -/
  paid : ∀ s, (∃ p ∈ l, s ≤ p.1) → bytes (l.filter fun p => decide (s ≤ p.1)) ≤ r * (this.whenReady - s + b)
  limited : Limited l r b

section Paid

variable [IsStrictOrderedRing K]

omit [LinearOrder K] [IsStrictOrderedRing K] in
theorem bytes_append (l l' : List (K × K)) : bytes (l ++ l') = bytes l + bytes l' := by
  simp [bytes]

omit [LinearOrder K] [IsStrictOrderedRing K] in
theorem bytes_single (p : K × K) : bytes [p] = p.2 := by
  simp [bytes]

/-- What was sent from a time on, that nothing was sent from, or something. -/
theorem Paid.upto {r b : K} {l : List (K × K)} (paid : Paid this r b l) (positive : 0 < r) {s w : K} (some : this.whenReady ≤ w)
    (none : s ≤ w + b) : bytes (l.filter fun p => decide (s ≤ p.1)) ≤ r * (w - s + b) := by
  by_cases any : ∃ p ∈ l, s ≤ p.1
  · refine (paid.paid s any).trans (mul_le_mul_of_nonneg_left ?_ positive.le)
    linarith
  · have empty : (l.filter fun p => decide (s ≤ p.1)) = [] := by
      rw [List.filter_eq_nil_iff]
      intro p mem
      rw [decide_eq_true_eq]
      exact fun le => any ⟨p, mem, le⟩
    rw [empty]
    exact mul_nonneg positive.le (by linarith)

/-- One more packet, at a time when the delay is over. -/
theorem Paid.snoc {r b : K} {l : List (K × K)} (paid : Paid this r b l) (positive : 0 < r) (burst : 0 ≤ b)
    (elapsed : this.whenReady ≤ this.now) (size : K) (phase : Phase) (sent : List (K × K)) :
    Paid { this with whenReady := max this.whenReady (this.now - b) + size / r, phase := phase, sent := sent } r b
      (l ++ [(this.now, size)]) where
  limit := paid.limit
  past := by
    intro p mem
    rcases List.mem_append.mp mem with mem | mem
    · exact paid.past p mem
    · rw [List.mem_singleton.mp mem]
  paid := by
    intro s ⟨p, mem, le⟩
    have before : s ≤ this.now := by
      rcases List.mem_append.mp mem with mem | mem
      · exact le.trans (paid.past p mem)
      · rw [List.mem_singleton.mp mem] at le
        exact le
    have old : bytes (l.filter fun p => decide (s ≤ p.1)) ≤ r * (max this.whenReady (this.now - b) - s + b) :=
      paid.upto positive (le_max_left _ _) (by linarith [le_max_right this.whenReady (this.now - b)])
    have cost : size = r * (size / r) := by rw [mul_comm, div_mul_cancel₀ size positive.ne']
    rw [List.filter_append, List.filter_cons_of_pos (by simpa using before), List.filter_nil, bytes_append, bytes_single]
    calc bytes (l.filter fun p => decide (s ≤ p.1)) + size
        ≤ r * (max this.whenReady (this.now - b) - s + b) + r * (size / r) := add_le_add old cost.le
      _ = r * (max this.whenReady (this.now - b) + size / r - s + b) := by ring
  limited := by
    intro s t le
    by_cases inside : s ≤ this.now ∧ this.now ≤ t
    · refine .inr ⟨(this.now, size), ?_, ?_⟩
      · rw [within, List.mem_filter]
        exact ⟨List.mem_append_right _ (List.mem_singleton_self _), by simpa using inside⟩
      · have same : within l s t = l.filter fun p => decide (s ≤ p.1) := by
          refine List.filter_congr fun p mem => ?_
          have := (paid.past p mem).trans inside.2
          simp [this]
        have old : bytes (within l s t) ≤ r * (t - s + b) := by
          rw [same]
          exact paid.upto positive (elapsed.trans inside.2) (by linarith)
        rw [within, List.filter_append, List.filter_cons_of_pos (by simpa using inside), List.filter_nil, bytes_append,
          bytes_single]
        exact add_le_add_left old size
    · have same : within (l ++ [(this.now, size)]) s t = within l s t := by
        rw [within, List.filter_append, List.filter_cons_of_neg (by simpa using inside), List.filter_nil, List.append_nil]
        rfl
      rw [same]
      exact paid.limited s t le

omit [IsStrictOrderedRing K] in
/-- A step that sends nothing and keeps the rate. -/
theorem Paid.keep {r b : K} {l : List (K × K)} (paid : Paid this r b l) {this' : T K} (limit : this'.limit = this.limit)
    (clock : this.now ≤ this'.now) (same : this'.whenReady = this.whenReady) : Paid this' r b l :=
  ⟨limit.trans paid.limit, fun p mem => (paid.past p mem).trans clock, fun s any => same ▸ paid.paid s any, paid.limited⟩

/-! ### One step -/

theorem ready_clock (x : Bool) (clock : Clock this) : Clock (ready this x) ∧ (ready this x).limit = this.limit ∧
    (ready this x).now = this.now ∧ (ready this x).whenReady = this.whenReady ∧ (ready this x).sent = this.sent := by
  unfold ready
  dsimp only
  split
  · exact ⟨⟨clock.later, clock.elapsed⟩, rfl, rfl, rfl, rfl⟩
  · split
    · exact ⟨⟨clock.later, clock.elapsed⟩, rfl, rfl, rfl, rfl⟩
    · exact ⟨⟨nofun, clock.elapsed⟩, rfl, rfl, rfl, rfl⟩
    · exact ⟨⟨schedule_later { this with ready := true }, clock.elapsed⟩, rfl, rfl, rfl, rfl⟩
    · exact ⟨⟨clock.later, clock.elapsed⟩, rfl, rfl, rfl, rfl⟩

theorem setRate_clock (newRate : Option (Limit K)) (clock : Clock this) : Clock (setRate this newRate) ∧
    (setRate this newRate).limit = newRate.getD ⟨.posInf, 0⟩ ∧ (setRate this newRate).now = this.now ∧
    (setRate this newRate).whenReady = this.whenReady ∧ (setRate this newRate).sent = this.sent := by
  unfold setRate
  dsimp only
  split
  · exact ⟨⟨schedule_later { this with limit := newRate.getD ⟨.posInf, 0⟩ }, clock.elapsed⟩, rfl, rfl, rfl, rfl⟩
  · exact ⟨⟨clock.later, clock.elapsed⟩, rfl, rfl, rfl, rfl⟩

/-- What a step does to the clock, the rate and the packets. -/
inductive Turn (fits : K → Bool) (this : T K) (e : Event K) (this' : T K) : Prop
  | keep (limit : this'.limit = this.limit) (now : this.now ≤ this'.now) (whenReady : this'.whenReady = this.whenReady)
    (sent : this'.sent = this.sent)
  | setRate (newRate : Option (Limit K)) (event : e = .setRate newRate) (limit : this'.limit = newRate.getD ⟨.posInf, 0⟩)
    (now : this'.now = this.now) (whenReady : this'.whenReady = this.whenReady) (sent : this'.sent = this.sent)
  | send (len : Nat) (d : K) (elapsed : this.whenReady ≤ this.now) (paid : delay fits this.limit.rate len = some d)
    (next : this' = { this with
      whenReady := max this.whenReady (this.now - this.limit.burst) + d
      phase := .done
      sent := this.sent ++ [(this.now, ((headerLen + len : Nat) : K))] })

omit [IsStrictOrderedRing K] in
theorem nextReady_some {len : Nat} {w : K} (here : nextReady fits this len = some w) :
    ∃ d, delay fits this.limit.rate len = some d ∧ w = max this.whenReady (this.now - this.limit.burst) + d := by
  unfold nextReady at here
  cases cost : delay fits this.limit.rate len with
  | none =>
    rw [cost] at here
    cases here
  | some d =>
    rw [cost] at here
    dsimp only at here
    split at here
    · exact ⟨d, rfl, (Option.some.inj here).symm⟩
    · cases here

omit [IsStrictOrderedRing K] in
theorem account_clock (clock : Clock this) (len : Nat) (status : Bool) : Clock (account fits this len status) := by
  cases here : nextReady fits this len with
  | some w =>
    rw [account_eq here]
    exact ⟨clock.later, by simp⟩
  | none =>
    have recorded : nextReady fits (record this len) len = none := here
    unfold account
    cases status with
    | false =>
      dsimp only
      rw [if_neg Bool.false_ne_true, here]
      exact ⟨clock.later, by simp⟩
    | true =>
      dsimp only
      rw [if_pos rfl, recorded]
      exact ⟨clock.later, by simp⟩

omit [IsStrictOrderedRing K] in
theorem account_turn (e : Event K) (elapsed : this.whenReady ≤ this.now) {len : Nat} (status : Bool)
    (timed : nextReady fits this len ≠ none) : Turn fits this e (account fits this len status) := by
  obtain ⟨w, here⟩ := Option.ne_none_iff_exists'.mp timed
  rw [account_eq here]
  cases status with
  | false => exact .keep rfl (le_refl _) rfl rfl
  | true =>
    obtain ⟨d, paid, rfl⟩ := nextReady_some here
    exact .send len d elapsed paid rfl

theorem step_turn (clock : Clock this) (e : Event K) :
    Clock (step fits this e) ∧ (Timed fits this e → Turn fits this e (step fits this e)) := by
  have same : Clock this ∧ (Timed fits this e → Turn fits this e this) := ⟨clock, fun _ => .keep rfl (le_refl _) rfl rfl⟩
  cases e with
  | ready x =>
    simp only [step]
    split
    · exact same
    · obtain ⟨clock', limit, now, whenReady, sent⟩ := ready_clock x clock
      exact ⟨clock', fun _ => .keep limit now.ge whenReady sent⟩
  | setRate newRate =>
    simp only [step]
    split
    · exact same
    · obtain ⟨clock', limit, now, whenReady, sent⟩ := setRate_clock newRate clock
      exact ⟨clock', fun _ => .setRate newRate rfl limit now whenReady sent⟩
  | tick time =>
    simp only [step]
    split
    · rename_i h
      refine ⟨⟨h.2.2, ?_⟩, fun _ => .keep rfl h.2.1 rfl rfl⟩
      rintro (handler | ⟨len, attempts, sending⟩)
      · rw [h.1] at handler
        cases handler
      · rw [h.1] at sending
        cases sending
    · exact same
  | fire =>
    simp only [step]
    split
    · rename_i w _ here
      exact ⟨⟨nofun, by simp⟩, fun _ => .keep rfl (clock.later w here) rfl rfl⟩
    · exact same
  | loop =>
    simp only [step]
    split
    · unfold sendLoop
      split
      · exact ⟨⟨clock.later, by simp⟩, fun _ => .keep rfl (le_refl _) rfl rfl⟩
      · split
        · exact ⟨⟨schedule_later this, by simp⟩, fun _ => .keep rfl (le_refl _) rfl rfl⟩
        · rename_i elapsed
          exact ⟨⟨clock.later, fun _ => not_lt.mp elapsed⟩, fun _ => .keep rfl (le_refl _) rfl rfl⟩
    · exact same
  | transmit len =>
    simp only [step]
    split
    · rename_i handler
      exact ⟨⟨clock.later, fun _ => clock.elapsed (.inl handler)⟩, fun _ => .keep rfl (le_refl _) rfl rfl⟩
    · exact same
  | send status =>
    simp only [step]
    split
    · rename_i len attempts here
      exact ⟨account_clock clock len status,
        fun timed => account_turn _ (clock.elapsed (.inr ⟨len, attempts, here⟩)) status (timed len attempts here)⟩
    · exact same
  | raised =>
    simp only [step]
    split
    · rename_i len attempts here
      have elapsed := clock.elapsed (.inr ⟨len, attempts, here⟩)
      split
      · rename_i last
        have fifth : attempts = 4 := by omega
        exact ⟨account_clock clock len true, fun timed => account_turn _ elapsed true (timed len (fifth ▸ here))⟩
      · exact ⟨⟨clock.later, fun _ => elapsed⟩, fun _ => .keep rfl (le_refl _) rfl rfl⟩
    · exact same
  | ok =>
    simp only [step]
    split
    · exact ⟨⟨clock.later, by simp⟩, fun _ => .keep rfl (le_refl _) rfl rfl⟩
    · exact same

theorem clock_run (events : List (Event K)) : Clock (run fits new events) := by
  induction events using List.reverseRecOn with
  | nil => exact ⟨nofun, by simp [run, new]⟩
  | append_singleton events e ih =>
    rw [run_snoc]
    exact (step_turn ih e).1

/-- At a constant rate. -/
theorem paid_run {r b : K} (positive : 0 < r) (burst : 0 ≤ b) (clock : Clock this) (limit : this.limit = ⟨.real r, b⟩)
    (events : List (Event K)) (constant : ∀ newRate, .setRate newRate ∈ events → newRate = some ⟨.real r, b⟩)
    (timed : ∀ k e, events[k]? = some e → Timed fits (run fits this (events.take k)) e) :
    Clock (run fits this events) ∧ ∃ l, (run fits this events).sent = this.sent ++ l ∧ Paid (run fits this events) r b l := by
  induction events using List.reverseRecOn with
  | nil =>
    refine ⟨clock, [], (List.append_nil _).symm, limit, nofun, ?_, fun s t _ => .inl rfl⟩
    intro s ⟨p, mem, _⟩
    cases mem
  | append_singleton events e ih =>
    obtain ⟨before, last⟩ := timed_snoc timed
    obtain ⟨clock', l, sent, paid⟩ := ih (fun newRate mem => constant newRate (List.mem_append_left _ mem)) before
    rw [run_snoc]
    obtain ⟨clock'', turn⟩ := @step_turn _ _ _ fits _ _ clock' e
    refine ⟨clock'', ?_⟩
    cases turn last with
    | keep limit now whenReady sent' => exact ⟨l, sent'.trans sent, paid.keep limit now whenReady⟩
    | setRate newRate event limit now whenReady sent' =>
      have := constant newRate (event ▸ List.mem_append_right _ (List.mem_singleton_self _))
      rw [this] at limit
      exact ⟨l, sent'.trans sent, paid.keep (limit.trans paid.limit.symm) now.ge whenReady⟩
    | send len d elapsed cost next =>
      have rate : d = ((headerLen + len : Nat) : K) / r := by
        rw [paid.limit] at cost
        simp only [delay, if_neg positive.ne'] at cost
        split at cost
        · exact (Option.some.inj cost).symm
        · cases cost
      rw [next]
      refine ⟨l ++ [((run fits this events).now, ((headerLen + len : Nat) : K))], ?_, ?_⟩
      · show (run fits this events).sent ++ _ = _
        rw [sent, List.append_assoc]
      · rw [rate, show (run fits this events).limit.burst = b by rw [paid.limit]]
        exact paid.snoc positive burst elapsed _ _ _

/-- In every run in which the delays of the packets and their ends are times: while the loop
is not running the event is scheduled exactly if the socket is ready, and what is sent at a
constant rate stays within it. -/
theorem awake_limited (fits : K → Bool) (events : List (Event K))
    (timed : ∀ k e, events[k]? = some e → Timed fits (run fits new (events.take k)) e) :
    Awake (run fits new events) ∧
      ∀ (r b : K) (before after : List (Event K)), 0 < r → 0 ≤ b → events = before ++ after →
        (run fits new before).limit = ⟨.real r, b⟩ → (∀ newRate, .setRate newRate ∈ after → newRate = some ⟨.real r, b⟩) →
          ∃ l, (run fits new events).sent = (run fits new before).sent ++ l ∧ Limited l r b := by
  refine ⟨(inv_run events timed).awake, ?_⟩
  rintro r b before after positive burst rfl limit constant
  have whole : ∀ rest, run fits new (before ++ rest) = run fits (run fits new before) rest := by
    intro rest
    simp [run]
  obtain ⟨-, l, sent, paid⟩ := @paid_run _ _ _ fits _ _ _ _ positive burst (clock_run before) limit after constant (by
    intro k e here
    have := timed (before.length + k) e (by rw [List.getElem?_append_right (Nat.le_add_right ..), Nat.add_sub_cancel_left]; exact here)
    rw [List.take_length_add_append, whole] at this
    exact this)
  refine ⟨l, ?_, paid.limited⟩
  rw [← sent, whole]

end Paid

/-- One packet of a hundred bytes, at a hundred bytes a second. -/
def onePacket : List (Event Rat) :=
  [.setRate (some ⟨.real 100, 1⟩), .ready true, .fire, .loop, .transmit 72, .send true, .ok, .loop]

theorem awake_limited_packet : Awake (run (fun _ => true) new onePacket) ∧
    ∃ l, (run (fun _ => true) new onePacket).sent = [] ++ l ∧ Limited l 100 1 := by
  have timed : ∀ k e, onePacket[k]? = some e → Timed (fun _ => true) (run (fun _ => true) new (onePacket.take k)) e := by
    intro k e here
    match k with
    | 0 | 1 | 2 | 3 | 4 | 6 | 7 =>
      cases here
      trivial
    | 5 =>
      cases here
      intro len attempts sending
      have rate : (run (fun _ => true) new (onePacket.take 5)).limit.rate = .real 100 := by decide +kernel
      unfold nextReady
      rw [rate]
      simp [delay]
    | k + 8 => cases here
  obtain ⟨awake, limited⟩ := awake_limited (fun _ => true) onePacket timed
  refine ⟨awake, limited 100 1 (onePacket.take 1) (onePacket.drop 1) (by norm_num) (by norm_num) rfl rfl ?_⟩
  intro newRate mem
  simp [onePacket] at mem

/-- At a rate of zero the first packet is the last one. -/
theorem rate_zero_stalls : ¬ ∀ events : List (Event Rat), Awake (run (fun _ => true) new events) := by
  intro all
  have awake := all [.setRate (some ⟨.real 0, 0⟩), .ready true, .fire, .loop, .transmit 72, .send true]
  exact absurd ((awake (by decide +kernel)).mpr (by decide +kernel)) (by decide +kernel)

end BubbleStorm.System.Udp.BufferUdp
