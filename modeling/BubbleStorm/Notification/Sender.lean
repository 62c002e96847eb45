/-
  BubbleStorm.Notification.Sender — the sender of a notification whose data is fetched on
  request (`sender`, mode `ON_REQUEST`).

  The association succeeds or fails; after it the conversation delivers the out stream (at
  most once), the receiver's `requestData` messages and its own timeout in any order, and
  nothing once it has been reset. `sendDataFn` belongs to the application: the model keeps
  the list of what it was called with.

  A run that ends with the conversation closed, reset or timed out meets the discipline
  (`Discipline`) exactly when no `requestData false` comes between a `requestData true` and
  the out stream, and none comes before an out stream that still arrives
  (`discipline_iff`). In the first case the conversation is reset without `sendDataFn`
  having been called, in the second the stream is dropped on the floor
  (`cancelled_stream_leaks`).
-/

import Mathlib.Data.List.Basic
import Mathlib.Tactic.Common

namespace BubbleStorm.Notification

variable {OutStream : Type}

/-! ## The machine -/

inductive StreamState (OutStream : Type)
  | init
  | requested
  | available (os : OutStream)
  | done
  | cancelled
  deriving Repr, DecidableEq

/-- What has become of the conversation with the receiver. -/
inductive Conversation
  | associating
  | failed
  | opened
  | closing
  | closed
  | reset
  deriving Repr, DecidableEq

structure Sender (OutStream : Type) where
  state : StreamState OutStream
  /-- The arguments `sendDataFn` was called with, the last one at the end. -/
  sent : List (Option OutStream)
  obtained : List OutStream
  shutdown : List OutStream
  resets : List OutStream
  conversation : Conversation
  /-- `setTimeout` is armed. -/
  timer : Bool
  deriving Repr, DecidableEq

inductive Event (OutStream : Type)
  | associationFailed
  | connected
  | gotOutstream (os : OutStream)
  | requestData (wanted : Bool)
  | timeout
  | drained
  deriving Repr, DecidableEq

/-- Before `associate` has completed. -/
def start : Sender OutStream :=
  { state := .init, sent := [], obtained := [], shutdown := [], resets := [],
    conversation := .associating, timer := false }

namespace Sender

def sendDataFn (w : Sender OutStream) (data : Option OutStream) : Sender OutStream :=
  { w with sent := w.sent ++ [data] }

/-- `Conversation.reset`: the timeout is off, and no pending callback is left. -/
def reset (w : Sender OutStream) : Sender OutStream :=
  { w with conversation := .reset, timer := false }

/-- The sender's `close`; the conversation completes it once its out streams are drained. -/
def close (w : Sender OutStream) : Sender OutStream := { w with conversation := .closing }

def gotOutstream (w : Sender OutStream) (os : OutStream) : Option (Sender OutStream) :=
  let w := { w with obtained := w.obtained ++ [os] }
  match w.state with
  | .init => some { w with state := .available os }
  | .requested => some { w.sendDataFn (some os) with state := .done }
  | .available _ => none
  | .done => none
  | .cancelled => some { w with state := .cancelled }

def requestData (w : Sender OutStream) : Bool → Sender OutStream
  | true =>
    match w.state with
    | .init => { w with state := .requested }
    | .requested => { w with state := .requested }
    | .available os => { (w.sendDataFn (some os)).close with state := .done }
    | .done => { w.reset with state := .cancelled }
    | .cancelled => { w.reset with state := .cancelled }
  | false =>
    match w.state with
    | .init => { w.sendDataFn none with state := .cancelled }
    | .requested => { w.reset with state := .cancelled }
    | .available os =>
      let w := w.sendDataFn none
      let w := { w with shutdown := w.shutdown ++ [os] }
      { w.close with state := .cancelled }
    | .done => { w.reset with state := .cancelled }
    | .cancelled => { w with state := .cancelled }

/-- The state is not written: what keeps the callback from a second call is the reset. -/
def timeout (w : Sender OutStream) : Sender OutStream :=
  match w.state with
  | .init => (w.sendDataFn none).reset
  | .requested => (w.sendDataFn none).reset
  | .available os =>
    let w := w.sendDataFn none
    { w with resets := w.resets ++ [os] }.reset
  | .done => w.reset
  | .cancelled => w.reset

/-- The conversation can still deliver something. -/
def live (w : Sender OutStream) : Bool :=
  match w.conversation with
  | .opened => true
  | .closing => true
  | .closed => true
  | _ => false

def enabled (w : Sender OutStream) : Event OutStream → Bool
  | .associationFailed => w.conversation = .associating
  | .connected => w.conversation = .associating
  | .gotOutstream _ => w.live && w.obtained.isEmpty
  | .requestData _ => w.live
  | .timeout => w.timer
  | .drained => w.conversation = .closing

/-- One event; `none` is the exception "Got OutStream twice". -/
def deliver (w : Sender OutStream) : Event OutStream → Option (Sender OutStream)
  | .associationFailed => some { w.sendDataFn none with conversation := .failed }
  | .connected => some { w with conversation := .opened, timer := true }
  | .gotOutstream os => w.gotOutstream os
  | .requestData wanted => some (w.requestData wanted)
  | .timeout => some w.timeout
  | .drained => some { w with conversation := .closed, timer := false }

/-- The conversation is closed, reset or timed out, or never came about. -/
def finished (w : Sender OutStream) : Prop :=
  w.conversation = .failed ∨ w.conversation = .closed ∨ w.conversation = .reset

def settled (w : Sender OutStream) (os : OutStream) : Prop :=
  some os ∈ w.sent ∨ os ∈ w.shutdown ∨ os ∈ w.resets

end Sender

/-- The sender `w` after the events `es`. -/
inductive Run : List (Event OutStream) → Sender OutStream → Prop
  | start : Run [] start
  | event {es w w'} (e : Event OutStream) (run : Run es w) (enabled : w.enabled e)
      (delivered : w.deliver e = some w') : Run (es ++ [e]) w'

/-- The application is called once by the end, with a stream only when the receiver asked
for one, and no stream is forgotten. -/
structure Discipline (es : List (Event OutStream)) (w : Sender OutStream) : Prop where
  once : w.sent.length ≤ 1
  asked : ∀ os, some os ∈ w.sent → Event.requestData true ∈ es
  called : w.finished → w.sent.length = 1
  settled : w.finished → ∀ os ∈ w.obtained, w.settled os

def Arrived (es : List (Event OutStream)) : Prop := ∃ os, Event.gotOutstream os ∈ es

/-- No rejection follows a request before the stream is there, and none comes before a
stream that still arrives. -/
def Calm (es : List (Event OutStream)) : Prop :=
  ∀ before after, es = before ++ Event.requestData false :: after → Arrived before ∨
    Event.requestData true ∉ before ∧ ¬ Arrived after

/-! ## How the condition grows with a run -/

theorem arrived_snoc (es : List (Event OutStream)) (e : Event OutStream) :
    Arrived (es ++ [e]) ↔ Arrived es ∨ ∃ os, e = .gotOutstream os := by
  simp [Arrived, or_comm, eq_comm, exists_or]

theorem Calm.earlier {es rest : List (Event OutStream)} (calm : Calm (es ++ rest)) : Calm es := by
  intro before after split
  have := calm before (after ++ rest) (by simp [split])
  rcases this with arrived | ⟨quiet, none⟩
  · exact .inl arrived
  · refine .inr ⟨quiet, ?_⟩
    rintro ⟨os, arrived⟩
    exact none ⟨os, List.mem_append_left rest arrived⟩

theorem calm_snoc (es : List (Event OutStream)) (e : Event OutStream) :
    Calm (es ++ [e]) ↔ Calm es ∧
      (e = .requestData false → Arrived es ∨ Event.requestData true ∉ es) ∧
      ((∃ os, e = .gotOutstream os) → Arrived es ∨ Event.requestData false ∉ es) := by
  constructor
  · intro calm
    refine ⟨calm.earlier, ?_, ?_⟩
    · rintro rfl
      rcases calm es [] rfl with arrived | ⟨quiet, -⟩
      · exact .inl arrived
      · exact .inr quiet
    · rintro ⟨os, rfl⟩
      by_contra unsettled
      push Not at unsettled
      obtain ⟨absent, rejected⟩ := unsettled
      obtain ⟨before, after, rfl⟩ := List.append_of_mem rejected
      rcases calm before (after ++ [.gotOutstream os]) (by simp) with ⟨os', arrived⟩ | ⟨-, none⟩
      · exact absent ⟨os', by simp [arrived]⟩
      · exact none ⟨os, by simp⟩
  · rintro ⟨calm, rejection, arrival⟩ before after split
    rcases List.eq_nil_or_concat after with rfl | ⟨after, last, rfl⟩
    · obtain ⟨rfl, here⟩ := List.append_inj' split rfl
      rcases rejection (by simpa using here) with arrived | quiet
      · exact .inl arrived
      · exact .inr ⟨quiet, by simp [Arrived]⟩
    · rw [List.concat_eq_append, ← List.cons_append, ← List.append_assoc] at split
      obtain ⟨earlier, here⟩ := List.append_inj' split rfl
      obtain rfl : e = last := by simpa using here
      rcases calm before after earlier with arrived | ⟨quiet, none⟩
      · exact .inl arrived
      · by_cases stream : ∃ os, e = .gotOutstream os
        · rcases arrival stream with ⟨os, arrived⟩ | never
          · -- the stream that came before this one came before the rejection too
            rw [earlier] at arrived
            refine .inl ⟨os, ?_⟩
            rcases List.mem_append.mp arrived with found | found
            · exact found
            · refine absurd ⟨os, ?_⟩ none
              simpa using found
          · exact absurd (by simp [earlier]) never
        · refine .inr ⟨quiet, ?_⟩
          rw [List.concat_eq_append, arrived_snoc]
          exact not_or.mpr ⟨none, stream⟩

/-! ## What a calm run looks like -/

namespace Sender

/-- What `sendDataFn` was called with while the state is still undecided. -/
def undecided (w : Sender OutStream) : Prop :=
  w.conversation ≠ .closing ∧ w.conversation ≠ .closed ∧
    ((w.conversation = .failed ∨ w.conversation = .reset) ∧ w.sent = [none] ∨
      (w.conversation = .associating ∨ w.conversation = .opened) ∧ w.sent = [])

/-- What a calm run has done by the time it is in the sender's state. -/
def Shape (es : List (Event OutStream)) (w : Sender OutStream) : Prop :=
  match w.state with
  | .init => w.obtained = [] ∧ (∀ wanted, Event.requestData wanted ∉ es) ∧ w.undecided
  | .requested =>
    w.obtained = [] ∧ Event.requestData true ∈ es ∧ Event.requestData false ∉ es ∧ w.undecided
  | .available os => w.obtained = [os] ∧ w.undecided ∧ (w.conversation = .reset → os ∈ w.resets) ∧
      (w.conversation = .reset ∨ w.conversation = .opened)
  | .done => ∃ os, w.obtained = [os] ∧ w.sent = [some os] ∧ Event.requestData true ∈ es
  | .cancelled =>
    (w.obtained = [] ∧ w.sent = [none] ∧ Event.requestData false ∈ es ∧
      (Event.requestData true ∈ es → w.conversation = .reset)) ∨
    ∃ os, w.obtained = [os] ∧ w.settled os ∧
      (w.sent = [none] ∨ w.sent = [some os] ∧ Event.requestData true ∈ es)

/-- The sender has lost track of the application or of a stream, for good. -/
def Lost (w : Sender OutStream) : Prop :=
  w.conversation = .reset ∧ w.sent = [] ∨
    w.state = .cancelled ∧ ∃ os ∈ w.obtained, ¬ w.settled os

end Sender

/-- What the sender's fields say of the events, calm or not. -/
structure Tracked (es : List (Event OutStream)) (w : Sender OutStream) : Prop where
  arrived : Arrived es ↔ w.obtained ≠ []
  clock : w.timer = true → w.conversation = .opened ∨ w.conversation = .closing
  fresh : w.conversation = .associating → w.state = .init
  held : ∀ os, w.state = .available os → w.obtained ≠ []
  none : w.obtained = [] → w.shutdown = [] ∧ w.resets = []

/-- What every run keeps. -/
structure Kept (es : List (Event OutStream)) (w : Sender OutStream) : Prop extends Tracked es w where
  calm : Calm es → w.Shape es
  rest : ¬ Calm es → w.Lost

theorem Sender.live.not_associating {w : Sender OutStream} (live : w.live = true) :
    w.conversation ≠ .associating := by
  intro associating
  simp [Sender.live, associating] at live

theorem Tracked.deliver {es : List (Event OutStream)} {w w' : Sender OutStream}
    {e : Event OutStream} (tracked : Tracked es w) (enabled : w.enabled e = true)
    (delivered : w.deliver e = some w') : Tracked (es ++ [e]) w' := by
  obtain ⟨arrived, clock, fresh, held, none⟩ := tracked
  have grown := arrived_snoc es e
  cases e with
  | associationFailed =>
    simp only [Sender.deliver, Option.some.injEq] at delivered
    subst delivered
    constructor <;> simp_all [Sender.sendDataFn, Sender.enabled]
  | connected =>
    simp only [Sender.deliver, Option.some.injEq] at delivered
    subst delivered
    constructor <;> simp_all
  | gotOutstream os =>
    simp only [Sender.enabled, Bool.and_eq_true, List.isEmpty_iff] at enabled
    have := Sender.live.not_associating enabled.1
    cases state : w.state <;>
      simp only [Sender.deliver, Sender.gotOutstream, state, Option.some.injEq, reduceCtorEq] at delivered <;>
      subst delivered <;> constructor <;> simp_all [Sender.sendDataFn]
  | requestData wanted =>
    simp only [Sender.deliver, Option.some.injEq] at delivered
    subst delivered
    have := Sender.live.not_associating enabled
    cases wanted <;> cases state : w.state <;> constructor <;>
      simp_all [Sender.requestData, Sender.reset, Sender.close, Sender.sendDataFn]
  | timeout =>
    simp only [Sender.deliver, Option.some.injEq] at delivered
    subst delivered
    cases state : w.state <;> constructor <;>
      simp_all [Sender.timeout, Sender.reset, Sender.sendDataFn]
  | drained =>
    simp only [Sender.deliver, Option.some.injEq] at delivered
    subst delivered
    constructor <;> simp_all

theorem kept_start : Kept [] (start : Sender OutStream) where
  arrived := by simp [Arrived, start]
  clock := by simp [start]
  fresh := by simp [start]
  held := by simp [start]
  none := by simp [start]
  calm := by simp [start, Sender.Shape, Sender.undecided]
  rest := by
    intro rough
    refine absurd ?_ rough
    intro before after split
    simp at split

/-- A sender that has lost track does nothing that would mend it. -/
theorem lost_deliver {w w' : Sender OutStream} {e : Event OutStream} (lost : w.Lost)
    (clock : w.timer = true → w.conversation = .opened ∨ w.conversation = .closing)
    (fresh : w.conversation = .associating → w.state = .init)
    (enabled : w.enabled e = true) (delivered : w.deliver e = some w') : w'.Lost := by
  rcases lost with ⟨finished, unsent⟩ | ⟨cancelled, os, obtained, unsettled⟩
  · -- nothing is delivered any more
    cases e <;> simp_all [Sender.enabled, Sender.live]
  · refine .inr ?_
    cases e with
    | associationFailed => simp_all [Sender.enabled]
    | connected => simp_all [Sender.enabled]
    | gotOutstream os' =>
      simp only [Sender.enabled, Bool.and_eq_true, List.isEmpty_iff] at enabled
      rw [enabled.2] at obtained
      cases obtained
    | requestData wanted =>
      cases wanted <;>
      · simp only [Sender.deliver, Sender.requestData, cancelled, Option.some.injEq] at delivered
        subst delivered
        exact ⟨rfl, os, obtained, unsettled⟩
    | timeout =>
      simp only [Sender.deliver, Sender.timeout, cancelled, Option.some.injEq] at delivered
      subst delivered
      exact ⟨cancelled, os, obtained, unsettled⟩
    | drained =>
      simp only [Sender.deliver, Option.some.injEq] at delivered
      subst delivered
      exact ⟨cancelled, os, obtained, unsettled⟩

/-- While a run stays calm the sender stays in shape. -/
theorem shape_deliver {es : List (Event OutStream)} {w w' : Sender OutStream}
    {e : Event OutStream} (kept : Kept es w) (shape : w.Shape es)
    (enabled : w.enabled e = true) (delivered : w.deliver e = some w')
    (rejection : e = .requestData false → Arrived es ∨ Event.requestData true ∉ es)
    (arrival : (∃ os, e = .gotOutstream os) → Arrived es ∨ Event.requestData false ∉ es) :
    w'.Shape (es ++ [e]) := by
  obtain ⟨⟨arrived, clock, fresh, -, -⟩, -, -⟩ := kept
  cases e with
  | associationFailed =>
    simp only [Sender.enabled, decide_eq_true_eq] at enabled
    have init := fresh enabled
    simp only [Sender.deliver, Option.some.injEq] at delivered
    subst delivered
    simp_all [Sender.Shape, Sender.undecided, Sender.sendDataFn]
  | connected =>
    simp only [Sender.enabled, decide_eq_true_eq] at enabled
    have init := fresh enabled
    simp only [Sender.deliver, Option.some.injEq] at delivered
    subst delivered
    simp_all [Sender.Shape, Sender.undecided]
  | gotOutstream os =>
    simp only [Sender.enabled, Bool.and_eq_true, List.isEmpty_iff] at enabled
    obtain ⟨live, none⟩ := enabled
    have quiet : Event.requestData false ∉ es := by
      rcases arrival ⟨os, rfl⟩ with found | quiet
      · exact absurd none (arrived.mp found)
      · exact quiet
    simp only [Sender.deliver, Sender.gotOutstream] at delivered
    cases state : w.state with
    | init =>
      simp only [state, Option.some.injEq] at delivered
      subst delivered
      cases at_ : w.conversation <;>
        simp_all [Sender.Shape, Sender.undecided, Sender.live]
    | requested =>
      simp only [state, Option.some.injEq] at delivered
      subst delivered
      cases at_ : w.conversation <;>
        simp_all [Sender.Shape, Sender.undecided, Sender.live, Sender.sendDataFn]
    | available os' => simp [state] at delivered
    | done => simp [state] at delivered
    | cancelled =>
      rcases (by simpa [Sender.Shape, state] using shape) with ⟨-, -, rejected, -⟩ | ⟨os', other, -⟩
      · exact absurd rejected quiet
      · simp [other] at none
  | requestData wanted =>
    simp only [Sender.enabled] at enabled
    simp only [Sender.deliver, Option.some.injEq] at delivered
    subst delivered
    cases state : w.state with
    | init =>
      cases at_ : w.conversation <;> cases wanted <;>
        simp_all [Sender.Shape, Sender.undecided, Sender.live, Sender.requestData, Sender.sendDataFn]
    | requested =>
      cases wanted with
      | true => simp_all [Sender.Shape, Sender.undecided, Sender.requestData]
      | false => simp_all [Sender.Shape]
    | available os =>
      cases at_ : w.conversation <;> cases wanted <;>
        simp_all [Sender.Shape, Sender.undecided, Sender.live, Sender.requestData, Sender.sendDataFn,
          Sender.close, Sender.settled]
    | done =>
      obtain ⟨os, one, sent, asked⟩ : ∃ os, w.obtained = [os] ∧ w.sent = [some os] ∧
        Event.requestData true ∈ es := by simpa [Sender.Shape, state] using shape
      cases wanted <;>
        simp_all [Sender.Shape, Sender.requestData, Sender.reset, Sender.settled]
    | cancelled =>
      cases wanted <;> simp_all [Sender.Shape, Sender.requestData, Sender.reset, Sender.settled] <;>
        grind
  | timeout =>
    simp only [Sender.enabled] at enabled
    simp only [Sender.deliver, Option.some.injEq] at delivered
    subst delivered
    have ticking := clock enabled
    cases state : w.state <;>
      simp_all [Sender.Shape, Sender.undecided, Sender.timeout, Sender.reset, Sender.sendDataFn,
        Sender.settled]; grind
  | drained =>
    simp only [Sender.enabled, decide_eq_true_eq] at enabled
    simp only [Sender.deliver, Option.some.injEq] at delivered
    subst delivered
    cases state : w.state <;> simp_all [Sender.Shape, Sender.undecided, Sender.settled]

/-- What a run does that stops being calm: it rejects a request, or takes a stream nobody
wants any more. -/
theorem lost_of_rough {es : List (Event OutStream)} {w w' : Sender OutStream}
    {e : Event OutStream} (kept : Kept es w) (before : Calm es) (rough : ¬ Calm (es ++ [e]))
    (enabled : w.enabled e = true) (delivered : w.deliver e = some w') : w'.Lost := by
  have shape := kept.calm before
  have arrived := kept.arrived
  simp only [calm_snoc, before, true_and, not_and_or, Classical.not_imp, not_or, not_not] at rough
  rcases rough with ⟨rfl, absent, asked⟩ | ⟨⟨os, rfl⟩, absent, rejected⟩
  · have none : w.obtained = [] := by
      by_contra some
      exact absent (arrived.mpr some)
    simp only [Sender.enabled] at enabled
    simp only [Sender.deliver, Option.some.injEq] at delivered
    subst delivered
    refine .inl ?_
    cases state : w.state <;> cases at_ : w.conversation <;>
      simp_all [Sender.Shape, Sender.undecided, Sender.live, Sender.requestData, Sender.reset]
  · have none : w.obtained = [] := by
      by_contra some
      exact absent (arrived.mpr some)
    obtain ⟨shut, resets⟩ := kept.none none
    simp only [Sender.deliver, Sender.gotOutstream] at delivered
    refine .inr ?_
    cases state : w.state with
    | init => simp_all [Sender.Shape]
    | requested => simp_all [Sender.Shape]
    | available os' => simp [state] at delivered
    | done => simp [state] at delivered
    | cancelled =>
      simp only [state, Option.some.injEq] at delivered
      subst delivered
      simp_all [Sender.Shape, Sender.settled]

theorem Kept.deliver {es : List (Event OutStream)} {w w' : Sender OutStream} {e : Event OutStream}
    (kept : Kept es w) (enabled : w.enabled e = true) (delivered : w.deliver e = some w') :
    Kept (es ++ [e]) w' where
  toTracked := kept.toTracked.deliver enabled delivered
  calm := by
    intro calm
    obtain ⟨before, rejection, arrival⟩ := (calm_snoc es e).mp calm
    exact shape_deliver kept (kept.calm before) enabled delivered rejection arrival
  rest := by
    intro rough
    by_cases before : Calm es
    · exact lost_of_rough kept before rough enabled delivered
    · exact lost_deliver (kept.rest before) kept.clock kept.fresh enabled delivered

theorem Run.kept {es : List (Event OutStream)} {w : Sender OutStream} (run : Run es w) :
    Kept es w := by
  induction run with
  | start => exact kept_start
  | event e _ enabled delivered ih => exact ih.deliver enabled delivered

/-- What the sender has told the application by the end of a calm run. -/
theorem Sender.Shape.discipline {es : List (Event OutStream)} {w : Sender OutStream}
    (shape : w.Shape es) : Discipline es w := by
  cases state : w.state <;>
    simp only [Sender.Shape, state, Sender.undecided] at shape
  · constructor <;> simp_all [Sender.finished] <;> grind
  · constructor <;> simp_all [Sender.finished] <;> grind
  · constructor <;> simp_all [Sender.finished, Sender.settled] <;> grind
  · obtain ⟨os, obtained, sent, asked⟩ := shape
    constructor <;> simp_all [Sender.settled]
  · rcases shape with ⟨obtained, sent, -, -⟩ | ⟨os, obtained, settled, sent | ⟨sent, asked⟩⟩ <;>
      constructor <;> simp_all [Sender.settled]

theorem Sender.Lost.not_discipline {es : List (Event OutStream)} {w : Sender OutStream}
    (lost : w.Lost) (finished : w.finished) : ¬ Discipline es w := by
  intro discipline
  rcases lost with ⟨-, unsent⟩ | ⟨-, os, obtained, unsettled⟩
  · have := discipline.called finished
    simp [unsent] at this
  · exact unsettled (discipline.settled finished os obtained)

/-- At every moment of a run that ends, the sender keeps to the discipline, if and only if no
rejection crosses a request or an out stream on its way. -/
theorem discipline_iff {es : List (Event OutStream)} {w : Sender OutStream} (run : Run es w)
    (finished : w.finished) :
    (∀ before after v, es = before ++ after → Run before v → Discipline before v) ↔ Calm es := by
  constructor
  · intro discipline
    by_contra rough
    exact (run.kept.rest rough).not_discipline finished (discipline es [] w (by simp) run)
  · rintro calm before after v rfl run
    exact (run.kept.calm calm.earlier).discipline

/-- A run of given events, step by step. -/
def Sender.exec (w : Sender OutStream) : List (Event OutStream) → Option (Sender OutStream)
  | [] => some w
  | e :: es => if w.enabled e then w.deliver e >>= fun w' => w'.exec es else none

theorem Run.exec {done : List (Event OutStream)} {w : Sender OutStream} (run : Run done w) :
    ∀ (es : List (Event OutStream)) (w' : Sender OutStream), w.exec es = some w' →
      Run (done ++ es) w' := by
  intro es
  induction es generalizing done w with
  | nil =>
    intro w' ran
    simp only [Sender.exec, Option.some.injEq] at ran
    subst ran
    simpa using run
  | cons e es ih =>
    intro w' ran
    simp only [Sender.exec] at ran
    split at ran
    · rename_i enabled
      obtain ⟨w₁, delivered, rest⟩ := Option.bind_eq_some_iff.mp ran
      simpa using ih (run.event e enabled delivered) w' rest
    · cases ran

/-- The stream comes, the data is asked for and sent, and the conversation drains. -/
theorem discipline_iff_sent : ∃ w : Sender Nat,
    Run [.connected, .gotOutstream 7, .requestData true, .drained] w ∧ w.finished ∧
    ∀ before after v, [.connected, .gotOutstream 7, .requestData true, .drained] = before ++ after →
      Run before v → Discipline before v := by
  have run := (Run.start : Run [] (start : Sender Nat)).exec [.connected, .gotOutstream 7, .requestData true, .drained] _ rfl
  refine ⟨_, run, .inr (.inl rfl), (discipline_iff run (.inr (.inl rfl))).mpr ?_⟩
  intro before after split
  have : Event.requestData false ∈ ([.connected, .gotOutstream 7, .requestData true, .drained] : List (Event Nat)) := by
    simp only [List.nil_append] at split
    rw [split]
    simp
  simp at this

/-- A receiver that cancels before the out stream is there leaves the sender with a stream it
does nothing about; one that asks for the data and cancels ends the conversation without the
application hearing of it. -/
theorem cancelled_stream_leaks :
    (∃ w : Sender Nat, Run [.connected, .requestData false, .gotOutstream 7, .timeout] w ∧ w.finished ∧
      7 ∈ w.obtained ∧ ¬ w.settled 7) ∧
    ∃ w : Sender Nat, Run [.connected, .requestData true, .requestData false] w ∧ w.finished ∧
      w.sent = [] := by
  refine ⟨⟨_, Run.start.exec [.connected, .requestData false, .gotOutstream 7, .timeout] _ rfl, .inr (.inr rfl), ?_, ?_⟩,
    ⟨_, Run.start.exec [.connected, .requestData true, .requestData false] _ rfl, .inr (.inr rfl), rfl⟩⟩
  · decide
  · simp [Sender.settled, start, Sender.requestData, Sender.timeout, Sender.reset, Sender.sendDataFn]

end BubbleStorm.Notification
