/-
  BubbleStorm.Cusp.Conversation.ResetStreams — what a stream answers the conversation.

  A queue waits to call at most one callback. Whatever is called of it, it goes on waiting
  or has answered that one (`in_turn`, `out_turn`); an operation that does not raise finds
  none waiting, and waits or is answered (`opens_turn`, `Out.write_turn`,
  `Out.shutdown_turn`); a reset answers it, with a failure.

  The calls of an out-queue are made of the steps that a run may take, and of what the
  application calls between them (`pull_made`, `ack_made`, `recv_made`).
-/

import BubbleStorm.Cusp.Conversation.Reset
import BubbleStorm.Cusp.Stream.InStreamProofs
import BubbleStorm.Cusp.Stream.OutStreamReset
import Mathlib.Logic.Relation

namespace BubbleStorm.Cusp.Conversation.Reset

open BubbleStorm.Cusp.Stream

/-! ## What a queue answers -/

/-- What a queue waits to call, before and after it answered. -/
inductive Turned : Option Nat → Option Nat → List (Nat × Answer) → Prop
  | keep (w : Option Nat) : Turned w w []
  | answer (id : Nat) (a : Answer) : Turned (some id) none [(id, a)]

theorem Turned.answered {w w' : Option Nat} {id : Nat} {a : Answer} (turned : Turned w w' [(id, a)]) : w = some id ∧ w' = none := by
  cases turned
  exact ⟨rfl, rfl⟩

theorem inAnswers_eq {q q' : InStreamQueue.T} {l : List InStreamQueue.Out} (log : q'.log = q.log ++ l) : inAnswers q q' = inTold l := by
  unfold inAnswers
  rw [log, List.drop_left]

theorem outAnswers_eq {q q' : OutStreamQueue.T} {l : List OutStreamQueue.Out} (log : q'.log = q.log ++ l) :
    outAnswers q q' = outTold l := by
  unfold outAnswers
  rw [log, List.drop_left]

@[simp] theorem inTold_append (l l' : List InStreamQueue.Out) : inTold (l ++ l') = inTold l ++ inTold l' :=
  List.filterMap_append

@[simp] theorem outTold_append (l l' : List OutStreamQueue.Out) : outTold (l ++ l') = outTold l ++ outTold l' :=
  List.filterMap_append

theorem inTold_plain {l : List InStreamQueue.Out} (plain : InStreamQueue.Plain l) : inTold l = [] := by
  refine List.filterMap_eq_nil_iff.mpr fun o mem => ?_
  obtain ⟨e, rfl⟩ := plain o mem
  rfl

/-- A reader waits only while the buffer is set, and not on a queue that was reset. -/
structure InOk (q : InStreamQueue.T) : Prop where
  reader : q.bufferSize = InStreamQueue.noBuffer → q.reader = none
  stopped : InStreamQueue.isReset q = true → q.bufferSize = InStreamQueue.noBuffer

/-- What a call of an in-stream makes of it, and of what it waits to call. -/
structure InTurn (w : Option Nat) (q q' : InStreamQueue.T) : Prop where
  ok : InOk q'
  log : ∃ l, q'.log = q.log ++ l ∧ Turned w q'.reader (inTold l)

theorem InTurn.told {w : Option Nat} {q q' : InStreamQueue.T} (t : InTurn w q q') : InOk q' ∧ Turned w q'.reader (inAnswers q q') := by
  obtain ⟨ok, l, log, turned⟩ := t
  rw [inAnswers_eq log]
  exact ⟨ok, turned⟩

theorem InTurn.quiet {q q' : InStreamQueue.T} (ok : InOk q') {l : List InStreamQueue.Out} (plain : InStreamQueue.Plain l)
    (log : q'.log = q.log ++ l) (reader : q'.reader = q.reader) : InTurn q.reader q q' := by
  refine ⟨ok, l, log, ?_⟩
  rw [inTold_plain plain, reader]
  exact .keep _

/-- A queue that no longer waits. -/
theorem InOk.none {q : InStreamQueue.T} (reader : q.reader = none) (bufferSize : q.bufferSize = InStreamQueue.noBuffer) : InOk q :=
  ⟨fun _ => reader, fun _ => bufferSize⟩

theorem turned_reader (w : Option Nat) (s : InStreamQueue.Status) :
    Turned w none (inTold (w.map (InStreamQueue.Out.reader · s)).toList) := by
  cases w with
  | none => exact .keep none
  | some id => exact .answer id _

namespace In

open InStreamQueue

variable {q q' : InStreamQueue.T} {w : Option Nat}

theorem fireEvent_log (q : InStreamQueue.T) :
    ∃ l, Plain l ∧ (fireEvent q).log = q.log ++ l ∧ (fireEvent q).reader = q.reader ∧ (fireEvent q).bufferSize = q.bufferSize ∧
      (fireEvent q).state = q.state := by
  obtain ⟨l, plain, e⟩ := fireEvent_cases q
  rw [e]
  exact ⟨l, plain, rfl, rfl, rfl, rfl⟩

/-- The reader is off the queue when it is run. -/
theorem hand_turn {l : List Out} (plain : Plain l) (log : q'.log = q.log ++ l) (reader : q'.reader = none)
    (bufferSize : q'.bufferSize = noBuffer) (w : Option Nat) (s : Status) : InTurn w q (runReader (fireEvent q') w s) := by
  obtain ⟨l', plain', log', reader', size', -⟩ := fireEvent_log q'
  rw [runReader_eq]
  refine ⟨.none (reader'.trans reader) (size'.trans bufferSize), l ++ l' ++ (w.map (Out.reader · s)).toList, ?_, ?_⟩
  · rw [T.ran_log, log', log, List.append_assoc, List.append_assoc, List.append_assoc]
  · rw [T.ran_reader, reader', reader, inTold_append, inTold_append, inTold_plain plain, inTold_plain plain']
    exact turned_reader w s

theorem transferQueue_turn (q : InStreamQueue.T) (data : Option Bytes) (recvd : Int) (w : Option Nat) (report : Bytes) :
    InTurn w q (transferQueue q data recvd (w.map (·, report))) := by
  have plain (a b : Int) : Plain [.event (.outOfOrderBytes a), .event (.unreadBytes b)] := (plain_event _).append (plain_event _)
  unfold transferQueue
  generalize process q.queue.length (q.offset + recvd + (data.getD []).length) 0 (q.ready ++ data.toList) q.queue = r
  obtain ⟨newOffset, lost, ready, queue⟩ := r
  dsimp only
  by_cases stopped : isReset q = true
  · rw [if_pos stopped]
    cases w with
    | none => exact hand_turn (plain _ _) (List.append_assoc q.log [_] [_]) rfl rfl none (.data report)
    | some id => exact hand_turn (plain _ _) (List.append_assoc q.log [_] [_]) rfl rfl (some id) (.data report)
  · rw [if_neg stopped]
    cases w with
    | none => exact hand_turn (plain _ _) (List.append_assoc q.log [_] [_]) rfl rfl none (.data report)
    | some id => exact hand_turn (plain _ _) (List.append_assoc q.log [_] [_]) rfl rfl (some id) (.data report)

theorem same_turn (ok : InOk q) : InTurn q.reader q q := .quiet (l := []) ok nofun (List.append_nil _).symm rfl

theorem recvData_turn (ok : InOk q) (offset : Int) (data : Bytes) : InTurn q.reader q (recvData q offset data).1 := by
  unfold recvData
  split
  · exact same_turn ok
  · exact same_turn ok
  · unfold feedReader
    split
    · rename_i empty
      rw [ok.reader empty]
      exact transferQueue_turn q _ _ none []
    · split
      · exact transferQueue_turn q _ _ q.reader _
      · exact transferQueue_turn q _ _ q.reader _
  · exact .quiet ⟨ok.reader, ok.stopped⟩ (plain_event _) rfl rfl

theorem shutdown_turn (ok : InOk q) (eof : Int) : InTurn q.reader q (InStreamQueue.shutdown q eof) := by
  obtain ⟨q2, l, plain, e2, e⟩ := shutdown_cases q eof
  rw [e]
  split
  · rw [runReader_eq]
    refine ⟨.none rfl rfl, l ++ [.event .becameComplete] ++ (q2.reader.map (Out.reader · .shutdown)).toList, ?_, ?_⟩
    · rw [e2]
      simp [callback, emit]
    · rw [inTold_append, inTold_append, inTold_plain plain, inTold_plain (plain_event _), e2]
      exact turned_reader q.reader .shutdown
  · subst e2
    exact .quiet ⟨ok.reader, fun stopped => ok.stopped ((isReset_stateTransition q eof).symm.trans stopped)⟩ plain rfl rfl

theorem reset_turn (q : InStreamQueue.T) :
    InOk (InStreamQueue.reset q) ∧ (InStreamQueue.reset q).reader = none ∧
      inAnswers q (InStreamQueue.reset q) = q.reader.toList.map (·, .reader .reset) := by
  obtain ⟨l, plain, e⟩ := fireEvent_cases (callback (callback { callback (callback q (.unreadBytes (-q.readyBytes)))
    (.outOfOrderBytes (-q.queuedBytes)) with state := resetTransition q.state, ready := [], readyBytes := 0, queue := [],
                                             queuedBytes := 0, reader := none, bufferSize := noBuffer } (.rts .posInf)) .becameReset)
  have all : InStreamQueue.reset q = runReader (T.ran _ l) q.reader .reset := congrArg (runReader · q.reader .reset) e
  rw [all, runReader_eq]
  refine ⟨.none rfl rfl, rfl, ?_⟩
  rw [inAnswers_eq (l := [.event (.unreadBytes (-q.readyBytes)), .event (.outOfOrderBytes (-q.queuedBytes)), .event (.rts .posInf),
    .event .becameReset] ++ l ++ (q.reader.map (Out.reader · .reset)).toList) (by simp [callback, emit])]
  rw [inTold_append, inTold_append, inTold_plain plain]
  cases q.reader <;> rfl

theorem pull_turn (ok : InOk q) {id seq : Nat} {p : Pulled} (pulled : pull q id seq = .ok (p, q')) : InTurn q.reader q q' := by
  unfold pull at pulled
  split at pulled
  · cases pulled
  · cases pulled
    exact .quiet ⟨ok.reader, ok.stopped⟩ (plain_event _) rfl rfl
  · cases pulled
    exact .quiet ⟨ok.reader, ok.stopped⟩ (plain_event _) rfl rfl

theorem fireEvent_turn (ok : InOk q) (log : q'.log = q.log) (reader : q'.reader = q.reader) (size : q'.bufferSize = q.bufferSize)
    (state : q'.state = q.state) : InTurn q.reader q (fireEvent q') := by
  obtain ⟨l, plain, log', reader', size', state'⟩ := fireEvent_log q'
  refine .quiet ⟨fun empty => ?_, fun stopped => ?_⟩ plain (log'.trans (by rw [log])) (reader'.trans reader)
  · rw [reader', reader]
    exact ok.reader (by rw [← size, ← size', empty])
  · have same : isReset (fireEvent q') = isReset q := by
      unfold isReset
      rw [state', state]
    rw [size', size]
    exact ok.stopped (same.symm.trans stopped)

theorem ack_turn (ok : InOk q) (a : Ack) (b : Bool) : InTurn q.reader q (InStreamQueue.ack q a b) := by
  unfold InStreamQueue.ack
  split
  · exact .quiet ⟨ok.reader, ok.stopped⟩ (plain_event _) rfl rfl
  · exact .quiet ⟨ok.reader, ok.stopped⟩ (plain_event _) rfl rfl
  · exact fireEvent_turn ok rfl rfl rfl rfl
  · split
    · exact same_turn ok
    · exact fireEvent_turn ok rfl rfl rfl rfl

/-- A read that does not raise finds no reader, and leaves its own or answers it. -/
theorem read_turn (ok : InOk q) {bufferSize : Int} {id : Nat} (read : InStreamQueue.read q bufferSize id = .ok q') :
    q.reader = none ∧ InTurn (some id) q q' := by
  unfold InStreamQueue.read at read
  split at read
  · rename_i stopped
    have size := ok.stopped stopped
    have reader := ok.reader size
    cases read
    refine ⟨reader, .none reader size, [.reader id .reset], rfl, ?_⟩
    rw [show (runReader q (some id) .reset).reader = none from reader]
    exact .answer id _
  split at read
  · cases read
  rename_i live size
  have reader := ok.reader (not_not.mp size)
  split at read
  · cases read
  refine ⟨reader, ?_⟩
  have plain (n : Int) : Plain [.event (.unreadBytes n)] := plain_event _
  split at read
  · split at read
    · cases read
      exact hand_turn (l := [.event .becameComplete, .event (.unreadBytes (-0))]) ((plain_event _).append (plain_event _))
        (List.append_assoc q.log [_] [_]) rfl rfl (some id) .shutdown
    · rename_i small _ _ _
      cases read
      obtain ⟨l, plainl, e⟩ := finishRead_cases q [] bufferSize (some id) 0
      rw [e]
      refine ⟨⟨fun empty => ?_, fun stopped => absurd stopped live⟩, l, rfl, ?_⟩
      · have : bufferSize = noBuffer := empty
        rw [this] at small
        exact absurd (by decide) small
      · rw [inTold_plain plainl]
        exact .keep _
  · split at read
    · cases read
      exact hand_turn (plain _) rfl rfl rfl (some id) (.data _)
    · cases read
      exact hand_turn (plain _) rfl rfl rfl (some id) (.data _)

end In

theorem in_turn {q q' : InStreamQueue.T} {l : List (Nat × Answer)} (turn : InStep q q' l) (ok : InOk q) :
    InOk q' ∧ Turned q.reader q'.reader l := by
  induction turn with
  | recvData offset data => exact (In.recvData_turn ok offset data).told
  | shutdown eof => exact (In.shutdown_turn ok eof).told
  | reset =>
    obtain ⟨ok', reader, eq⟩ := In.reset_turn q
    rw [reader, eq]
    refine ⟨ok', ?_⟩
    cases q.reader with
    | none => exact .keep none
    | some id => exact .answer id _
  | down => exact ⟨⟨ok.reader, nofun⟩, .keep _⟩
  | pull pulled => exact (In.pull_turn ok pulled).told
  | ack a b => exact (In.ack_turn ok a b).told
  | more piece read ih =>
    obtain ⟨ok', turned⟩ := ih
    rw [turned.answered.1]
    exact (In.read_turn ok' read).2.told

/-- The operation finds nothing waiting on the stream, and waits or is answered. -/
theorem opens_turn {id : Nat} {q q' : InStreamQueue.T} {l : List (Nat × Answer)} (opens : Opens id q q' l) (ok : InOk q) :
    q.reader = none ∧ InOk q' ∧ Turned (some id) q'.reader l := by
  induction opens with
  | read read =>
    obtain ⟨idle, turn⟩ := In.read_turn ok read
    exact ⟨idle, turn.told⟩
  | more piece read ih =>
    obtain ⟨idle, ok', -⟩ := ih
    exact ⟨idle, (In.read_turn ok' read).2.told⟩

/-! ## Out-streams -/

/-- What an out-stream waits to call. -/
def awaits (q : OutStreamQueue.T) : Option Nat := q.shutdowner.or q.writer

/-- A writer waits with its buffer, on a queue that is connected; a shutdowner on one that
    is shutting down. -/
structure OutOk (q : OutStreamQueue.T) : Prop where
  writer : q.buffer = none → q.writer = none
  buffer : q.state ≠ .amConnected → q.buffer = none
  connected : q.state = .amConnected → q.shutdowner = none
  stopped : q.state = .amReset → q.shutdowner = none

structure OutTurn (w : Option Nat) (q q' : OutStreamQueue.T) : Prop where
  ok : OutOk q'
  log : ∃ l, q'.log = q.log ++ l ∧ Turned w (awaits q') (outTold l)

theorem OutTurn.told {w : Option Nat} {q q' : OutStreamQueue.T} (t : OutTurn w q q') :
    OutOk q' ∧ Turned w (awaits q') (outAnswers q q') := by
  obtain ⟨ok, l, log, turned⟩ := t
  rw [outAnswers_eq log]
  exact ⟨ok, turned⟩

namespace Out

open OutStreamQueue

variable {q q' : OutStreamQueue.T}

theorem updateRTS_turn (ok : OutOk q) : OutTurn (awaits q) q (updateRTS q) :=
  ⟨⟨ok.writer, ok.buffer, ok.connected, ok.stopped⟩, _, rfl, .keep _⟩

theorem makeProgress_turn (ok : OutOk q) : OutTurn (awaits q) q (OutStreamQueue.makeProgress q) := by
  unfold OutStreamQueue.makeProgress
  split
  · exact updateRTS_turn ok
  split
  · exact ⟨ok, [], (List.append_nil _).symm, .keep _⟩
  rename_i buffer full
  have connected : q.state = .amConnected := by
    by_contra other
    rw [ok.buffer other] at full
    cases full
  have shutdowner := ok.connected connected
  dsimp only
  rw [runWriter_eq, updateRTS_eq, T.ran_ran]
  refine ⟨⟨fun _ => rfl, fun _ => rfl, fun _ => shutdowner, fun _ => shutdowner⟩,
    .event (.retransmitBytes buffer.val.length) :: ([_] ++ (q.writer.map (Out.writer · .ready)).toList), List.append_assoc _ [_] _, ?_⟩
  unfold awaits
  rw [shutdowner]
  change Turned q.writer none (outTold ([_] ++ [_] ++ (q.writer.map (Out.writer · .ready)).toList))
  cases q.writer with
  | none => exact .keep none
  | some id => exact .answer id _

theorem checkDone_turn (ok : OutOk q) : OutTurn (awaits q) q (OutStreamQueue.checkDone q) := by
  unfold OutStreamQueue.checkDone
  split
  · rename_i finished
    have state : q.state = .amShutdown .ackd := by simp [amDone] at finished; exact finished.1.1
    have buffer := ok.buffer (by rw [state]; decide)
    have writer := ok.writer buffer
    rw [runShutdowner_eq]
    refine ⟨⟨fun _ => writer, fun _ => buffer, fun _ => rfl, fun _ => rfl⟩,
      .event .becameComplete :: (q.shutdowner.map (Out.shutdowner · true)).toList, List.append_assoc _ [_] _, ?_⟩
    have after : awaits (({ callback q .becameComplete with shutdowner := none } : OutStreamQueue.T).ran
        (q.shutdowner.map (Out.shutdowner · true)).toList) = none := writer
    rw [after]
    unfold awaits
    rw [writer, Option.or_none]
    cases q.shutdowner with
    | none => exact .keep none
    | some id => exact .answer id _
  · exact ⟨ok, [], (List.append_nil _).symm, .keep _⟩

/-- A queue has a writer or a shutdowner, not both. -/
theorem one (ok : OutOk q) : q.shutdowner = none ∨ q.writer = none := by
  by_cases connected : q.state = .amConnected
  · exact .inl (ok.connected connected)
  · exact .inr (ok.writer (ok.buffer connected))

theorem doReset_turn (ok : OutOk q) : OutTurn (awaits q) q (OutStreamQueue.doReset q) := by
  obtain ⟨e1, e2, e⟩ := doReset_eq q
  rw [e]
  refine ⟨⟨fun _ => rfl, fun _ => rfl, nofun, fun _ => rfl⟩, _, rfl, ?_⟩
  change Turned (awaits q) none (outTold ([.event e1, .event e2] ++ (_ ++ _)))
  rw [outTold_append, outTold_append]
  unfold awaits
  rcases one ok with absent | absent
  · rw [absent]
    cases q.writer with
    | none => exact .keep _
    | some id => exact .answer id _
  · rw [absent]
    cases q.shutdowner with
    | none => exact .keep _
    | some id => exact .answer id _

theorem reset_turn (ok : OutOk q) : OutTurn (awaits q) q (OutStreamQueue.reset q) := by
  obtain ⟨ok', l, log, turned⟩ := doReset_turn ok
  refine ⟨⟨ok'.writer, ok'.buffer, ok'.connected, ok'.stopped⟩,
    l ++ [.event (.rts (if amRTS (doReset q) then (doReset q).priority else .negInf))], ?_, ?_⟩
  · rw [← List.append_assoc, ← log]
    rfl
  · rw [outTold_append]
    exact (List.append_nil (outTold l)).symm ▸ turned

/-- All that waits is answered with the reset. -/
theorem reset_fails (q : OutStreamQueue.T) : awaits (OutStreamQueue.reset q) = none ∧
    ∀ x ∈ outAnswers q (OutStreamQueue.reset q), x.2.Failed := by
  obtain ⟨e1, e2, e⟩ := doReset_eq q
  have all : OutStreamQueue.reset q = _ := congrArg updateRTS e
  rw [updateRTS_eq, T.ran_ran] at all
  rw [all]
  refine ⟨rfl, ?_⟩
  rw [outAnswers_eq rfl]
  intro x mem
  change x ∈ outTold ([.event e1, .event e2] ++ (_ ++ _) ++ [_]) at mem
  rw [outTold_append, outTold_append, outTold_append] at mem
  rcases List.mem_append.mp mem with mem | mem
  · rcases List.mem_append.mp mem with mem | mem
    · cases mem
    · rcases List.mem_append.mp mem with mem | mem
      · cases here : q.shutdowner with
        | none => rw [here] at mem; cases mem
        | some id =>
          rw [here] at mem
          rw [List.mem_singleton.mp mem]
          exact .shutdowner
      · cases here : q.writer with
        | none => rw [here] at mem; cases mem
        | some id =>
          rw [here] at mem
          rw [List.mem_singleton.mp mem]
          exact .writer
  · cases mem

/-- A write that does not raise finds nothing waiting. -/
theorem write_turn (ok : OutOk q) {buffer : Word8Vector} {id : Nat} (wrote : OutStreamQueue.write q buffer id = .ok q') :
    awaits q = none ∧ OutTurn (some id) q q' := by
  unfold OutStreamQueue.write at wrote
  split at wrote
  · cases wrote
  rename_i empty
  have buffer' : q.buffer = none := by simpa using empty
  have writer := ok.writer buffer'
  split at wrote
  · cases wrote
  · rename_i state
    cases wrote
    have idle : awaits q = none := by unfold awaits; rw [ok.stopped state, writer]; rfl
    refine ⟨idle, ⟨ok.writer, ok.buffer, ok.connected, ok.stopped⟩, [.writer id .reset], rfl, ?_⟩
    rw [show awaits (runWriter q (some id) .reset) = none from idle]
    exact .answer id _
  · rename_i state
    cases wrote
    have idle : awaits q = none := by unfold awaits; rw [ok.connected state, writer]; rfl
    obtain ⟨ok', l, log, turned⟩ := makeProgress_turn (q := emit { q with buffer := some buffer, writer := some id } (.wrote buffer))
      ⟨nofun, fun other => absurd state other, fun _ => ok.connected state, fun _ => ok.connected state⟩
    refine ⟨idle, ok', .wrote buffer :: l, log.trans (List.append_assoc _ [_] _), ?_⟩
    have before : awaits (emit { q with buffer := some buffer, writer := some id } (.wrote buffer)) = some id := by
      change q.shutdowner.or (some id) = some id
      rw [ok.connected state]
      rfl
    rwa [before] at turned

theorem shutdown_turn (ok : OutOk q) {id : Nat} (shut : OutStreamQueue.shutdown q id = .ok q') :
    awaits q = none ∧ OutTurn (some id) q q' := by
  unfold OutStreamQueue.shutdown at shut
  split at shut
  · cases shut
  rename_i empty
  have buffer : q.buffer = none := by simpa using empty
  have writer := ok.writer buffer
  split at shut
  · cases shut
  · rename_i state
    cases shut
    have idle : awaits q = none := by unfold awaits; rw [ok.stopped state, writer]; rfl
    refine ⟨idle, ⟨ok.writer, ok.buffer, ok.connected, ok.stopped⟩, [.shutdowner id false], rfl, ?_⟩
    rw [show awaits (runShutdowner q (some id) false) = none from idle]
    exact .answer id _
  · rename_i state
    cases shut
    have idle : awaits q = none := by unfold awaits; rw [ok.connected state, writer]; rfl
    exact ⟨idle, ⟨ok.writer, fun _ => buffer, nofun, nofun⟩, _, rfl, .keep _⟩

end Out

/-- Made of the pieces, and of what the application calls between them. -/
def Made : OutStreamQueue.T → OutStreamQueue.T → Prop :=
  Relation.ReflTransGen fun q q' => (∃ l, OutStep q q' l) ∨ ∃ op, q' = OutStreamQueue.exec q op

namespace Out

open OutStreamQueue

/-- As far as connecting and resetting go. -/
def SameStage (s s' : State) : Prop := (s' = .amConnected ↔ s = .amConnected) ∧ (s' = .amReset ↔ s = .amReset)

theorem SameStage.refl (s : State) : SameStage s s := ⟨Iff.rfl, Iff.rfl⟩

theorem SameStage.shutdown (p p' : Progress) : SameStage (.amShutdown p) (.amShutdown p') :=
  ⟨⟨nofun, nofun⟩, ⟨nofun, nofun⟩⟩

theorem made_aside {q q' : OutStreamQueue.T} (buffer : q'.buffer = q.buffer) (writer : q'.writer = q.writer)
    (shutdowner : q'.shutdowner = q.shutdowner) (stage : SameStage q.state q'.state) (log : ∃ l, q'.log = q.log ++ l ∧ outTold l = []) :
    Made q q' := .single (.inl ⟨[], .aside ⟨buffer, writer, shutdowner, stage.1, stage.2, log⟩⟩)

theorem carried_made : Carried Made where
  refl _ := .refl
  trans := Relation.ReflTransGen.trans
  progress _ := .single (.inl ⟨_, .makeProgress _⟩)
  exec _ op := .single (.inr ⟨op, rfl⟩)
  heap _ _ _ := made_aside rfl rfl rfl (.refl _) ⟨[], (List.append_nil _).symm, rfl⟩

theorem pull_made (q : OutStreamQueue.T) (id room : Nat) (react : List (List Op)) : Made q (pull q id room react).2 := by
  by_cases stopped : q.state = .amReset
  · unfold pull
    rw [if_pos stopped]
    exact made_aside rfl rfl rfl (.refl _) ⟨_, rfl, rfl⟩
  · rw [pull_eq stopped]
    refine (carried_made.pullSegments q (pullLimit q room) react).trans
      (made_aside rfl rfl rfl ?_ ⟨_, List.append_assoc _ [_] [_, _], rfl⟩)
    change SameStage _ (attachEOF _ _).2
    rcases attachEOF_cases (pullSegments q (pullLimit q room) react).2.state _ with e | ⟨-, ⟨p, shut, -⟩, e⟩
    · rw [e]
      exact .refl _
    · rw [e, shut]
      exact .shutdown _ _

theorem ack_stage (s : State) (eof ok : Bool) : SameStage s (ackState s eof ok) := by
  rcases ackState_cases s eof ok with e | ⟨p, p', rfl, e⟩
  · rw [e]
    exact .refl _
  · rw [e]
    exact .shutdown _ _

theorem ack_made (q : OutStreamQueue.T) (a : OutStreamQueue.Ack) (ok : Bool) : Made q (OutStreamQueue.ack q a ok) := by
  cases a with
  | reset => cases ok <;> exact made_aside rfl rfl rfl (.refl _) ⟨_, rfl, rfl⟩
  | data segments eof =>
    unfold OutStreamQueue.ack
    dsimp only
    split
    · have three (l : List OutStreamQueue.Out) (a b c : OutStreamQueue.Out) : l ++ [a] ++ [b] ++ [c] = l ++ [a, b, c] := by simp
      exact made_aside rfl rfl rfl (ack_stage _ _ _) ⟨_, three _ _ _ _, rfl⟩
    · refine Relation.ReflTransGen.trans (Relation.ReflTransGen.trans ?_ (carried_made.progress _)) (.single (.inl ⟨_, .checkDone _⟩))
      exact made_aside rfl rfl rfl (ack_stage _ _ _) ⟨[_], rfl, rfl⟩

theorem recv_made {q q' : OutStreamQueue.T} {data : Slice} {x : PacketFormat.Writer} {n : Nat}
    (received : OutStreamQueue.recv q data x = .ok (q', n)) : Made q q' := by
  rcases recv_cases received with ⟨b, -, rfl⟩ | ⟨-, rfl⟩
  · have moved : Made q { q with barrier := b } := made_aside rfl rfl rfl (.refl _) ⟨[], (List.append_nil _).symm, rfl⟩
    exact moved.trans (carried_made.progress _)
  · have stop : Made q (doReset q) := .single (.inl ⟨_, .doReset q⟩)
    exact stop.trans (made_aside rfl rfl rfl (.refl _) ⟨[.event .becameComplete], rfl, rfl⟩)

end Out

theorem out_turn {q q' : OutStreamQueue.T} {l : List (Nat × Answer)} (turn : OutStep q q' l) (ok : OutOk q) :
    OutOk q' ∧ Turned (awaits q) (awaits q') l := by
  cases turn with
  | aside same =>
    refine ⟨⟨?_, ?_, ?_, ?_⟩, ?_⟩
    · rw [same.buffer, same.writer]
      exact ok.writer
    · rw [same.buffer, ne_eq, same.connected]
      exact ok.buffer
    · rw [same.connected, same.shutdowner]
      exact ok.connected
    · rw [same.stopped, same.shutdowner]
      exact ok.stopped
    · unfold awaits
      rw [same.shutdowner, same.writer]
      exact .keep _
  | makeProgress => exact (Out.makeProgress_turn ok).told
  | checkDone => exact (Out.checkDone_turn ok).told
  | doReset => exact (Out.doReset_turn ok).told

end BubbleStorm.Cusp.Conversation.Reset
