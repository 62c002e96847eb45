/-
  BubbleStorm.Cusp.Stream.QueueBooks — what the queues announce of the bytes they hold.

  A queue keeps its counters itself, and fires an event for every change of one. Along
  every operation the events sum up to what the counters gain (`Books`); of a sending
  queue only a pull and the callbacks of its segments change the bytes in flight.
-/

import BubbleStorm.Cusp.Stream.InStreamInvariant
import BubbleStorm.Cusp.Stream.OutStreamReset
import BubbleStorm.Cusp.Stream.HostEvents

namespace BubbleStorm.Cusp.Stream.OutStreamQueue

open HostDispatch (inFlight toRetransmit)

/-! ## What a sending queue announces -/

/-- The bytes that are in flight until the callback of a segment has run. -/
def flight : Ack → Int
  | .reset => 0
  | .data segments _ => lens segments

/-- From `q` to `q'` the queue announces what its counters gain, of which `x` is in flight. -/
def Books (x : Int) (q q' : T) : Prop := ∃ l, q'.log = q.log ++ l ∧ (l.map inFlight).sum = x ∧
  q'.inflightBytes = q.inflightBytes + x ∧ (l.map toRetransmit).sum = q'.retransmitBytes - q.retransmitBytes

variable {q q' q'' : T} {x : Int}

theorem books_refl (q : T) : Books 0 q q := ⟨[], by simp, by simp, by simp, by simp⟩

theorem Books.join {y : Int} (h : Books x q q') (h' : Books y q' q'') : Books (x + y) q q'' := by
  obtain ⟨l, hl, hi, hf, hr⟩ := h
  obtain ⟨l', hl', hi', hf', hr'⟩ := h'
  refine ⟨l ++ l', by rw [hl', hl, List.append_assoc], ?_, by rw [hf', hf, add_assoc], ?_⟩
  · rw [List.map_append, List.sum_append, hi, hi']
  · rw [List.map_append, List.sum_append]
    omega

theorem Books.trans (h : Books x q q') (h' : Books 0 q' q'') : Books x q q'' := by
  have hxy := h.join h'
  rwa [add_zero] at hxy

theorem Books.before (h : Books 0 q q') (h' : Books x q' q'') : Books x q q'' := by
  have hxy := h.join h'
  rwa [zero_add] at hxy

/-- Fields that are not counted may change. -/
theorem Books.congr (h : Books x q q') (hl : q''.log = q'.log) (hi : q''.inflightBytes = q'.inflightBytes)
    (hr : q''.retransmitBytes = q'.retransmitBytes) : Books x q q'' := by
  unfold Books
  rw [hl, hi, hr]
  exact h

theorem books_emit (q : T) {o : Out} (hi : inFlight o = 0) (hr : toRetransmit o = 0) : Books 0 q (emit q o) :=
  ⟨[o], rfl, by simp [hi], by simp [emit], by simp [emit, hr]⟩

theorem books_updateRTS (q : T) : Books 0 q (updateRTS q) := books_emit q rfl rfl

theorem books_runWriter (q : T) (cb : Option Nat) (s : Status) : Books 0 q (runWriter q cb s) := by
  cases cb with
  | none => exact books_refl q
  | some cb => exact books_emit q rfl rfl

theorem books_runShutdowner (q : T) (cb : Option Nat) (ok : Bool) : Books 0 q (runShutdowner q cb ok) := by
  cases cb with
  | none => exact books_refl q
  | some cb => exact books_emit q rfl rfl

theorem books_makeProgress (q : T) : Books 0 q (makeProgress q) := by
  unfold makeProgress
  split
  · exact books_updateRTS q
  · split
    · exact books_refl q
    · rename_i buffer _
      refine Books.trans (Books.trans ?_ (books_updateRTS _)) (books_runWriter _ _ _)
      exact ⟨[.event (.retransmitBytes buffer.val.length)], rfl, by simp [inFlight], by simp [callback, emit],
        by simp [toRetransmit, callback, emit]⟩

theorem books_doReset (q : T) : Books 0 q (doReset q) := by
  unfold doReset
  refine Books.trans (Books.trans ?_ (books_runShutdowner _ _ _)) (books_runWriter _ _ _)
  refine Books.trans ?_ (books_emit _ rfl rfl)
  exact ⟨[.event (.retransmitBytes (-q.retransmitBytes))], rfl, by simp [inFlight], by simp [callback, emit],
    by simp [toRetransmit]⟩

theorem books_reset (q : T) : Books 0 q (reset q) := (books_doReset q).trans (books_updateRTS _)

theorem books_attempt {r : Except Exn T} (h : ∀ q', r = .ok q' → Books 0 q q') : Books 0 q (attempt q r) := by
  cases r with
  | error e => exact books_refl q
  | ok q' => exact h q' rfl

theorem books_exec (q : T) (op : Op) : Books 0 q (exec q op) := by
  cases op with
  | write buffer writer =>
    apply books_attempt
    intro q' h
    unfold write at h
    split at h
    · cases h
    · split at h
      · cases h
      · cases h
        exact books_runWriter q _ _
      · cases h
        refine Books.trans ?_ (books_makeProgress _)
        exact (books_emit q (o := .wrote buffer) rfl rfl).congr rfl rfl rfl
  | shutdown cb =>
    apply books_attempt
    intro q' h
    unfold shutdown at h
    split at h
    · cases h
    · split at h
      · cases h
      · cases h
        exact books_runShutdowner q _ _
      · cases h
        exact ((books_refl q).congr rfl rfl rfl).trans (books_updateRTS _)
  | reset => exact books_reset q
  | setPriority prio =>
    apply books_attempt
    intro q' h
    unfold setPriority at h
    split at h
    · cases h
      exact ((books_refl q).congr rfl rfl rfl).trans (books_updateRTS _)
    · cases h

theorem carried_books : Carried (Books 0) :=
  ⟨books_refl, Books.trans, books_makeProgress, books_exec, fun q _ _ => (books_refl q).congr rfl rfl rfl⟩

/-- Bytes go from the retransmit heap into flight. -/
theorem books_sent {len : Int} (hl : q'.log = q.log) (hi : q'.inflightBytes = q.inflightBytes + len)
    (hr : q'.retransmitBytes = q.retransmitBytes - len) :
    Books len q (callback (callback (updateRTS q') (.inflightBytes len)) (.retransmitBytes (-len))) := by
  obtain ⟨prio, hp⟩ : ∃ prio, updateRTS q' = callback q' (.rts prio) := ⟨_, rfl⟩
  rw [hp]
  refine ⟨[.event (.rts prio), .event (.inflightBytes len), .event (.retransmitBytes (-len))], ?_, ?_, ?_, ?_⟩
  · simp [callback, emit, hl]
  · simp [inFlight]
  · simp [callback, emit, hi]
  · simp [toRetransmit, callback, emit, hr]

theorem books_pull (q : T) (id room : Nat) (react : List (List Op)) :
    Books (flight (pull q id room react).1.ack) q (pull q id room react).2 := by
  unfold pull
  split
  · exact books_emit q rfl rfl
  · have h1 := carried_books.pullSegments q (pullLimit q room) react
    generalize pullSegments q (pullLimit q room) react = r at h1 ⊢
    obtain ⟨segments, q1⟩ := r
    refine h1.before ?_
    dsimp only
    exact books_sent rfl rfl rfl

theorem books_checkDone (q : T) : Books 0 q (checkDone q) := by
  unfold checkDone
  split
  · refine Books.trans ?_ (books_runShutdowner _ _ _)
    exact (books_emit q (o := .event .becameComplete) rfl rfl).congr rfl rfl rfl
  · exact books_refl q

theorem books_ack (q : T) (a : Ack) (ok : Bool) : Books (-flight a) q (ack q a ok) := by
  cases a with
  | reset => cases ok <;> exact books_emit q rfl rfl
  | data segments eof =>
    unfold ack
    dsimp only
    split
    · refine Books.trans ?_ (books_updateRTS _)
      refine ⟨[.event (.inflightBytes (-lens segments)), .event (.retransmitBytes (lens segments))], ?_, ?_, ?_, ?_⟩
      · simp [callback, emit]
      · simp [inFlight, flight]
      · simp [callback, emit, flight, sub_eq_add_neg]
      · simp [toRetransmit, callback, emit]
    · refine Books.trans (Books.trans ?_ (books_makeProgress _)) (books_checkDone _)
      refine ⟨[.event (.inflightBytes (-lens segments))], ?_, ?_, ?_, ?_⟩
      · simp [callback, emit]
      · simp [inFlight, flight]
      · simp [callback, emit, flight, sub_eq_add_neg]
      · simp [toRetransmit, callback, emit]

theorem books_recv {data : Slice} {msg : PacketFormat.Writer} {n : Nat} (h : recv q data msg = .ok (q', n)) : Books 0 q q' := by
  cases msg with
  | readerBarrier =>
    obtain ⟨barrier, -, h⟩ := bind_ok h
    cases h
    exact ((books_refl q).congr rfl rfl rfl).trans (books_makeProgress _)
  | readerResets =>
    cases h
    exact (books_doReset q).trans (books_emit _ rfl rfl)

end BubbleStorm.Cusp.Stream.OutStreamQueue

namespace BubbleStorm.Cusp.Stream.InStreamQueue

open HostDispatch (unread outOfOrder)

/-! ## What a receiving queue announces -/

/-- From `q` to `q'` the queue announces what its counters gain. -/
def Books (q q' : T) : Prop := ∃ l, q'.log = q.log ++ l ∧
  (l.map unread).sum = q'.readyBytes - q.readyBytes ∧ (l.map HostDispatch.outOfOrder).sum = q'.queuedBytes - q.queuedBytes

variable {q q' q'' : T}

theorem books_refl (q : T) : Books q q := ⟨[], by simp, by simp, by simp⟩

theorem Books.trans (h : Books q q') (h' : Books q' q'') : Books q q'' := by
  obtain ⟨l, hl, hi, hr⟩ := h
  obtain ⟨l', hl', hi', hr'⟩ := h'
  refine ⟨l ++ l', by rw [hl', hl, List.append_assoc], ?_, ?_⟩
  · rw [List.map_append, List.sum_append]
    omega
  · rw [List.map_append, List.sum_append]
    omega

/-- Fields that are not counted may change. -/
theorem Books.congr (h : Books q q') (hl : q''.log = q'.log) (hi : q''.readyBytes = q'.readyBytes)
    (hr : q''.queuedBytes = q'.queuedBytes) : Books q q'' := by
  unfold Books
  rw [hl, hi, hr]
  exact h

theorem books_same (hl : q'.log = q.log) (hi : q'.readyBytes = q.readyBytes) (hr : q'.queuedBytes = q.queuedBytes) : Books q q' :=
  (books_refl q).congr hl hi hr

theorem books_emit (q : T) {o : Out} (hi : unread o = 0) (hr : HostDispatch.outOfOrder o = 0) : Books q (emit q o) :=
  ⟨[o], rfl, by simp [emit, hi], by simp [emit, hr]⟩

theorem books_runReader (q : T) (cb : Option Nat) (s : Status) : Books q (runReader q cb s) := by
  cases cb with
  | none => exact books_refl q
  | some cb => exact books_emit q rfl rfl

theorem books_fireEvent (q : T) : Books q (fireEvent q) := by
  unfold fireEvent
  split
  · split
    · exact books_emit q rfl rfl
    · exact books_refl q
  · exact books_refl q
  · exact books_emit q rfl rfl
  · exact books_emit q rfl rfl

theorem books_finishRead (q : T) (ready : List Bytes) (bufferSize : Int) (reader : Option Nat) (procBytes : Int) :
    Books q (finishRead q ready bufferSize reader procBytes) := by
  refine Books.trans ?_ (books_fireEvent _)
  refine ⟨[.event (.unreadBytes (-procBytes))], rfl, ?_, ?_⟩
  · simp [unread, callback, emit]
  · simp [HostDispatch.outOfOrder, callback, emit]

theorem books_read {bufferSize : Int} {reader : Nat} (h : read q bufferSize reader = .ok q') : Books q q' := by
  cases read_reads h with
  | reset => exact books_runReader ..
  | wait => exact books_finishRead ..
  | atEnd =>
    have hcomplete : Books q (callback q .becameComplete) := books_emit q rfl rfl
    exact (hcomplete.trans (books_finishRead ..)).trans (books_runReader ..)
  | hand => exact (books_finishRead ..).trans (books_runReader ..)

theorem books_reset (q : T) : Books q (reset q) := by
  unfold reset
  refine Books.trans (Books.trans (Books.trans (Books.trans ?_ (books_emit _ rfl rfl)) (books_emit _ rfl rfl))
    (books_fireEvent _)) (books_runReader ..)
  exact ⟨[.event (.unreadBytes (-q.readyBytes)), .event (.outOfOrderBytes (-q.queuedBytes))], by simp [callback, emit],
    by simp [unread], by simp [HostDispatch.outOfOrder]⟩

theorem books_exec (q : T) (op : Op) : Books q (exec q op) := by
  cases op with
  | read bufferSize reader =>
    unfold exec
    dsimp only
    split
    · rename_i h
      exact books_read h
    · exact books_refl q
  | reset => exact books_reset q

theorem books_execs (q : T) (ops : List Op) : Books q (ops.foldl exec q) := by
  induction ops generalizing q with
  | nil => exact books_refl q
  | cons op ops ih => exact (books_exec q op).trans (ih _)

theorem books_transferred (q : T) (data : Option Bytes) (recvd : Int) : Books q (transferQueue q data recvd none) := by
  unfold transferQueue
  dsimp only
  refine Books.trans ?_ (books_fireEvent _)
  refine ⟨[.event (.outOfOrderBytes _), .event (.unreadBytes _)], List.append_assoc .., ?_, ?_⟩
  · simp [unread, callback, emit]
  · simp [HostDispatch.outOfOrder, callback, emit]

theorem books_transferQueue (q : T) (data : Option Bytes) (recvd : Int) (hook : Option (Nat × Bytes)) :
    Books q (transferQueue q data recvd hook) := by
  cases hook with
  | none => exact books_transferred ..
  | some x => exact (books_transferred q data recvd).trans (books_emit _ rfl rfl)

theorem books_feedReader (q : T) (data : Bytes) : Books q (feedReader q data) := by
  unfold feedReader
  split
  · exact books_transferQueue ..
  · dsimp only
    split
    · exact books_transferQueue ..
    · exact books_transferQueue ..

theorem books_recvData (q : T) (offset : Int) (data : Bytes) : Books q (recvData q offset data).1 := by
  unfold recvData
  split
  · exact books_refl q
  · exact books_refl q
  · exact books_feedReader ..
  · exact ⟨[.event (.outOfOrderBytes data.length)], rfl, by simp [unread, InStreamQueue.outOfOrder, callback, emit],
      by simp [HostDispatch.outOfOrder, InStreamQueue.outOfOrder, callback, emit]⟩

theorem books_shutdown (q : T) (eof : Int) : Books q (shutdown q eof) := by
  unfold shutdown
  dsimp only
  have h1 : Books q (if q.state = .amConnected then callback q (.rts .negInf) else q) := by
    split
    · exact books_emit q rfl rfl
    · exact books_refl q
  generalize (if q.state = .amConnected then callback q (.rts .negInf) else q) = q1 at h1 ⊢
  have h2 : Books q (fireEvent { q1 with state := stateTransition eof q1.state }) := by
    refine h1.trans (Books.trans ?_ (books_fireEvent _))
    exact books_same rfl rfl rfl
  split
  · refine h2.trans (Books.trans ?_ (books_runReader ..))
    exact (books_emit _ (o := .event .becameComplete) rfl rfl).congr rfl rfl rfl
  · exact h2

theorem books_recvDATA (q : T) (eof : Bool) (offset : Int) (data : Bytes) (react : List Op) :
    Books q (recvDATA q eof offset data react).1 := by
  have h1 := books_recvData q offset data
  unfold recvDATA
  generalize recvData q offset data = p at h1 ⊢
  obtain ⟨q1, ok⟩ := p
  dsimp only
  have h2 : Books q (if feeds q offset data then react.foldl exec q1 else q1) := by
    split
    · exact h1.trans (books_execs ..)
    · exact h1
  cases eof with
  | true => exact h2.trans (books_shutdown ..)
  | false => exact h2

theorem books_recv {data : Slice} {msg : PacketFormat.Reader} {react : List Op} {n : Int}
    (h : recv q data msg react = .ok (q', n)) : Books q q' := by
  cases msg with
  | writerResets =>
    cases h
    refine Books.trans ?_ (books_reset _)
    exact books_same rfl rfl rfl
  | data eof offset length =>
    unfold recv at h
    dsimp only at h
    generalize (if offset = true then 8 else 4) = begin at h
    by_cases hlen : data.length < PacketFormat.align length + begin
    · rw [if_pos hlen] at h
      cases h
      exact books_refl q
    · rw [if_neg hlen] at h
      split at h
      · obtain ⟨w, -, h⟩ := bind_ok h
        obtain ⟨d, -, h⟩ := bind_ok h
        cases h
        exact books_recvDATA ..
      · obtain ⟨w, -, h⟩ := bind_ok h
        obtain ⟨d, -, h⟩ := bind_ok h
        cases h
        exact books_recvDATA ..

theorem books_pull {id seq : Nat} {p : Pulled} (h : pull q id seq = .ok (p, q')) : Books q q' := by
  unfold pull at h
  split at h
  · cases h
  · cases h
    refine Books.trans ?_ (books_emit _ rfl rfl)
    exact books_same rfl rfl rfl
  · cases h
    exact books_emit q rfl rfl

theorem books_ack (q : T) (a : Ack) (ok : Bool) : Books q (ack q a ok) := by
  unfold ack
  split
  · exact books_emit q rfl rfl
  · exact books_emit q rfl rfl
  · refine Books.trans ?_ (books_fireEvent _)
    exact books_same rfl rfl rfl
  · split
    · exact books_refl q
    · refine Books.trans ?_ (books_fireEvent _)
      exact books_same rfl rfl rfl

/-- A call that returns, or one that raises. -/
theorem exec_step (q : T) (op : Op) : Relation.ReflGen Step q (exec q op) := by
  cases op with
  | read bufferSize reader =>
    unfold exec
    dsimp only
    split
    · rename_i h
      exact .single (.read h)
    · exact .refl
  | reset => exact .single (.reset q)

theorem books_step (h : Relation.ReflGen Step q q') : Books q q' := by
  cases h with
  | refl => exact books_refl q
  | single h =>
    cases h with
    | recv _ hr => exact books_recv hr
    | read hr => exact books_read hr
    | reset => exact books_reset q
    | pull hp => exact books_pull hp
    | ack a ok => exact books_ack q a ok

end BubbleStorm.Cusp.Stream.InStreamQueue
