/-
  BubbleStorm.Cusp.Stream.Refusal — what a refused segment leaves behind.

  `recv` answers -1 to have the whole packet left unacknowledged, so that its sender
  takes it for lost. It does so for a DATA segment shorter than its header says, before
  anything happens, and for one that passes the barrier. `recvData` refuses the latter
  without a change, but `recv` goes on to `shutdown` when the segment carries the end of
  the stream, whatever `recvData` said: the end that was refused is recorded.

  Proved: exactly when a refused segment leaves the queue as it was
  (`refused_unchanged_iff`).
-/

import BubbleStorm.Cusp.Stream.InStreamQueue

namespace BubbleStorm.Cusp.Stream.InStreamQueue

variable {q q' : T}

/-- Everything but the record of the callbacks run. -/
def SameState (q q' : T) : Prop := { q' with log := q.log } = q

/-- The offset a DATA segment carries; one without it begins the stream. -/
def startOf (data : Slice) (offset : Bool) : Except Exn Nat := if offset then parser data else pure 0

/-- The bytes a DATA segment takes, by its header. -/
def needOf (offset : Bool) (length : Nat) : Nat := PacketFormat.align length + if offset then 8 else 4

/-- A DATA segment that is all there, carries the end of the stream at `eof`, and passes
    the barrier. -/
def EndsPastBarrier (q : T) (data : Slice) (x : PacketFormat.Reader) (eof : Int) : Prop :=
  ∃ offset length start, x = .data true offset length ∧ needOf offset length ≤ data.length ∧
    startOf data offset = .ok start ∧ Key.lt q.barrier (start + length) = true ∧ eof = word32 (start + length)

/-- A reader waits, and a stream that ends at `eof` has nothing more for it. -/
def Completes (q : T) (eof : Int) : Prop := endsAt eof q.offset = true ∧ q.ready = [] ∧ q.bufferSize ≠ noBuffer

/-- The stream has heard its end already. -/
def Ended (q : T) : Prop := (∃ e, q.state = .amShutdown e) ∨ q.state = .amResetDown

/-- The stream has heard its end and has not come to it. -/
def Ending (q : T) : Prop := ∃ e, q.state = .amShutdown e ∧ endsAt e q.offset = false

theorem SameState.state (h : SameState q q') : q'.state = q.state := by
  unfold SameState at h
  rw [← h]

theorem SameState.bufferSize (h : SameState q q') : q'.bufferSize = q.bufferSize := by
  unfold SameState at h
  rw [← h]

theorem fireEvent_log (q : T) : ∃ l, fireEvent q = { q with log := q.log ++ l } := by
  unfold fireEvent
  split
  · split
    · exact ⟨_, rfl⟩
    · exact ⟨[], by simp⟩
  · exact ⟨[], by simp⟩
  · exact ⟨_, rfl⟩
  · exact ⟨_, rfl⟩

/-! ## What the end of a stream changes -/

theorem completes_iff (q : T) (eof : Int) :
    (endsAt eof q.offset && q.ready.isEmpty && decide (q.bufferSize ≠ noBuffer)) = true ↔ Completes q eof := by
  simp [Completes, and_assoc]

/-- `shutdown` moves the state, and drops the reader it completes. -/
theorem shutdown_moves (q : T) (eof : Int) :
    ∃ l, (Completes q eof ∧
        shutdown q eof =
          { q with state := stateTransition eof q.state, reader := none, bufferSize := noBuffer, log := l }) ∨
      (¬ Completes q eof ∧ shutdown q eof = { q with state := stateTransition eof q.state, log := l }) := by
  unfold shutdown
  generalize hq1 : (if q.state = .amConnected then callback q (.rts .negInf) else q) = q1
  obtain ⟨l1, rfl⟩ : ∃ l, q1 = { q with log := l } := by
    split at hq1
    · exact ⟨_, hq1.symm⟩
    · exact ⟨q.log, hq1.symm⟩
  obtain ⟨l2, h2⟩ := fireEvent_log { q with state := stateTransition eof q.state, log := l1 }
  simp only [h2]
  split
  · rename_i hc
    cases q.reader with
    | none => exact ⟨_, .inl ⟨(completes_iff q eof).mp hc, rfl⟩⟩
    | some cb => exact ⟨_, .inl ⟨(completes_iff q eof).mp hc, rfl⟩⟩
  · rename_i hc
    exact ⟨_, .inr ⟨fun h => hc ((completes_iff q eof).mpr h), rfl⟩⟩

theorem stateTransition_same_iff (q : T) (eof : Int) : stateTransition eof q.state = q.state ↔ Ended q := by
  unfold Ended
  cases h : q.state <;> simp [stateTransition]

/-- Only a queue that heard its end, with no reader the new one completes, is the same
    after `shutdown`. -/
theorem shutdown_same_iff (q : T) (eof : Int) : SameState q (shutdown q eof) ↔ Ended q ∧ ¬ Completes q eof := by
  obtain ⟨l, ⟨hc, h⟩ | ⟨hc, h⟩⟩ := shutdown_moves q eof
  · refine ⟨fun hs => ?_, fun hs => absurd hc hs.2⟩
    -- the reader that waited is gone
    have hb := hs.bufferSize
    rw [h] at hb
    exact absurd hb.symm hc.2.2
  · rw [h]
    constructor
    · intro hs
      exact ⟨(stateTransition_same_iff q eof).mp hs.state, hc⟩
    · intro ⟨hend, _⟩
      have hst := (stateTransition_same_iff q eof).mpr hend
      unfold SameState
      rw [hst]

theorem fireEvent_eq_iff (hs : Ended q) : fireEvent q = q ↔ Ending q := by
  have hne : ∀ e, callback q e ≠ q := by
    intro e h
    have hl := congrArg (fun p => p.log.length) h
    simp [callback, emit] at hl
  unfold fireEvent Ending
  rcases hs with ⟨e, h⟩ | h
  · simp only [h, State.amShutdown.injEq, exists_eq_left']
    cases endsAt e q.offset
    · simp
    · simp [hne]
  · simp [h, hne]

theorem Ending.ended (h : Ending q) : Ended q := .inl (by obtain ⟨e, h, -⟩ := h; exact ⟨e, h⟩)

/-- It runs no callback only where the end it heard first is still to come. -/
theorem shutdown_eq_iff (q : T) (eof : Int) : shutdown q eof = q ↔ Ending q ∧ ¬ Completes q eof := by
  have hfire : Ended q → ¬ Completes q eof → shutdown q eof = fireEvent q := by
    intro hend hc
    have hlive : q.state ≠ .amConnected := by
      rcases hend with ⟨e, h⟩ | h <;> simp [h]
    have hst := (stateTransition_same_iff q eof).mpr hend
    obtain ⟨l, hl⟩ := fireEvent_log q
    have hno : ¬ (endsAt eof q.offset && q.ready.isEmpty && decide (q.bufferSize ≠ noBuffer)) = true :=
      fun h => hc ((completes_iff q eof).mp h)
    unfold shutdown
    simp only [hlive, if_false, hst, hl]
    exact if_neg hno
  constructor
  · intro h
    obtain ⟨hend, hc⟩ := (shutdown_same_iff q eof).mp (by rw [h]; rfl)
    rw [hfire hend hc] at h
    exact ⟨(fireEvent_eq_iff hend).mp h, hc⟩
  · intro ⟨hend, hc⟩
    rw [hfire hend.ended hc]
    exact (fireEvent_eq_iff hend.ended).mpr hend

/-! ## Refused segments -/

theorem classify_reject_iff (q : T) (o : Int) (data : Bytes) :
    classify q o data = .reject ↔ Key.lt q.barrier (o + data.length) = true := by
  unfold classify
  simp only
  split_ifs with h <;> simp [h]

/-- A refused DATA segment does what its end does, and nothing else. -/
theorem recvDATA_refused (q : T) (eof : Bool) (o : Int) (data : Bytes) (react : List Op) :
    (recvDATA q eof o data react).2 = false ↔ Key.lt q.barrier (o + data.length) = true := by
  rw [← classify_reject_iff]
  unfold recvDATA recvData
  cases classify q o data <;> simp

theorem recvDATA_of_refused {o : Int} {data : Bytes} (h : Key.lt q.barrier (o + data.length) = true) (eof : Bool)
    (react : List Op) :
    (recvDATA q eof o data react).1 = if eof then shutdown q (word32 (o + data.length)) else q := by
  have hc := (classify_reject_iff q o data).mpr h
  simp [recvDATA, recvData, feeds, hc]

/-- Where the data of a segment begin. -/
def beginOf (offset : Bool) : Nat := if offset then 8 else 4

theorem recv_data (q : T) (data : Slice) (eof offset : Bool) (length : Nat) (react : List Op) :
    recv q data (.data eof offset length) react =
      if data.length < needOf offset length then .ok (q, -1)
      else
        startOf data offset >>= fun start =>
        data.subslice (beginOf offset) length >>= fun sub =>
        .ok ((recvDATA q eof start sub.bytes react).1,
          if (recvDATA q eof start sub.bytes react).2 then (needOf offset length : Int) else -1) := by
  cases offset <;> rfl

theorem subslice_length {s sub : Slice} {i n : Nat} (h : s.subslice i n = .ok sub) : sub.bytes.length = n := by
  unfold Slice.subslice at h
  split at h
  · cases h
  · rename_i hs
    cases h
    simp only [Slice.length] at hs
    simp only [List.length_take, List.length_drop]
    omega

theorem subslice_ok {s : Slice} {i n : Nat} (h : i + n ≤ s.length) : ∃ sub, s.subslice i n = .ok sub :=
  ⟨_, if_neg (by omega)⟩

/-- What a refused segment leaves. -/
theorem recv_refused {data : Slice} {x : PacketFormat.Reader} {react : List Op} (h : recv q data x react = .ok (q', -1)) :
    q' = q ∨ ∃ eof, EndsPastBarrier q data x eof ∧ q' = shutdown q eof := by
  cases x with
  | writerResets => cases h
  | data eof offset length =>
    rw [recv_data] at h
    split at h
    · cases h
      exact .inl rfl
    rename_i hneed
    obtain ⟨start, hstart, h⟩ := bind_ok h
    obtain ⟨sub, hsub, h⟩ := bind_ok h
    have hlen := subslice_length hsub
    simp only [Except.ok.injEq, Prod.mk.injEq] at h
    obtain ⟨rfl, hn⟩ := h
    have hno : (recvDATA q eof start sub.bytes react).2 = false := by
      by_contra hok
      simp only [Bool.not_eq_false] at hok
      rw [if_pos hok] at hn
      omega
    have hlt := (recvDATA_refused q eof start sub.bytes react).mp hno
    rw [recvDATA_of_refused hlt]
    rw [hlen] at hlt ⊢
    cases eof with
    | false => exact .inl rfl
    | true =>
      exact .inr ⟨_, ⟨offset, length, start, rfl, by omega, hstart, hlt, rfl⟩, rfl⟩

/-- A segment that ends past the barrier is refused, and its end is recorded. -/
theorem recv_ends {data : Slice} {x : PacketFormat.Reader} {eof : Int} (h : EndsPastBarrier q data x eof)
    (react : List Op) : recv q data x react = .ok (shutdown q eof, -1) := by
  obtain ⟨offset, length, start, rfl, hneed, hstart, hlt, rfl⟩ := h
  have hwhole : beginOf offset + length ≤ data.length := by
    have := le_align length
    unfold needOf at hneed
    unfold beginOf
    omega
  obtain ⟨sub, hsub⟩ := subslice_ok hwhole
  have hlen := subslice_length hsub
  rw [← hlen] at hlt
  have h1 := recvDATA_of_refused hlt true react
  have h2 := (recvDATA_refused q true start sub.bytes react).mpr hlt
  rw [recv_data, if_neg (by omega), hstart]
  simp only [bind, Except.bind, hsub, h1, h2, hlen, if_true]
  rfl

/-- A refused segment leaves the queue as it was unless it carries the end of the stream
    past the barrier to a queue that has not heard an end yet, or whose reader that end
    completes; and then it runs no callback if the end heard first is still to come. -/
theorem refused_unchanged_iff (q : T) (data : Slice) (x : PacketFormat.Reader) (react : List Op) :
    ((∀ q', recv q data x react = .ok (q', -1) → SameState q q') ↔
        ∀ eof, EndsPastBarrier q data x eof → Ended q ∧ ¬ Completes q eof) ∧
      ((∀ q', recv q data x react = .ok (q', -1) → q' = q) ↔
        ∀ eof, EndsPastBarrier q data x eof → Ending q ∧ ¬ Completes q eof) := by
  refine ⟨⟨fun h eof he => ?_, fun h q' hq => ?_⟩, fun h eof he => ?_, fun h q' hq => ?_⟩
  · exact (shutdown_same_iff q eof).mp (h _ (recv_ends he react))
  · rcases recv_refused hq with rfl | ⟨eof, he, rfl⟩
    · exact rfl
    · exact (shutdown_same_iff q eof).mpr (h eof he)
  · exact (shutdown_eq_iff q eof).mp (h _ (recv_ends he react))
  · rcases recv_refused hq with rfl | ⟨eof, he, rfl⟩
    · rfl
    · exact (shutdown_eq_iff q eof).mpr (h eof he)

/-- A new queue: an end at 30000, past the barrier, is refused and recorded. -/
theorem refused_end_recorded :
    ¬ ∀ (q : T) (data : Slice) (x : PacketFormat.Reader) (react : List Op) (q' : T),
      recv q data x react = .ok (q', -1) → SameState q q' := by
  intro h
  have hr := h (new 0) ⟨0, [0x30, 0, 0, 7, 0, 0, 0x75, 0x30]⟩ (.data true true 0) []
    { new 0 with state := .amShutdown 30000, log := [.event (.rts .negInf)] } (by decide)
  exact absurd hr.state (by decide)

end BubbleStorm.Cusp.Stream.InStreamQueue
