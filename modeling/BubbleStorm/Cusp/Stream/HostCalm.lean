/-
  BubbleStorm.Cusp.Stream.HostCalm — an in-stream that has no id is never pulled.

  `mood` is the record of an in-stream that has heard all its queue fired. While the
  record is in the heap, a stream that is CONNECTED or RESET has its id, and one that is
  SHUTDOWN, which may have lost it, has nothing to send (`Calm`). So what is pulled has
  an id, and `InStreamQueue.pull` is not called where it is unreachable.
-/

import BubbleStorm.Cusp.Stream.InStreamProofs
import BubbleStorm.Cusp.Stream.HostEvents

namespace BubbleStorm.Cusp.Stream.HostDispatch

open InStreamQueue (emit isReset read_reads reset resetTransition)
open InStreamQueue (callback fireEvent runReader)

/-- The record of an in-stream made under the id `i`, as far as its log has it. -/
def mood (i : Nat) (q : InStreamQueue.T) : Record := q.log.foldl Record.hearIn ⟨.noStream, i, 0, true, .negInf⟩

structure Calm (i : Nat) (down : Bool) (base : List InStreamQueue.Out) (q : InStreamQueue.T) : Prop where
  settled : (mood i q).inHeap = true →
    match q.state with
    | .amConnected | .amReset => (mood i q).id = i
    | .amShutdown _ => (mood i q).priority = .negInf
    | .amResetDown => False
  reset : down = true → isReset q = true
  grew : base <+: q.log

variable {i : Nat} {down : Bool} {base : List InStreamQueue.Out} {q q' : InStreamQueue.T}

theorem mood_callback (q : InStreamQueue.T) (e : InStreamQueue.Event) :
    mood i (callback q e) = (mood i q).hearIn (.event e) := by
  unfold mood callback emit
  rw [List.foldl_append]
  rfl

theorem mood_runReader (q : InStreamQueue.T) (cb : Option Nat) (s : InStreamQueue.Status) :
    mood i (runReader q cb s) = mood i q := by
  cases cb with
  | none => rfl
  | some cb =>
    unfold mood runReader emit
    rw [List.foldl_append]
    rfl

theorem runReader_state (q : InStreamQueue.T) (cb : Option Nat) (s : InStreamQueue.Status) :
    (runReader q cb s).state = q.state := by
  cases cb with
  | none => rfl
  | some cb => rfl

theorem isReset_congr (hs : q'.state = q.state) : isReset q' = isReset q := by
  unfold isReset
  rw [hs]

theorem callback_grew (h : base <+: q.log) (e : InStreamQueue.Event) : base <+: (callback q e).log :=
  h.trans (List.prefix_append ..)

/-- What is said to the record is silent. -/
theorem Calm.silent (h : Calm i down base q) (hm : mood i q' = mood i q) (hs : q'.state = q.state) (hl : q.log <+: q'.log) :
    Calm i down base q' where
  settled := by
    rw [hm, hs]
    exact h.settled
  reset hd := (isReset_congr hs).trans (h.reset hd)
  grew := h.grew.trans hl

/-- `Calm` is about the log and the state. -/
theorem Calm.congr (h : Calm i down base q) (hl : q'.log = q.log) (hs : q'.state = q.state) : Calm i down base q' :=
  h.silent (congrArg (List.foldl Record.hearIn _) hl) hs (hl ▸ List.prefix_refl _)

theorem Calm.runReader (h : Calm i down base q) (cb : Option Nat) (s : InStreamQueue.Status) :
    Calm i down base (runReader q cb s) := by
  refine h.silent (mood_runReader ..) (runReader_state ..) ?_
  cases cb with
  | none => exact List.prefix_refl _
  | some cb => exact List.prefix_append ..

/-- The events that leave the record as it is. -/
theorem Calm.count (h : Calm i down base q) (e : InStreamQueue.Event) (he : ∀ record : Record, record.hearIn (.event e) = record) :
    Calm i down base (callback q e) :=
  h.silent ((mood_callback q e).trans (he _)) rfl (List.prefix_append ..)

/-- What is complete has left the heap. -/
theorem calm_complete (hd : down = true → isReset q = true) (hl : base <+: q.log) :
    Calm i down base (callback q .becameComplete) where
  settled h := by
    rw [mood_callback] at h
    cases h
  reset := hd
  grew := callback_grew hl _

theorem Calm.unassigned (h : Calm i down base q) {eof : Int} (hs : q.state = .amShutdown eof) : Calm i down base (callback q .becameUnassigned) := by
  refine ⟨fun hin => ?_, h.reset, callback_grew h.grew _⟩
  have hs' : (callback q .becameUnassigned).state = .amShutdown eof := hs
  rw [mood_callback] at hin ⊢
  rw [hs']
  have hp := h.settled hin
  rw [hs] at hp
  exact hp

/-- A priority is a matter of a stream that is not SHUTDOWN. -/
theorem Calm.rts (h : Calm i down base q) (prio : Real32) (hs : ∀ eof, q.state = .amShutdown eof → prio = .negInf) :
    Calm i down base (callback q (.rts prio)) := by
  refine ⟨fun hin => ?_, h.reset, callback_grew h.grew _⟩
  have hs' : (callback q (.rts prio)).state = q.state := rfl
  have hm : mood i (callback q (.rts prio)) = (mood i q).hearRTS prio := mood_callback q (.rts prio)
  rw [hm, hearRTS_inHeap] at hin
  have hc := h.settled hin
  rw [hm, hs', hearRTS_id]
  cases hst : q.state with
  | amConnected =>
    rw [hst] at hc
    exact hc
  | amReset =>
    rw [hst] at hc
    exact hc
  | amShutdown eof =>
    unfold Record.hearRTS
    rw [if_pos hin]
    exact hs eof hst
  | amResetDown =>
    rw [hst] at hc
    exact hc

/-- A stream that is RESET and down completes. -/
theorem calm_fireEvent (h : q.state ≠ .amResetDown → Calm i down base q) (hl : base <+: q.log) : Calm i down base (fireEvent q) := by
  unfold InStreamQueue.fireEvent
  split
  · rename_i eof hs
    have hc := h (by rw [hs]; exact InStreamQueue.State.noConfusion)
    split
    · exact hc.unassigned hs
    · exact hc
  · rename_i hs
    exact h (by rw [hs]; exact InStreamQueue.State.noConfusion)
  · rename_i hs
    refine calm_complete (fun _ => ?_) hl
    unfold isReset
    rw [hs]
    rfl
  · rename_i hs
    refine (h (by rw [hs]; exact InStreamQueue.State.noConfusion)).rts _ fun eof he => ?_
    rw [hs] at he
    cases he

/-! ## The calls -/

theorem calm_new (id : Nat) : Calm id false [] (InStreamQueue.new id) :=
  ⟨fun _ => rfl, fun h => (by cases h), List.nil_prefix⟩

theorem Calm.fireEvent (h : Calm i down base q) : Calm i down base (fireEvent q) := calm_fireEvent (fun _ => h) h.grew

theorem Calm.finishRead (h : Calm i down base q) (ready : List Bytes) (bufferSize : Int) (reader : Option Nat) (procBytes : Int) :
    Calm i down base (InStreamQueue.finishRead q ready bufferSize reader procBytes) := by
  unfold InStreamQueue.finishRead
  refine Calm.fireEvent (Calm.count ?_ _ fun _ => rfl)
  exact h.congr rfl rfl

theorem Calm.read (h : Calm i down base q) {bufferSize : Int} {reader : Nat} (hr : InStreamQueue.read q bufferSize reader = .ok q') :
    Calm i down base q' := by
  cases read_reads hr with
  | reset => exact h.runReader ..
  | wait => exact h.finishRead ..
  | atEnd => exact ((calm_complete h.reset h.grew).finishRead ..).runReader ..
  | hand => exact (h.finishRead ..).runReader ..

theorem resetTransition_cases (s : InStreamQueue.State) :
    (s = .amConnected ∨ s = .amReset) ∧ resetTransition s = .amReset ∨
      resetTransition s = .amResetDown := by
  cases s with
  | amConnected => exact .inl ⟨.inl rfl, rfl⟩
  | amShutdown eof => exact .inr rfl
  | amReset => exact .inl ⟨.inr rfl, rfl⟩
  | amResetDown => exact .inr rfl

/-- A stream that is CONNECTED becomes RESET, with its id. -/
theorem Calm.resets (h : Calm i down base q) (hs : q.state = .amConnected ∨ q.state = .amReset) (hl : q'.log = q.log)
    (hs' : q'.state = .amReset) : Calm i down base q' := by
  have hm : mood i q' = mood i q := congrArg (List.foldl Record.hearIn _) hl
  refine ⟨fun hin => ?_, fun _ => ?_, hl ▸ h.grew⟩
  · rw [hm] at hin ⊢
    rw [hs']
    have hc := h.settled hin
    rcases hs with hs | hs
    · rw [hs] at hc
      exact hc
    · rw [hs] at hc
      exact hc
  · unfold isReset
    rw [hs']
    rfl

/-- A stream that was CONNECTED keeps its id; one that was SHUTDOWN completes. -/
theorem calm_reset (h : (∃ eof, q.state = .amShutdown eof) ∨ Calm i down base q) (hl : base <+: q.log) :
    Calm i down base (reset q) := by
  unfold reset
  refine Calm.runReader (calm_fireEvent (fun hdown => Calm.count (Calm.rts ?_ _ fun eof he => ?_) _ fun _ => rfl) ?_) ..
  · -- neither SHUTDOWN nor down: the stream is CONNECTED or RESET
    obtain ⟨hst, hst'⟩ := (resetTransition_cases q.state).resolve_right hdown
    have hc : Calm i down base q := h.resolve_left fun hs => by
      obtain ⟨eof, hs⟩ := hs
      rw [hs] at hst
      rcases hst with hst | hst
      · cases hst
      · cases hst
    exact ((hc.count (.unreadBytes (-q.readyBytes)) fun _ => rfl).count (.outOfOrderBytes (-q.queuedBytes)) fun _ =>
      rfl).resets hst rfl hst'
  · have he' : resetTransition q.state = .amShutdown eof := he
    rcases resetTransition_cases q.state with ⟨-, hs⟩ | hs
    · rw [hs] at he'
      cases he'
    · rw [hs] at he'
      cases he'
  · exact callback_grew (callback_grew (callback_grew (callback_grew hl _) _) _) _

/-- A stream that was CONNECTED has nothing to send any more. -/
theorem Calm.ended (h : Calm i down base q) (hq : q.state = .amConnected) (eof : Int) :
    Calm i down base { callback q (.rts .negInf) with state := .amShutdown eof } := by
  refine ⟨fun hin => ?_, fun hd => ?_, callback_grew h.grew _⟩
  · have hm : mood i (callback q (.rts .negInf)) = (mood i q).hearRTS .negInf := mood_callback q _
    have hin' : ((mood i q).hearRTS .negInf).inHeap = true := hm ▸ hin
    rw [hearRTS_inHeap] at hin'
    show (mood i (callback q (.rts .negInf))).priority = .negInf
    rw [hm]
    unfold Record.hearRTS
    rw [if_pos hin']
  · have hreset := h.reset hd
    unfold isReset at hreset
    rw [hq] at hreset
    cases hreset

theorem Calm.shutdown (h : Calm i down base q) (eof : Int) : Calm i down base (InStreamQueue.shutdown q eof) := by
  have hended : ∀ q1, (if q.state = .amConnected then callback q (.rts .negInf) else q) = q1 →
      Calm i down base (InStreamQueue.fireEvent { q1 with state := InStreamQueue.stateTransition eof q1.state }) := by
    intro q1 same
    subst same
    by_cases hq : q.state = .amConnected
    · rw [if_pos hq]
      have hst : InStreamQueue.stateTransition eof (callback q (.rts .negInf)).state = .amShutdown eof := by
        rw [show (callback q (.rts .negInf)).state = .amConnected from hq]
        rfl
      rw [hst]
      exact (h.ended hq eof).fireEvent
    · rw [if_neg hq]
      refine calm_fireEvent (fun hdown => h.congr rfl ?_) h.grew
      show InStreamQueue.stateTransition eof q.state = q.state
      have hdown' : InStreamQueue.stateTransition eof q.state ≠ .amResetDown := hdown
      cases hs : q.state with
      | amConnected => exact absurd hs hq
      | amShutdown eof' => rfl
      | amReset => exact absurd (by rw [hs]; rfl) hdown'
      | amResetDown => rfl
  unfold InStreamQueue.shutdown
  generalize hq1 : (if q.state = .amConnected then callback q (.rts .negInf) else q) = q1
  dsimp only
  have hfired := hended q1 hq1
  split
  · refine Calm.runReader ?_ ..
    exact (calm_complete hfired.reset hfired.grew).congr rfl rfl
  · exact hfired

theorem Calm.exec (h : Calm i down base q) (op : InStreamQueue.Op) : Calm i down base (InStreamQueue.exec q op) := by
  cases op with
  | read bufferSize reader =>
    unfold InStreamQueue.exec
    dsimp only
    split
    · rename_i hr
      exact h.read hr
    · exact h
  | reset => exact calm_reset (.inr h) h.grew

theorem Calm.exec_all (h : Calm i down base q) (ops : List InStreamQueue.Op) : Calm i down base (ops.foldl InStreamQueue.exec q) := by
  induction ops generalizing q with
  | nil => exact h
  | cons op ops ih => exact ih (h.exec op)

theorem Calm.transferQueue (h : Calm i down base q) (data : Option Bytes) (recvd : Int) (hook : Option (Nat × Bytes)) :
    Calm i down base (InStreamQueue.transferQueue q data recvd hook) := by
  have moved : ∀ {q1 : InStreamQueue.T} (x y : Int), q1.log = q.log → q1.state = q.state →
      Calm i down base (InStreamQueue.fireEvent (callback (callback q1 (.outOfOrderBytes x)) (.unreadBytes y))) := by
    intro q1 x y hl hs
    exact Calm.fireEvent (((h.congr hl hs).count (.outOfOrderBytes x) fun _ => rfl).count (.unreadBytes y) fun _ => rfl)
  unfold InStreamQueue.transferQueue
  dsimp only
  split
  · refine Calm.runReader ?_ ..
    exact moved _ _ rfl rfl
  · exact moved _ _ rfl rfl

theorem Calm.feedReader (h : Calm i down base q) (data : Bytes) : Calm i down base (InStreamQueue.feedReader q data) := by
  unfold InStreamQueue.feedReader
  split
  · exact h.transferQueue ..
  · dsimp only
    split
    · exact h.transferQueue ..
    · exact h.transferQueue ..

theorem Calm.recvDATA (h : Calm i down base q) (eof : Bool) (offset : Int) (data : Bytes) (react : List InStreamQueue.Op) :
    Calm i down base (InStreamQueue.recvDATA q eof offset data react).1 := by
  have hdata : Calm i down base (InStreamQueue.recvData q offset data).1 := by
    unfold InStreamQueue.recvData
    split
    · exact h
    · exact h
    · exact h.feedReader _
    · have hqueue : ∀ q1 : InStreamQueue.T, q1.log = q.log → q1.state = q.state →
          Calm i down base (callback q1 (.outOfOrderBytes data.length)) := by
        intro q1 hl hs
        exact (h.congr hl hs).count _ fun _ => rfl
      exact hqueue _ rfl rfl
  have hreact : Calm i down base (if InStreamQueue.feeds q offset data then react.foldl InStreamQueue.exec
      (InStreamQueue.recvData q offset data).1 else (InStreamQueue.recvData q offset data).1) := by
    split
    · exact hdata.exec_all react
    · exact hdata
  unfold InStreamQueue.recvDATA
  dsimp only
  split
  · exact hreact.shutdown _
  · exact hreact

theorem Calm.recv (h : Calm i down base q) {data : Slice} {msg : PacketFormat.Reader} {react : List InStreamQueue.Op} {n : Int}
    (hr : InStreamQueue.recv q data msg react = .ok (q', n)) : Calm i down base q' := by
  cases msg with
  | writerResets =>
    cases hr
    exact calm_reset (.inl ⟨0, rfl⟩) h.grew
  | data eof offset length =>
    unfold InStreamQueue.recv at hr
    dsimp only at hr
    generalize (if offset = true then 8 else 4) = begin at hr
    by_cases hlen : data.length < PacketFormat.align length + begin
    · rw [if_pos hlen] at hr
      cases hr
      exact h
    · rw [if_neg hlen] at hr
      split at hr
      · obtain ⟨w, -, hr⟩ := bind_ok hr
        obtain ⟨d, -, hr⟩ := bind_ok hr
        cases hr
        exact h.recvDATA ..
      · obtain ⟨w, -, hr⟩ := bind_ok hr
        obtain ⟨d, -, hr⟩ := bind_ok hr
        cases hr
        exact h.recvDATA ..

theorem Calm.pull (h : Calm i down base q) {id seq : Nat} {p : InStreamQueue.Pulled} (hp : InStreamQueue.pull q id seq = .ok (p, q')) :
    Calm i down base q' := by
  have hrts : ∀ {q1 : InStreamQueue.T}, Calm i down base q1 → Calm i down base (callback q1 (.rts .negInf)) := fun h => h.rts _ fun _ _ => rfl
  unfold InStreamQueue.pull at hp
  split at hp
  · cases hp
  · cases hp
    exact hrts (h.congr rfl rfl)
  · cases hp
    exact hrts h

/-- A pulled reset is of a stream that is RESET. -/
theorem Calm.ack (h : Calm i down base q) {a : InStreamQueue.Ack} (ha : a = .reset → isReset q = true) (ok : Bool) :
    Calm i down base (InStreamQueue.ack q a ok) := by
  cases a with
  | reset =>
    cases ok with
    | true => exact calm_complete h.reset h.grew
    | false =>
      refine h.rts _ fun eof he => ?_
      have hd := ha rfl
      unfold isReset at hd
      rw [he] at hd
      cases hd
  | barrier oldOffset barrier lastBarrier =>
    cases ok with
    | true => exact Calm.fireEvent (h.congr rfl rfl)
    | false =>
      unfold InStreamQueue.ack
      dsimp only
      split
      · exact h
      · exact Calm.fireEvent (h.congr rfl rfl)

end BubbleStorm.Cusp.Stream.HostDispatch
