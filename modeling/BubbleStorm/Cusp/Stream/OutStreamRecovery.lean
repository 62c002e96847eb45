/-
  BubbleStorm.Cusp.Stream.OutStreamRecovery — a sending queue nothing of which is
  acknowledged.

  Until a callback acknowledges a segment, every byte a queue accepted is in the
  retransmit heap, in a segment whose callback has not run, or in the buffer
  (`Unheard`). When all of them have failed the queue is `Whole`: it can send the stream
  again from offset 0.
-/

import BubbleStorm.Cusp.Stream.SendLimit

namespace BubbleStorm.Cusp.Stream.OutStreamQueue

open Span

/-! ## A stream nothing of which is acknowledged -/

def Ack.segments : Ack → List Seg
  | .reset => []
  | .data segments _ => segments

/-- The callbacks `acks` have not run, and none has run that acknowledged a segment. -/
structure Unheard (q : T) (acks : List Ack) : Prop where
  live : q.state ≠ .amReset → ∃ high, Sends q (acks.flatMap Ack.segments) high (fun _ => False) ∧
    q.inflight.Perm (acks.flatMap Ack.segments)
  ends : ∀ p, q.state = .amShutdown p → p = .retransmit ∨ p = .inflight ∧ ∃ segments, Ack.data segments true ∈ acks
  stopped : q.state = .amReset → Stopped q

variable {q q' q'' : T} {acks acks' : List Ack}

theorem unheard_new : Unheard new [] where
  live _ := ⟨0, sends_new, .refl _⟩
  ends p hp := by cases hp
  stopped hs := by cases hs

theorem Unheard.perm (h : Unheard q acks) (hp : acks.Perm acks') : Unheard q acks' where
  live hs := by
    obtain ⟨high, hsends, hin⟩ := h.live hs
    have hflat : (acks.flatMap Ack.segments).Perm (acks'.flatMap Ack.segments) := hp.flatMap_right _
    exact ⟨high, hsends.perm hflat, hin.trans hflat⟩
  ends p hs := by
    rcases h.ends p hs with hr | ⟨hi, segments, hmem⟩
    · exact .inl hr
    · exact .inr ⟨hi, segments, hp.mem_iff.mp hmem⟩
  stopped := h.stopped

theorem Stopped.unheard (h : Stopped q) (acks : List Ack) : Unheard q acks where
  live hs := absurd h.state hs
  ends p hp := by rw [h.state] at hp; cases hp
  stopped _ := h

/-- A step that pulls nothing, and leaves the queue as it is in flight. -/
theorem Unheard.go (h : Unheard q acks) (hlive : q.state ≠ .amReset)
    (hs : ∀ held high, Sends q held high (fun _ => False) → Sends q' held high (fun _ => False)) (hf : Frame q q') :
    Unheard q' acks where
  live _ := by
    obtain ⟨high, hsends, hin⟩ := h.live hlive
    exact ⟨high, hs _ _ hsends, hf.inflight ▸ hin⟩
  ends p hp := by
    rcases hf.state with he | ⟨-, he⟩
    · exact h.ends p (he.symm.trans hp)
    · rw [he] at hp
      cases hp
      exact .inl rfl
  stopped hp := by
    rcases hf.state with he | ⟨-, he⟩
    · exact absurd (he.symm.trans hp) hlive
    · rw [he] at hp
      cases hp

theorem Unheard.exec (h : Unheard q acks) (op : Op) : Unheard (exec q op) acks := by
  by_cases hs : q.state = .amReset
  · exact ((h.stopped hs).exec op).unheard acks
  · by_cases hop : op = .reset
    · subst hop
      exact (stopped_reset q).unheard acks
    · exact h.go hs (fun _ _ hsends => hsends.exec hop) (exec_extends hs hop).toFrame

theorem stopped_doReset (q : T) : Stopped (doReset q) := by
  obtain ⟨l, -, e⟩ := doReset_cases q
  rw [e]
  exact (stopped_stopped q).ran l

theorem Unheard.recv (h : Unheard q acks) {data : Slice} {msg : PacketFormat.Writer} {n : Nat}
    (hr : recv q data msg = .ok (q', n)) : Unheard q' acks := by
  rcases recv_cases hr with ⟨b, -, rfl⟩ | ⟨-, rfl⟩
  · by_cases hs : q.state = .amReset
    · have hst : Stopped { q with barrier := (b : Int) } := (h.stopped hs).same rfl rfl rfl
      rw [hst.makeProgress]
      exact hst.unheard acks
    · refine Unheard.go (q := { q with barrier := (b : Int) }) ⟨fun hl => ?_, h.ends, fun hl => absurd hl hs⟩ hs
        (fun _ _ hsends => hsends.makeProgress) (makeProgress_extends _).toFrame
      obtain ⟨high, hsends, hin⟩ := h.live hl
      exact ⟨high, { hsends with }, hin⟩
  · have hst : Stopped (callback (doReset q) .becameComplete) := (stopped_doReset q).same rfl rfl rfl
    exact hst.unheard acks

theorem Unheard.named (h : Unheard q acks) (id : Nat) : Unheard { q with id := id } acks where
  live hs := by
    obtain ⟨high, hsends, hin⟩ := h.live hs
    exact ⟨high, { hsends with }, hin⟩
  ends := h.ends
  stopped hs := (h.stopped hs).same rfl rfl rfl

/-! ## Pulling -/

/-- What the calls of the application do to the state. -/
def Turned (s s' : State) : Prop := s' = s ∨ s' = .amShutdown .retransmit ∨ s' = .amReset

theorem Turned.trans {s s' s'' : State} (h : Turned s s') (h' : Turned s' s'') : Turned s s'' := by
  rcases h' with rfl | h'
  · exact h
  · exact .inr h'

theorem makeProgress_state (q : T) : (makeProgress q).state = q.state := by
  rcases makeProgress_cases q with ⟨-, l, -, e⟩ | ⟨-, b, l, -, -, e⟩
  · rw [e]
    rfl
  · rw [e]
    rfl

theorem exec_turned (q : T) (op : Op) : Turned q.state (exec q op).state := by
  by_cases hop : op = .reset
  · subst hop
    exact .inr (.inr (stopped_reset q).state)
  · by_cases hs : q.state = .amReset
    · rcases exec_idle hs hop with ⟨l, e⟩ | ⟨prio, e⟩
      · rw [e]
        exact .inl rfl
      · rw [e]
        exact .inl rfl
    · rcases (exec_extends hs hop).state with he | ⟨-, he⟩
      · exact .inl he
      · exact .inr (.inl he)

theorem carried_turned : Carried fun q q' => Turned q.state q'.state where
  refl _ := .inl rfl
  trans h h' := h.trans h'
  progress q := .inl (makeProgress_state q)
  exec := exec_turned
  heap _ _ _ := .inl rfl

/-- Only a segment with the end of the stream marks it as in flight. -/
theorem pull_ends (q : T) (id room : Nat) (react : List (List Op)) {p : Progress}
    (hp : (pull q id room react).2.state = .amShutdown p) :
    p = .retransmit ∨ q.state = .amShutdown p ∨ p = .inflight ∧ ∃ segments, (pull q id room react).1.ack = .data segments true := by
  unfold pull at hp ⊢
  split
  · rename_i hs
    rw [if_pos hs] at hp
    exact .inr (.inl hp)
  · rename_i hs
    rw [if_neg hs] at hp
    have hturned := carried_turned.pullSegments q (pullLimit q room) react
    generalize pullSegments q (pullLimit q room) react = r at hturned hp ⊢
    obtain ⟨segments, q1⟩ := r
    dsimp only at hturned hp ⊢
    rcases attachEOF_cases q1.state (word32 (pullOffset q + lens segments) = word32 q1.sendOffset) with e | ⟨-, -, e⟩
    · rw [e] at hp
      have hp1 : q1.state = .amShutdown p := hp
      rcases hturned with ht | ht | ht
      · exact .inr (.inl (ht.symm.trans hp1))
      · rw [ht] at hp1
        cases hp1
        exact .inl rfl
      · rw [ht] at hp1
        cases hp1
    · rw [e] at hp ⊢
      cases hp
      exact .inr (.inr ⟨rfl, segments, rfl⟩)

theorem Unheard.pull (h : Unheard q acks) (id room : Nat) (react : List (List Op)) :
    Unheard (pull q id room react).2 ((pull q id room react).1.ack :: acks) := by
  have hends : ∀ p, (OutStreamQueue.pull q id room react).2.state = .amShutdown p → p = .retransmit ∨
      p = .inflight ∧ ∃ segments, Ack.data segments true ∈ (OutStreamQueue.pull q id room react).1.ack :: acks := by
    intro p hp
    rcases pull_ends q id room react hp with hr | hq | ⟨hi, segments, hack⟩
    · exact .inl hr
    · rcases h.ends p hq with hr | ⟨hi, segments, hmem⟩
      · exact .inl hr
      · exact .inr ⟨hi, segments, .tail _ hmem⟩
    · exact .inr ⟨hi, segments, hack ▸ .head _⟩
  by_cases hs : q.state = .amReset
  · have hst := h.stopped hs
    rw [hst.pull]
    have hst' : Stopped (callback q (.rts .negInf)) := hst.same rfl rfl rfl
    exact hst'.unheard _
  · obtain ⟨high, hsends, hin⟩ := h.live hs
    rcases hsends.pull_any id room react with ⟨segments, eof, hp⟩ | hcut
    · refine ⟨fun _ => ⟨max high (pullOffset q + lens segments), ?_, ?_⟩, hends, fun hr => absurd hr hp.sends.live⟩
      · rw [hp.segment]
        exact hp.sends
      · rw [hp.segment]
        exact hp.inflight.trans (hin.append_left _)
    · exact hcut.stopped.unheard _

/-! ## Callbacks that fail -/

/-- A segment is lost, and fewer than 2^31 bytes were sent. -/
theorem Unheard.nack {a : Ack} (h : Unheard q (a :: acks)) (hw : q.sendOffset < 2 ^ 31) : Unheard (ack q a false) acks := by
  by_cases hs : q.state = .amReset
  · exact ((h.stopped hs).ack a false).unheard acks
  · obtain ⟨high, hsends, hin⟩ := h.live hs
    cases a with
    | reset => exact ⟨fun _ => ⟨high, hsends.ran fun b hb => by simp at hb, hin⟩, fun p hp => by
        rcases h.ends p hp with hr | ⟨hi, segments, hmem⟩
        · exact .inl hr
        · cases hmem with
          | tail _ hmem => exact .inr ⟨hi, segments, hmem⟩, fun hr => absurd hr hs⟩
    | data segments eof =>
      have hsplit : Sends q (segments ++ acks.flatMap Ack.segments) high fun _ => False := hsends
      have hacked := hsplit.requeue hin eof fun s hmem => by
        have h0 := (hsplit.records.lies s (List.mem_append_right _ (List.mem_append_left _ hmem))).nonneg
        have hle := hsplit.high_le
        omega
      have hstate : (ack q (.data segments eof) false).state = ackState q.state eof false := by
        rw [ack_false_eq hs]
        rfl
      refine ⟨fun _ => ⟨high, hacked.sends, hacked.inflight⟩, fun p hp => ?_, fun hr => absurd hr hacked.sends.live⟩
      rw [hstate] at hp
      cases hq : q.state with
      | amConnected =>
        rw [hq] at hp
        cases eof <;> cases hp
      | amReset => exact absurd hq hs
      | amShutdown p' =>
        rw [hq] at hp
        rcases h.ends p' hq with rfl | ⟨rfl, segments', hmem⟩
        · cases eof <;> cases hp <;> exact .inl rfl
        · cases eof with
          | true =>
            cases hp
            exact .inl rfl
          | false =>
            cases hp
            cases hmem with
            | tail _ hmem => exact .inr ⟨rfl, segments', hmem⟩

/-- The queue holds every byte it ever accepted: those that were sent are in the
    retransmit heap, from offset 0, and the others in the buffer; the end of the stream is
    sent again. -/
structure Whole (q : T) : Prop where
  lies : ∀ s ∈ q.retransmit, At (written q.log) s.offset s.data
  covered : ∀ p, 0 ≤ p → p < q.sendOffset → ∃ s ∈ q.retransmit, s.Covers p
  waits : ∃ pre : Bytes, written q.log = pre ++ q.waiting ∧ (pre.length : Int) = q.sendOffset
  ends : ∀ p, q.state = .amShutdown p → p = .retransmit

theorem Unheard.whole (h : Unheard q []) (hs : q.state ≠ .amReset) : Whole q := by
  obtain ⟨high, hsends, -⟩ := h.live hs
  refine ⟨fun s hmem => hsends.records.lies s (List.mem_append_left _ hmem), fun p h0 hlt => ?_, hsends.whole, fun p hp => ?_⟩
  · rcases hsends.covered p h0 hlt with ⟨s, hmem, hc⟩ | hf
    · exact ⟨s, by simpa using hmem, hc⟩
    · exact hf.elim
  · rcases h.ends p hp with hr | ⟨-, segments, hmem⟩
    · exact hr
    · cases hmem

/-! ## The application's calls complete nothing -/

/-- The queue goes on from `q` to `q'` without completing. -/
def Ongoing (q q' : T) : Prop := ∃ l, q'.log = q.log ++ l ∧ Out.event .becameComplete ∉ l

theorem ongoing_same (hl : q'.log = q.log) : Ongoing q q' := ⟨[], by simp [hl], by simp⟩

theorem Ongoing.trans (h : Ongoing q q') (h' : Ongoing q' q'') : Ongoing q q'' := by
  obtain ⟨l, hl, hn⟩ := h
  obtain ⟨l', hl', hn'⟩ := h'
  refine ⟨l ++ l', by rw [hl', hl, List.append_assoc], fun hmem => ?_⟩
  rcases List.mem_append.mp hmem with hmem | hmem
  · exact hn hmem
  · exact hn' hmem

theorem ongoing_emit (q : T) {o : Out} (h : o ≠ .event .becameComplete) : Ongoing q (emit q o) :=
  ⟨[o], rfl, fun hmem => h (List.mem_singleton.mp hmem).symm⟩

theorem ongoing_updateRTS (q : T) : Ongoing q (updateRTS q) := ongoing_emit q (by simp)

theorem ongoing_runWriter (q : T) (cb : Option Nat) (s : Status) : Ongoing q (runWriter q cb s) := by
  cases cb with
  | none => exact ongoing_same rfl
  | some cb => exact ongoing_emit q (by simp)

theorem ongoing_runShutdowner (q : T) (cb : Option Nat) (ok : Bool) : Ongoing q (runShutdowner q cb ok) := by
  cases cb with
  | none => exact ongoing_same rfl
  | some cb => exact ongoing_emit q (by simp)

theorem ongoing_makeProgress (q : T) : Ongoing q (makeProgress q) := by
  unfold makeProgress
  split
  · exact ongoing_updateRTS q
  · split
    · exact ongoing_same rfl
    · refine Ongoing.trans (Ongoing.trans ?_ (ongoing_updateRTS _)) (ongoing_runWriter _ _ _)
      exact ⟨[.event (.retransmitBytes _)], rfl, by simp⟩

theorem ongoing_reset (q : T) : Ongoing q (reset q) := by
  unfold reset doReset
  refine Ongoing.trans (Ongoing.trans (Ongoing.trans ?_ (ongoing_runShutdowner _ _ _)) (ongoing_runWriter _ _ _))
    (ongoing_updateRTS _)
  exact ⟨[.event (.retransmitBytes (-q.retransmitBytes)), .event .becameReset], by simp [callback, emit], by simp⟩

theorem ongoing_attempt {r : Except Exn T} (h : ∀ q', r = .ok q' → Ongoing q q') : Ongoing q (attempt q r) := by
  cases r with
  | error e => exact ongoing_same rfl
  | ok q' => exact h q' rfl

theorem ongoing_exec (q : T) (op : Op) : Ongoing q (exec q op) := by
  cases op with
  | write buffer writer =>
    apply ongoing_attempt
    intro q' h
    unfold write at h
    split at h
    · cases h
    · split at h
      · cases h
      · cases h
        exact ongoing_runWriter q _ _
      · cases h
        refine Ongoing.trans ?_ (ongoing_makeProgress _)
        exact ⟨[.wrote buffer], rfl, by simp⟩
  | shutdown cb =>
    apply ongoing_attempt
    intro q' h
    unfold shutdown at h
    split at h
    · cases h
    · split at h
      · cases h
      · cases h
        exact ongoing_runShutdowner q _ _
      · cases h
        refine Ongoing.trans ?_ (ongoing_updateRTS _)
        exact ongoing_same rfl
  | reset => exact ongoing_reset q
  | setPriority prio =>
    apply ongoing_attempt
    intro q' h
    unfold setPriority at h
    split at h
    · cases h
      refine Ongoing.trans ?_ (ongoing_updateRTS _)
      exact ongoing_same rfl
    · cases h

/-- A queue that is reset stays so. -/
theorem exec_isReset (q : T) (op : Op) (h : isReset q = true) : isReset (exec q op) = true := by
  have hs : q.state = .amReset := of_decide_eq_true h
  by_cases hop : op = .reset
  · subst hop
    exact decide_eq_true (stopped_reset q).state
  · rcases exec_idle hs hop with ⟨l, e⟩ | ⟨prio, e⟩
    · rw [e]
      exact h
    · rw [e]
      exact h

/-- The writer is told of a reset. -/
theorem reset_tells {cb : Nat} (h : q.writer = some cb) : Out.writer cb .reset ∈ (reset q).log := by
  simp [reset, doReset, updateRTS, callback, emit, runWriter, h]

/-- And of every later write it is told the same. -/
theorem reset_answers (q : T) (cb : Nat) (buffer : Word8Vector) : Out.writer cb .reset ∈ (exec (reset q) (.write buffer cb)).log := by
  have hst := stopped_reset q
  simp [exec, attempt, write, hst.state, hst.buffer, runWriter, emit]

end BubbleStorm.Cusp.Stream.OutStreamQueue
