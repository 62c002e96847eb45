/-
  BubbleStorm.Cusp.Stream.OutStreamReset — the sending half once it is reset, and what
  no call touches.

  A reset empties the queue for good (`Stopped`): later calls only run callbacks. A
  relation that no call breaks holds over a whole pull (`Carried`). The barrier is set by
  the reader's updates and by nothing else.
-/

import BubbleStorm.Cusp.Stream.OutStreamProofs

namespace BubbleStorm.Cusp.Stream.OutStreamQueue

/-- What a reset changes besides the log. -/
def T.stopped (q : T) : T :=
  { q with state := .amReset, retransmit := [], retransmitBytes := 0, writer := none, shutdowner := none,
           buffer := none }

variable {q q' : T}

theorem doReset_eq (q : T) : ∃ e e', doReset q = q.stopped.ran
    (.event e :: .event e' :: ((q.shutdowner.map (Out.shutdowner · false)).toList ++ (q.writer.map (Out.writer · .reset)).toList)) := by
  have h : doReset q = runWriter (runShutdowner ((q.stopped.ran [.event (.retransmitBytes (-q.retransmitBytes))]).ran
    [.event .becameReset]) q.shutdowner false) q.writer .reset := rfl
  rw [runWriter_eq, runShutdowner_eq, T.ran_ran, T.ran_ran, T.ran_ran] at h
  exact ⟨_, _, h⟩

theorem doReset_cases (q : T) : ∃ l, Quiet l ∧ doReset q = q.stopped.ran l := by
  obtain ⟨e₁, e₂, e⟩ := doReset_eq q
  refine ⟨_, fun b hb => ?_, e⟩
  cases hw : q.writer <;> cases hs : q.shutdowner <;> simp [hw, hs] at hb

theorem reset_cases (q : T) : ∃ l, Quiet l ∧ reset q = q.stopped.ran l := by
  obtain ⟨l, hl, e⟩ := doReset_cases q
  have h : reset q = updateRTS (q.stopped.ran l) := congrArg updateRTS e
  rw [updateRTS_eq, T.ran_ran] at h
  refine ⟨_, fun b hb => ?_, h⟩
  rcases List.mem_append.mp hb with hb | hb
  · exact hl b hb
  · simp at hb

/-- Nothing is left to send. -/
structure Stopped (q : T) : Prop where
  state : q.state = .amReset
  retransmit : q.retransmit = []
  buffer : q.buffer = none

theorem Stopped.same (h : Stopped q) (hs : q'.state = q.state) (hr : q'.retransmit = q.retransmit)
    (hb : q'.buffer = q.buffer) : Stopped q' :=
  ⟨hs.trans h.state, hr.trans h.retransmit, hb.trans h.buffer⟩

theorem Stopped.ran (h : Stopped q) (l : List Out) : Stopped (q.ran l) := h.same rfl rfl rfl

theorem stopped_stopped (q : T) : Stopped q.stopped := ⟨rfl, rfl, rfl⟩

theorem stopped_reset (q : T) : Stopped (reset q) := by
  obtain ⟨l, -, e⟩ := reset_cases q
  rw [e]
  exact (stopped_stopped q).ran l

theorem Stopped.makeProgress (h : Stopped q) : makeProgress q = q := by
  simp [OutStreamQueue.makeProgress, h.retransmit, h.buffer]

/-- A queue that is reset answers a call at once, or refuses it. -/
theorem exec_answers (hs : q.state = .amReset) {op : Op} (hop : op ≠ .reset) :
    exec q op = q ∨ (∃ b cb, op = .write b cb ∧ exec q op = q.ran [.writer cb .reset]) ∨
      (∃ cb, op = .shutdown cb ∧ exec q op = q.ran [.shutdowner cb false]) ∨
      ∃ prio, exec q op = updateRTS { q with priority := prio } := by
  cases op with
  | write b cb =>
    simp only [exec, write, hs]
    split
    · exact .inl rfl
    · exact .inr (.inl ⟨b, cb, rfl, runWriter_eq q (some cb) .reset⟩)
  | shutdown cb =>
    simp only [exec, shutdown, hs]
    split
    · exact .inl rfl
    · exact .inr (.inr (.inl ⟨cb, rfl, runShutdowner_eq q (some cb) false⟩))
  | reset => exact absurd rfl hop
  | setPriority prio =>
    simp only [exec, setPriority]
    split
    · exact .inr (.inr (.inr ⟨prio, rfl⟩))
    · exact .inl rfl

/-- A call on a queue that is reset only runs callbacks. -/
theorem exec_idle (hs : q.state = .amReset) {op : Op} (hop : op ≠ .reset) :
    (∃ l, exec q op = q.ran l) ∨ ∃ prio, exec q op = updateRTS { q with priority := prio } := by
  rcases exec_answers hs hop with e | ⟨b, cb, -, e⟩ | ⟨cb, -, e⟩ | h
  · exact .inl ⟨[], e.trans q.ran_nil.symm⟩
  · exact .inl ⟨_, e⟩
  · exact .inl ⟨_, e⟩
  · exact .inr h

theorem Stopped.exec (h : Stopped q) (op : Op) : Stopped (exec q op) := by
  by_cases hop : op = .reset
  · subst hop
    exact stopped_reset q
  · rcases exec_idle h.state hop with ⟨l, e⟩ | ⟨prio, e⟩
    · rw [e]
      exact h.ran l
    · rw [e]
      exact h.same rfl rfl rfl

theorem Stopped.exec_all (h : Stopped q) (ops : List Op) : Stopped (ops.foldl OutStreamQueue.exec q) := by
  induction ops generalizing q with
  | nil => exact h
  | cons op ops ih => exact ih (h.exec op)

theorem Stopped.pull (h : Stopped q) (id room : Nat) (react : List (List Op)) :
    pull q id room react = (⟨.reader .writerResets id, [], .reset⟩, callback q (.rts .negInf)) := by
  unfold OutStreamQueue.pull
  rw [if_pos h.state]

theorem Stopped.ack (h : Stopped q) (a : Ack) (ok : Bool) : Stopped (ack q a ok) := by
  cases a with
  | reset => cases ok <;> exact h.ran _
  | data segments eof =>
    have hstate : ackState q.state eof ok = .amReset := by rw [h.state]; cases eof <;> rfl
    have e : OutStreamQueue.ack q (.data segments eof) ok = checkDone (OutStreamQueue.makeProgress
        { q with inflight := segments.foldl heapRemove q.inflight, log := q.log ++ [.event (.inflightBytes (-lens segments))],
                 state := .amReset, bytesSent := q.bytesSent + (if ok then lens segments else 0),
                 inflightBytes := q.inflightBytes - lens segments, retransmitBytes := q.retransmitBytes + 0 }) := by
      simp [OutStreamQueue.ack, callback, emit, hstate]
    generalize hq2 : ({ q with inflight := _, log := _, state := _, bytesSent := _, inflightBytes := _,
                               retransmitBytes := _ } : T) = q2 at e
    have h2 : Stopped q2 := hq2 ▸ h.same h.state.symm rfl rfl
    have hnot : amDone q2 = false := by simp [amDone, h2.state]
    rw [e, h2.makeProgress, checkDone, hnot]
    exact h2

/-- What `recv` does with a segment from the reader. -/
theorem recv_cases {data : Slice} {x : PacketFormat.Writer} {n : Nat} (h : recv q data x = .ok (q', n)) :
    (∃ b : Nat, x = .readerBarrier ∧ q' = makeProgress { q with barrier := b }) ∨
      x = .readerResets ∧ q' = callback (doReset q) .becameComplete := by
  cases x with
  | readerBarrier =>
    obtain ⟨b, -, h⟩ := bind_ok h
    cases h
    exact .inl ⟨b, rfl, rfl⟩
  | readerResets =>
    cases h
    exact .inr ⟨rfl, rfl⟩

/-! ## What a pull keeps -/

/-- A relation between a queue and what becomes of it. Neither a call breaks it, nor what
    a pull does to the retransmit heap. -/
structure Carried (R : T → T → Prop) : Prop where
  refl (q : T) : R q q
  trans {q q' q'' : T} (h : R q q') (h' : R q' q'') : R q q''
  progress (q : T) : R q (makeProgress q)
  exec (q : T) (op : Op) : R q (exec q op)
  heap (q : T) (retransmit : List Seg) (fresh : Nat) : R q { q with retransmit := retransmit, fresh := fresh }

section carried

variable {R : T → T → Prop}

theorem Carried.execs (C : Carried R) (q : T) (ops : List Op) : R q (ops.foldl OutStreamQueue.exec q) := by
  induction ops generalizing q with
  | nil => exact C.refl q
  | cons op ops ih => exact C.trans (C.exec q op) (ih _)

theorem Carried.makeProgressThen (C : Carried R) (q : T) (react : List (List Op)) : R q (makeProgressThen q react).1 := by
  unfold OutStreamQueue.makeProgressThen
  split
  · exact C.trans (C.progress q) (C.execs _ _)
  · exact C.progress q

/-- Records are popped, and the writers that run meanwhile may call. -/
theorem Carried.pullContiguousSegments (C : Carried R) (fuel : Nat) (q : T) (room : Nat) (offset : Int) (react : List (List Op)) :
    R q (pullContiguousSegments fuel q room offset react).2 := by
  induction fuel generalizing q room offset react with
  | zero => exact C.refl q
  | succ fuel ih =>
    rw [OutStreamQueue.pullContiguousSegments]
    split
    · exact C.refl q
    · rename_i segment retransmit hpop
      have h := C.trans (C.heap q retransmit q.fresh) (C.makeProgressThen { q with retransmit := retransmit } react)
      dsimp only
      split
      · split
        · exact h
        · exact C.trans h (ih _ _ _ _)
      · exact C.heap q _ _

theorem Carried.pullSegments (C : Carried R) (q : T) (room : Nat) (react : List (List Op)) :
    R q (pullSegments q room react).2 := by
  unfold OutStreamQueue.pullSegments
  split
  · exact C.refl q
  · exact C.pullContiguousSegments _ _ _ _ _

end carried

/-! ## The barrier -/

@[simp] theorem makeProgress_barrier (q : T) : (makeProgress q).barrier = q.barrier := (makeProgress_extends q).barrier

@[simp] theorem doReset_barrier (q : T) : (doReset q).barrier = q.barrier := by
  obtain ⟨l, -, e⟩ := doReset_cases q
  rw [e]
  rfl

@[simp] theorem exec_barrier (q : T) (op : Op) : (exec q op).barrier = q.barrier := by
  by_cases hop : op = .reset
  · subst hop
    exact doReset_barrier q
  · by_cases hs : q.state = .amReset
    · rcases exec_idle hs hop with ⟨l, e⟩ | ⟨prio, e⟩
      · rw [e]
        rfl
      · rw [e]
        rfl
    · exact (exec_extends hs hop).barrier

theorem carried_barrier : Carried fun q q' => q'.barrier = q.barrier :=
  ⟨fun _ => rfl, fun h h' => h'.trans h, makeProgress_barrier, exec_barrier, fun _ _ _ => rfl⟩

theorem pull_barrier (q : T) (id room : Nat) (react : List (List Op)) : (pull q id room react).2.barrier = q.barrier := by
  by_cases hs : q.state = .amReset
  · unfold pull
    rw [if_pos hs]
    rfl
  · rw [pull_eq hs]
    exact carried_barrier.pullSegments q (pullLimit q room) react

theorem ack_barrier (q : T) (a : Ack) (ok : Bool) : (ack q a ok).barrier = q.barrier := by
  have hd : ∀ q : T, (checkDone q).barrier = q.barrier := by
    intro q
    rcases checkDone_cases q with e | ⟨-, l, -, e⟩
    · rw [e]
    · rw [e]
      rfl
  cases a with
  | reset => cases ok <;> rfl
  | data segments eof =>
    simp only [ack]
    split
    · rfl
    · rw [hd, makeProgress_barrier]
      rfl

end BubbleStorm.Cusp.Stream.OutStreamQueue
