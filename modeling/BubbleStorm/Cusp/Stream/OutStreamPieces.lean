/-
  BubbleStorm.Cusp.Stream.OutStreamPieces — where the bytes of a sending queue are,
  whatever happens to it.

  `Sends` knows the positions of the records and needs the order of the retransmit heap
  for that, which a segment that is lost very late breaks. Which bytes are where needs no
  order: records change heaps, or are cut in two, and only a reset drops any. So while
  the queue is not reset the bytes in the retransmit heap, in flight, acknowledged and in
  the buffer are those written, each once (`Pieces`).
-/

import BubbleStorm.Cusp.Stream.OutStreamRecovery

namespace BubbleStorm.Cusp.Stream.OutStreamQueue

/-! ## Pieces of the stream -/

/-- `held` are the records in flight, or popped by a running pull, and `heard` those
    acknowledged. -/
structure Pieces (q : T) (held heard : List Seg) : Prop where
  refs : ((q.retransmit ++ held).map Seg.ref).Nodup
  fresh : ∀ s ∈ q.retransmit ++ held, s.ref < q.fresh
  bytes : q.state ≠ .amReset → (payload (q.retransmit ++ (held ++ heard)) ++ q.waiting).Perm (written q.log)
  shut : ∀ p, q.state = .amShutdown p → q.buffer = none
  stopped : q.state = .amReset → Stopped q

variable {q q' : T} {held held' heard : List Seg}

@[simp] theorem payload_append (l l' : List Seg) : payload (l ++ l') = payload l ++ payload l' := by
  simp [payload]

theorem payload_perm {l l' : List Seg} (h : l.Perm l') : (payload l).Perm (payload l') := by
  unfold payload
  rw [← List.flatMap_def, ← List.flatMap_def]
  exact h.flatMap_right _

theorem pieces_new : Pieces new [] [] where
  refs := .nil
  fresh s h := by cases h
  bytes _ := .refl _
  shut p h := by cases h
  stopped h := by cases h

theorem Pieces.perm (h : Pieces q held heard) (p : held.Perm held') : Pieces q held' heard where
  refs := ((p.append_left _).map Seg.ref).nodup_iff.mp h.refs
  fresh s hs := h.fresh s ((p.append_left _).mem_iff.mpr hs)
  bytes hs := ((payload_perm ((p.append_right heard).append_left _)).append_right _).symm.trans (h.bytes hs)
  shut := h.shut
  stopped := h.stopped

theorem Pieces.ran (h : Pieces q held heard) {l : List Out} (hl : Quiet l) : Pieces (q.ran l) held heard := by
  have e : written (q.ran l).log = written q.log := by
    rw [T.ran_log, written_append, hl.written, List.append_nil]
  exact ⟨h.refs, h.fresh, by rw [e]; exact h.bytes, h.shut, fun hs => (h.stopped hs).ran l⟩

/-- A new record takes a new name. -/
theorem Pieces.moved (h : Pieces q held heard) (hr : q.retransmit = []) {b : Word8Vector} (hb : q.buffer = some b) :
    Pieces (q.moved b) held heard := by
  have hlive : q.state ≠ .amReset := fun hs => by rw [(h.stopped hs).buffer] at hb; cases hb
  have hrefs := h.refs
  have hfresh := h.fresh
  have hbytes := h.bytes hlive
  rw [hr, List.nil_append] at hrefs hfresh hbytes
  refine ⟨List.nodup_cons.mpr ⟨fun hm => ?_, hrefs⟩, ?_, fun _ => ?_, fun p _ => rfl, fun hs => absurd hs hlive⟩
  · obtain ⟨s, hs, e⟩ := List.mem_map.mp hm
    exact absurd (hfresh s hs) (by simp only at e; omega)
  · rintro s (_ | ⟨_, hs⟩)
    · exact Nat.lt_succ_self _
    · exact Nat.lt_succ_of_lt (hfresh s hs)
  · have hwait : q.waiting = b.val := by simp only [T.waiting, hb]
    rw [hwait] at hbytes
    have hnew : (q.moved b).waiting = [] := rfl
    rw [hnew, List.append_nil]
    exact List.perm_append_comm.trans hbytes

theorem Pieces.makeProgress (h : Pieces q held heard) : Pieces (makeProgress q) held heard := by
  rcases makeProgress_cases q with ⟨-, l, hl, e⟩ | ⟨hr, b, l, hb, hl, e⟩
  · rw [e]; exact h.ran hl.quiet
  · rw [e]; exact (h.moved hr hb).ran hl.quiet

theorem Pieces.updateRTS (h : Pieces q held heard) : Pieces (updateRTS q) held heard := by
  rw [updateRTS_eq]; exact h.ran fun b hb => by simp at hb

theorem Pieces.prioritized (h : Pieces q held heard) (prio : Real32) : Pieces { q with priority := prio } held heard :=
  ⟨h.refs, h.fresh, h.bytes, h.shut, fun hs => (h.stopped hs).same rfl rfl rfl⟩

/-- A reset drops what is still to be sent. -/
theorem Pieces.stop (h : Pieces q held heard) : Pieces q.stopped held heard where
  refs := h.refs.sublist ((List.sublist_append_right _ _).map _)
  fresh s hs := h.fresh s (List.mem_append_right _ hs)
  bytes hs := absurd rfl hs
  shut p hp := by cases hp
  stopped _ := stopped_stopped q

theorem Pieces.doReset (h : Pieces q held heard) : Pieces (doReset q) held heard := by
  obtain ⟨l, hl, e⟩ := doReset_cases q
  rw [e]
  exact h.stop.ran hl

theorem Pieces.exec (h : Pieces q held heard) (op : Op) : Pieces (exec q op) held heard := by
  by_cases hop : op = .reset
  · subst hop
    exact h.doReset.updateRTS
  by_cases hs : q.state = .amReset
  · rcases exec_answers hs hop with e | ⟨b, cb, -, e⟩ | ⟨cb, -, e⟩ | ⟨prio, e⟩
    · rw [e]; exact h
    · rw [e]; exact h.ran fun b hb => by simp at hb
    · rw [e]; exact h.ran fun b hb => by simp at hb
    · rw [e]; exact (h.prioritized prio).updateRTS
  rcases exec_cases q op with ⟨l, hl, e⟩ | ⟨prio, e⟩ | ⟨b, cb, -, hc, hb, e⟩ | ⟨cb, -, hc, hb, e⟩ | e | e
  · rw [e]; exact h.ran hl.quiet
  · rw [e]; exact (h.prioritized prio).updateRTS
  · rw [e]
    have hwait : q.waiting = [] := by simp only [T.waiting, hb]
    refine Pieces.makeProgress ⟨h.refs, h.fresh, fun _ => ?_, fun p hp => State.noConfusion (hc.symm.trans hp), fun hr => absurd hr hs⟩
    have hbytes := h.bytes hs
    rw [hwait, List.append_nil] at hbytes
    rw [written_append, written_wrote]
    exact hbytes.append_right b.val
  · rw [e]
    exact Pieces.updateRTS ⟨h.refs, h.fresh, fun _ => h.bytes hs, fun p _ => hb, State.noConfusion⟩
  · exact absurd e hs
  · exact absurd e hop

theorem Pieces.exec_all (h : Pieces q held heard) (ops : List Op) : Pieces (ops.foldl OutStreamQueue.exec q) held heard := by
  induction ops generalizing q with
  | nil => exact h
  | cons op ops ih => exact ih (h.exec op)

/-! ## Pulling -/

theorem Pieces.makeProgressThen (h : Pieces q held heard) (react : List (List Op)) :
    Pieces (makeProgressThen q react).1 held heard := by
  unfold OutStreamQueue.makeProgressThen
  split
  · exact h.makeProgress.exec_all _
  · exact h.makeProgress

theorem popIf_perm {f : Seg → Bool} {l rest : List Seg} {s : Seg} (h : BinHeap.popIf Seg.less f l = some (s, rest)) :
    l.Perm (s :: rest) := BinHeap.pop_perm Seg.less (BinHeap.popIf_some Seg.less h).2

theorem Pieces.popped (h : Pieces q held heard) {s : Seg} {rest : List Seg} (hp : q.retransmit.Perm (s :: rest)) :
    Pieces { q with retransmit := rest } (s :: held) heard := by
  have hperm : ∀ l, (q.retransmit ++ l).Perm (rest ++ s :: l) := fun l => (hp.append_right _).trans List.perm_middle.symm
  refine ⟨((hperm held).map _).nodup_iff.mp h.refs, fun t ht => h.fresh t ((hperm held).mem_iff.mpr ht), fun hs => ?_, h.shut,
    fun hs => ?_⟩
  · exact ((payload_perm (hperm (held ++ heard))).append_right _).symm.trans (h.bytes hs)
  · have := (h.stopped hs).retransmit
    rw [this] at hp
    exact absurd hp.length_eq (by simp)

/-- The front of a popped record stays out, and the rest goes back. -/
theorem Pieces.cut {s head tail : Seg} (h : Pieces q (s :: held) heard) (hlive : q.state ≠ .amReset)
    (hdata : head.data ++ tail.data = s.data) (hhead : head.ref = q.fresh + 1) (htail : tail.ref = q.fresh) :
    Pieces { q with retransmit := BinHeap.push Seg.less q.retransmit tail, fresh := q.fresh + 2 } (head :: held) heard := by
  have hpush : ∀ l, (BinHeap.push Seg.less q.retransmit tail ++ head :: l).Perm (tail :: head :: (q.retransmit ++ l)) := fun l =>
    ((BinHeap.push_perm _ _ _).append_right _).trans (.cons _ List.perm_middle)
  have hs : (q.retransmit ++ s :: held).Perm (s :: (q.retransmit ++ held)) := List.perm_middle
  have hrefs := (List.nodup_cons.mp ((hs.map Seg.ref).nodup_iff.mp h.refs)).2
  have hold : ∀ t ∈ q.retransmit ++ held, t.ref < q.fresh := fun t ht => h.fresh t (hs.mem_iff.mpr (.tail _ ht))
  have hnew : ∀ r, q.fresh ≤ r → r ∉ (q.retransmit ++ held).map Seg.ref := by
    intro r hr hm
    obtain ⟨t, ht, e⟩ := List.mem_map.mp hm
    exact absurd (hold t ht) (by omega)
  refine ⟨?_, fun t ht => ?_, fun _ => ?_, h.shut, fun hn => absurd hn hlive⟩
  · rw [((hpush held).map _).nodup_iff, List.map_cons, List.map_cons, hhead, htail]
    refine List.nodup_cons.mpr ⟨?_, List.nodup_cons.mpr ⟨hnew _ (Nat.le_succ _), hrefs⟩⟩
    rw [List.mem_cons, not_or]
    exact ⟨by omega, hnew _ (Nat.le_refl _)⟩
  · rcases List.mem_cons.mp ((hpush held).mem_iff.mp ht) with rfl | ht
    · exact htail ▸ by simp only; omega
    rcases List.mem_cons.mp ht with rfl | ht
    · exact hhead ▸ Nat.lt_succ_self _
    · exact Nat.lt_succ_of_lt (Nat.lt_succ_of_lt (hold t ht))
  · have hp := payload_perm (hpush (held ++ heard))
    have hb := h.bytes hlive
    refine ((hp.trans ?_).append_right _).trans hb
    -- both halves are in the record that was cut
    simp only [payload_append, payload_cons, List.append_assoc]
    rw [← List.append_assoc tail.data]
    have hswap : (tail.data ++ head.data).Perm (head.data ++ tail.data) := List.perm_append_comm
    refine (hswap.append_right _).trans ?_
    rw [hdata, ← List.append_assoc, ← List.append_assoc (payload q.retransmit)]
    exact List.perm_append_comm.append_right _

theorem exec_inflight (q : T) (op : Op) : (exec q op).inflight = q.inflight := by
  by_cases hop : op = .reset
  · subst hop
    obtain ⟨l, -, e⟩ := reset_cases q
    rw [show exec q .reset = reset q from rfl, e]
    rfl
  by_cases hs : q.state = .amReset
  · rcases exec_answers hs hop with e | ⟨b, cb, -, e⟩ | ⟨cb, -, e⟩ | ⟨prio, e⟩
    all_goals rw [e]
    all_goals rfl
  · exact (exec_extends hs hop).inflight

theorem carried_inflight : Carried fun q q' => q'.inflight = q.inflight :=
  ⟨fun _ => rfl, fun h h' => h'.trans h, fun q => (makeProgress_extends q).inflight, exec_inflight, fun _ _ _ => rfl⟩

theorem Pieces.pullContiguousSegments (fuel : Nat) (h : Pieces q held heard) (room : Nat) (offset : Int)
    (react : List (List Op)) :
    Pieces (pullContiguousSegments fuel q room offset react).2 ((pullContiguousSegments fuel q room offset react).1 ++ held) heard := by
  induction fuel generalizing q held room offset react with
  | zero => exact h
  | succ fuel ih =>
    unfold OutStreamQueue.pullContiguousSegments
    split
    · exact h
    · rename_i s rest hpop
      have hperm := popIf_perm hpop
      have h1 := h.popped hperm
      have hlive : q.state ≠ .amReset := by
        intro hs
        rw [(h.stopped hs).retransmit] at hperm
        exact absurd hperm.length_eq (by simp)
      dsimp only
      have h2 := h1.makeProgressThen react
      split_ifs with hroom hfull
      · exact h2
      · have h3 := ih h2 (room - s.data.length) (offset + s.data.length)
          (OutStreamQueue.makeProgressThen { q with retransmit := rest } react).2
        exact h3.perm List.perm_middle
      · exact h1.cut hlive (List.take_append_drop room s.data) rfl rfl

/-- The bookkeeping at the end of a pull. -/
theorem Pieces.sent (h : Pieces q held heard) {s : State} (hr : s = .amReset ↔ q.state = .amReset)
    (hs : ∀ p, s = .amShutdown p → ∃ p', q.state = .amShutdown p') (segments : List Seg) :
    Pieces (q.sent s segments) held heard := by
  have h' : Pieces { q with inflight := segments.foldl (BinHeap.push Seg.less) q.inflight, state := s,
                            inflightBytes := q.inflightBytes + lens segments,
                            retransmitBytes := q.retransmitBytes - lens segments } held heard :=
    ⟨h.refs, h.fresh, fun hn => h.bytes (mt hr.mpr hn),
      fun p hp => by obtain ⟨p', hp'⟩ := hs p hp; exact h.shut p' hp',
      fun hn => ⟨hn, (h.stopped (hr.mp hn)).retransmit, (h.stopped (hr.mp hn)).buffer⟩⟩
  exact h'.updateRTS.ran fun b hb => by simp at hb

theorem attachEOF_reset (s : State) (atEnd : Bool) : (attachEOF s atEnd).2 = .amReset ↔ s = .amReset := by
  rcases attachEOF_cases s atEnd with e | ⟨-, ⟨p, e', -⟩, e⟩
  · rw [e]
  · rw [e, e']
    exact ⟨nofun, nofun⟩

theorem attachEOF_shut {s : State} {atEnd : Bool} {p : Progress} (h : (attachEOF s atEnd).2 = .amShutdown p) :
    ∃ p', s = .amShutdown p' := by
  rcases attachEOF_cases s atEnd with e | ⟨-, ⟨p', e', -⟩, -⟩
  · rw [e] at h
    exact ⟨p, h⟩
  · exact ⟨p', e'⟩

/-- A pull takes records out of the retransmit heap and puts them in flight. -/
theorem Pieces.pull (h : Pieces q held heard) (id room : Nat) (react : List (List Op)) :
    Pieces (pull q id room react).2 ((pull q id room react).1.ack.segments ++ held) heard ∧
      (OutStreamQueue.pull q id room react).2.inflight.Perm
        ((OutStreamQueue.pull q id room react).1.ack.segments ++ q.inflight) := by
  by_cases hs : q.state = .amReset
  · rw [(h.stopped hs).pull]
    exact ⟨h.ran fun b hb => by simp at hb, .refl _⟩
  · have hp : Pieces (pullSegments q (pullLimit q room) react).2 ((pullSegments q (pullLimit q room) react).1 ++ held) heard := by
      unfold pullSegments
      split
      · exact h
      · exact h.pullContiguousSegments _ _ _ _
    have hin := carried_inflight.pullSegments q (pullLimit q room) react
    rw [pull_eq hs]
    generalize pullSegments q (pullLimit q room) react = r at hp hin
    obtain ⟨segments, q1⟩ := r
    dsimp only at hp hin ⊢
    refine ⟨hp.sent (attachEOF_reset _ _) (fun p hp' => attachEOF_shut hp') segments, ?_⟩
    rw [← hin]
    exact foldl_push_perm segments q1.inflight

/-! ## Answers -/

theorem Pieces.inflight_refs (h : Pieces q held heard) (hin : q.inflight.Perm held) : (q.inflight.map Seg.ref).Nodup := by
  have := h.refs
  rw [List.map_append] at this
  exact (hin.map Seg.ref).nodup_iff.mpr (List.nodup_append.mp this).2.1

theorem Pieces.checkDone (h : Pieces q held heard) : Pieces (checkDone q) held heard := by
  rcases checkDone_cases q with e | ⟨-, l, hl, e⟩
  · rw [e]; exact h
  · rw [e]
    have h' := h.ran hl
    exact ⟨h'.refs, h'.fresh, h'.bytes, h'.shut, fun hs => (h'.stopped hs).same rfl rfl rfl⟩

theorem ackState_reset (s : State) (eof ok : Bool) : ackState s eof ok = .amReset ↔ s = .amReset := by
  rcases ackState_cases s eof ok with e | ⟨p, p', e, e'⟩
  · rw [e]
  · rw [e', e]
    exact ⟨nofun, nofun⟩

theorem ackState_shut {s : State} {eof ok : Bool} {p : Progress} (h : ackState s eof ok = .amShutdown p) :
    ∃ p', s = .amShutdown p' := by
  rcases ackState_cases s eof ok with e | ⟨p', _, e, -⟩
  · exact ⟨p, e ▸ h⟩
  · exact ⟨p', e⟩

/-- Acknowledged records are heard. -/
theorem Pieces.hear {segments : List Seg} (h : Pieces q (segments ++ held) heard) (eof ok : Bool) :
    Pieces (q.landed segments eof ok q.retransmit) held (segments ++ heard) where
  refs := h.refs.sublist (((List.sublist_append_right segments held).append_left _).map _)
  fresh s hs := h.fresh s (((List.sublist_append_right segments held).append_left _).mem hs)
  bytes hs := by
    rw [landed_written]
    refine ((payload_perm ?_).append_right _).trans (h.bytes (mt (ackState_reset _ eof ok).mpr hs))
    refine .append_left _ ?_
    rw [← List.append_assoc]
    exact List.perm_append_comm.append_right _
  shut p hp := by
    obtain ⟨p', hp'⟩ := ackState_shut hp
    exact h.shut p' hp'
  stopped hs :=
    have hst := h.stopped ((ackState_reset _ eof ok).mp hs)
    ⟨hs, hst.retransmit, hst.buffer⟩

/-- Lost records go back into the retransmit heap. -/
theorem Pieces.requeue {segments : List Seg} (h : Pieces q (segments ++ held) heard) (eof : Bool) (hs : q.state ≠ .amReset) :
    Pieces (q.landed segments eof false (segments.foldl (BinHeap.push Seg.less) q.retransmit)) held heard := by
  have hperm : ∀ l, (q.retransmit ++ (segments ++ l)).Perm (segments.foldl (BinHeap.push Seg.less) q.retransmit ++ l) := by
    intro l
    rw [← List.append_assoc]
    exact (List.perm_append_comm.trans (foldl_push_perm segments q.retransmit).symm).append_right l
  refine ⟨((hperm held).map _).nodup_iff.mp h.refs, fun s hm => h.fresh s ((hperm held).mem_iff.mpr hm), fun _ => ?_, fun p hp => ?_,
    fun hn => absurd ((ackState_reset _ eof false).mp hn) hs⟩
  · have hb := h.bytes hs
    rw [List.append_assoc] at hb
    rw [landed_written]
    exact ((payload_perm (hperm (held ++ heard))).append_right _).symm.trans hb
  · obtain ⟨p', hp'⟩ := ackState_shut hp
    exact h.shut p' hp'

/-- A reset queue has nothing to send again. -/
theorem ack_reset_eq (hs : q.state = .amReset) (segments : List Seg) (eof : Bool) :
    ack q (.data segments eof) false =
      checkDone (makeProgress { q.landed segments eof false q.retransmit with retransmitBytes := q.retransmitBytes }) := by
  have hstate : ackState .amReset eof false = .amReset := (ackState_reset _ _ _).mpr rfl
  simp [ack, T.landed, callback, emit, hs, hstate]

theorem Pieces.forget {segments : List Seg} (h : Pieces q (segments ++ held) heard) (eof : Bool) (hs : q.state = .amReset) :
    Pieces { q.landed segments eof false q.retransmit with retransmitBytes := q.retransmitBytes } held heard where
  refs := (h.hear eof false).refs
  fresh := (h.hear eof false).fresh
  bytes hn := absurd ((ackState_reset _ _ _).mpr hs) hn
  shut := (h.hear eof false).shut
  stopped hn := ⟨hn, (h.stopped hs).retransmit, (h.stopped hs).buffer⟩

end BubbleStorm.Cusp.Stream.OutStreamQueue
