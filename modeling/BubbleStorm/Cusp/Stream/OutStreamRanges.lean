/-
  BubbleStorm.Cusp.Stream.OutStreamRanges — the counters of a sending queue, and the
  ranges its records cover.

  A run is watched (`Watched`): how far pulls have reached (`high`), whether a writer has
  reset the queue from inside a pull (`calm`), and whether a segment was lost after 2^31
  bytes were pulled past its start (`timely`). Proved for every run (`ranges_disjoint`):
  - `inflightBytes` is the size of the in-flight heap;
  - `retransmitBytes` is the size of the retransmit heap while the run is calm. A reset
    from inside a pull clears the counter and the pull then takes its bytes off again;
  - in a timely run the records queued, in flight and acknowledged are disjoint pieces of
    the stream sent, and cover all of it until the queue is reset, which drops some.
  A pull with a reset in it is a shorter pull and then calls (`pullSegments_cut`).
-/

import Mathlib.Algebra.BigOperators.Group.List.Basic
import BubbleStorm.Cusp.Stream.OutStreamCallbacks
import BubbleStorm.Cusp.Stream.QueueBooks
import BubbleStorm.Cusp.Stream.SendLimit

namespace BubbleStorm.Cusp.Stream.OutStreamQueue

variable {q q' : T} {held held' : List Seg} {acks heard : List Ack} {high : Int}

/-! ## Pulls that are reset -/

theorem makeProgressThen_react (h : progresses q = true) (ops : List Op) (react : List (List Op)) :
    makeProgressThen q (ops :: react) = (ops.foldl exec (makeProgress q), react) := by simp [makeProgressThen, h]

theorem makeProgressThen_quiet (h : progresses q = false) (react : List (List Op)) :
    makeProgressThen q react = (makeProgress q, react) := by simp [makeProgressThen, h]

/-- What a pull makes of a record it takes whole, once `r` is what `makeProgress` left. -/
def goesOn (fuel : Nat) (s : Seg) (room : Nat) (offset : Int) (r : T × List (List Op)) : List Seg × T :=
  if s.data.length = room then ([s], r.1)
  else
    let p := pullContiguousSegments fuel r.1 (room - s.data.length) (offset + s.data.length) r.2
    (s :: p.1, p.2)

theorem pullContiguousSegments_whole {s : Seg} {rest : List Seg} {room : Nat} {offset : Int}
    (hpop : BinHeap.popIf Seg.less (fun s => Key.le s.offset offset) q.retransmit = some (s, rest))
    (hroom : s.data.length ≤ room) (fuel : Nat) (react : List (List Op)) :
    pullContiguousSegments (fuel + 1) q room offset react =
      goesOn fuel s room offset (makeProgressThen { q with retransmit := rest } react) := by
  simp only [pullContiguousSegments, hpop, hroom, if_true, goesOn]

/-- Pops up to the first that a reset follows, and what is called from there on. -/
theorem pullContiguousSegments_cut (fuel : Nat) (q : T) (room : Nat) (offset : Int) (react : List (List Op)) :
    ∃ (fuel' : Nat) (react' : List (List Op)) (ops : List Op), (∀ l ∈ react', Op.reset ∉ l) ∧
      pullContiguousSegments fuel q room offset react =
        ((pullContiguousSegments fuel' q room offset react').1,
          ops.foldl exec (pullContiguousSegments fuel' q room offset react').2) := by
  induction fuel generalizing q room offset react with
  | zero => exact ⟨0, [], [], nofun, rfl⟩
  | succ fuel ih =>
    cases hpop : BinHeap.popIf Seg.less (fun s => Key.le s.offset offset) q.retransmit with
    | none => exact ⟨0, [], [], nofun, by simp [pullContiguousSegments, hpop]⟩
    | some r =>
      obtain ⟨s, rest⟩ := r
      by_cases hroom : s.data.length ≤ room
      swap
      · exact ⟨1, [], [], nofun, by simp [pullContiguousSegments, hpop, hroom]⟩
      have hwhole := pullContiguousSegments_whole hpop hroom
      by_cases hreset : progresses { q with retransmit := rest } = true ∧ Op.reset ∈ react.headD []
      · -- the reset leaves nothing to pop
        obtain ⟨hp, hmem⟩ := hreset
        obtain ⟨pre, post, hops, hpre⟩ := List.eq_append_cons_of_mem hmem
        have hst := exec_all_stops hmem (makeProgress { q with retransmit := rest })
        have hthen : (makeProgressThen { q with retransmit := rest } react).1 =
            (Op.reset :: post).foldl exec (pre.foldl exec (makeProgress { q with retransmit := rest })) := by
          rw [makeProgressThen, if_pos hp, hops, List.foldl_append]
        have hst' : Stopped (makeProgressThen { q with retransmit := rest } react).1 := by
          rw [makeProgressThen, if_pos hp]
          exact hst
        refine ⟨1, [pre], .reset :: post, by simpa using hpre, ?_⟩
        rw [hwhole, hwhole, makeProgressThen_react hp]
        unfold goesOn
        split_ifs
        · rw [hthen]
        · rw [hst'.pullContiguousSegments, hthen]
          rfl
      · obtain ⟨fuel', react', ops, hr, e⟩ := ih (makeProgressThen { q with retransmit := rest } react).1 (room - s.data.length)
          (offset + s.data.length) (makeProgressThen { q with retransmit := rest } react).2
        cases hp : progresses { q with retransmit := rest } with
        | true =>
          have hhead : Op.reset ∉ react.headD [] := fun hm => hreset ⟨hp, hm⟩
          refine ⟨fuel' + 1, react.headD [] :: react', if s.data.length = room then [] else ops, ?_, ?_⟩
          · rintro l (_ | ⟨_, hl⟩)
            · exact hhead
            · exact hr l hl
          · have hthen : (makeProgressThen { q with retransmit := rest } react).1 =
                (react.headD []).foldl exec (makeProgress { q with retransmit := rest }) := by rw [makeProgressThen, if_pos hp]
            rw [hwhole, hwhole, makeProgressThen_react hp]
            unfold goesOn
            split_ifs
            · rw [hthen]; rfl
            · rw [e, hthen]
        | false =>
          refine ⟨fuel' + 1, react', if s.data.length = room then [] else ops, hr, ?_⟩
          rw [makeProgressThen_quiet hp] at e
          rw [hwhole, hwhole, makeProgressThen_quiet hp, makeProgressThen_quiet hp]
          unfold goesOn
          split_ifs
          · rfl
          · rw [e]

/-! ## What is owed -/

/-- The retransmit counter, less what is in the heap. -/
def owed (q : T) : Int := q.retransmitBytes - lens q.retransmit

@[simp] theorem lens_append (l l' : List Seg) : lens (l ++ l') = lens l + lens l' := by simp [lens]

theorem lens_perm {l l' : List Seg} (h : l.Perm l') : lens l = lens l' := by
  rw [← length_payload, ← length_payload, (payload_perm h).length_eq]

theorem owed_makeProgress (q : T) : owed (makeProgress q) = owed q := by
  rcases makeProgress_cases q with ⟨-, l, -, e⟩ | ⟨hr, b, l, hb, -, e⟩
  · rw [e]; rfl
  · rw [e]
    simp only [owed, T.ran, hr, lens_cons, lens_nil, T.moved, Seg.len]
    omega

theorem owed_doReset (q : T) : owed (doReset q) = 0 := by
  obtain ⟨l, -, e⟩ := doReset_cases q
  rw [e]
  rfl

theorem owed_exec {op : Op} (hop : op ≠ .reset) (q : T) : owed (exec q op) = owed q := by
  by_cases hs : q.state = .amReset
  · rcases exec_answers hs hop with e | ⟨b, cb, -, e⟩ | ⟨cb, -, e⟩ | ⟨prio, e⟩
    all_goals rw [e]
    all_goals rfl
  rcases exec_cases q op with ⟨l, -, e⟩ | ⟨prio, e⟩ | ⟨b, cb, -, -, -, e⟩ | ⟨cb, -, -, -, e⟩ | e | e
  · rw [e]; rfl
  · rw [e]; rfl
  · rw [e]; exact owed_makeProgress _
  · rw [e]; rfl
  · exact absurd e hs
  · exact absurd e hop

theorem owed_execs {ops : List Op} (hops : Op.reset ∉ ops) (q : T) : owed (ops.foldl exec q) = owed q := by
  induction ops generalizing q with
  | nil => rfl
  | cons op ops ih =>
    rw [List.mem_cons, not_or] at hops
    exact (ih hops.2 _).trans (owed_exec (fun e => hops.1 e.symm) q)

theorem owed_makeProgressThen {react : List (List Op)} (hr : ∀ ops ∈ react, Op.reset ∉ ops) (q : T) :
    owed (makeProgressThen q react).1 = owed q ∧ ∀ ops ∈ (makeProgressThen q react).2, Op.reset ∉ ops := by
  unfold makeProgressThen
  split
  · have hhead : Op.reset ∉ react.headD [] := by
      cases react with
      | nil => simp
      | cons ops _ => exact hr ops (.head _)
    exact ⟨(owed_execs hhead _).trans (owed_makeProgress q), fun ops ho => hr ops (List.mem_of_mem_tail ho)⟩
  · exact ⟨owed_makeProgress q, hr⟩

/-- What was popped is still on the counter. -/
theorem owed_pullContiguousSegments (fuel : Nat) (q : T) (room : Nat) (offset : Int) {react : List (List Op)}
    (hr : ∀ ops ∈ react, Op.reset ∉ ops) :
    owed (pullContiguousSegments fuel q room offset react).2 =
      owed q + lens (pullContiguousSegments fuel q room offset react).1 := by
  induction fuel generalizing q room offset react with
  | zero => simp [pullContiguousSegments]
  | succ fuel ih =>
    cases hpop : BinHeap.popIf Seg.less (fun s => Key.le s.offset offset) q.retransmit with
    | none => simp [pullContiguousSegments, hpop]
    | some r =>
      obtain ⟨s, rest⟩ := r
      have hlens := lens_perm (popIf_perm hpop)
      have h1 : owed { q with retransmit := rest } = owed q + s.len := by
        rw [lens_cons] at hlens
        simp only [owed]
        omega
      by_cases hroom : s.data.length ≤ room
      · obtain ⟨h2, hr'⟩ := owed_makeProgressThen hr { q with retransmit := rest }
        rw [pullContiguousSegments_whole hpop hroom]
        unfold goesOn
        split_ifs
        · simp only [h2, h1, lens_cons, lens_nil, Int.add_zero]
        · have h3 := ih (makeProgressThen { q with retransmit := rest } react).1 (room - s.data.length) (offset + s.data.length) hr'
          simp only [h3, h2, h1, lens_cons, Int.add_assoc]
      · have hpush := lens_perm (BinHeap.push_perm Seg.less rest ⟨q.fresh, offset + room, s.data.drop room⟩)
        simp only [pullContiguousSegments, hpop, hroom, if_false]
        simp only [owed, lens_cons, lens_nil, Seg.len, List.length_take, List.length_drop] at hpush h1 ⊢
        omega

/-- A pull of a queue that is not reset: pops without a reset, and then calls. -/
theorem pullSegments_cut (q : T) (room : Nat) (react : List (List Op)) :
    ∃ (r : List Seg × T) (ops : List Op), pullSegments q room react = (r.1, ops.foldl exec r.2) ∧
      owed r.2 = owed q + lens r.1 ∧
      ∀ {held high done}, Sends q held high done → room ≤ 4092 → Pulls q held high done (pullOffset q) room r := by
  unfold pullSegments
  cases hh : q.retransmit.head? with
  | none => exact ⟨([], q), [], rfl, by simp, fun h _ => pulls_nothing h room h.start.nonneg h.start.le⟩
  | some s =>
    have e : s.offset = pullOffset q := by simp only [pullOffset, hh]
    obtain ⟨fuel, react', ops, hr, hcut⟩ :=
      pullContiguousSegments_cut (room + q.retransmit.length + react.length + 2) q room s.offset react
    refine ⟨_, ops, hcut, owed_pullContiguousSegments fuel q room s.offset hr, fun h hroom => ?_⟩
    have st := h.start
    rw [e]
    exact pullContiguousSegments_spec fuel h hroom st.nonneg st.le st.near (fun t ht _ => st.first t ht) hr

theorem owed_pull (hs : q.state ≠ .amReset) (id room : Nat) (react : List (List Op))
    (hs' : (pull q id room react).2.state ≠ .amReset) : owed (pull q id room react).2 = owed q := by
  obtain ⟨r, ops, e, hr, -⟩ := pullSegments_cut q (pullLimit q room) react
  rw [pull_eq hs, e] at hs' ⊢
  have hops : Op.reset ∉ ops := by
    intro hm
    exact hs' ((attachEOF_reset _ _).mpr (exec_all_stops hm r.2).state)
  have h := owed_execs hops r.2
  simp only [owed, T.sent, updateRTS_eq, T.ran] at h hr ⊢
  omega

theorem owed_checkDone (q : T) : owed (checkDone q) = owed q := by
  rcases checkDone_cases q with e | ⟨-, l, -, e⟩
  · rw [e]
  · rw [e]; rfl

theorem owed_ack (q : T) (a : Ack) (ok : Bool) : owed (ack q a ok) = owed q := by
  cases a with
  | reset => cases ok <;> rfl
  | data segments eof =>
    cases ok with
    | true =>
      rw [ack_true_eq, owed_checkDone, owed_makeProgress]
      simp [owed, T.landed]
    | false =>
      by_cases hs : q.state = .amReset
      · rw [ack_reset_eq hs, owed_checkDone, owed_makeProgress]
        rfl
      · have hpush := lens_perm (foldl_push_perm segments q.retransmit)
        rw [ack_false_eq hs]
        simp only [owed, updateRTS_eq, T.ran, T.landed, hpush, lens_append]
        simp only [Bool.false_eq_true, if_false]
        omega

/-- A pull in which no writer resets the queue. -/
theorem owed_calm (id room : Nat) {react : List (List Op)} (hr : ∀ ops ∈ react, Op.reset ∉ ops) :
    owed (pull q id room react).2 = owed q := by
  by_cases hs : q.state = .amReset
  · unfold pull
    rw [if_pos hs]
    rfl
  have h : owed (pullSegments q (pullLimit q room) react).2 = owed q + lens (pullSegments q (pullLimit q room) react).1 := by
    unfold pullSegments
    split
    · simp
    · exact owed_pullContiguousSegments _ q _ _ hr
  rw [pull_eq hs]
  simp only [owed, T.sent, updateRTS_eq, T.ran] at h ⊢
  omega

/-- A queue that is reset is stopped. -/
def Stops (q : T) : Prop := q.state = .amReset → Stopped q

theorem Stops.live (h : q.state ≠ .amReset) : Stops q := fun hs => absurd hs h

theorem Stops.makeProgress (h : Stops q) : Stops (makeProgress q) := by
  by_cases hs : q.state = .amReset
  · rw [(h hs).makeProgress]
    exact h
  · exact .live fun hs' => hs ((makeProgress_state q).symm.trans hs')

theorem Stops.exec (h : Stops q) (op : Op) : Stops (exec q op) := by
  by_cases hop : op = .reset
  · subst hop
    exact fun _ => stopped_reset q
  by_cases hs : q.state = .amReset
  · exact fun _ => (h hs).exec op
  rcases exec_cases q op with ⟨l, -, e⟩ | ⟨prio, e⟩ | ⟨b, cb, -, -, -, e⟩ | ⟨cb, -, -, -, e⟩ | e | e
  · rw [e]; exact .live hs
  · rw [e]; exact .live hs
  · rw [e]; exact Stops.makeProgress (.live hs)
  · rw [e]; exact .live nofun
  · exact absurd e hs
  · exact absurd e hop

theorem Stops.execs (h : Stops q) (ops : List Op) : Stops (ops.foldl OutStreamQueue.exec q) := by
  induction ops generalizing q with
  | nil => exact h
  | cons op ops ih => exact ih (h.exec op)

theorem Stops.makeProgressThen (h : Stops q) (react : List (List Op)) : Stops (makeProgressThen q react).1 := by
  unfold OutStreamQueue.makeProgressThen
  split
  · exact h.makeProgress.execs _
  · exact h.makeProgress

theorem Stops.pullContiguousSegments (h : Stops q) (fuel room : Nat) (offset : Int) (react : List (List Op)) :
    Stops (pullContiguousSegments fuel q room offset react).2 := by
  induction fuel generalizing q room offset react with
  | zero => exact h
  | succ fuel ih =>
    cases hpop : BinHeap.popIf Seg.less (fun s => Key.le s.offset offset) q.retransmit with
    | none => simpa [OutStreamQueue.pullContiguousSegments, hpop] using h
    | some r =>
      obtain ⟨s, rest⟩ := r
      have hs : q.state ≠ .amReset := by
        intro hs
        rw [(h hs).retransmit] at hpop
        simp [BinHeap.popIf] at hpop
      have h1 : Stops { q with retransmit := rest } := .live hs
      by_cases hroom : s.data.length ≤ room
      · rw [pullContiguousSegments_whole hpop hroom]
        unfold goesOn
        split_ifs
        · exact h1.makeProgressThen react
        · exact ih (h1.makeProgressThen react) _ _ _
      · simp only [OutStreamQueue.pullContiguousSegments, hpop, hroom, if_false]
        exact .live hs

theorem Stops.pull (h : Stops q) (id room : Nat) (react : List (List Op)) : Stops (pull q id room react).2 := by
  by_cases hs : q.state = .amReset
  · rw [(h hs).pull]
    exact fun _ => (h hs).ran _
  have h1 : Stops (pullSegments q (pullLimit q room) react).2 := by
    unfold pullSegments
    split
    · exact h
    · exact h.pullContiguousSegments _ _ _ _
  rw [pull_eq hs]
  exact fun hs' => (h1 ((attachEOF_reset _ _).mp hs')).same (hs'.trans ((attachEOF_reset _ _).mp hs').symm) rfl rfl

theorem Stops.ack (h : Stops q) (a : Ack) (ok : Bool) : Stops (ack q a ok) := by
  by_cases hs : q.state = .amReset
  · exact fun _ => (h hs).ack a ok
  cases a with
  | reset => cases ok <;> exact .live hs
  | data segments eof =>
    have hst : ackState q.state eof ok ≠ .amReset := mt (ackState_reset _ eof ok).mp hs
    cases ok with
    | true =>
      rw [ack_true_eq]
      rcases checkDone_cases (OutStreamQueue.makeProgress (q.landed segments eof true q.retransmit)) with e | ⟨-, l, -, e⟩
      · rw [e]; exact Stops.makeProgress (.live hst)
      · rw [e]; exact .live fun hs' => hst ((makeProgress_state _).symm.trans hs')
    | false =>
      rw [ack_false_eq hs]
      exact .live hst

theorem Stops.recv (h : Stops q) {data : Slice} {x : PacketFormat.Writer} {n : Nat} (hr : recv q data x = .ok (q', n)) : Stops q' := by
  rcases recv_cases hr with ⟨b, -, e⟩ | ⟨-, e⟩
  · rw [e]
    exact Stops.makeProgress fun hs => (h hs).same rfl rfl rfl
  · rw [e]
    obtain ⟨l, -, e'⟩ := doReset_cases q
    rw [e']
    exact fun _ => ((stopped_stopped q).ran l).ran _

/-! ## The ranges of the records -/

/-- Disjoint pieces of the first `stop` bytes. -/
structure Spans (stop : Int) (l : List Seg) : Prop where
  apart : l.Pairwise Seg.Apart
  within : ∀ s ∈ l, 0 ≤ s.offset ∧ s.offset + s.len ≤ stop

theorem Spans.sublist {stop : Int} {l l' : List Seg} (h : Spans stop l) (p : l'.Sublist l) : Spans stop l' :=
  ⟨h.apart.sublist p, fun s hs => h.within s (p.mem hs)⟩

theorem Spans.perm {stop : Int} {l l' : List Seg} (h : Spans stop l) (p : l.Perm l') : Spans stop l' :=
  ⟨h.apart.perm p Seg.Apart.symm, fun s hs => h.within s (p.mem_iff.mpr hs)⟩

theorem Sends.spans {done : Int → Prop} (h : Sends q held high done) : Spans q.sendOffset (q.retransmit ++ held) :=
  ⟨h.records.apart, fun s hs => ⟨(h.records.lies s hs).nonneg, h.records.le s hs⟩⟩

/-- `held` are the records that were pulled, whether answered or not. -/
structure Ranges (q : T) (held : List Seg) (high : Int) : Prop where
  live : q.state ≠ .amReset → Sends q held high fun _ => False
  reset : q.state = .amReset → Stopped q ∧ Spans q.sendOffset held

theorem ranges_sends (h : Sends q held high fun _ => False) : Ranges q held high :=
  ⟨fun _ => h, fun hs => absurd hs h.live⟩

theorem ranges_stopped (hs : Stopped q) (h : Spans q.sendOffset held) : Ranges q held high :=
  ⟨fun hn => absurd hs.state hn, fun _ => ⟨hs, h⟩⟩

theorem Ranges.spans (h : Ranges q held high) : Spans q.sendOffset (q.retransmit ++ held) := by
  by_cases hs : q.state = .amReset
  · obtain ⟨hst, hsp⟩ := h.reset hs
    rw [hst.retransmit]
    exact hsp
  · exact (h.live hs).spans

theorem Ranges.perm (h : Ranges q held high) (p : held.Perm held') : Ranges q held' high :=
  ⟨fun hs => (h.live hs).perm p, fun hs => ⟨(h.reset hs).1, (h.reset hs).2.perm p⟩⟩

theorem Ranges.ran (h : Ranges q held high) {l : List Out} (hl : Quiet l) : Ranges (q.ran l) held high :=
  ⟨fun hs => (h.live hs).ran hl, fun hs => ⟨(h.reset hs).1.ran l, (h.reset hs).2⟩⟩

theorem Ranges.callback (h : Ranges q held high) (e : Event) : Ranges (callback q e) held high :=
  h.ran fun b hb => by simp at hb

theorem Ranges.updateRTS (h : Ranges q held high) : Ranges (updateRTS q) held high := h.callback _

/-- The counters, the heap in flight, the barrier and the kept shutdown are not read. -/
theorem Ranges.changed (h : Ranges q held high) {s : State} (hr : s = .amReset ↔ q.state = .amReset)
    (hs : ∀ p, s = .amShutdown p → ∃ p', q.state = .amShutdown p') (i : List Seg) (n m k b : Int) (cb : Option Nat) :
    Ranges { q with state := s, inflight := i, inflightBytes := n, retransmitBytes := m, bytesSent := k, barrier := b,
                    shutdowner := cb } held high := by
  refine ⟨fun hn => ?_, fun hn => ⟨⟨hn, ?_, ?_⟩, (h.reset (hr.mp hn)).2⟩⟩
  · have hS := h.live (mt hr.mpr hn)
    refine { hS with live := hn, shut := fun p hp => ?_ }
    obtain ⟨p', hp'⟩ := hs p hp
    exact hS.shut p' hp'
  · exact (h.reset (hr.mp hn)).1.retransmit
  · exact (h.reset (hr.mp hn)).1.buffer

theorem Ranges.makeProgress (h : Ranges q held high) : Ranges (makeProgress q) held high := by
  by_cases hs : q.state = .amReset
  · rw [(h.reset hs).1.makeProgress]
    exact h
  · exact ranges_sends (h.live hs).makeProgress

theorem Ranges.stop (h : Ranges q held high) : Ranges q.stopped held high :=
  ranges_stopped (stopped_stopped q) (h.spans.sublist (List.sublist_append_right _ _))

theorem Ranges.exec (h : Ranges q held high) (op : Op) : Ranges (exec q op) held high := by
  by_cases hop : op = .reset
  · subst hop
    obtain ⟨l, hl, e⟩ := reset_cases q
    have he : OutStreamQueue.exec q .reset = q.stopped.ran l := e
    rw [he]
    exact h.stop.ran hl
  by_cases hs : q.state = .amReset
  · obtain ⟨hst, hsp⟩ := h.reset hs
    rcases exec_answers hs hop with e | ⟨b, cb, -, e⟩ | ⟨cb, -, e⟩ | ⟨prio, e⟩
    · rw [e]; exact h
    · rw [e]; exact ranges_stopped (hst.ran _) hsp
    · rw [e]; exact ranges_stopped (hst.ran _) hsp
    · rw [e]; exact ranges_stopped (hst.same rfl rfl rfl) hsp
  · exact ranges_sends ((h.live hs).exec hop)

theorem Ranges.exec_all (h : Ranges q held high) (ops : List Op) : Ranges (ops.foldl OutStreamQueue.exec q) held high := by
  induction ops generalizing q with
  | nil => exact h
  | cons op ops ih => exact ih (h.exec op)

theorem Ranges.sent (h : Ranges q held high) {s : State} (hr : s = .amReset ↔ q.state = .amReset)
    (hs : ∀ p, s = .amShutdown p → ∃ p', q.state = .amShutdown p') (segments : List Seg) : Ranges (q.sent s segments) held high :=
  (h.changed hr hs _ _ _ _ _ _).updateRTS.ran fun b hb => by simp at hb

/-- A pull holds what it popped, also when a writer resets the queue meanwhile. -/
theorem Ranges.pull (h : Ranges q held high) (id room : Nat) (react : List (List Op)) :
    Ranges (pull q id room react).2 ((pull q id room react).1.ack.segments ++ held)
      (max high (pullOffset q + lens (pull q id room react).1.ack.segments)) := by
  by_cases hs : q.state = .amReset
  · obtain ⟨hst, hsp⟩ := h.reset hs
    rw [hst.pull]
    exact ranges_stopped (hst.ran _) hsp
  · obtain ⟨r, ops, e, -, hspec⟩ := pullSegments_cut q (pullLimit q room) react
    have hp := ranges_sends (hspec (h.live hs) (pullLimit_le q room)).sends
    rw [pull_eq hs, e]
    exact (hp.exec_all ops).sent (attachEOF_reset _ _) (fun p hp' => attachEOF_shut hp') r.1

theorem Ranges.checkDone (h : Ranges q held high) : Ranges (checkDone q) held high := by
  rcases checkDone_cases q with e | ⟨-, l, hl, e⟩
  · rw [e]; exact h
  · rw [e]
    exact (h.ran hl).changed .rfl (fun p hp => ⟨p, hp⟩) _ _ _ _ _ _

/-- What the callback of a segment does but for the records. -/
theorem Ranges.landed (h : Ranges q held high) (segments : List Seg) (eof ok : Bool) (n : Int) :
    Ranges { q.landed segments eof ok q.retransmit with retransmitBytes := n } held high :=
  (h.callback _).changed (ackState_reset _ eof ok) (fun p hp => ackState_shut hp) _ _ _ _ _ _

theorem Ranges.acked (h : Ranges q held high) (a : Ack) : Ranges (ack q a true) held high := by
  cases a with
  | reset => exact h.callback _
  | data segments eof =>
    rw [ack_true_eq]
    exact (h.landed segments eof true _).makeProgress.checkDone

theorem Ranges.nacked {a : Ack} (h : Ranges q (a.segments ++ held) high)
    (hw : q.state ≠ .amReset → ∀ s ∈ a.segments, high < s.offset + 2 ^ 31) : Ranges (ack q a false) held high := by
  cases a with
  | reset => exact h.callback _
  | data segments eof =>
    by_cases hs : q.state = .amReset
    · obtain ⟨hst, hsp⟩ := h.reset hs
      have h' : Ranges q held high := ranges_stopped hst (hsp.sublist (List.sublist_append_right _ _))
      rw [ack_reset_eq hs]
      exact (h'.landed segments eof false _).makeProgress.checkDone
    · have h' := ranges_sends ((h.live hs).requeued eof (hw hs))
      rw [ack_false_eq hs]
      exact (h'.callback _).updateRTS

theorem Ranges.recv (h : Ranges q held high) {data : Slice} {msg : PacketFormat.Writer} {n : Nat}
    (hr : recv q data msg = .ok (q', n)) : Ranges q' held high := by
  rcases recv_cases hr with ⟨b, -, e⟩ | ⟨-, e⟩
  · have h' : Ranges { q with barrier := b } held high := h.changed .rfl (fun p hp => ⟨p, hp⟩) _ _ _ _ _ _
    rw [e]
    exact h'.makeProgress
  · obtain ⟨l, hl, e'⟩ := doReset_cases q
    rw [e, e']
    exact (h.stop.ran hl).callback _

/-! ## Runs -/

/-- How far pulls have reached; no writer has reset the queue from inside one; every
    segment that was lost was lost in time. -/
structure Watch where
  high : Int
  calm : Bool
  timely : Bool
  deriving DecidableEq, Repr

def Watch.pulled (w : Watch) (q : T) (r : Pulled × T) : Watch :=
  { w with high := max w.high (pullOffset q + lens r.1.ack.segments),
           calm := w.calm && (q.state = .amReset || r.2.state ≠ .amReset) }

def Watch.lost (w : Watch) (q : T) (a : Ack) : Watch :=
  { w with timely := w.timely && (q.state = .amReset || a.segments.all fun s => w.high < s.offset + 2 ^ 31) }

/-- A run (see `Runs`), watched. -/
inductive Watched : T → List Ack → List Ack → Watch → Prop
  | new : Watched new [] [] ⟨0, true, true⟩
  | exec {q : T} {acks heard : List Ack} {w : Watch} (op : Op) : Watched q acks heard w → Watched (exec q op) acks heard w
  | pull {q : T} {acks heard : List Ack} {w : Watch} (id room : Nat) (react : List (List Op)) : Watched q acks heard w →
      Watched (pull q id room react).2 ((pull q id room react).1.ack :: acks) heard (w.pulled q (pull q id room react))
  | ack {q : T} {acks rest heard : List Ack} {w : Watch} (a : Ack) : acks.Perm (a :: rest) → Watched q acks heard w →
      Watched (ack q a true) rest (a :: heard) w
  | nack {q : T} {acks rest heard : List Ack} {w : Watch} (a : Ack) : acks.Perm (a :: rest) → Watched q acks heard w →
      Watched (ack q a false) rest heard (w.lost q a)
  | recv {q q' : T} {acks heard : List Ack} {w : Watch} {data : Slice} {msg : PacketFormat.Writer} {n : Nat} :
      recv q data msg = .ok (q', n) → Watched q acks heard w → Watched q' acks heard w

theorem Watched.runs {w : Watch} (h : Watched q acks heard w) : ∃ t, Runs q t acks heard := by
  induction h with
  | new => exact ⟨_, .new⟩
  | exec op _ ih =>
    obtain ⟨t, ht⟩ := ih
    exact ⟨_, ht.exec op⟩
  | pull id room react _ ih =>
    obtain ⟨t, ht⟩ := ih
    exact ⟨_, ht.pull id room react⟩
  | ack a hp _ ih =>
    obtain ⟨t, ht⟩ := ih
    exact ⟨_, ht.ack a hp⟩
  | nack a hp _ ih =>
    obtain ⟨t, ht⟩ := ih
    exact ⟨_, ht.nack a hp⟩
  | recv hr _ ih =>
    obtain ⟨t, ht⟩ := ih
    exact ⟨_, ht.recv hr⟩

theorem lens_records (acks : List Ack) : lens (records acks) = (acks.map flight).sum := by
  induction acks with
  | nil => rfl
  | cons a acks ih =>
    rw [records_cons, lens_append, ih, List.map_cons, List.sum_cons]
    cases a <;> rfl

/-- The segments without an answer are what is in flight. -/
theorem Watched.flights {w : Watch} (h : Watched q acks heard w) : q.inflightBytes = (acks.map flight).sum := by
  induction h with
  | new => rfl
  | @exec q acks heard w op _ ih =>
    obtain ⟨l, -, -, e, -⟩ := books_exec q op
    rw [e, ih, Int.add_zero]
  | @pull q acks heard w id room react _ ih =>
    obtain ⟨l, -, -, e, -⟩ := books_pull q id room react
    rw [e, ih, List.map_cons, List.sum_cons, Int.add_comm]
  | @ack q acks rest heard w a hp _ ih =>
    obtain ⟨l, -, -, e, -⟩ := books_ack q a true
    rw [e, ih, (hp.map flight).sum_eq, List.map_cons, List.sum_cons]
    omega
  | @nack q acks rest heard w a hp _ ih =>
    obtain ⟨l, -, -, e, -⟩ := books_ack q a false
    rw [e, ih, (hp.map flight).sum_eq, List.map_cons, List.sum_cons]
    omega
  | recv hr _ ih =>
    obtain ⟨l, -, -, e, -⟩ := books_recv hr
    rw [e, ih, Int.add_zero]

theorem Watched.owed {w : Watch} (h : Watched q acks heard w) (hc : w.calm = true) : owed q = 0 := by
  induction h with
  | new => rfl
  | @exec q acks heard w op _ ih =>
    by_cases hop : op = .reset
    · subst hop
      exact owed_doReset q
    · exact (owed_exec hop q).trans (ih hc)
  | @pull q acks heard w id room react _ ih =>
    simp only [Watch.pulled, Bool.and_eq_true, Bool.or_eq_true, decide_eq_true_eq] at hc
    obtain ⟨hc, hs⟩ := hc
    by_cases hr : q.state = .amReset
    · unfold OutStreamQueue.pull
      rw [if_pos hr]
      exact ih hc
    · exact (owed_pull hr id room react (hs.resolve_left hr)).trans (ih hc)
  | ack a hp _ ih => exact (owed_ack _ a true).trans (ih hc)
  | nack a hp _ ih => exact (owed_ack _ a false).trans (ih hc)
  | recv hr _ ih =>
    rcases recv_cases hr with ⟨b, -, e⟩ | ⟨-, e⟩
    · rw [e, owed_makeProgress]
      exact ih hc
    · rw [e]
      exact owed_doReset _

theorem Watched.ranges {w : Watch} (h : Watched q acks heard w) (ht : w.timely = true) :
    Ranges q (records acks ++ records heard) w.high := by
  induction h with
  | new => exact ranges_sends sends_new
  | exec op _ ih => exact (ih ht).exec op
  | pull id room react _ ih =>
    have h' := (ih ht).pull id room react
    rwa [← List.append_assoc] at h'
  | @ack q acks rest heard w a hp _ ih =>
    refine ((ih ht).acked a).perm ?_
    have hperm := (records_perm hp).append_right (records heard)
    rw [records_cons, List.append_assoc] at hperm
    refine hperm.trans (List.perm_append_comm_assoc _ _ _)
  | @nack q acks rest heard w a hp _ ih =>
    simp only [Watch.lost, Bool.and_eq_true, Bool.or_eq_true, decide_eq_true_eq, List.all_eq_true] at ht
    obtain ⟨ht, hw⟩ := ht
    have hperm := (records_perm hp).append_right (records heard)
    rw [records_cons, List.append_assoc] at hperm
    exact ((ih ht).perm hperm).nacked fun hs => hw.resolve_left hs
  | recv hr _ ih => exact (ih ht).recv hr

/-- The counters of a queue and the ranges of its records, as far as they hold. -/
theorem ranges_disjoint {w : Watch} (h : Watched q acks heard w) :
    q.inflightBytes = lens q.inflight ∧ (w.calm = true → q.retransmitBytes = lens q.retransmit) ∧
      (w.timely = true → Spans q.sendOffset (q.retransmit ++ (q.inflight ++ records heard)) ∧
        (q.state ≠ .amReset → ∀ p, 0 ≤ p → p < q.sendOffset →
          ∃ s ∈ q.retransmit ++ (q.inflight ++ records heard), s.Covers p)) := by
  obtain ⟨t, ht⟩ := h.runs
  have hin := ht.story.inflight
  have hperm := (hin.symm.append_right (records heard)).append_left q.retransmit
  refine ⟨?_, fun hc => ?_, fun htime => ⟨(h.ranges htime).spans.perm hperm, fun hs p h0 hp => ?_⟩⟩
  · rw [lens_perm hin, lens_records, h.flights]
  · have howed := h.owed hc
    simp only [OutStreamQueue.owed] at howed
    omega
  · rcases ((h.ranges htime).live hs).covered p h0 hp with ⟨s, hm, hc⟩ | hn
    · exact ⟨s, hperm.mem_iff.mp hm, hc⟩
    · exact hn.elim

/-- A write that is pulled in two segments, of which the first is lost. -/
theorem lost_segment_disjoint :
    let w := exec new (.write ⟨[1, 2, 3], by decide⟩ 7)
    let p := pull w 0 6 []
    let r := pull p.2 0 100 []
    let q := ack r.2 p.1.ack false
    (q.inflightBytes, q.retransmitBytes, q.sendOffset) = (1, 2, 3) ∧ q.retransmitBytes = lens q.retransmit ∧
      Spans q.sendOffset (q.retransmit ++ (q.inflight ++ records [])) :=
  have h := ranges_disjoint (Watched.nack (pull (exec new (.write ⟨[1, 2, 3], by decide⟩ 7)) 0 6 []).1.ack (.swap _ _ _)
    (.pull 0 100 [] (.pull 0 6 [] (.exec (.write ⟨[1, 2, 3], by decide⟩ 7) .new))))
  ⟨by decide, h.2.1 (by decide), (h.2.2 (by decide)).1⟩

/-! ## A segment that is lost late -/

/-- All there is was pulled, up to position `n`. -/
structure Emptied (q : T) (n : Int) : Prop where
  state : q.state = .amConnected
  buffer : q.buffer = none
  retransmit : q.retransmit = []
  sendOffset : q.sendOffset = n

/-- One record waits to be pulled. -/
structure Lone (q : T) (s : Seg) (n : Int) : Prop where
  state : q.state = .amConnected
  buffer : q.buffer = none
  retransmit : q.retransmit = [s]
  sendOffset : q.sendOffset = n

theorem Emptied.write {n : Int} (h : Emptied q n) (b : Word8Vector) (cb : Nat) :
    Lone (exec q (.write b cb)) ⟨q.fresh, n, b.val⟩ (n + b.val.length) := by
  have e : exec q (.write b cb) = makeProgress { q with buffer := some b, writer := some cb, log := q.log ++ [.wrote b] } := by
    simp [exec, OutStreamQueue.write, h.buffer, h.state, attempt, emit]
  rw [e]
  rcases makeProgress_cases { q with buffer := some b, writer := some cb, log := q.log ++ [.wrote b] } with
    ⟨hn | hn, -⟩ | ⟨-, b', l, hb, -, e'⟩
  · exact absurd h.retransmit hn
  · cases hn
  · cases hb
    rw [e']
    refine ⟨h.state, rfl, ?_, ?_⟩
    · simp only [T.ran, T.moved, h.sendOffset]
    · simp only [T.ran, T.moved, h.sendOffset]

theorem Key.le_self (x : Int) : Key.le x x = true := (Key.le_iff (by omega) (by omega)).mpr (Int.le_refl x)

theorem popIf_single {s : Seg} {f : Seg → Bool} (h : f s = true) : BinHeap.popIf Seg.less f [s] = some (s, []) := by
  simp [BinHeap.popIf, BinHeap.pop, h]

theorem Lone.pull {s : Seg} {n : Int} (h : Lone q s n) (hs : s.data.length ≤ 4000) :
    (pull q 0 5000 []).1.ack = .data [s] false ∧ Emptied (pull q 0 5000 []).2 n := by
  have hstate : q.state ≠ .amReset := fun hr => State.noConfusion (h.state.symm.trans hr)
  have hlimit : pullLimit q 5000 = 4092 := by
    unfold pullLimit headerLen
    split_ifs
    all_goals rfl
  have hquiet : makeProgressThen { q with retransmit := [] } [] = ({ q with retransmit := [] }, []) := by
    simp [makeProgressThen, progresses, makeProgress, h.buffer]
  have hpop : BinHeap.popIf Seg.less (fun t => Key.le t.offset s.offset) q.retransmit = some (s, []) := by
    rw [h.retransmit]
    exact popIf_single (Key.le_self _)
  have hrest : ∀ fuel room offset, pullContiguousSegments fuel { q with retransmit := [] } room offset [] =
      ([], { q with retransmit := [] }) := by
    intro fuel room offset
    cases fuel with
    | zero => rfl
    | succ fuel => rfl
  have hp : pullSegments q 4092 [] = ([s], { q with retransmit := [] }) := by
    have hhead : q.retransmit.head? = some s := by rw [h.retransmit]; rfl
    simp only [pullSegments, hhead, Nat.add_assoc]
    rw [Nat.add_comm, pullContiguousSegments_whole hpop (by omega), hquiet]
    simp only [goesOn, hrest, show ¬ s.data.length = 4092 by omega, if_false]
  have hatt : ∀ e, attachEOF q.state e = (false, .amConnected) := by
    intro e
    rw [h.state]
    rfl
  rw [pull_eq hstate, hlimit, hp]
  simp only [hatt]
  exact ⟨rfl, rfl, h.buffer, rfl, h.sendOffset⟩

theorem Emptied.ack {n : Int} (h : Emptied q n) (segments : List Seg) : Emptied (ack q (.data segments false) true) n := by
  have hm : makeProgress (q.landed segments false true q.retransmit) = q.landed segments false true q.retransmit := by
    simp [makeProgress, T.landed, h.retransmit, h.buffer]
  have hd : checkDone (q.landed segments false true q.retransmit) = q.landed segments false true q.retransmit := by
    simp [checkDone, amDone, T.landed, h.state, ackState]
  rw [ack_true_eq, hm, hd]
  refine ⟨?_, h.buffer, h.retransmit, h.sendOffset⟩
  simp [T.landed, h.state, ackState]

/-- A segment is written, pulled and acknowledged. -/
theorem round {n : Int} {w : Watch} (h : Watched q acks heard w) (hi : Emptied q n) {b : Word8Vector} (hb : b.val.length = 4000) :
    ∃ q' s w', Watched q' acks (.data [s] false :: heard) w' ∧ s.offset = n ∧ s.data = b.val ∧ w'.calm = w.calm ∧
      Emptied q' (n + 4000) := by
  have hl := hi.write b 0
  rw [hb] at hl
  obtain ⟨ha, hi'⟩ := hl.pull (by rw [hb])
  have hp := (h.exec (.write b 0)).pull 0 5000 []
  rw [ha] at hp
  exact ⟨_, _, _, hp.ack _ (.refl _), rfl, rfl, by simp [Watch.pulled, hi'.state], hi'.ack _⟩

theorem rounds (k : Nat) {n : Int} {w : Watch} (h : Watched q acks heard w) (hi : Emptied q n) {b : Word8Vector}
    (hb : b.val.length = 4000) : ∃ q' heard' w', Watched q' acks heard' w' ∧ heard ⊆ heard' ∧ w'.calm = w.calm ∧
      Emptied q' (n + k * 4000) := by
  induction k generalizing q heard w n with
  | zero => exact ⟨q, heard, w, h, fun _ hm => hm, rfl, by simpa using hi⟩
  | succ k ih =>
    obtain ⟨q1, s, w1, h1, -, -, hc, hi1⟩ := round h hi hb
    obtain ⟨q', heard', w', h2, hsub, hc', hi2⟩ := ih h1 hi1
    have e : n + ((k + 1 : Nat) : Int) * 4000 = n + 4000 + (k : Int) * 4000 := by
      push_cast
      omega
    exact ⟨q', heard', w', h2, fun _ hm => hsub (.tail _ hm), hc'.trans hc, e ▸ hi2⟩

theorem pullContiguousSegments_split {s : Seg} {rest : List Seg} {room : Nat} {offset : Int}
    (hpop : BinHeap.popIf Seg.less (fun s => Key.le s.offset offset) q.retransmit = some (s, rest))
    (hroom : ¬ s.data.length ≤ room) (fuel : Nat) (react : List (List Op)) :
    pullContiguousSegments (fuel + 1) q room offset react =
      ([⟨q.fresh + 1, offset, s.data.take room⟩],
        { q with retransmit := BinHeap.push Seg.less rest ⟨q.fresh, offset + room, s.data.drop room⟩, fresh := q.fresh + 2 }) := by
  simp only [pullContiguousSegments, hpop, hroom, if_false]

/-- A late record is waiting before a write. -/
structure Late (q : T) (a : Seg) (b : Word8Vector) (n : Int) : Prop where
  state : q.state = .amConnected
  buffer : q.buffer = some b
  retransmit : q.retransmit = [a]
  sendOffset : q.sendOffset = n

/-- It is popped first, and what follows it in the heap is cut at its end. -/
theorem Late.pull {a : Seg} {b : Word8Vector} {n : Int} (h : Late q a b n) (ha : a.offset = 0) (hlen : a.data.length = 1)
    (hb : b.val.length = 20) (h1 : 2 ^ 31 + 1 < n) (h2 : n < 2 ^ 32) :
    (pull q 0 16 []).2.state = .amConnected ∧ ∃ s ∈ (pull q 0 16 []).1.ack.segments, s.offset = 1 ∧ s.data.length = 11 := by
  have hstate : q.state ≠ .amReset := fun hr => State.noConfusion (h.state.symm.trans hr)
  have hhead : q.retransmit.head? = some a := by rw [h.retransmit]; rfl
  have hlimit : pullLimit q 16 = 12 := by
    simp only [pullLimit, pullOffset, hhead, ha]
    rfl
  have hpop : BinHeap.popIf Seg.less (fun t => Key.le t.offset a.offset) q.retransmit = some (a, []) := by
    rw [h.retransmit]
    exact popIf_single (Key.le_self _)
  obtain ⟨q3, hthen, hq3, hs3⟩ : ∃ q3, makeProgressThen { q with retransmit := [] } [] = (q3, []) ∧
      q3.retransmit = [⟨q.fresh, n, b.val⟩] ∧ q3.state = .amConnected := by
    refine ⟨makeProgress { q with retransmit := [] }, by simp [makeProgressThen, progresses, h.buffer], ?_⟩
    rcases makeProgress_cases { q with retransmit := [] } with ⟨hn | hn, -⟩ | ⟨-, b', l, hb', -, e⟩
    · exact absurd rfl hn
    · exact absurd (h.buffer.symm.trans hn) (Option.some_ne_none b)
    · cases h.buffer.symm.trans hb'
      rw [e, ← h.sendOffset]
      exact ⟨rfl, h.state⟩
  have hle : Key.le n 1 = true := by
    rw [Key.le, Key.lt_def, Bool.not_eq_true', decide_eq_false_iff_not]
    omega
  have hpop' : BinHeap.popIf Seg.less (fun t => Key.le t.offset 1) q3.retransmit = some (⟨q.fresh, n, b.val⟩, []) := by
    rw [hq3]
    exact popIf_single hle
  have hsplit := pullContiguousSegments_split hpop' (show ¬ b.val.length ≤ 11 by rw [hb]; omega)
  have hp : ∃ r, pullSegments q 12 [] = ([a, ⟨q3.fresh + 1, 1, b.val.take 11⟩], r) ∧ r.state = .amConnected := by
    refine ⟨{ q3 with retransmit := BinHeap.push Seg.less [] ⟨q3.fresh, 1 + (11 : Nat), b.val.drop 11⟩, fresh := q3.fresh + 2 }, ?_,
      hs3⟩
    simp only [pullSegments, hhead, Nat.add_assoc]
    rw [Nat.add_comm, pullContiguousSegments_whole hpop (by omega), hthen]
    simp only [goesOn, hlen, ha]
    rw [if_neg (by omega)]
    exact congrArg (fun r : List Seg × T => (a :: r.1, r.2)) (hsplit _ [])
  obtain ⟨r, hp, hr⟩ := hp
  rw [pull_eq hstate, hlimit, hp]
  exact ⟨(attachEOF_connected _ _).mpr hr, _, .tail _ (.head _), rfl, by simp [hb]⟩

theorem Emptied.nack {a : Seg} {n : Int} (h : Emptied q n) : Lone (OutStreamQueue.ack q (.data [a] false) false) a n := by
  have hstate : q.state ≠ .amReset := fun hr => State.noConfusion (h.state.symm.trans hr)
  rw [ack_false_eq hstate]
  refine ⟨?_, h.buffer, ?_, h.sendOffset⟩
  · simp [T.landed, h.state, ackState, updateRTS_eq, T.ran]
  · simp only [updateRTS_eq, T.ran, T.landed, h.retransmit]
    rfl

theorem Lone.write {a : Seg} {n : Int} (h : Lone q a n) (b : Word8Vector) (cb : Nat) :
    Late (OutStreamQueue.exec q (.write b cb)) a b n := by
  have e : OutStreamQueue.exec q (.write b cb) =
      updateRTS { q with buffer := some b, writer := some cb, log := q.log ++ [.wrote b] } := by
    simp [OutStreamQueue.exec, OutStreamQueue.write, h.buffer, h.state, attempt, emit, makeProgress, h.retransmit]
  rw [e]
  exact ⟨h.state, rfl, h.retransmit, h.sendOffset⟩

/-- What runs break: a reset leaves a byte nowhere; a reset from inside a pull leaves a
    counter below zero; a segment that is lost late makes ranges overlap. -/
theorem ranges_overlap :
    (∃ q heard w, Watched q [] heard w ∧ w.calm = true ∧ w.timely = true ∧ q.sendOffset = 1 ∧
      q.retransmit ++ (q.inflight ++ records heard) = []) ∧
    (∃ q acks heard w, Watched q acks heard w ∧ w.timely = true ∧ q.retransmitBytes = -1 ∧ q.retransmit = []) ∧
    ∃ q acks heard w, Watched q acks heard w ∧ w.calm = true ∧ q.state = .amConnected ∧
      ¬ Spans q.sendOffset (q.retransmit ++ (q.inflight ++ records heard)) := by
  refine ⟨?_, ?_, ?_⟩
  · exact ⟨_, _, _, .exec .reset (.exec (.write ⟨[1], by decide⟩ 7) .new), by decide, by decide, by decide, by decide⟩
  · exact ⟨_, _, _, _, .pull 0 100 [[.reset]] (.exec (.write ⟨[2], by decide⟩ 8) (.exec (.write ⟨[1], by decide⟩ 7) .new)),
      by decide, by decide, by decide⟩
  · obtain ⟨b, hb⟩ : ∃ b : Word8Vector, b.val.length = 4000 :=
      ⟨⟨List.replicate 4000 0, by rw [List.length_replicate]; decide⟩, List.length_replicate⟩
    -- a byte that stays without an answer, and a segment behind it that is acknowledged
    obtain ⟨ha, hi⟩ := Lone.pull (q := exec new (.write ⟨[1], by decide⟩ 7)) (s := ⟨0, 0, [1]⟩) (n := 1)
      (Emptied.write ⟨rfl, rfl, rfl, rfl⟩ ⟨[1], by decide⟩ 7) (by decide)
    have h0 := (Watched.new.exec (.write ⟨[1], by decide⟩ 7)).pull 0 5000 []
    rw [ha] at h0
    obtain ⟨q1, s1, w1, h1, hs1, hd1, hc1, hi1⟩ := round h0 hi hb
    -- the stream goes on for more than 2^31 bytes
    obtain ⟨q2, heard, w2, h2, hsub, hc2, hi2⟩ := rounds 600000 h1 hi1 hb
    have h3 := ((h2.nack _ (.refl _)).exec (.write ⟨List.replicate 20 0, by decide⟩ 9)).pull 0 16 []
    have hl := hi2.nack (a := ⟨0, 0, [1]⟩)
    obtain ⟨hs, s3, hm3, ho3, hd3⟩ := (hl.write ⟨List.replicate 20 0, by decide⟩ 9).pull rfl rfl rfl (by decide) (by decide)
    refine ⟨_, _, _, _, h3, ?_, hs, fun hn => ?_⟩
    · simp only [Watch.pulled, Watch.lost, hs, hc2, hc1, hi.state, ne_eq, reduceCtorEq, not_false_eq_true, decide_true,
        Bool.or_true, Bool.and_true]
    · obtain ⟨t, ht⟩ := h3.runs
      have hin := ht.story.inflight.mem_iff.mpr (List.mem_append_left _ hm3)
      have hheard : s1 ∈ records heard := List.mem_flatMap.mpr ⟨_, hsub (.head _), .head _⟩
      have hap := (List.pairwise_append.mp (List.pairwise_append.mp hn.apart).2.1).2.2 s3 hin s1 hheard
      have hl1 : s1.data.length = 4000 := by rw [hd1, hb]
      rcases hap with e | e | e | e
      · rw [e] at hd3
        cases hd3
      · rw [e] at hl1
        cases hl1
      · simp only [Seg.len] at e
        omega
      · simp only [Seg.len] at e
        omega

end BubbleStorm.Cusp.Stream.OutStreamQueue
