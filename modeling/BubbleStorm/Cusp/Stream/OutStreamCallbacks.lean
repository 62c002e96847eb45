/-
  BubbleStorm.Cusp.Stream.OutStreamCallbacks — which callbacks of the application a
  sending queue has run.

  A write that does not raise hands over its callback, and so does a shutdown (`Taken`,
  which follows the calls a writer makes from inside a pull too). Proved for every run,
  whatever the writers do and whatever is lost (`callbacks_disciplined`):
  - the writers run so far, in order, are those taken but for the one kept; likewise the
    callbacks of shutdowns; a queue that is reset keeps none;
  - a shutdown is told true only when the acknowledged bytes are those written and a
    segment with the end of the stream was acknowledged.
-/

import BubbleStorm.Cusp.Stream.OutStreamPieces

namespace BubbleStorm.Cusp.Stream.OutStreamQueue

/-! ## Callbacks taken -/

/-- The callbacks of the writes and of the shutdowns that did not raise. -/
structure Taken where
  writes : List Nat
  shutdowns : List Nat
  deriving DecidableEq, Repr

namespace Taken

def none : Taken := ⟨[], []⟩

def add (t u : Taken) : Taken := ⟨t.writes ++ u.writes, t.shutdowns ++ u.shutdowns⟩

theorem add_assoc (t u v : Taken) : (t.add u).add v = t.add (u.add v) := by simp [add]

@[simp] theorem add_none (t : Taken) : t.add none = t := by simp [add, none]

end Taken

def takes (q : T) : Op → Taken
  | .write buffer cb => if (write q buffer cb).isOk then ⟨[cb], []⟩ else .none
  | .shutdown cb => if (shutdown q cb).isOk then ⟨[], [cb]⟩ else .none
  | _ => .none

def takesAll : T → List Op → Taken
  | _, [] => .none
  | q, op :: ops => (takes q op).add (takesAll (exec q op) ops)

/-- By what a writer does that `makeProgress` runs. -/
def progressTakes (q : T) (react : List (List Op)) : Taken :=
  if progresses q then takesAll (makeProgress q) (react.headD []) else .none

/-- By what the writers do that `pullContiguousSegments` runs. -/
def contiguousTakes : Nat → T → Nat → Int → List (List Op) → Taken
  | 0, _, _, _, _ => .none
  | fuel + 1, q, room, offset, react =>
    match BinHeap.popIf Seg.less (fun s => Key.le s.offset offset) q.retransmit with
    | none => .none
    | some (segment, retransmit) =>
      let q1 := { q with retransmit := retransmit }
      if segment.data.length ≤ room then
        let (q2, react') := makeProgressThen q1 react
        if segment.data.length = room then progressTakes q1 react
        else
          (progressTakes q1 react).add
            (contiguousTakes fuel q2 (room - segment.data.length) (offset + segment.data.length) react')
      else .none

def segmentsTakes (q : T) (room : Nat) (react : List (List Op)) : Taken :=
  match q.retransmit.head? with
  | none => .none
  | some segment => contiguousTakes (room + q.retransmit.length + react.length + 2) q room segment.offset react

def pullTakes (q : T) (room : Nat) (react : List (List Op)) : Taken :=
  if q.state = .amReset then .none else segmentsTakes q (pullLimit q room) react

/-- Every order of calls, pulls, answers and received segments: `acks` are the pulled
    segments without an answer, `heard` those acknowledged. What a writer does that is
    run by anything but a pull is the next calls of the run. -/
inductive Runs : T → Taken → List Ack → List Ack → Prop
  | new : Runs new .none [] []
  | exec {q : T} {t : Taken} {acks heard : List Ack} (op : Op) : Runs q t acks heard →
      Runs (exec q op) (t.add (takes q op)) acks heard
  | pull {q : T} {t : Taken} {acks heard : List Ack} (id room : Nat) (react : List (List Op)) : Runs q t acks heard →
      Runs (pull q id room react).2 (t.add (pullTakes q room react)) ((pull q id room react).1.ack :: acks) heard
  | ack {q : T} {t : Taken} {acks rest heard : List Ack} (a : Ack) : acks.Perm (a :: rest) → Runs q t acks heard →
      Runs (ack q a true) t rest (a :: heard)
  | nack {q : T} {t : Taken} {acks rest heard : List Ack} (a : Ack) : acks.Perm (a :: rest) → Runs q t acks heard →
      Runs (ack q a false) t rest heard
  | recv {q q' : T} {t : Taken} {acks heard : List Ack} {data : Slice} {msg : PacketFormat.Writer} {n : Nat} :
      recv q data msg = .ok (q', n) → Runs q t acks heard → Runs q' t acks heard

/-! ## Callbacks run -/

def writers (log : List Out) : List Nat :=
  log.filterMap fun
    | .writer cb _ => some cb
    | _ => none

def shutdowners (log : List Out) : List Nat :=
  log.filterMap fun
    | .shutdowner cb _ => some cb
    | _ => none

@[simp] theorem writers_append (l l' : List Out) : writers (l ++ l') = writers l ++ writers l' := List.filterMap_append
@[simp] theorem shutdowners_append (l l' : List Out) : shutdowners (l ++ l') = shutdowners l ++ shutdowners l' :=
  List.filterMap_append

@[simp] theorem writers_event (e : Event) (l : List Out) : writers (.event e :: l) = writers l := rfl
@[simp] theorem writers_wrote (b : Word8Vector) (l : List Out) : writers (.wrote b :: l) = writers l := rfl
@[simp] theorem writers_shutdowner (cb : Nat) (ok : Bool) (l : List Out) : writers (.shutdowner cb ok :: l) = writers l := rfl
@[simp] theorem writers_writer (cb : Nat) (s : Status) (l : List Out) : writers (.writer cb s :: l) = cb :: writers l := rfl
@[simp] theorem writers_nil : writers [] = [] := rfl
@[simp] theorem shutdowners_event (e : Event) (l : List Out) : shutdowners (.event e :: l) = shutdowners l := rfl
@[simp] theorem shutdowners_wrote (b : Word8Vector) (l : List Out) : shutdowners (.wrote b :: l) = shutdowners l := rfl
@[simp] theorem shutdowners_writer (cb : Nat) (s : Status) (l : List Out) : shutdowners (.writer cb s :: l) = shutdowners l := rfl
@[simp] theorem shutdowners_shutdowner (cb : Nat) (ok : Bool) (l : List Out) :
    shutdowners (.shutdowner cb ok :: l) = cb :: shutdowners l := rfl
@[simp] theorem shutdowners_nil : shutdowners [] = [] := rfl

/-- What was taken was run, or is kept. -/
structure Calls (q : T) (t : Taken) : Prop where
  writes : writers q.log ++ q.writer.toList = t.writes
  shutdowns : shutdowners q.log ++ q.shutdowner.toList = t.shutdowns
  idle : q.buffer = none → q.writer = none
  connected : q.state = .amConnected → q.shutdowner = none
  closed : q.state ≠ .amConnected → q.buffer = none
  reset : q.state = .amReset → q.shutdowner = none

variable {q q' : T} {t u : Taken} {acks heard : List Ack}

theorem calls_new : Calls new .none := ⟨rfl, rfl, fun _ => rfl, fun _ => rfl, fun h => absurd rfl h, nofun⟩

/-- Nothing the invariant reads changes but by events. -/
theorem Calls.same (h : Calls q t) (hw : writers q'.log = writers q.log) (hs : shutdowners q'.log = shutdowners q.log)
    (h1 : q'.writer = q.writer) (h2 : q'.shutdowner = q.shutdowner) (h3 : q'.buffer = q.buffer) (h4 : q'.state = q.state) :
    Calls q' t := by
  refine ⟨?_, ?_, ?_, ?_, ?_, ?_⟩
  · rw [hw, h1]; exact h.writes
  · rw [hs, h2]; exact h.shutdowns
  · rw [h3, h1]; exact h.idle
  · rw [h4, h2]; exact h.connected
  · rw [h4, h3]; exact h.closed
  · rw [h4, h2]; exact h.reset

theorem Calls.kept (h : Calls q t) : Calls q (t.add .none) := by
  rw [Taken.add_none]
  exact h

theorem Calls.callback (h : Calls q t) (e : Event) : Calls (callback q e) t :=
  h.same (by simp [OutStreamQueue.callback, emit]) (by simp [OutStreamQueue.callback, emit]) rfl rfl rfl rfl

theorem Calls.updateRTS (h : Calls q t) : Calls (updateRTS q) t := h.callback _

/-- The buffer moves, and its writer is run. -/
theorem makeProgress_moves (q : T) : makeProgress q = q ∨ makeProgress q = updateRTS q ∨
    ∃ b e e', q.buffer = some b ∧
      makeProgress q = (q.moved b).ran (.event e :: .event e' :: (q.writer.map (Out.writer · .ready)).toList) := by
  unfold makeProgress
  by_cases hr : q.retransmit = []
  · rw [if_neg (not_not.mpr hr)]
    cases hb : q.buffer with
    | none => exact .inl rfl
    | some b =>
      refine .inr (.inr ⟨b, .retransmitBytes b.val.length, .rts (if amRTS (q.moved b) then q.priority else .negInf), rfl, ?_⟩)
      simp only [runWriter_eq, updateRTS_eq, callback_eq, hr]
      exact (T.ran_ran ((q.moved b).ran [_]) [_] _).trans (T.ran_ran _ _ _)
  · rw [if_pos hr]
    exact .inr (.inl rfl)

@[simp] theorem writers_map (w : Option Nat) (s : Status) : writers (w.map (Out.writer · s)).toList = w.toList := by
  cases w <;> rfl

@[simp] theorem shutdowners_map (w : Option Nat) (s : Status) : shutdowners (w.map (Out.writer · s)).toList = [] := by
  cases w <;> rfl

theorem Calls.makeProgress (h : Calls q t) : Calls (makeProgress q) t := by
  rcases makeProgress_moves q with e | e | ⟨b, e1, e2, hb, e⟩
  · rw [e]; exact h
  · rw [e]; exact h.updateRTS
  · rw [e]
    have hw := h.writes
    have hs := h.shutdowns
    refine ⟨?_, ?_, fun _ => rfl, h.connected, fun hc => rfl, h.reset⟩
    · simpa [T.ran, T.moved] using hw
    · simpa [T.ran, T.moved] using hs

/-! ## The application's calls -/

@[simp] theorem writers_tell (w : Option Nat) (ok : Bool) : writers (w.map (Out.shutdowner · ok)).toList = [] := by
  cases w <;> rfl

@[simp] theorem shutdowners_tell (w : Option Nat) (ok : Bool) : shutdowners (w.map (Out.shutdowner · ok)).toList = w.toList := by
  cases w <;> rfl

/-- A reset runs every callback that is kept. -/
theorem Calls.doReset (h : Calls q t) : Calls (doReset q) t := by
  obtain ⟨e1, e2, e⟩ := doReset_eq q
  rw [e]
  have hw := h.writes
  have hs := h.shutdowns
  refine ⟨?_, ?_, fun _ => rfl, nofun, fun _ => rfl, fun _ => rfl⟩
  · simpa [T.ran, T.stopped] using hw
  · simpa [T.ran, T.stopped] using hs

theorem Calls.exec (h : Calls q t) (op : Op) : Calls (exec q op) (t.add (takes q op)) := by
  cases op with
  | write b cb =>
    simp only [OutStreamQueue.exec, takes]
    have hw := h.writes
    have hs := h.shutdowns
    unfold write
    split
    · exact h.kept
    · rename_i hb
      have hnone : q.buffer = none := by simpa using hb
      have hwriter := h.idle hnone
      rw [hwriter, Option.toList_none, List.append_nil] at hw
      split
      · exact h.kept
      · rename_i hst
        refine ⟨?_, ?_, fun _ => hwriter, fun hc => State.noConfusion (hst.symm.trans hc), fun _ => hnone, h.reset⟩
        · simp [attempt, runWriter, emit, hwriter, hw, Except.isOk, Except.toBool, Taken.add]
        · simpa [attempt, runWriter, emit, Except.isOk, Except.toBool, Taken.add] using hs
      · rename_i hst
        refine Calls.makeProgress ⟨?_, ?_, fun hn => absurd hn (Option.some_ne_none b), fun hc => h.connected hst, fun hc => absurd hst hc, fun hr => State.noConfusion (hst.symm.trans hr)⟩
        · simp [emit, hw, Except.isOk, Except.toBool, Taken.add]
        · simpa [emit, Except.isOk, Except.toBool, Taken.add] using hs
  | shutdown cb =>
    simp only [OutStreamQueue.exec, takes]
    have hw := h.writes
    have hs := h.shutdowns
    unfold shutdown
    split
    · exact h.kept
    · rename_i hb
      have hnone : q.buffer = none := by simpa using hb
      split
      · exact h.kept
      · rename_i hst
        have hsd := h.reset hst
        rw [hsd, Option.toList_none, List.append_nil] at hs
        refine ⟨?_, ?_, h.idle, fun hc => State.noConfusion (hst.symm.trans hc), h.closed, fun _ => hsd⟩
        · simpa [attempt, runShutdowner, emit, Except.isOk, Except.toBool, Taken.add] using hw
        · simp [attempt, runShutdowner, emit, hsd, hs, Except.isOk, Except.toBool, Taken.add]
      · rename_i hst
        have hsd := h.connected hst
        rw [hsd, Option.toList_none, List.append_nil] at hs
        refine Calls.updateRTS ⟨?_, ?_, h.idle, State.noConfusion, fun _ => hnone, State.noConfusion⟩
        · simpa [Except.isOk, Except.toBool, Taken.add] using hw
        · simp [hs, Except.isOk, Except.toBool, Taken.add]
  | reset => exact h.doReset.updateRTS.kept
  | setPriority prio =>
    simp only [OutStreamQueue.exec, setPriority]
    split
    · have h' : Calls { q with priority := prio } t := h.same rfl rfl rfl rfl rfl rfl
      exact h'.updateRTS.kept
    · exact h.kept

theorem Calls.exec_all (h : Calls q t) (ops : List Op) : Calls (ops.foldl OutStreamQueue.exec q) (t.add (takesAll q ops)) := by
  induction ops generalizing q t with
  | nil => exact h.kept
  | cons op ops ih =>
    rw [List.foldl_cons, takesAll, ← Taken.add_assoc]
    exact ih (h.exec op)

/-! ## Pulling -/

theorem Calls.makeProgressThen (h : Calls q t) (react : List (List Op)) :
    Calls (makeProgressThen q react).1 (t.add (progressTakes q react)) := by
  unfold OutStreamQueue.makeProgressThen progressTakes
  split
  · exact h.makeProgress.exec_all _
  · exact h.makeProgress.kept

theorem Calls.contiguous (fuel : Nat) (h : Calls q t) (room : Nat) (offset : Int) (react : List (List Op)) :
    Calls (pullContiguousSegments fuel q room offset react).2 (t.add (contiguousTakes fuel q room offset react)) := by
  induction fuel generalizing q t room offset react with
  | zero => exact h.kept
  | succ fuel ih =>
    unfold pullContiguousSegments contiguousTakes
    cases hpop : BinHeap.popIf Seg.less (fun s => Key.le s.offset offset) q.retransmit with
    | none => exact h.kept
    | some r =>
      obtain ⟨s, rest⟩ := r
      have h1 : Calls { q with retransmit := rest } t := h.same rfl rfl rfl rfl rfl rfl
      have h2 := h1.makeProgressThen react
      dsimp only
      split_ifs with hroom hfull
      · exact h2
      · rw [← Taken.add_assoc]
        exact ih h2 _ _ _
      · exact h.kept.same rfl rfl rfl rfl rfl rfl

theorem Calls.restate (h : Calls q t) {s : State} (hc : s = .amConnected ↔ q.state = .amConnected)
    (hr : s = .amReset ↔ q.state = .amReset) : Calls { q with state := s } t :=
  ⟨h.writes, h.shutdowns, h.idle, fun hs => h.connected (hc.mp hs), fun hs => h.closed (mt hc.mpr hs),
    fun hs => h.reset (hr.mp hs)⟩

theorem attachEOF_connected (s : State) (atEnd : Bool) : (attachEOF s atEnd).2 = .amConnected ↔ s = .amConnected := by
  rcases attachEOF_cases s atEnd with e | ⟨-, ⟨p, e', -⟩, e⟩
  · rw [e]
  · rw [e, e']
    exact ⟨nofun, nofun⟩

theorem Calls.segments (h : Calls q t) (room : Nat) (react : List (List Op)) :
    Calls (pullSegments q room react).2 (t.add (segmentsTakes q room react)) := by
  unfold pullSegments segmentsTakes
  cases hh : q.retransmit.head? with
  | none => exact h.kept
  | some segment => exact h.contiguous _ _ _ _

theorem Calls.pull (h : Calls q t) (id room : Nat) (react : List (List Op)) :
    Calls (pull q id room react).2 (t.add (pullTakes q room react)) := by
  unfold pullTakes
  by_cases hs : q.state = .amReset
  · rw [if_pos hs]
    unfold OutStreamQueue.pull
    rw [if_pos hs]
    exact (h.callback _).kept
  · rw [if_neg hs]
    have hp := h.segments (pullLimit q room) react
    rw [pull_eq hs]
    generalize pullSegments q (pullLimit q room) react = r at hp
    obtain ⟨segments, q1⟩ := r
    dsimp only at hp ⊢
    have h' : Calls { q1 with inflight := segments.foldl (BinHeap.push Seg.less) q1.inflight,
                              state := (attachEOF q1.state (word32 (pullOffset q + lens segments) = word32 q1.sendOffset)).2,
                              inflightBytes := q1.inflightBytes + lens segments,
                              retransmitBytes := q1.retransmitBytes - lens segments } (t.add (segmentsTakes q (pullLimit q room) react)) :=
      (hp.restate (attachEOF_connected _ _) (attachEOF_reset _ _)).same rfl rfl rfl rfl rfl rfl
    exact h'.updateRTS.same (by simp [T.sent]) (by simp [T.sent]) rfl rfl rfl rfl

/-! ## Answers -/

theorem Calls.checkDone (h : Calls q t) : Calls (checkDone q) t := by
  unfold OutStreamQueue.checkDone
  split
  · have hw := h.writes
    have hs := h.shutdowns
    rw [runShutdowner_eq, callback_eq]
    refine ⟨?_, ?_, h.idle, fun _ => rfl, h.closed, fun _ => rfl⟩
    · simpa [T.ran] using hw
    · simpa [T.ran] using hs
  · exact h

theorem ackState_connected (s : State) (eof ok : Bool) : ackState s eof ok = .amConnected ↔ s = .amConnected := by
  rcases ackState_cases s eof ok with e | ⟨p, p', e, e'⟩
  · rw [e]
  · rw [e', e]
    exact ⟨nofun, nofun⟩

theorem Calls.landed (h : Calls q t) (segments : List Seg) (eof ok : Bool) (retransmit : List Seg) :
    Calls (q.landed segments eof ok retransmit) t :=
  (h.restate (ackState_connected _ eof ok) (ackState_reset _ eof ok)).same (by simp [T.landed]) (by simp [T.landed]) rfl rfl rfl rfl

theorem Calls.ack (h : Calls q t) (a : Ack) (ok : Bool) : Calls (ack q a ok) t := by
  cases a with
  | reset => cases ok <;> exact h.callback _
  | data segments eof =>
    cases ok with
    | true =>
      rw [ack_true_eq]
      exact (h.landed segments eof true _).makeProgress.checkDone
    | false =>
      by_cases hs : q.state = .amReset
      · have h' : Calls { q.landed segments eof false q.retransmit with retransmitBytes := q.retransmitBytes } t :=
          (h.landed segments eof false q.retransmit).same rfl rfl rfl rfl rfl rfl
        rw [ack_reset_eq hs]
        exact h'.makeProgress.checkDone
      · rw [ack_false_eq hs]
        exact ((h.landed segments eof false _).callback _).updateRTS

theorem Calls.recv (h : Calls q t) {data : Slice} {msg : PacketFormat.Writer} {n : Nat} (hr : recv q data msg = .ok (q', n)) :
    Calls q' t := by
  rcases recv_cases hr with ⟨b, -, e⟩ | ⟨-, e⟩
  · rw [e]
    have h' : Calls { q with barrier := b } t := h.same rfl rfl rfl rfl rfl rfl
    exact h'.makeProgress
  · rw [e]
    exact h.doReset.callback _

/-! ## The shutdown that is told true -/

def records (acks : List Ack) : List Seg := acks.flatMap Ack.segments

def Told (log : List Out) : Prop := ∃ cb, Out.shutdowner cb true ∈ log

/-- All of the stream and its end were acknowledged. -/
structure Finished (q : T) (acks heard : List Ack) : Prop where
  state : q.state ≠ .amConnected
  buffer : q.buffer = none
  retransmit : q.retransmit = []
  acks : records acks = []
  bytes : (payload (records heard)).Perm (written q.log)
  eof : ∃ segments, Ack.data segments true ∈ heard

/-- Everything followed over a run. -/
structure Story (q : T) (t : Taken) (acks heard : List Ack) : Prop where
  calls : Calls q t
  pieces : Pieces q (records acks) (records heard)
  inflight : q.inflight.Perm (records acks)
  ackd : q.state = .amShutdown .ackd → ∃ segments, Ack.data segments true ∈ heard
  told : Told q.log → Finished q acks heard

theorem story_new : Story new .none [] [] where
  calls := calls_new
  pieces := pieces_new
  inflight := .refl _
  ackd := nofun
  told := by
    intro ⟨cb, h⟩
    cases h

theorem exec_told (op : Op) (h : Told (exec q op).log) : Told q.log := by
  obtain ⟨cb, hcb⟩ := h
  refine ⟨cb, ?_⟩
  by_cases hop : op = .reset
  · subst hop
    obtain ⟨e1, e2, e⟩ := doReset_eq q
    have he : OutStreamQueue.exec q .reset = updateRTS (doReset q) := rfl
    rw [he, e, updateRTS_eq] at hcb
    simpa [T.ran, T.stopped] using hcb
  · by_cases hs : q.state = .amReset
    · rcases exec_answers hs hop with e | ⟨b, cb', -, e⟩ | ⟨cb', -, e⟩ | ⟨prio, e⟩
      · rwa [e] at hcb
      · rw [e] at hcb
        simpa [T.ran] using hcb
      · rw [e] at hcb
        simpa [T.ran] using hcb
      · rw [e, updateRTS_eq] at hcb
        simpa [T.ran] using hcb
    · exact (exec_extends hs hop).toFrame.shutdowner hcb

/-- A call on a queue that is closed only runs callbacks, or stops it. -/
theorem exec_closed (hs : q.state ≠ .amConnected) (op : Op) : ∃ l, Quiet l ∧
    (exec q op = q.ran l ∨ (∃ prio, exec q op = { q with priority := prio }.ran l) ∨ exec q op = q.stopped.ran l) := by
  by_cases hop : op = .reset
  · subst hop
    obtain ⟨l, hl, e⟩ := reset_cases q
    exact ⟨l, hl, .inr (.inr e)⟩
  by_cases hr : q.state = .amReset
  · rcases exec_answers hr hop with e | ⟨b, cb, -, e⟩ | ⟨cb, -, e⟩ | ⟨prio, e⟩
    · exact ⟨[], nofun, .inl (e.trans q.ran_nil.symm)⟩
    · exact ⟨_, fun b hb => by simp at hb, .inl e⟩
    · exact ⟨_, fun b hb => by simp at hb, .inl e⟩
    · exact ⟨_, fun b hb => by simp at hb, .inr (.inl ⟨prio, e.trans (updateRTS_eq _)⟩)⟩
  · rcases exec_cases q op with ⟨l, hl, e⟩ | ⟨prio, e⟩ | ⟨b, cb, -, hc, -⟩ | ⟨cb, -, hc, -⟩ | e | e
    · exact ⟨l, hl.quiet, .inl e⟩
    · exact ⟨_, fun b hb => by simp at hb, .inr (.inl ⟨prio, e.trans (updateRTS_eq _)⟩)⟩
    · exact absurd hc hs
    · exact absurd hc hs
    · exact absurd e hr
    · exact absurd e hop

/-- Nothing that is written, or kept to be sent, changes. -/
theorem Finished.keep (h : Finished q acks heard) {acks' heard' : List Ack} (hs : q'.state ≠ .amConnected) (hb : q'.buffer = none)
    (hr : q'.retransmit = []) (hw : written q'.log = written q.log) (ha : records acks' = records acks)
    (hp : records heard' = records heard) (hh : heard ⊆ heard') : Finished q' acks' heard' := by
  refine ⟨hs, hb, hr, ha.trans h.acks, ?_, ?_⟩
  · rw [hw, hp]
    exact h.bytes
  · obtain ⟨segments, hm⟩ := h.eof
    exact ⟨segments, hh hm⟩

theorem Finished.exec (h : Finished q acks heard) (op : Op) : Finished (exec q op) acks heard := by
  obtain ⟨l, hl, he⟩ := exec_closed h.state op
  have hw : written (q.log ++ l) = written q.log := by rw [written_append, hl.written, List.append_nil]
  rcases he with e | ⟨prio, e⟩ | e
  · rw [e]
    exact h.keep h.state h.buffer h.retransmit hw rfl rfl fun _ hm => hm
  · rw [e]
    exact h.keep h.state h.buffer h.retransmit hw rfl rfl fun _ hm => hm
  · rw [e]
    exact h.keep nofun rfl rfl hw rfl rfl fun _ hm => hm

theorem Story.exec (h : Story q t acks heard) (op : Op) : Story (exec q op) (t.add (takes q op)) acks heard where
  calls := h.calls.exec op
  pieces := h.pieces.exec op
  inflight := by
    rw [exec_inflight]
    exact h.inflight
  ackd hs := by
    rcases exec_turned q op with e | e | e
    · exact h.ackd (e.symm.trans hs)
    · rw [e] at hs; cases hs
    · rw [e] at hs; cases hs
  told ht := (h.told (exec_told op ht)).exec op

theorem execs_told (ops : List Op) (h : Told (ops.foldl exec q).log) : Told q.log := by
  induction ops generalizing q with
  | nil => exact h
  | cons op ops ih => exact exec_told op (ih h)

theorem makeProgress_told (h : Told (makeProgress q).log) : Told q.log := by
  obtain ⟨cb, hcb⟩ := h
  exact ⟨cb, (makeProgress_extends q).toFrame.shutdowner hcb⟩

theorem makeProgressThen_told (react : List (List Op)) (h : Told (makeProgressThen q react).1.log) : Told q.log := by
  unfold makeProgressThen at h
  split at h
  · exact makeProgress_told (execs_told _ h)
  · exact makeProgress_told h

theorem pullContiguousSegments_told (fuel room : Nat) (offset : Int) (react : List (List Op))
    (h : Told (pullContiguousSegments fuel q room offset react).2.log) : Told q.log := by
  induction fuel generalizing q room offset react with
  | zero => exact h
  | succ fuel ih =>
    unfold pullContiguousSegments at h
    split at h
    · exact h
    · rename_i s rest hpop
      have hthen : Told (makeProgressThen { q with retransmit := rest } react).1.log → Told q.log := makeProgressThen_told react
      dsimp only at h
      split_ifs at h with hroom hfull
      · exact hthen h
      · exact hthen (ih _ _ _ h)
      · exact h

theorem pull_told (id room : Nat) (react : List (List Op)) (h : Told (pull q id room react).2.log) : Told q.log := by
  obtain ⟨cb, hcb⟩ := h
  by_cases hs : q.state = .amReset
  · unfold pull at hcb
    rw [if_pos hs] at hcb
    exact ⟨cb, by simpa [callback, emit] using hcb⟩
  · rw [pull_eq hs] at hcb
    have hp : Told (pullSegments q (pullLimit q room) react).2.log := ⟨cb, by simpa [T.sent, updateRTS_eq, T.ran] using hcb⟩
    unfold pullSegments at hp
    split at hp
    · exact hp
    · exact pullContiguousSegments_told _ _ _ _ hp

/-- A pull when nothing is left: the end of the stream, or the answer to a reset. -/
theorem Finished.pull (h : Finished q acks heard) (id room : Nat) (react : List (List Op)) :
    Finished (pull q id room react).2 ((pull q id room react).1.ack :: acks) heard := by
  by_cases hs : q.state = .amReset
  · unfold OutStreamQueue.pull
    rw [if_pos hs]
    exact h.keep h.state h.buffer h.retransmit (by simp [OutStreamQueue.callback, emit]) rfl rfl fun _ hm => hm
  · have hp : pullSegments q (pullLimit q room) react = ([], q) := by simp [pullSegments, h.retransmit]
    rw [pull_eq hs, hp]
    refine h.keep (mt (attachEOF_connected _ _).mp h.state) h.buffer h.retransmit ?_ rfl rfl fun _ hm => hm
    obtain ⟨l, hl, e⟩ := T.sent_log q (attachEOF q.state (word32 (pullOffset q + lens []) = word32 q.sendOffset)).2 []
    rw [e, written_append, hl.quiet.written, List.append_nil]

theorem records_cons (a : Ack) (acks : List Ack) : records (a :: acks) = a.segments ++ records acks := rfl

theorem records_perm {acks' : List Ack} (hp : acks.Perm acks') : (records acks).Perm (records acks') := hp.flatMap_right _

theorem Story.pull (h : Story q t acks heard) (id room : Nat) (react : List (List Op)) :
    Story (pull q id room react).2 (t.add (pullTakes q room react)) ((pull q id room react).1.ack :: acks) heard := by
  obtain ⟨hp, hin⟩ := h.pieces.pull id room react
  refine ⟨h.calls.pull id room react, hp, hin.trans (h.inflight.append_left _), fun hs => ?_, fun ht => ?_⟩
  · rcases pull_ends q id room react hs with e | e | ⟨e, -⟩
    · cases e
    · exact h.ackd e
    · cases e
  · exact (h.told (pull_told id room react ht)).pull id room react

theorem Story.perm (h : Story q t acks heard) {acks' : List Ack} (hp : acks.Perm acks') : Story q t acks' heard where
  calls := h.calls
  pieces := h.pieces.perm (records_perm hp)
  inflight := h.inflight.trans (records_perm hp)
  ackd := h.ackd
  told ht :=
    have f := h.told ht
    ⟨f.state, f.buffer, f.retransmit, ((records_perm hp).symm.trans (f.acks ▸ .refl _)).eq_nil, f.bytes, f.eof⟩

theorem Story.makeProgress (h : Story q t acks heard) : Story (makeProgress q) t acks heard where
  calls := h.calls.makeProgress
  pieces := h.pieces.makeProgress
  inflight := by
    rw [(makeProgress_extends q).inflight]
    exact h.inflight
  ackd hs := h.ackd ((makeProgress_state q).symm.trans hs)
  told ht := by
    have f := h.told (makeProgress_told ht)
    have e : OutStreamQueue.makeProgress q = q := by simp [OutStreamQueue.makeProgress, f.retransmit, f.buffer]
    rw [e]
    exact f

theorem Story.callback (h : Story q t acks heard) (e : Event) : Story (callback q e) t acks heard where
  calls := h.calls.callback e
  pieces := h.pieces.ran fun b hb => by simp at hb
  inflight := h.inflight
  ackd := h.ackd
  told := by
    intro ⟨cb, ht⟩
    have f := h.told ⟨cb, by simpa [OutStreamQueue.callback, emit] using ht⟩
    exact f.keep f.state f.buffer f.retransmit (by simp [OutStreamQueue.callback, emit]) rfl rfl fun _ hm => hm

theorem Story.checkDone (h : Story q t acks heard) : Story (checkDone q) t acks heard := by
  have hp := h.pieces.checkDone
  have hc := h.calls.checkDone
  rcases checkDone_cases q with e | ⟨hd, l, hl, e⟩
  · rw [e]; exact h
  · rw [e] at hp hc ⊢
    simp only [amDone, Bool.and_eq_true, decide_eq_true_eq, List.isEmpty_iff] at hd
    obtain ⟨⟨hs, hin⟩, hr⟩ := hd
    have hacks : records acks = [] := (h.inflight.symm.trans (hin ▸ .refl _)).eq_nil
    refine ⟨hc, hp, h.inflight, h.ackd, fun _ => ⟨fun hn => State.noConfusion (hs.symm.trans hn), h.pieces.shut _ hs, hr, hacks, ?_, h.ackd hs⟩⟩
    have hbytes := h.pieces.bytes fun hn => State.noConfusion (hs.symm.trans hn)
    have hwait : q.waiting = [] := by simp only [T.waiting, h.pieces.shut _ hs]
    rw [hacks, hr, hwait, List.append_nil] at hbytes
    rw [show written ({ q.ran l with shutdowner := none } : T).log = written q.log by
      rw [T.ran_log, written_append, hl.written, List.append_nil]]
    exact hbytes

theorem Finished.answered {a : Ack} {rest : List Ack} (h : Finished q (a :: rest) heard) : a.segments = [] ∧ records rest = [] :=
  List.append_eq_nil_iff.mp ((records_cons a rest).symm.trans h.acks)

theorem Calls.restore (h : Calls q t) (n : Int) : Calls { q with retransmitBytes := n } t := h.same rfl rfl rfl rfl rfl rfl

theorem ackState_ackd {s : State} {eof ok : Bool} (h : ackState s eof ok = .amShutdown .ackd) :
    s = .amShutdown .ackd ∨ eof = true ∧ ok = true := by
  cases s with
  | amConnected => cases eof <;> cases h
  | amReset => cases eof <;> cases h
  | amShutdown p =>
    cases p <;> cases eof <;> cases ok
    all_goals first
    | exact .inl rfl
    | exact .inr ⟨rfl, rfl⟩
    | cases h

/-- The answer to a pulled segment is on the books. -/
theorem Story.landed {segments : List Seg} {eof : Bool} {rest : List Ack} (h : Story q t (.data segments eof :: rest) heard) :
    Story (q.landed segments eof true q.retransmit) t rest (.data segments eof :: heard) where
  calls := h.calls.landed segments eof true _
  pieces := h.pieces.hear eof true
  inflight := foldl_heapRemove_perm h.inflight (h.pieces.inflight_refs h.inflight)
  ackd hs := by
    rcases ackState_ackd hs with e | ⟨rfl, -⟩
    · obtain ⟨l, hl⟩ := h.ackd e
      exact ⟨l, .tail _ hl⟩
    · exact ⟨segments, .head _⟩
  told := by
    intro ⟨cb, ht⟩
    have f := h.told ⟨cb, by simpa [T.landed] using ht⟩
    obtain ⟨hsegs, hrest⟩ := f.answered
    have hr : records (.data segments eof :: heard) = records heard := by rw [records_cons, hsegs, List.nil_append]
    exact f.keep (mt (ackState_connected _ _ _).mp f.state) f.buffer f.retransmit (landed_written q eof true _)
      (hrest.trans f.acks.symm) hr fun _ hm => .tail _ hm

/-- A lost segment: what goes back is left to the caller. -/
theorem Story.lost {segments r : List Seg} {eof : Bool} {rest : List Ack} {n : Int} (h : Story q t (.data segments eof :: rest) heard)
    (hp : Pieces { q.landed segments eof false r with retransmitBytes := n } (records rest) (records heard))
    (hr : segments = [] → q.retransmit = [] → r = []) :
    Story { q.landed segments eof false r with retransmitBytes := n } t rest heard where
  calls := (h.calls.landed segments eof false r).same rfl rfl rfl rfl rfl rfl
  pieces := hp
  inflight := foldl_heapRemove_perm h.inflight (h.pieces.inflight_refs h.inflight)
  ackd hs := by
    rcases ackState_ackd hs with e | ⟨-, e⟩
    · exact h.ackd e
    · cases e
  told := by
    intro ⟨cb, ht⟩
    have f := h.told ⟨cb, by simpa [T.landed] using ht⟩
    obtain ⟨hsegs, hrest⟩ := f.answered
    exact f.keep (mt (ackState_connected _ _ _).mp f.state) f.buffer (hr hsegs f.retransmit) (landed_written q eof false r)
      (hrest.trans f.acks.symm) rfl fun _ hm => hm

theorem Story.ack {a : Ack} {rest : List Ack} (h : Story q t (a :: rest) heard) : Story (OutStreamQueue.ack q a true) t rest (a :: heard) := by
  cases a with
  | reset =>
    have h' : Story q t rest (.reset :: heard) :=
      ⟨h.calls, h.pieces, h.inflight, fun hs => (h.ackd hs).imp fun _ hm => .tail _ hm,
        fun ht => (h.told ht).keep (h.told ht).state (h.told ht).buffer (h.told ht).retransmit rfl rfl rfl fun _ hm => .tail _ hm⟩
    exact h'.callback .becameComplete
  | data segments eof =>
    rw [ack_true_eq]
    exact h.landed.makeProgress.checkDone

theorem Story.nack {a : Ack} {rest : List Ack} (h : Story q t (a :: rest) heard) : Story (OutStreamQueue.ack q a false) t rest heard := by
  cases a with
  | reset =>
    have h' : Story q t rest heard :=
      ⟨h.calls, h.pieces, h.inflight, h.ackd, fun ht => ⟨(h.told ht).state, (h.told ht).buffer, (h.told ht).retransmit,
        (h.told ht).acks, (h.told ht).bytes, (h.told ht).eof⟩⟩
    exact h'.callback (.rts .posInf)
  | data segments eof =>
    by_cases hs : q.state = .amReset
    · rw [ack_reset_eq hs]
      exact (h.lost (h.pieces.forget eof hs) fun _ hr => hr).makeProgress.checkDone
    · have hl := h.lost (h.pieces.requeue eof hs) fun hsegs hr => by rw [hsegs, hr]; rfl
      rw [ack_false_eq hs]
      exact (hl.callback (.retransmitBytes (lens segments))).callback _

theorem doReset_told (h : Told (doReset q).log) : Told q.log := by
  obtain ⟨cb, hcb⟩ := h
  obtain ⟨e1, e2, e⟩ := doReset_eq q
  rw [e] at hcb
  exact ⟨cb, by simpa [T.ran, T.stopped] using hcb⟩

theorem Story.doReset (h : Story q t acks heard) : Story (doReset q) t acks heard := by
  have hp := h.pieces.doReset
  have hc := h.calls.doReset
  have ht := doReset_told (q := q)
  obtain ⟨l, hl, e⟩ := doReset_cases q
  rw [e] at hp hc ht ⊢
  refine ⟨hc, hp, h.inflight, nofun, fun hs => ?_⟩
  refine (h.told (ht hs)).keep nofun rfl rfl ?_ rfl rfl fun _ hm => hm
  rw [T.ran_log, written_append, hl.written, List.append_nil]
  rfl

theorem Story.recv (h : Story q t acks heard) {data : Slice} {msg : PacketFormat.Writer} {n : Nat}
    (hr : recv q data msg = .ok (q', n)) : Story q' t acks heard := by
  rcases recv_cases hr with ⟨b, -, e⟩ | ⟨-, e⟩
  · have h' : Story { q with barrier := b } t acks heard :=
      ⟨h.calls.same rfl rfl rfl rfl rfl rfl,
        ⟨h.pieces.refs, h.pieces.fresh, h.pieces.bytes, h.pieces.shut, fun hs => (h.pieces.stopped hs).same rfl rfl rfl⟩,
        h.inflight, h.ackd, fun ht => (h.told ht).keep (h.told ht).state (h.told ht).buffer (h.told ht).retransmit rfl rfl rfl
          fun _ hm => hm⟩
    rw [e]
    exact h'.makeProgress
  · rw [e]
    exact h.doReset.callback _

/-! ## Runs -/

theorem Runs.story (h : Runs q t acks heard) : Story q t acks heard := by
  induction h with
  | new => exact story_new
  | exec op _ ih => exact ih.exec op
  | pull id room react _ ih => exact ih.pull id room react
  | ack a hp _ ih => exact (ih.perm hp).ack
  | nack a hp _ ih => exact (ih.perm hp).nack
  | recv hr _ ih => exact ih.recv hr

/-- What the callbacks of a queue keep to: those run are those taken, in order, but for
    the one kept; none is kept by a queue that is reset; a shutdown is told true only
    when no byte is anywhere but acknowledged, and the end of the stream is too. -/
structure Disciplined (q : T) (t : Taken) (acks heard : List Ack) : Prop where
  writes : writers q.log ++ q.writer.toList = t.writes
  shutdowns : shutdowners q.log ++ q.shutdowner.toList = t.shutdowns
  reset : q.state = .amReset → q.writer = none ∧ q.shutdowner = none
  told : ∀ cb, Out.shutdowner cb true ∈ q.log →
    q.buffer = none ∧ q.retransmit = [] ∧ records acks = [] ∧ (payload (records heard)).Perm (written q.log) ∧
      ∃ segments, Ack.data segments true ∈ heard

theorem callbacks_disciplined (h : Runs q t acks heard) : Disciplined q t acks heard where
  writes := h.story.calls.writes
  shutdowns := h.story.calls.shutdowns
  reset hs := by
    have hb := h.story.calls.closed fun hc => State.noConfusion (hs.symm.trans hc)
    exact ⟨h.story.calls.idle hb, h.story.calls.reset hs⟩
  told cb hcb :=
    have f := h.story.told ⟨cb, hcb⟩
    ⟨f.buffer, f.retransmit, f.acks, f.bytes, f.eof⟩

/-- One write, the end of the stream, and the answer to both in one segment. -/
theorem one_stream_disciplined :
    let w := exec (exec new (.write ⟨[1, 2, 3], by decide⟩ 7)) (.shutdown 9)
    let p := pull w 0 1000 []
    (ack p.2 p.1.ack true).log.getLast? = some (.shutdowner 9 true) ∧
      Disciplined (ack p.2 p.1.ack true) ⟨[7], [9]⟩ [] [p.1.ack] :=
  ⟨by decide, callbacks_disciplined (Runs.ack _ (.refl _) (Runs.pull 0 1000 []
    (Runs.exec (.shutdown 9) (Runs.exec (.write ⟨[1, 2, 3], by decide⟩ 7) .new))))⟩

end BubbleStorm.Cusp.Stream.OutStreamQueue
