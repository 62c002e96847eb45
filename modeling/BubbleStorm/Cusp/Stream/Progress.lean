/-
  BubbleStorm.Cusp.Stream.Progress — when a stream with bytes left to send stands still.

  A barrier the receiving queue has announced (`lastBarrier`) was told to the sender, is
  on its way, or lies an increment behind the barrier (`Offered`). So where nothing is
  on its way and all is read, the sender's barrier is far enough past the receiver's
  offset for the first record, unless the receiver has heard the end of the stream: then
  it announces no barrier any more.
-/

import BubbleStorm.Cusp.Stream.FlowControl

namespace BubbleStorm.Cusp.Stream

open OutStreamQueue (ack amRTS)

/-! ## What the host is told about the receiving queue -/

namespace InStreamQueue

/-- The host keeps a queue ready to send by the last RTS event. -/
def heard (ready : Bool) : Out → Bool
  | .event (.rts prio) => prio = .posInf
  | _ => ready

def ready (q : T) : Bool := q.log.foldl heard false

@[simp] theorem ready_callback (q : T) (e : Event) : ready (callback q e) = heard (ready q) (.event e) := by
  simp [ready, callback, emit]

theorem ready_runReader (q : T) (cb : Option Nat) (s : Status) : ready (runReader q cb s) = ready q := by
  cases cb <;> simp [ready, runReader, emit, heard]

/-- Until it is reset, a queue is ready exactly while it is connected and a barrier
    update is due. -/
structure Tells (q : T) : Prop where
  connected : q.state = .amConnected → ready q = amRTS q
  down : q.state ≠ .amConnected → ready q = false

/-- A step that leaves `lastBarrier` alone, and does not connect the queue again. -/
structure Marks (q q' : T) : Prop where
  last : q'.lastBarrier = q.lastBarrier
  state : q'.state = .amConnected → q.state = .amConnected
  tells : Tells q → Tells q'

variable {q q' : T}

theorem Marks.refl (q : T) : Marks q q := ⟨rfl, id, id⟩

theorem Marks.trans {q'' : T} (h : Marks q q') (h' : Marks q' q'') : Marks q q'' :=
  ⟨h'.last.trans h.last, fun hs => h.state (h'.state hs), fun ht => h'.tells (h.tells ht)⟩

theorem Marks.runReader (h : Marks q q') (cb : Option Nat) (s : Status) : Marks q (runReader q' cb s) := by
  have e := runReader_eq q' cb s
  have hr := ready_runReader q' cb s
  rw [e] at hr ⊢
  refine ⟨h.last, h.state, fun ht => ⟨fun hs => ?_, fun hs => ?_⟩⟩
  · exact hr.trans ((h.tells ht).connected hs)
  · exact hr.trans ((h.tells ht).down hs)

theorem tells_new (id : Nat) : Tells (new id) where
  connected _ := rfl
  down _ := rfl

theorem fireEvent_tells (h : q.state ≠ .amConnected → ready q = false) : Tells (fireEvent q) := by
  unfold fireEvent
  split
  · rename_i hs
    have hd := h (by rw [hs]; exact State.noConfusion)
    split
    · refine ⟨fun hc => absurd (hs.symm.trans hc) State.noConfusion, fun _ => ?_⟩
      rw [ready_callback]
      exact hd
    · exact ⟨fun hc => absurd (hs.symm.trans hc) State.noConfusion, fun _ => hd⟩
  · rename_i hs
    exact ⟨fun hc => absurd (hs.symm.trans hc) State.noConfusion, h⟩
  · rename_i hs
    refine ⟨fun hc => absurd (hs.symm.trans hc) State.noConfusion, fun hc => ?_⟩
    rw [ready_callback]
    exact h hc
  · rename_i hs
    refine ⟨fun _ => ?_, fun hc => absurd hs hc⟩
    rw [ready_callback, show amRTS (callback q _) = amRTS q from rfl]
    cases amRTS q <;> rfl

/-- A queue whose events are fired. -/
theorem marks_fireEvent (hl : q'.lastBarrier = q.lastBarrier) (hs : q'.state = q.state)
    (hr : ready q = false → ready q' = false) : Marks q (fireEvent q') := by
  obtain ⟨l, -, e⟩ := fireEvent_cases q'
  refine ⟨?_, fun hc => ?_, fun ht => fireEvent_tells fun hn => hr (ht.down (hs ▸ hn))⟩
  · rw [e]
    exact hl
  · rw [e] at hc
    exact hs ▸ hc

theorem marks_finishRead (q : T) (slices : List Bytes) (n : Int) (reader : Option Nat) (m : Int) :
    Marks q (finishRead q slices n reader m) := by
  refine marks_fireEvent rfl rfl fun hr => ?_
  rw [ready_callback]
  exact hr

theorem Marks.callback (h : Marks q q') {e : Event} (he : ∀ prio, e ≠ .rts prio) : Marks q (callback q' e) := by
  have hr : ready (InStreamQueue.callback q' e) = ready q' := by
    rw [ready_callback]
    cases e with
    | rts prio => exact absurd rfl (he prio)
    | _ => rfl
  refine ⟨h.last, h.state, fun ht => ⟨fun hs => ?_, fun hs => ?_⟩⟩
  · exact hr.trans ((h.tells ht).connected hs)
  · exact hr.trans ((h.tells ht).down hs)

theorem marks_read {n : Int} {cb : Nat} (h : read q n cb = .ok q') : Marks q q' := by
  cases read_reads h with
  | reset => exact (Marks.refl q).runReader _ _
  | wait => exact marks_finishRead _ _ _ _ _
  | atEnd =>
    exact (((Marks.refl q).callback (e := .becameComplete) nofun).trans (marks_finishRead _ _ _ _ _)).runReader _ _
  | hand => exact (marks_finishRead _ _ _ _ _).runReader _ _

theorem marks_exec {op : Op} (hop : op ≠ .reset) : Marks q (exec q op) := by
  cases op with
  | read n cb =>
    simp only [exec]
    split
    · rename_i hq
      exact marks_read hq
    · exact .refl q
  | reset => exact absurd rfl hop

theorem marks_exec_all {ops : List Op} (hops : Op.reset ∉ ops) : Marks q (ops.foldl exec q) := by
  induction ops generalizing q with
  | nil => exact .refl q
  | cons op ops ih =>
    rw [List.mem_cons, not_or] at hops
    exact (marks_exec (Ne.symm hops.1)).trans (ih hops.2)

theorem marks_transfer (q : T) (data : Option Bytes) (recvd : Int) (hook : Option (Nat × Bytes)) :
    Marks q (transferQueue q data recvd hook) := by
  have fired : ∀ (q' : T) (m n : Int), q'.lastBarrier = q.lastBarrier → q'.state = q.state → ready q' = ready q →
      Marks q (fireEvent (callback (callback q' (.outOfOrderBytes m)) (.unreadBytes n))) := by
    intro q' m n hl hs he
    refine marks_fireEvent hl hs fun hr => ?_
    rw [ready_callback, ready_callback]
    exact he.trans hr
  unfold transferQueue
  dsimp only
  split
  · refine Marks.runReader (fired _ _ _ ?_ ?_ ?_) _ _
    all_goals rfl
  · apply fired
    all_goals rfl

theorem marks_recvData (q : T) (offset : Int) (data : Bytes) : Marks q (recvData q offset data).1 := by
  unfold recvData
  split
  · exact .refl q
  · exact .refl q
  · simp only [feedReader]
    split
    · exact marks_transfer _ _ _ _
    · split
      · exact marks_transfer _ _ _ _
      · exact marks_transfer _ _ _ _
  · have h : Marks q { q with queue := BinHeap.push Seg.less q.queue ⟨offset, data⟩, queuedBytes := q.queuedBytes + data.length } :=
      ⟨rfl, id, fun ht => ⟨ht.connected, ht.down⟩⟩
    exact h.callback (e := .outOfOrderBytes data.length) fun _ he => by cases he

theorem stateTransition_down (eof : Int) (s : State) : stateTransition eof s ≠ .amConnected := by
  cases s <;> exact State.noConfusion

/-- The end of the stream: no barrier is announced any more. -/
theorem marks_shutdown (q : T) (eof : Int) : Marks q (shutdown q eof) := by
  unfold shutdown
  have h1 : ∀ q1, (if q.state = .amConnected then callback q (.rts .negInf) else q) = q1 →
      q1.lastBarrier = q.lastBarrier ∧ (Tells q → ready q1 = false) := by
    intro q1 same
    subst same
    split
    · refine ⟨rfl, fun _ => ?_⟩
      rw [ready_callback]
      rfl
    · rename_i hs
      exact ⟨rfl, fun ht => ht.down hs⟩
  generalize (if q.state = .amConnected then callback q (.rts .negInf) else q) = q1 at h1
  obtain ⟨hl, hr⟩ := h1 q1 rfl
  have h2 : Marks q (fireEvent { q1 with state := stateTransition eof q1.state }) := by
    have e2 := fireEvent_cases { q1 with state := stateTransition eof q1.state }
    refine ⟨?_, fun hc => ?_, fun ht => fireEvent_tells fun _ => hr ht⟩
    · obtain ⟨l, -, e⟩ := e2
      rw [e]
      exact hl
    · obtain ⟨l, -, e⟩ := e2
      rw [e] at hc
      exact absurd hc (stateTransition_down eof q1.state)
  dsimp only
  generalize fireEvent { q1 with state := stateTransition eof q1.state } = q2 at h2
  split
  · have h3 := h2.callback (e := .becameComplete) nofun
    have h4 : Marks q { callback q2 .becameComplete with reader := none, bufferSize := noBuffer } :=
      ⟨h3.last, h3.state, fun ht => ⟨(h3.tells ht).connected, (h3.tells ht).down⟩⟩
    exact h4.runReader _ _
  · exact h2

theorem marks_recvDATA (q : T) (eof : Bool) (offset : Int) (data : Bytes) {react : List Op} (hr : Op.reset ∉ react) :
    Marks q (recvDATA q eof offset data react).1 := by
  have h1 := marks_recvData q offset data
  have h2 : Marks q (if feeds q offset data then react.foldl exec (recvData q offset data).1 else (recvData q offset data).1) := by
    split
    · exact h1.trans (marks_exec_all hr)
    · exact h1
  unfold recvDATA
  dsimp only
  split
  · exact h2.trans (marks_shutdown _ _)
  · exact h2

/-- What a pull of a queue that is not reset announces, and leaves. -/
structure Announces (q : T) (p : Pulled) (q' : T) : Prop where
  connected : q.state = .amConnected
  ack : p.ack = .barrier (readerOffset q) q.barrier q.lastBarrier
  last : q'.lastBarrier = q.barrier
  barrier : q'.barrier = q.barrier
  tells : Tells q'

theorem pull_announces (hl : isReset q = false) {id seq : Nat} {p : Pulled} (h : pull q id seq = .ok (p, q')) :
    Announces q p q' := by
  unfold InStreamQueue.pull at h
  unfold isReset at hl
  cases hs : q.state with
  | amConnected =>
    rw [hs] at h
    cases h
    refine ⟨hs, rfl, rfl, rfl, fun _ => ?_, fun hn => absurd rfl hn⟩
    rw [ready_callback]
    show false = decide (barrierIncrement ≤ word32 (q.barrier - q.barrier))
    rw [Int.sub_self]
    rfl
  | amShutdown eof =>
    rw [hs] at h
    cases h
  | amReset => simp [hs] at hl
  | amResetDown => simp [hs] at hl

/-- An update that arrived leaves the last barrier, and one that is lost takes it back
    to the one before, unless there is a later one. -/
theorem ack_last (q : T) (o b l : Int) (ok : Bool) :
    (ack q (.barrier o b l) ok).state = q.state ∧
      ((ack q (.barrier o b l) ok).lastBarrier = q.lastBarrier ∧ (ok = false → q.lastBarrier ≠ b) ∨
        ok = false ∧ (ack q (.barrier o b l) ok).lastBarrier = l) := by
  cases ok with
  | true =>
    simp only [ack]
    obtain ⟨l', -, e⟩ := fireEvent_cases { q with
      barrier := Key.max (readerOffset q + newWindow o (readerOffset q)) q.barrier,
      window := newWindow o (readerOffset q) }
    rw [e]
    exact ⟨rfl, .inl ⟨rfl, fun hok => by cases hok⟩⟩
  | false =>
    simp only [ack]
    split
    · rename_i hne
      exact ⟨rfl, .inl ⟨rfl, fun _ he => hne (by rw [he])⟩⟩
    · obtain ⟨l', -, e⟩ := fireEvent_cases { q with lastBarrier := l }
      rw [e]
      exact ⟨rfl, .inr ⟨trivial, rfl⟩⟩

/-- The acknowledgement of a barrier update. -/
theorem ack_tells (o b l : Int) (ok : Bool) (h : Tells q) : Tells (ack q (.barrier o b l) ok) := by
  cases ok with
  | true => exact fireEvent_tells h.down
  | false =>
    simp only [ack]
    split
    · exact h
    · exact fireEvent_tells h.down

end InStreamQueue

/-! ## The sending queue -/

namespace OutStreamQueue

variable {q : T}

/-- The buffer waits only behind records. -/
def Loaded (q : T) : Prop := q.buffer ≠ none → q.retransmit ≠ []

theorem loaded_makeProgress (q : T) : Loaded (makeProgress q) := by
  rcases makeProgress_cases q with ⟨hq, l, -, e⟩ | ⟨-, b, l, -, -, e⟩
  · rw [e]
    intro hb
    rcases hq with hr | hn
    · exact hr
    · exact absurd hn hb
  · rw [e]
    exact fun hb => absurd rfl hb

theorem Loaded.exec (h : Loaded q) (op : Op) : Loaded (exec q op) := by
  rcases exec_cases q op with ⟨l, -, e⟩ | ⟨prio, e⟩ | ⟨b, cb, -, -, -, e⟩ | ⟨cb, -, -, -, e⟩ | e | rfl
  · rw [e]
    exact h
  · rw [e]
    exact h
  · rw [e]
    exact loaded_makeProgress _
  · rw [e]
    exact h
  · by_cases hop : op = .reset
    · subst hop
      exact fun hb => absurd (stopped_reset q).buffer hb
    · rcases exec_idle e hop with ⟨l, e⟩ | ⟨prio, e⟩
      · rw [e]
        exact h
      · rw [e]
        exact h
  · exact fun hb => absurd (stopped_reset q).buffer hb

theorem Loaded.exec_all (h : Loaded q) (ops : List Op) : Loaded (ops.foldl OutStreamQueue.exec q) := by
  induction ops generalizing q with
  | nil => exact h
  | cons op ops ih => exact ih (h.exec op)

theorem loaded_makeProgressThen (q : T) (react : List (List Op)) : Loaded (makeProgressThen q react).1 := by
  unfold makeProgressThen
  split
  · exact (loaded_makeProgress q).exec_all _
  · exact loaded_makeProgress q

theorem push_ne_nil (l : List Seg) (s : Seg) : BinHeap.push Seg.less l s ≠ [] := by
  intro e
  have hm : s ∈ BinHeap.push Seg.less l s := (BinHeap.mem_push Seg.less).mpr (.inl rfl)
  rw [e] at hm
  cases hm

theorem Loaded.pullContiguousSegments (h : Loaded q) (fuel room : Nat) (offset : Int) (react : List (List Op)) :
    Loaded (pullContiguousSegments fuel q room offset react).2 := by
  induction fuel generalizing q room offset react with
  | zero => exact h
  | succ fuel ih =>
    rw [OutStreamQueue.pullContiguousSegments]
    split
    · exact h
    · rename_i s rest hpop
      have hm := loaded_makeProgressThen { q with retransmit := rest } react
      dsimp only
      split
      · split
        · exact hm
        · exact ih hm _ _ _
      · exact fun _ => push_ne_nil _ _

theorem Loaded.pull (h : Loaded q) (id room : Nat) (react : List (List Op)) : Loaded (OutStreamQueue.pull q id room react).2 := by
  by_cases hs : q.state = .amReset
  · unfold OutStreamQueue.pull
    rw [if_pos hs]
    exact h
  · rw [pull_eq hs]
    show Loaded (pullSegments q (pullLimit q room) react).2
    unfold pullSegments
    split
    · exact h
    · exact h.pullContiguousSegments _ _ _ _

theorem Loaded.ack (h : Loaded q) (hs : q.state ≠ .amReset) (segments : List Seg) (eof ok : Bool) :
    Loaded (ack q (.data segments eof) ok) := by
  cases ok with
  | true =>
    rw [ack_true_eq]
    have hm := loaded_makeProgress (q.landed segments eof true q.retransmit)
    rcases checkDone_cases (makeProgress (q.landed segments eof true q.retransmit)) with e | ⟨-, l, -, e⟩
    · rw [e]
      exact hm
    · rw [e]
      exact hm
  | false =>
    rw [ack_false_eq hs]
    intro hb hn
    have hp := foldl_push_perm segments q.retransmit
    rw [show segments.foldl (BinHeap.push Seg.less) q.retransmit = [] from hn] at hp
    have := hp.length_eq
    rw [List.length_append, List.length_nil] at this
    exact h hb (List.eq_nil_of_length_eq_zero (by omega))

end OutStreamQueue

/-! ## The pair -/

namespace Pair

open InStreamQueue (Marks Tells barrierIncrement)
open OutStreamQueue (Loaded pullOffset)

/-- A regular run whose updates arrive in the order they were pulled. -/
def Orderly (s : St) (e : Ev) : Prop := Regular s e ∧ InOrder s e

instance (s : St) (e : Ev) : Decidable (Orderly s e) := inferInstanceAs (Decidable (_ ∧ _))

structure Offered (s : St) : Prop where
  loaded : Loaded s.snd
  tells : Tells s.rcv
  last : s.rcv.lastBarrier ≤ s.rcv.barrier
  /-- An update is pulled an increment past the one before it. -/
  increments : ∀ u ∈ s.updates, ∀ o b l, u.pulled.ack = .barrier o b l → l + barrierIncrement ≤ b
  /-- The last barrier was told, is on its way, or is due again. -/
  offered : s.rcv.state = .amConnected → s.rcv.lastBarrier + barrierIncrement ≤ s.rcv.barrier ∨
    s.rcv.lastBarrier = minimumWindow ∨
    ∃ u ∈ s.updates, u.barrier = some s.rcv.lastBarrier ∧ (u.pending = true ∨ u.delivered = true)

theorem offered_start : Offered start where
  loaded h := absurd rfl h
  tells := InStreamQueue.tells_new streamId
  last := Int.le_refl _
  increments _ hu := absurd hu List.not_mem_nil
  offered _ := .inr (.inl rfl)

variable {s : St}

/-- The receiver does something, and announces nothing. -/
theorem Offered.receiver (h : Offered s) {rcv : InStreamQueue.T} (hm : Marks s.rcv rcv) (hb : s.rcv.barrier ≤ rcv.barrier)
    (copies : List Copy) : Offered { s with rcv := rcv, copies := copies } where
  loaded := h.loaded
  tells := hm.tells h.tells
  last := by
    show rcv.lastBarrier ≤ rcv.barrier
    rw [hm.last]
    exact Int.le_trans h.last hb
  increments := h.increments
  offered hc := by
    show rcv.lastBarrier + _ ≤ rcv.barrier ∨ rcv.lastBarrier = _ ∨ ∃ u ∈ s.updates, u.barrier = some rcv.lastBarrier ∧ _
    rw [hm.last]
    rcases h.offered (hm.state hc) with h1 | h1
    · exact .inl (Int.le_trans h1 hb)
    · exact .inr h1

/-- The sender does something. -/
theorem Offered.sender (h : Offered s) {snd : OutStreamQueue.T} (hl : Loaded snd) (copies : List Copy) :
    Offered { s with snd := snd, copies := copies } := { h with loaded := hl }

theorem Offered.announce (h : Offered s) (hl : InStreamQueue.isReset s.rcv = false) (hg : InStreamQueue.amRTS s.rcv = true) :
    Offered (step s .announce) := by
  simp only [step]
  split
  · rename_i p rcv hp
    have hlast := h.last
    have hrts : barrierIncrement ≤ word32 (s.rcv.barrier - s.rcv.lastBarrier) := of_decide_eq_true hg
    have ha := InStreamQueue.pull_announces hl hp
    refine ⟨h.loaded, ha.tells, ?_, fun u hu o b l e => ?_, fun _ => .inr (.inr ?_)⟩
    · show rcv.lastBarrier ≤ rcv.barrier
      exact Int.le_of_eq (ha.last.trans ha.barrier.symm)
    · rcases List.mem_append.mp hu with hu | hu
      · exact h.increments u hu o b l e
      · rw [List.mem_singleton.mp hu, ha.ack] at e
        cases e
        unfold word32 at hrts
        omega
    · refine ⟨⟨p, true, false⟩, List.mem_append_right _ (.head _), ?_, .inl rfl⟩
      show barrierOf p = some rcv.lastBarrier
      rw [ha.last, barrierOf, ha.ack]
  · exact h

/-- The update is still there, and so is the barrier it told. -/
theorem offered_set {updates : List Update} {j : Nat} {u : Update} (u' : Update) (hj : updates[j]? = some u)
    (hp : u'.pulled = u.pulled)
    {b : Int} (hu : (u.pending = true ∨ u.delivered = true) → u.barrier = some b → u'.pending = true ∨ u'.delivered = true)
    (h : ∃ v ∈ updates, v.barrier = some b ∧ (v.pending = true ∨ v.delivered = true)) :
    ∃ v ∈ updates.set j u', v.barrier = some b ∧ (v.pending = true ∨ v.delivered = true) := by
  obtain ⟨v, hv, hb, hf⟩ := h
  obtain ⟨i, hi⟩ := List.getElem?_of_mem hv
  by_cases e : i = j
  · subst e
    obtain rfl : u = v := Option.some.inj (hj.symm.trans hi)
    refine ⟨u', List.mem_set (List.getElem?_eq_some_iff.mp hj).1 u', ?_, hu hf hb⟩
    unfold Update.barrier at hb ⊢
    rw [hp]
    exact hb
  · refine ⟨v, List.mem_of_getElem? (i := i) ?_, hb, hf⟩
    rw [List.getElem?_set_ne (Ne.symm e)]
    exact hi

theorem Offered.announced (h : Offered s) (ht : Told s) {j : Nat} {ok : Bool} (hl : InStreamQueue.isReset s.rcv = false)
    (hu : ∀ u ∈ s.updates, ∃ o b l, u.pulled = barrierSegment o b l)
    (hok : ∀ u ∈ s.updates[j]?, ok = true → u.delivered = true) : Offered (step s (.announced j ok)) := by
  simp only [step]
  split
  · rename_i u hj
    split
    · have hm := List.mem_of_getElem? hj
      obtain ⟨o, b, l, hp⟩ := hu u hm
      have hack : u.pulled.ack = .barrier o b l := by
        rw [hp]
        rfl
      have hbar : u.barrier = some b := by
        unfold Update.barrier barrierOf
        rw [hack]
      have htells := InStreamQueue.ack_tells o b l ok h.tells
      have hinc := h.increments u hm o b l hack
      have hmost := (ht.most hl).2 u.pulled (List.mem_map_of_mem hm) b hbar
      have hincs : ∀ v ∈ s.updates.set j { u with pending := false }, ∀ o b l, v.pulled.ack = .barrier o b l →
          l + barrierIncrement ≤ b := by
        intro v hv
        rcases mem_set_cases hv with rfl | hv
        · exact h.increments u hm
        · exact h.increments v hv
      have hlast := h.last
      have hslide := ht.windowed.ack (.barrier o b l) ok
      obtain ⟨hstate, hcase⟩ := InStreamQueue.ack_last s.rcv o b l ok
      have hl' : InStreamQueue.isReset (InStreamQueue.ack s.rcv (.barrier o b l) ok) = false := by
        unfold InStreamQueue.isReset at hl ⊢
        rw [hstate]
        exact hl
      have hbarrier := (hslide.barrier hl').2
      rw [hack]
      generalize InStreamQueue.ack s.rcv (.barrier o b l) ok = rcv at htells hstate hcase hbarrier
      unfold barrierIncrement at hinc
      rcases hcase with ⟨hsame, hne⟩ | ⟨hok', hback⟩
      · refine ⟨h.loaded, htells, show rcv.lastBarrier ≤ rcv.barrier by omega, hincs, fun hc => ?_⟩
        show rcv.lastBarrier + _ ≤ rcv.barrier ∨ rcv.lastBarrier = _ ∨ ∃ v : Update, v ∈ _ ∧ v.barrier = some rcv.lastBarrier ∧ _
        rw [hsame]
        rcases h.offered (hstate ▸ hc) with h1 | h1 | h1
        · exact .inl (by omega)
        · exact .inr (.inl h1)
        · refine .inr (.inr (offered_set { u with pending := false } hj rfl (fun _ hb => .inr ?_) h1))
          -- the update is not the last one, or it arrived
          cases ok with
          | true => exact hok u hj rfl
          | false => exact absurd (Option.some.inj (hb.symm.trans hbar)) (hne rfl)
      · refine ⟨h.loaded, htells, show rcv.lastBarrier ≤ rcv.barrier by omega, hincs, fun _ => .inl ?_⟩
        show rcv.lastBarrier + barrierIncrement ≤ rcv.barrier
        unfold barrierIncrement
        omega
    · exact h
  · exact h

theorem Offered.update (h : Offered s) (hu : ∀ u ∈ s.updates, ∃ o b l, u.pulled = barrierSegment o b l) (j : Nat) :
    Offered (step s (.update j)) := by
  simp only [step]
  split
  · rename_i u hj
    have hpulled := map_set_same Update.pulled hj (y := { u with delivered := true }) rfl
    obtain ⟨o, b, l, hp⟩ := hu u (List.mem_of_getElem? hj)
    refine ⟨?_, h.tells, h.last, fun v hv o b l e => ?_, fun hc => ?_⟩
    · show Loaded (Pair.update s u)
      rw [update_eq hp]
      exact OutStreamQueue.loaded_makeProgress _
    · rcases mem_set_cases hv with rfl | hv
      · exact h.increments u (List.mem_of_getElem? hj) o b l e
      · exact h.increments v hv o b l e
    · rcases h.offered hc with h1 | h1 | ⟨v, hv, hb, hf⟩
      · exact .inl h1
      · exact .inr (.inl h1)
      · exact .inr (.inr (offered_set { u with delivered := true } hj rfl (fun _ _ => .inr rfl) ⟨v, hv, hb, hf⟩))
  · exact h

theorem offered_step (h : Offered s) (hi : Inv s) (ht : Told s) (e : Ev) (hi' : Inv (step s e)) (he : Orderly s e) : Offered (step s e) := by
  obtain ⟨⟨⟨hcalls, -⟩, hgated⟩, -⟩ := he
  have hlive := hi.receives.live
  have hlive' := hi'.receives.live
  cases e with
  | write op => exact h.sender (h.loaded.exec op) s.copies
  | pull room react => exact h.sender (h.loaded.pull streamId room react) _
  | ack i ok =>
    simp only [step]
    split
    · rename_i c hc
      split
      · have hack : c.pulled.ack = .data c.segments c.eof := by
          rw [(hi.copies c (List.mem_of_getElem? hc)).pulled]
          rfl
        rw [hack]
        exact h.sender (h.loaded.ack hi.sends.live _ _ _) _
      · exact h
    · exact h
  | deliver i react =>
    simp only [step]
    split
    · rename_i c hc
      have hco := hi.copies c (List.mem_of_getElem? hc)
      have hlen := OutStreamQueue.length_payload c.segments
      have hshort := hco.short
      have hs := deliver_slides ht.windowed c react
      have hm : Marks s.rcv (deliver s c react).1 := by
        rw [deliver_eq (by decide) (by omega) hco.pulled]
        exact InStreamQueue.marks_recvDATA _ _ _ _ hcalls
      simp only [step, hc] at hlive'
      exact h.receiver hm (hs.barrier hlive').2 _
    · exact h
  | read op =>
    have hs := ht.windowed.exec op
    exact h.receiver (InStreamQueue.marks_exec hcalls) (hs.barrier hlive').2 s.copies
  | announce => exact h.announce hlive hgated
  | announced j ok => exact h.announced ht hlive hi.updates hcalls
  | update j => exact h.update hi.updates j

theorem reach_offered (h : Reach Orderly s) : Offered s := by
  induction h with
  | start => exact offered_start
  | step e hr he ih =>
    have hi := reach_inv (hr.mono fun _ _ h => h.1.1)
    exact offered_step ih hi (reach_told (hr.mono fun _ _ h => h.2)) e (inv_step hi e he.1.1) he

/-! ## A stream at rest -/

/-- Nothing is in flight in either direction. -/
def AtRest (s : St) : Prop := (∀ c ∈ s.copies, c.pending = false) ∧ ∀ u ∈ s.updates, u.pending = false

/-- The application has read what was received. -/
def AllRead (s : St) : Prop := s.rcv.ready = []

/-- There are bytes the sender did not send, or has to send again. -/
def Unsent (s : St) : Prop := s.snd.buffer ≠ none ∨ s.snd.retransmit ≠ []

/-- Losses were reported within the safety margin, and the last barrier announced is in
    reach of the barrier. -/
def Close (s : St) : Prop :=
  (∀ r ∈ s.snd.retransmit, s.rcv.offset ≤ r.offset + InStreamQueue.safetyMargin) ∧
    s.rcv.barrier < s.rcv.lastBarrier + 2 ^ 32

instance (s : St) : Decidable (AtRest s) := inferInstanceAs (Decidable (_ ∧ _))
instance (s : St) : Decidable (AllRead s) := inferInstanceAs (Decidable (_ = _))
instance (s : St) : Decidable (Unsent s) := inferInstanceAs (Decidable (_ ∨ _))
instance (s : St) : Decidable (Close s) := inferInstanceAs (Decidable (_ ∧ _))

theorem held_at_rest {copies : List Copy} (h : ∀ c ∈ copies, c.pending = false) : held copies = [] := by
  unfold held
  rw [List.flatten_eq_nil_iff]
  intro l hl
  obtain ⟨c, hc, rfl⟩ := List.mem_map.mp hl
  simp [h c hc]

/-- The first record to send starts at the receiver's offset or before it. -/
theorem first_le (hi : Inv s) (hr : AtRest s) (hu : s.snd.retransmit ≠ []) : pullOffset s.snd ≤ s.rcv.offset := by
  have hsends := hi.sends
  have hfirst := hsends.start.first
  rw [held_at_rest hr.1] at hsends
  by_cases hlt : s.rcv.offset < s.snd.sendOffset
  · -- the receiver waits for a byte that a record covers
    rcases hsends.covered _ hi.receives.nonneg hlt with ⟨r, hm, hc⟩ | ht
    · rw [List.append_nil] at hm
      exact Int.le_trans (hfirst r hm) hc.1
    · rcases hi.receives.complete _ ht with h1 | ⟨x, hx, h1, -⟩
      · exact absurd h1 (Int.lt_irrefl _)
      · have := (hi.receives.ahead x hx).after
        omega
  · obtain ⟨r, rest, e⟩ := List.exists_cons_of_ne_nil hu
    have hm : r ∈ s.snd.retransmit := by
      rw [e]
      exact .head _
    have hle := (hsends.window r hm).1
    have := hsends.high_le
    have := hfirst r hm
    omega

/-- Whether the sender is ready, in terms of what it was told. -/
theorem amRTS_iff (hi : Inv s) (ht : Told s) (hu : s.snd.retransmit ≠ []) :
    amRTS s.snd = true ↔ s.snd.state = .amShutdown .retransmit ∨
      Key.lt (pullOffset s.snd) (toldBarrier s.updates - 2048) = true := by
  obtain ⟨r, rest, e⟩ := List.exists_cons_of_ne_nil hu
  have hst := ht.stored
  have hk : Key.lt r.offset (s.snd.barrier - 2048) = Key.lt (pullOffset s.snd) (toldBarrier s.updates - 2048) := by
    have hp : pullOffset s.snd = r.offset := by simp only [pullOffset, e, List.head?_cons]
    rw [hp, Key.lt_def, Key.lt_def, decide_eq_decide]
    omega
  have hlive := hi.sends.live
  unfold amRTS
  rw [e, List.head?_cons]
  split
  · rename_i hs
    exact absurd hs hlive
  · rename_i hs
    exact ⟨fun _ => .inl hs, fun _ => rfl⟩
  · rename_i h1 h2
    dsimp only
    rw [hk]
    exact ⟨.inr, fun h => h.resolve_left h2⟩

/-- A connected receiver that has no barrier to announce has told the sender enough. -/
theorem told_enough (hi : Inv s) (ht : Told s) (ho : Offered s) (hr : AtRest s) (ha : AllRead s) (hc : Close s)
    (hu : s.snd.retransmit ≠ []) (hs : s.rcv.state = .amConnected) (hn : InStreamQueue.amRTS s.rcv = false) :
    Key.lt (pullOffset s.snd) (toldBarrier s.updates - 2048) = true := by
  have hdue : ¬ barrierIncrement ≤ word32 (s.rcv.barrier - s.rcv.lastBarrier) := of_decide_eq_false hn
  have hlast := ho.last
  have hclose := hc.2
  have hnear : s.rcv.barrier < s.rcv.lastBarrier + barrierIncrement := by
    unfold word32 at hdue
    omega
  -- the last barrier was told
  have htold : s.rcv.lastBarrier ≤ toldBarrier s.updates := by
    rcases ho.offered hs with h1 | h1 | ⟨u, hm, hb, hf⟩
    · omega
    · rw [h1]
      exact least_le_told s.updates
    · rw [hr.2 u hm] at hf
      exact le_told hm (hf.resolve_left Bool.noConfusion) hb
  have hlive := hi.receives.live
  have hmost : toldBarrier s.updates ≤ s.rcv.barrier :=
    told_le (ht.most hlive).1 fun u hm _ b hb => (ht.most hlive).2 u.pulled (List.mem_map_of_mem hm) b hb
  have hbytes : s.rcv.readyBytes = 0 := by
    rw [ht.windowed.bytes, show s.rcv.ready = [] from ha]
    rfl
  have hlow := ht.windowed.low hlive
  have hhigh := ht.windowed.high
  have hwin := ht.windowed.window.1
  have hfirst := first_le hi hr hu
  have hback : s.rcv.offset ≤ pullOffset s.snd + InStreamQueue.safetyMargin := by
    obtain ⟨r, rest, e⟩ := List.exists_cons_of_ne_nil hu
    have hp : pullOffset s.snd = r.offset := by simp only [pullOffset, e, List.head?_cons]
    rw [hp]
    exact hc.1 r (by rw [e]; exact .head _)
  unfold InStreamQueue.readerOffset InStreamQueue.maximumWindow InStreamQueue.safetyMargin minimumWindow
    barrierIncrement at *
  rw [Key.lt_iff (by omega) (by omega)]
  omega

/-- A stream at rest whose application has read everything, and whose sender has bytes
    left, goes on exactly if the receiver has not heard of the end, or the sender has the
    end to tell again, or the first byte to send lies well before the barrier it was
    told. -/
theorem goes_on_iff (h : Reach Orderly s) (hr : AtRest s) (ha : AllRead s) (hu : Unsent s) (hc : Close s) :
    (amRTS s.snd = true ∨ InStreamQueue.ready s.rcv = true) ↔
      s.rcv.state = .amConnected ∨ s.snd.state = .amShutdown .retransmit ∨
        Key.lt (pullOffset s.snd) (toldBarrier s.updates - 2048) = true := by
  have hi := reach_inv (h.mono fun _ _ h => h.1.1)
  have ht := reach_told (h.mono fun _ _ h => h.2)
  have ho := reach_offered h
  have hret : s.snd.retransmit ≠ [] := hu.elim ho.loaded id
  rw [amRTS_iff hi ht hret]
  by_cases hs : s.rcv.state = .amConnected
  · refine ⟨fun _ => .inl hs, fun _ => ?_⟩
    rw [ho.tells.connected hs]
    cases hn : InStreamQueue.amRTS s.rcv with
    | true => exact .inr rfl
    | false => exact .inl (.inr (told_enough hi ht ho hr ha hc hret hs hn))
  · rw [ho.tells.down hs]
    constructor
    · intro hg
      exact .inr (hg.resolve_right Bool.noConfusion)
    · intro hg
      exact .inl (hg.resolve_left hs)

/-- A byte is lost. -/
def lostByte : List Ev := [.write oneByte, .pull 8 [], .ack 0 false]

theorem goes_on_iff_example :
    (amRTS (run start lostByte).snd = true ∨ InStreamQueue.ready (run start lostByte).rcv = true) ↔
      (run start lostByte).rcv.state = .amConnected ∨ (run start lostByte).snd.state = .amShutdown .retransmit ∨
        Key.lt (pullOffset (run start lostByte).snd) (toldBarrier (run start lostByte).updates - 2048) = true := by
  refine goes_on_iff (Reach.start.run (by decide)) ?_ (by decide) ?_ ?_
  · exact ⟨by decide, by decide⟩
  · exact .inr (by decide)
  · exact ⟨by decide, by decide⟩

/-- The end of the stream arrives, while the eight bytes at the edge of the window are
    lost. -/
def lostAtTheEdge : List Ev :=
  [.write (.write ⟨List.replicate 19536 0, by rw [List.length_replicate]; decide⟩ 0), .write (.shutdown 1),
    .pull 4100 [], .pull 4100 [], .pull 4100 [], .pull 4100 [], .pull 3160 [], .pull 16 [], .pull 16 [],
    .deliver 0 [], .read (.read (-1) 2), .deliver 1 [], .read (.read (-1) 3), .deliver 2 [], .read (.read (-1) 4),
    .deliver 3 [], .read (.read (-1) 5), .deliver 4 [], .read (.read (-1) 6), .deliver 6 [],
    .ack 0 true, .ack 1 true, .ack 2 true, .ack 3 true, .ack 4 true, .ack 5 false, .ack 6 true]

/-- The stream stands still: the receiver announces nothing once it has heard the end,
    and the lost bytes lie beyond what the sender may send. -/
theorem end_heard_stands_still :
    ∃ s, Reach Orderly s ∧ AtRest s ∧ AllRead s ∧ Unsent s ∧ Close s ∧
      ¬ (amRTS s.snd = true ∨ InStreamQueue.ready s.rcv = true) := by
  have h : (checks Orderly start lostAtTheEdge && decide (AtRest (run start lostAtTheEdge) ∧
      AllRead (run start lostAtTheEdge) ∧ Unsent (run start lostAtTheEdge) ∧ Close (run start lostAtTheEdge) ∧
      ¬ (amRTS (run start lostAtTheEdge).snd = true ∨
        InStreamQueue.ready (run start lostAtTheEdge).rcv = true))) = true := by decide +kernel
  rw [Bool.and_eq_true, decide_eq_true_eq] at h
  exact ⟨_, Reach.start.run h.1, h.2⟩

end Pair

end BubbleStorm.Cusp.Stream
