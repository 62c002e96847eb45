/-
  BubbleStorm.Cusp.Stream.Window — the receive window.

  Whatever the peer sends, a receiving queue keeps its barrier between `window` and
  `maximumWindow` past its reader (`Windowed`), so the barrier, compared as words,
  only moves forward.
-/

import BubbleStorm.Cusp.Stream.InStreamProofs

namespace BubbleStorm.Cusp.Stream.InStreamQueue

/-- The most a window grows to. -/
def maximumWindow : Int := 0x7fffffff - 1024 * 1024 * 16

theorem newWindow_bounds (o n : Int) : minimumWindow ≤ newWindow o n ∧ newWindow o n ≤ maximumWindow := by
  unfold newWindow minimumWindow maximumWindow; omega

/-- What holds of the window whatever the peer sends. -/
structure Windowed (q : T) : Prop where
  bytes : q.readyBytes = q.ready.flatten.length
  ready : ∀ d ∈ q.ready, d.length < 4096
  queue : ∀ s ∈ q.queue, s.data.length < 4096
  emptied : isReset q = true → q.ready = []
  window : minimumWindow ≤ q.window ∧ q.window ≤ maximumWindow
  low : isReset q = false → readerOffset q + q.window ≤ q.barrier
  high : q.barrier ≤ readerOffset q + maximumWindow

theorem windowed_new (id : Nat) : Windowed (new id) where
  bytes := rfl
  ready := nofun
  queue := nofun
  emptied _ := rfl
  window := by show minimumWindow ≤ minimumWindow ∧ minimumWindow ≤ maximumWindow; decide
  low _ := by show (0 : Int) - 0 + minimumWindow ≤ minimumWindow; decide
  high := by show minimumWindow ≤ (0 : Int) - 0 + maximumWindow; decide

variable {q q' : T}

theorem Windowed.ran (h : Windowed q) (l : List Out) : Windowed (q.ran l) :=
  ⟨h.bytes, h.ready, h.queue, h.emptied, h.window, h.low, h.high⟩

/-- A step keeps the window, and until the queue is reset the barrier moves forward. -/
structure Slides (q q' : T) : Prop where
  windowed : Windowed q'
  barrier : isReset q' = false → isReset q = false ∧ q.barrier ≤ q'.barrier

theorem Slides.refl (h : Windowed q) : Slides q q := ⟨h, fun hl => ⟨hl, Int.le_refl _⟩⟩

theorem Slides.trans {q'' : T} (h : Slides q q') (h' : Slides q' q'') : Slides q q'' where
  windowed := h'.windowed
  barrier hl := by
    obtain ⟨hl', h1⟩ := h'.barrier hl
    obtain ⟨hl'', h2⟩ := h.barrier hl'
    exact ⟨hl'', Int.le_trans h2 h1⟩

theorem Slides.ran (h : Slides q q') (l : List Out) : Slides q (q'.ran l) := ⟨h.windowed.ran l, h.barrier⟩

/-! ## Reading -/

theorem key_max_le {a b c : Int} (h1 : a ≤ c) (h2 : b ≤ c) : Key.max a b ≤ c := by
  rcases Key.max_cases a b with e | e
  · rw [e]; exact h1
  · rw [e]; exact h2

/-- The reader moves to `o`, and the barrier with it. -/
theorem Windowed.moved (h : Windowed q) {o : Int} (hlive : isReset q = false) (h1 : readerOffset q ≤ o)
    (h2 : o < readerOffset q + 4096) :
    q.barrier ≤ Key.max q.barrier (o + q.window) ∧ o + q.window ≤ Key.max q.barrier (o + q.window) ∧
      Key.max q.barrier (o + q.window) ≤ o + maximumWindow := by
  have hlow := h.low hlive
  have hhigh := h.high
  have hwin := h.window
  unfold maximumWindow minimumWindow at *
  rw [Key.max_eq (by omega) (by omega)]
  omega

/-- `m` bytes from the front of what is ready are handed out. -/
theorem Windowed.advanced (h : Windowed q) {ready : List Bytes} {n : Int} {reader : Option Nat} {m : Int}
    (hlive : isReset q = false) (hm : 0 ≤ m) (hm' : m < 4096) (hb : q.readyBytes - m = ready.flatten.length)
    (hr : ∀ d ∈ ready, d.length < 4096) : Slides q (q.advanced ready n reader m) := by
  have hro : readerOffset q = q.offset - q.readyBytes := rfl
  obtain ⟨h1, h2, h3⟩ := h.moved (o := q.offset - (q.readyBytes - m)) hlive (by omega) (by omega)
  refine ⟨⟨hb, hr, h.queue, fun hres => ?_, h.window, fun _ => h2, h3⟩, fun _ => ⟨hlive, h1⟩⟩
  change isReset q = true at hres
  rw [hlive] at hres
  cases hres

theorem Windowed.finishRead (h : Windowed q) {ready : List Bytes} (n : Int) (reader : Option Nat) {m : Int}
    (hlive : isReset q = false) (hm : 0 ≤ m) (hm' : m < 4096) (hb : q.readyBytes - m = ready.flatten.length)
    (hr : ∀ d ∈ ready, d.length < 4096) : Slides q (finishRead q ready n reader m) := by
  obtain ⟨l, -, e⟩ := finishRead_cases q ready n reader m
  rw [e]
  exact (h.advanced hlive hm hm' hb hr).ran l

theorem Slides.runReader (h : Slides q q') (cb : Option Nat) (s : Status) : Slides q (runReader q' cb s) := by
  rw [runReader_eq]
  exact h.ran _

theorem Windowed.read (h : Windowed q) {n : Int} {cb : Nat} (hread : read q n cb = .ok q') : Slides q q' := by
  have hbytes := h.bytes
  cases read_reads hread with
  | reset => exact (Slides.refl h).runReader _ _
  | wait hlive hr =>
    rw [hr] at hbytes
    exact h.finishRead n (some cb) hlive (Int.le_refl 0) (by decide) ((Int.sub_zero _).trans hbytes) nofun
  | atEnd hlive hr =>
    rw [hr] at hbytes
    have h0 : Slides q (callback q .becameComplete) := (Slides.refl h).ran _
    exact (h0.trans (h0.windowed.finishRead noBuffer none hlive (Int.le_refl 0) (by decide)
      ((Int.sub_zero _).trans hbytes) nofun)).runReader _ _
  | @hand ready report hlive hr hs =>
    rw [hr, List.length_append] at hbytes
    have hshort : ∀ d ∈ report :: ready, d.length < 4096 := by
      intro d hd
      obtain ⟨d', hd', hle⟩ := hs d hd
      exact Nat.lt_of_le_of_lt hle (h.ready d' hd')
    have hreport := hshort report (.head _)
    exact (h.finishRead noBuffer none hlive (Int.natCast_nonneg _) (by omega) (by omega)
      fun d hd => hshort d (.tail _ hd)).runReader _ _

/-- What `reset` changes besides the log. -/
def T.emptied (q : T) : T :=
  { q with state := resetTransition q.state, ready := [], readyBytes := 0, queue := [], queuedBytes := 0,
           reader := none, bufferSize := noBuffer }

theorem reset_cases (q : T) : ∃ l, reset q = q.emptied.ran l := by
  obtain ⟨x, hx⟩ : ∃ x, x = (((q.emptied.ran [.event (.unreadBytes (-q.readyBytes))]).ran
    [.event (.outOfOrderBytes (-q.queuedBytes))]).ran [.event (.rts .posInf)]).ran [.event .becameReset] := ⟨_, rfl⟩
  have h : reset q = runReader (fireEvent x) q.reader .reset := by rw [hx]; rfl
  obtain ⟨l, -, e⟩ := fireEvent_cases x
  rw [e, hx, runReader_eq] at h
  simp only [T.ran_ran] at h
  exact ⟨_, h⟩

theorem isReset_resetTransition (q : T) : isReset { q with state := resetTransition q.state } = true := by
  cases hs : q.state <;> simp [isReset, resetTransition]

theorem Windowed.reset (h : Windowed q) : Slides q (reset q) := by
  obtain ⟨l, e⟩ := reset_cases q
  have hr : isReset q.emptied = true := isReset_resetTransition q
  have hs : Slides q q.emptied := by
    refine ⟨⟨rfl, nofun, nofun, fun _ => rfl, h.window, fun hl => ?_, ?_⟩, fun hl => ?_⟩
    · rw [hr] at hl
      cases hl
    · have hhigh := h.high
      have hbytes := h.bytes
      have hro : readerOffset q = q.offset - q.readyBytes := rfl
      show q.barrier ≤ q.offset - 0 + maximumWindow
      omega
    · rw [hr] at hl
      cases hl
  rw [e]
  exact hs.ran l

theorem Windowed.exec (h : Windowed q) (op : Op) : Slides q (exec q op) := by
  cases op with
  | read n cb =>
    simp only [InStreamQueue.exec]
    split
    · rename_i hq; exact h.read hq
    · exact .refl h
  | reset => exact h.reset

theorem Windowed.exec_all (h : Windowed q) (ops : List Op) : Slides q (ops.foldl InStreamQueue.exec q) := by
  induction ops generalizing q with
  | nil => exact .refl h
  | cons op ops ih => exact (h.exec op).trans (ih (h.exec op).windowed)

/-! ## Receiving -/

/-- What popping the heap leaves of the lengths. -/
theorem process_short (fuel : Nat) (cur ate : Int) {ready : List Bytes} {queue : List Seg}
    (hr : ∀ d ∈ ready, d.length < 4096) (hq : ∀ s ∈ queue, s.data.length < 4096) :
    (∀ d ∈ (process fuel cur ate ready queue).2.2.1, d.length < 4096) ∧
    (∀ s ∈ (process fuel cur ate ready queue).2.2.2, s.data.length < 4096) := by
  induction fuel generalizing cur ate ready queue with
  | zero => exact ⟨hr, hq⟩
  | succ fuel ih =>
    simp only [process]
    split
    · exact ⟨hr, hq⟩
    · rename_i s rest hpop
      have perm := BinHeap.pop_perm _ (BinHeap.popIf_some _ hpop).2
      have hq' : ∀ t ∈ rest, t.data.length < 4096 := fun t ht => hq t (perm.mem_iff.mpr (.tail _ ht))
      split
      · exact ih _ _ hr hq'
      · refine ih _ _ (fun d hd => ?_) hq'
        rcases List.mem_append.mp hd with hd | hd
        · exact hr d hd
        · rw [List.mem_singleton.mp hd, List.length_drop]
          have := hq s (perm.mem_iff.mpr (.head _))
          omega

/-- The bytes popping the heap makes ready are those the offset moves over. -/
theorem process_bytes (fuel : Nat) (cur ate : Int) (ready : List Bytes) {queue : List Seg}
    (hq : ∀ s ∈ queue, s.data.length < 4096) :
    ((process fuel cur ate ready queue).2.2.1.flatten.length : Int) =
      ready.flatten.length + ((process fuel cur ate ready queue).1 - cur) := by
  induction fuel generalizing cur ate ready queue with
  | zero => simp [process]
  | succ fuel ih =>
    simp only [process]
    split
    · simp
    · rename_i s rest hpop
      obtain ⟨hk, hpop⟩ := BinHeap.popIf_some _ hpop
      have perm := BinHeap.pop_perm _ hpop
      have hq' : ∀ t ∈ rest, t.data.length < 4096 := fun t ht => hq t (perm.mem_iff.mpr (.tail _ ht))
      have hshort := hq s (perm.mem_iff.mpr (.head _))
      split
      · exact ih _ _ _ hq'
      · rename_i hend
        rw [ih _ _ _ hq']
        simp only [Key.le, Key.lt_def, Bool.not_eq_true', decide_eq_false_iff_not] at hk hend
        simp only [List.flatten_append, List.flatten_singleton, List.length_append, List.length_drop]
        unfold word32
        omega

/-- What `transferQueue` does to a queue that is reset: it tracks the offset. -/
def T.tracked (q : T) (recvd : Int) (r : Int × Int × List Bytes × List Seg) : T :=
  { q with queue := r.2.2.2, queuedBytes := q.queuedBytes - r.2.1, ready := [], readyBytes := q.readyBytes + 0,
           barrier := Key.max q.barrier (r.1 - (q.readyBytes + 0) + q.window), bytesReceived := q.bytesReceived + recvd,
           reader := none, bufferSize := noBuffer, offset := r.1 }

theorem transferQueue_tracks (hr : isReset q = true) (tail : Option Bytes) (recvd : Int) (hook : Option (Nat × Bytes)) :
    ∃ l, Plain l ∧ transferQueue q tail recvd hook = ((q.tracked recvd (process q.queue.length
      (q.offset + recvd + (tail.getD []).length) 0 (q.ready ++ tail.toList) q.queue)).ran l).ran
        (hook.map fun p => Out.reader p.1 (.data p.2)).toList := by
  unfold transferQueue
  simp only [hr, if_true]
  generalize process q.queue.length (q.offset + recvd + (tail.getD []).length) 0 (q.ready ++ tail.toList) q.queue = r
  obtain ⟨x, hx⟩ : ∃ x, x = ((q.tracked recvd r).ran [.event (.outOfOrderBytes (-r.2.1))]).ran
    [.event (.unreadBytes 0)] := ⟨_, rfl⟩
  obtain ⟨l, hl, e⟩ := fireEvent_cases x
  have h : fireEvent (callback (callback (q.tracked recvd r) (.outOfOrderBytes (-r.2.1))) (.unreadBytes 0)) =
      x.ran l := by rw [← e, hx]; rfl
  have hplain := ((plain_event (.outOfOrderBytes (-r.2.1))).append (plain_event (.unreadBytes 0))).append hl
  cases hook with
  | none => exact ⟨_, hplain, h.trans (by rw [hx, T.ran_ran, T.ran_ran]; exact (T.ran_nil _).symm)⟩
  | some p => exact ⟨_, hplain, (congrArg (fun q => runReader q (some p.1) (.data p.2)) h).trans
      (by simp only [runReader_eq, hx, T.ran_ran, List.append_assoc, Option.map_some])⟩

theorem Windowed.transfer (h : Windowed q) (report : Bytes) (tail : Option Bytes) (hook : Option (Nat × Bytes))
    (hshort : (report ++ tail.getD []).length < 4096) : Slides q (transferQueue q tail report.length hook) := by
  rw [List.length_append] at hshort
  have hin : ∀ d ∈ q.ready ++ tail.toList, d.length < 4096 := fun d hd => by
    rcases List.mem_append.mp hd with hd | hd
    · exact h.ready d hd
    · rw [Option.mem_toList] at hd
      subst hd
      simp only [Option.getD_some] at hshort
      omega
  have hps := process_short q.queue.length (q.offset + report.length + (tail.getD []).length) 0 hin h.queue
  have hpb := process_bytes q.queue.length (q.offset + report.length + (tail.getD []).length) 0
    (q.ready ++ tail.toList) h.queue
  have hle := process_le q.queue.length (q.offset + report.length + (tail.getD []).length) 0
    (q.ready ++ tail.toList) q.queue
  have htail : tail.toList.flatten.length = (tail.getD []).length := by cases tail <;> simp
  rw [List.flatten_append, List.length_append, htail] at hpb
  have hbytes := h.bytes
  have hro : readerOffset q = q.offset - q.readyBytes := rfl
  cases hr : isReset q with
  | true =>
    obtain ⟨l, -, e⟩ := transferQueue_tracks hr tail report.length hook
    rw [e]
    generalize process q.queue.length (q.offset + report.length + (tail.getD []).length) 0 (q.ready ++ tail.toList)
      q.queue = r at *
    have hempty := h.emptied hr
    rw [hempty] at hbytes
    have hhigh := h.high
    have hwin := h.window
    have hs : Slides q (q.tracked report.length r) := by
      refine ⟨⟨?_, nofun, hps.2, fun _ => rfl, h.window, fun hl => ?_, ?_⟩, fun hl => ?_⟩
      · show q.readyBytes + 0 = (0 : Nat)
        rw [Int.add_zero]
        exact hbytes
      · change isReset q = false at hl
        rw [hr] at hl
        cases hl
      · show Key.max q.barrier (r.1 - (q.readyBytes + 0) + q.window) ≤ r.1 - (q.readyBytes + 0) + maximumWindow
        exact key_max_le (by omega) (by omega)
      · change isReset q = false at hl
        rw [hr] at hl
        cases hl
    exact (hs.ran l).ran _
  | false =>
    obtain ⟨l, -, e⟩ := transferQueue_cases hr tail report.length hook
    rw [e]
    generalize process q.queue.length (q.offset + report.length + (tail.getD []).length) 0 (q.ready ++ tail.toList)
      q.queue = r at *
    have hnew : r.1 - (q.readyBytes + (r.1 - (q.offset + report.length))) = readerOffset q + report.length := by omega
    obtain ⟨h1, h2, h3⟩ := h.moved (o := readerOffset q + report.length) hr (by omega) (by omega)
    rw [← hnew] at h1 h2 h3
    have hs : Slides q (q.transferred report.length r) := by
      refine ⟨⟨?_, hps.1, hps.2, fun hl => ?_, h.window, fun _ => h2, h3⟩, fun _ => ⟨hr, h1⟩⟩
      · show q.readyBytes + (r.1 - (q.offset + report.length)) = r.2.2.1.flatten.length
        omega
      · change isReset q = true at hl
        rw [hr] at hl
        cases hl
    exact (hs.ran l).ran _

theorem Windowed.feed (h : Windowed q) {data : Bytes} (hshort : data.length < 4096) : Slides q (feedReader q data) := by
  have hcut : (data.take q.bufferSize.toNat ++ (some (data.drop q.bufferSize.toNat)).getD []).length < 4096 := by
    rw [Option.getD_some, List.take_append_drop]
    exact hshort
  unfold feedReader
  split
  · exact h.transfer [] (some data) none hshort
  · split
    · exact h.transfer data none _ (by rw [Option.getD_none, List.append_nil]; exact hshort)
    · exact h.transfer _ _ _ hcut

theorem Windowed.outOfOrder (h : Windowed q) (o : Int) {data : Bytes} (hshort : data.length < 4096) :
    Slides q (outOfOrder q o data) := by
  have hs : Slides q { q with queue := BinHeap.push Seg.less q.queue ⟨o, data⟩, queuedBytes := q.queuedBytes + data.length } := by
    refine ⟨{ h with queue := fun s hs => ?_ }, fun hl => ⟨hl, Int.le_refl _⟩⟩
    rcases (BinHeap.mem_push Seg.less).mp hs with rfl | hs
    · exact hshort
    · exact h.queue s hs
  exact hs.ran _

theorem Windowed.recvData (h : Windowed q) (o : Int) {data : Bytes} (hshort : data.length < 4096) :
    Slides q (recvData q o data).1 := by
  unfold InStreamQueue.recvData
  cases hc : classify q o data with
  | reject => exact .refl h
  | drop => exact .refl h
  | feed rest =>
    refine h.feed ?_
    have : rest = data.drop (word32 (q.offset - o)).toNat := by
      unfold classify at hc
      simp only at hc
      split at hc
      · cases hc
      split at hc
      · cases hc
      split at hc
      · split at hc
        · cases hc
        · cases hc; rfl
      · cases hc
    rw [this, List.length_drop]
    omega
  | queue => exact h.outOfOrder o hshort

/-- A state that is reset when the old one is. -/
theorem Windowed.restate (h : Windowed q) {s : State} (hs : isReset { q with state := s } = isReset q) :
    Slides q { q with state := s } :=
  ⟨⟨h.bytes, h.ready, h.queue, fun hr => h.emptied (hs ▸ hr), h.window, fun hl => h.low (hs ▸ hl), h.high⟩,
    fun hl => ⟨hs ▸ hl, Int.le_refl _⟩⟩

theorem Windowed.shutdown (h : Windowed q) (eof : Int) : Slides q (shutdown q eof) := by
  obtain ⟨q2, l, -, e2, e⟩ := shutdown_cases q eof
  have h2 : Slides q q2 := by
    rw [e2]
    exact (h.restate (isReset_stateTransition q eof)).ran l
  rw [e]
  split
  · have hw := (h2.ran [.event .becameComplete]).windowed
    have hs : Slides q { callback q2 .becameComplete with reader := none, bufferSize := noBuffer } :=
      ⟨⟨hw.bytes, hw.ready, hw.queue, hw.emptied, hw.window, hw.low, hw.high⟩, h2.barrier⟩
    exact hs.runReader _ _
  · exact h2

theorem Windowed.recvDATA (h : Windowed q) (eof : Bool) (o : Int) {data : Bytes} (hshort : data.length < 4096)
    (react : List Op) : Slides q (recvDATA q eof o data react).1 := by
  have h1 := h.recvData o hshort
  have h2 : Slides q (if feeds q o data then react.foldl InStreamQueue.exec (InStreamQueue.recvData q o data).1
      else (InStreamQueue.recvData q o data).1) := by
    split
    · exact h1.trans (h1.windowed.exec_all react)
    · exact h1
  unfold InStreamQueue.recvDATA
  simp only
  split
  · exact h2.trans (h2.windowed.shutdown _)
  · exact h2

/-- What `recv` does with a segment, whatever it holds. -/
theorem recv_cases {data : Slice} {x : PacketFormat.Reader} {react : List Op} {n : Int}
    (h : recv q data x react = .ok (q', n)) :
    q' = q ∨ (x = .writerResets ∧ q' = reset { q with state := .amShutdown 0 }) ∨
      ∃ eof offset length o bytes, x = .data eof offset length ∧ bytes.length ≤ length ∧
        q' = (recvDATA q eof o bytes react).1 := by
  cases x with
  | writerResets =>
    cases h
    exact .inr (.inl ⟨rfl, rfl⟩)
  | data eof offset length =>
    unfold recv at h
    dsimp only at h
    generalize (if offset = true then 8 else 4 : Nat) = start at h
    split at h
    · cases h
      exact .inl rfl
    -- the offset is in the header, or zero
    · split at h
      all_goals
        obtain ⟨o, -, h⟩ := bind_ok h
        obtain ⟨sub, hsub, h⟩ := bind_ok h
        cases h
        refine .inr (.inr ⟨eof, _, length, o, sub.bytes, rfl, ?_, rfl⟩)
        unfold Slice.subslice at hsub
        split at hsub
        · cases hsub
        · cases hsub
          exact List.length_take_le _ _

theorem Windowed.recv (h : Windowed q) {data : Slice} {x : PacketFormat.Reader} {react : List Op} {n : Int}
    (hx : ∀ eof offset length, x = .data eof offset length → length < 4096) (hq : recv q data x react = .ok (q', n)) :
    Slides q q' := by
  rcases recv_cases hq with rfl | ⟨-, rfl⟩ | ⟨eof, offset, length, o, bytes, rfl, hle, rfl⟩
  · exact .refl h
  · -- a queue that was reset before counts as down for a moment
    obtain ⟨l, e⟩ := reset_cases { q with state := .amShutdown 0 }
    have hs := h.reset
    obtain ⟨l', e'⟩ := reset_cases q
    rw [e'] at hs
    have hw := hs.windowed
    rw [e]
    exact ⟨⟨rfl, nofun, nofun, fun _ => rfl, h.window, nofun, hw.high⟩, nofun⟩
  · exact h.recvDATA eof o (Nat.lt_of_le_of_lt hle (hx _ _ _ rfl)) react

/-! ## Announcing the barrier -/

theorem Windowed.pull (h : Windowed q) {id seq : Nat} {p : Pulled} (hp : pull q id seq = .ok (p, q')) :
    Slides q q' := by
  unfold InStreamQueue.pull at hp
  split at hp
  · cases hp
  · cases hp
    have hs : Slides q { q with lastBarrier := q.barrier } :=
      ⟨⟨h.bytes, h.ready, h.queue, h.emptied, h.window, h.low, h.high⟩, fun hl => ⟨hl, Int.le_refl _⟩⟩
    exact hs.ran _
  · cases hp
    exact (Slides.refl h).ran _

theorem Windowed.ack (h : Windowed q) (a : Ack) (ok : Bool) : Slides q (ack q a ok) := by
  have hf : ∀ {x : T}, Slides q x → Slides q (fireEvent x) := by
    intro x hx
    obtain ⟨l, -, e⟩ := fireEvent_cases x
    rw [e]
    exact hx.ran l
  cases a with
  | reset => cases ok <;> exact (Slides.refl h).ran _
  | barrier o b l =>
    cases ok with
    | true =>
      simp only [InStreamQueue.ack]
      refine hf ?_
      obtain ⟨hw1, hw2⟩ := newWindow_bounds o (readerOffset q)
      generalize newWindow o (readerOffset q) = window at *
      have hhigh := h.high
      -- a queue that is not reset has its barrier past the reader
      have hmax : isReset q = false → Key.max (readerOffset q + window) q.barrier =
          max (readerOffset q + window) q.barrier := by
        intro hl
        have hlow := h.low hl
        have hwin := h.window
        unfold maximumWindow minimumWindow at *
        exact Key.max_eq (by omega) (by omega)
      refine ⟨⟨h.bytes, h.ready, h.queue, h.emptied, ⟨hw1, hw2⟩, fun hl => ?_, ?_⟩, fun hl => ⟨hl, ?_⟩⟩
      · show readerOffset q + window ≤ Key.max _ q.barrier
        rw [hmax hl]
        exact Int.le_max_left _ _
      · show Key.max _ q.barrier ≤ readerOffset q + maximumWindow
        exact key_max_le (by omega) hhigh
      · show q.barrier ≤ Key.max _ q.barrier
        rw [hmax hl]
        exact Int.le_max_right _ _
    | false =>
      simp only [InStreamQueue.ack]
      split
      · exact .refl h
      · exact hf ⟨⟨h.bytes, h.ready, h.queue, h.emptied, h.window, h.low, h.high⟩, fun hl => ⟨hl, Int.le_refl _⟩⟩

end BubbleStorm.Cusp.Stream.InStreamQueue
