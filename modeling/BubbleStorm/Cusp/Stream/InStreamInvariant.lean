/-
  BubbleStorm.Cusp.Stream.InStreamInvariant — what holds of a receiving queue whatever
  its peer sends and its application does.

  `Kept` is the representation invariant that the source lists. It rests on where the
  out-of-order segments lie (`Near`): within half the number circle past the offset, so
  that the heap orders them by position, and popping up to the offset leaves only what
  is past it (`process_near`). Proved of every run: `representation`.

  The offset counts the bytes handed out and those that are ready only until the queue is
  reset: a reset discards what is ready and keeps the offset (`reset_discards`).
-/

import BubbleStorm.Cusp.Stream.Window

namespace BubbleStorm.Cusp.Stream.InStreamQueue

/-! ## The heap -/

/-- An entry lies past `base`, within half the number circle. -/
structure Near (base : Int) (s : Seg) : Prop where
  after : base < position base s
  within : position base s ≤ base + 2 ^ 31
  short : s.data.length < 4096

variable {base cur : Int} {queue rest : List Seg} {s t : Seg}

theorem Near.rebase {base' : Int} (h : Near base s) (h1 : base ≤ base') (h2 : base' < position base s) :
    position base' s = position base s ∧ Near base' s := by
  have hw := h.within
  have e : position base' s = position base s := position_eq (position_emod base s) (by omega) (by omega)
  exact ⟨e, by rw [e]; exact h2, by rw [e]; omega, h.short⟩

/-- The keys are ordered as the positions are. -/
theorem Near.less_iff (hs : Near base s) (ht : Near base t) :
    Seg.less s t = true ↔ position base s < position base t := by
  have e1 := position_emod base s
  have e2 := position_emod base t
  have h1 := hs.after
  have h2 := hs.within
  have h3 := ht.after
  have h4 := ht.within
  simp only [Seg.less, Key.lt_def, decide_eq_true_eq]
  omega

theorem near_weak (base : Int) : BinHeap.Weak Seg.less (Near base) :=
  WrapOrder.weak_window (by decide) Seg.offset (position base) _ (fun s _ => position_emod base s)
    fun s t hs ht => by have := hs.within; have := ht.after; omega

theorem near_top (h : ∀ s ∈ queue, Near base s) (ho : BinHeap.Ordered Seg.less queue) (hs : queue.head? = some s)
    (ht : t ∈ queue) : position base s ≤ position base t := by
  have hmin := BinHeap.top_min (near_weak base) h ho hs ht
  rw [← Bool.not_eq_true, Near.less_iff (h t ht) (h s (List.mem_of_mem_head? hs))] at hmin
  omega

/-- Whatever the entries hold, popping leaves those past the new offset, and takes the
    bytes of the others off the heap. -/
structure Popped (base : Int) (ate : Int) (queue : List Seg) (r : Int × Int × List Bytes × List Seg) : Prop where
  left : ∀ s ∈ r.2.2.2, s ∈ queue ∧ r.1 < position base s
  ordered : BinHeap.Ordered Seg.less r.2.2.2
  ate : r.2.1 + total r.2.2.2 = ate + total queue

theorem process_near (fuel : Nat) (ate : Int) (ready : List Bytes) (h : ∀ s ∈ queue, Near base s)
    (ho : BinHeap.Ordered Seg.less queue) (hb : base < cur) (hlag : ∀ s ∈ queue, cur - position base s < 4096)
    (hf : queue.length ≤ fuel) : Popped base ate queue (process fuel cur ate ready queue) := by
  induction fuel generalizing cur ate ready queue with
  | zero =>
    have hq := List.eq_nil_of_length_eq_zero (Nat.le_zero.mp hf)
    subst hq
    exact ⟨nofun, ho, rfl⟩
  | succ fuel ih =>
    have hle : ∀ s ∈ queue, Key.le s.offset cur = true ↔ position base s ≤ cur := by
      intro s hs
      have := (h s hs).within
      have := hlag s hs
      exact key_le (by omega) (by omega)
    simp only [process]
    split
    · rename_i hnone
      refine ⟨fun s hs => ⟨hs, ?_⟩, ho, rfl⟩
      obtain ⟨t, ht⟩ : ∃ t, queue.head? = some t := by
        cases queue with
        | nil => cases hs
        | cons t _ => exact ⟨t, rfl⟩
      have hk := BinHeap.popIf_none _ hnone ht
      have h1 := near_top h ho ht hs
      have h2 : ¬ position base t ≤ cur := by rw [← hle t (List.mem_of_mem_head? ht), hk]; simp
      omega
    · rename_i s rest hpop
      obtain ⟨hk, hpop⟩ := BinHeap.popIf_some _ hpop
      have perm := BinHeap.pop_perm _ hpop
      have hs := perm.mem_iff.mpr (.head _)
      have hrest : ∀ t ∈ rest, t ∈ queue := fun t ht => perm.mem_iff.mpr (.tail _ ht)
      have ho' := BinHeap.pop_ordered (near_weak base) h ho hpop
      have hlen : rest.length ≤ fuel := by
        have := perm.length_eq
        rw [List.length_cons] at this
        omega
      have hpos := (hle s hs).mp hk
      have hshort := (h s hs).short
      have hmod := position_emod base s
      have hl := hlag s hs
      have after : ∀ {cur' ready'}, base < cur' → (∀ t ∈ rest, cur' - position base t < 4096) →
          Popped base ate queue (process fuel cur' (ate + s.data.length) ready' rest) := by
        intro cur' ready' hb' hlag'
        have hp := ih (ate + s.data.length) ready' (fun t ht => h t (hrest t ht)) ho' hb' hlag' hlen
        refine ⟨fun t ht => ⟨hrest t (hp.left t ht).1, (hp.left t ht).2⟩, hp.ordered, ?_⟩
        rw [hp.ate, total_perm perm, total_cons]
        omega
      split
      · exact after hb fun t ht => hlag t (hrest t ht)
      · -- the slice ends past the offset, and at most its length past the entries left
        rename_i hend
        have hend' : cur < position base s + s.data.length := by
          simp only [Key.le, Key.lt_def, Bool.not_eq_true, Bool.not_eq_false', decide_eq_true_eq] at hend
          omega
        have hadd : cur + word32 (s.offset + s.data.length - cur) = position base s + s.data.length := by
          unfold word32
          omega
        rw [hadd]
        refine after (by omega) fun t ht => ?_
        have := near_top h ho (BinHeap.pop_head _ hpop) (hrest t ht)
        omega

/-! ## The invariant -/

structure Kept (q : T) : Prop extends Windowed q where
  queued : q.queuedBytes = total q.queue
  /-- A reader only waits while nothing is ready. -/
  idle : q.bufferSize ≠ noBuffer → isReset q = false ∧ q.ready = [] ∧ -1 ≤ q.bufferSize ∧ ∃ cb, q.reader = some cb
  counted : isReset q = false → (delivered q.log).length + q.readyBytes = q.offset
  handed : (delivered q.log).length + q.readyBytes ≤ q.offset
  near : ∀ s ∈ q.queue, Near q.offset s
  ordered : BinHeap.Ordered Seg.less q.queue

theorem kept_new (id : Nat) : Kept (new id) where
  toWindowed := windowed_new id
  queued := rfl
  idle h := absurd rfl h
  counted _ := rfl
  handed := Int.le_refl 0
  near := nofun
  ordered := BinHeap.ordered_nil

variable {q q' : T}

/-- Callbacks that hand nothing out. -/
theorem Kept.ran (h : Kept q) {l : List Out} (hl : delivered l = []) : Kept (q.ran l) where
  toWindowed := h.toWindowed.ran l
  queued := h.queued
  idle := h.idle
  counted hr := by
    rw [T.ran_log, delivered_append, hl, List.append_nil]
    exact h.counted hr
  handed := by
    rw [T.ran_log, delivered_append, hl, List.append_nil]
    exact h.handed
  near := h.near
  ordered := h.ordered

theorem Kept.fireEvent (h : Kept q) : Kept (fireEvent q) := by
  obtain ⟨l, hl, e⟩ := fireEvent_cases q
  rw [e]
  exact h.ran hl.delivered

/-- The barriers, the window and the state may change, as long as a queue stays reset. -/
theorem Kept.frame (h : Kept q) (hw : Windowed q') (hs : isReset q' = isReset q) (hq : q'.queue = q.queue)
    (hb : q'.queuedBytes = q.queuedBytes) (hr : q'.ready = q.ready) (hn : q'.readyBytes = q.readyBytes)
    (ho : q'.offset = q.offset) (hi : q'.reader = q.reader) (hz : q'.bufferSize = q.bufferSize)
    (hl : delivered q'.log = delivered q.log) : Kept q' where
  toWindowed := hw
  queued := by rw [hb, hq]; exact h.queued
  idle := by rw [hz, hs, hr, hi]; exact h.idle
  counted := by rw [hs, hl, hn, ho]; exact h.counted
  handed := by rw [hl, hn, ho]; exact h.handed
  near := by rw [hq, ho]; exact h.near
  ordered := by rw [hq]; exact h.ordered

/-! ## The application -/

/-- The reader moves over what is handed out. -/
theorem Kept.advanced (h : Kept q) {ready : List Bytes} {n : Int} {reader : Option Nat} {m : Nat} {l : List Out}
    (hlive : isReset q = false) (hw : Windowed ((q.advanced ready n reader m).ran l)) (hl : (delivered l).length = m)
    (hi : n ≠ noBuffer → ready = [] ∧ -1 ≤ n ∧ ∃ cb, reader = some cb) : Kept ((q.advanced ready n reader m).ran l) := by
  have hc := h.counted hlive
  have hsum : ((delivered (q.log ++ l)).length : Int) + (q.readyBytes - m) = q.offset := by
    rw [delivered_append, List.length_append, hl]
    omega
  exact ⟨hw, h.queued, fun hn => ⟨hlive, hi hn⟩, fun _ => hsum, Int.le_of_eq hsum, h.near, h.ordered⟩

theorem Kept.read (h : Kept q) {n : Int} {cb : Nat} (hread : read q n cb = .ok q') : Kept q' := by
  have hw := (h.toWindowed.read hread).windowed
  cases read_reads hread with
  | reset hr => exact h.ran rfl
  | wait hr hready hn =>
    obtain ⟨l, hl, e⟩ := finishRead_cases q [] n (some cb) 0
    rw [e] at hw ⊢
    apply h.advanced (m := 0) hr hw
    · rw [hl.delivered]
      rfl
    · intro _
      exact ⟨rfl, hn, cb, rfl⟩
  | atEnd hr hready heof =>
    obtain ⟨l, hl, e⟩ := finishRead_cases (callback q .becameComplete) [] noBuffer none 0
    have hc : Kept (callback q .becameComplete) := h.ran (l := [.event .becameComplete]) rfl
    rw [e, runReader_eq, T.ran_ran] at hw ⊢
    apply hc.advanced (m := 0) hr hw
    · rw [delivered_append, hl.delivered]
      rfl
    · exact fun hn => absurd rfl hn
  | @hand ready report hr hready =>
    obtain ⟨l, hl, e⟩ := finishRead_cases q ready noBuffer none report.length
    rw [e, runReader_eq, T.ran_ran] at hw ⊢
    apply h.advanced hr hw
    · rw [delivered_append, hl.delivered, List.nil_append]
      exact congrArg List.length (delivered_data cb report)
    · exact fun hn => absurd rfl hn

theorem reset_delivered (q : T) : delivered (reset q).log = delivered q.log := by
  obtain ⟨x, hx⟩ : ∃ x, x = (((q.emptied.ran [.event (.unreadBytes (-q.readyBytes))]).ran
    [.event (.outOfOrderBytes (-q.queuedBytes))]).ran [.event (.rts .posInf)]).ran [.event .becameReset] := ⟨_, rfl⟩
  have h : reset q = runReader (InStreamQueue.fireEvent x) q.reader .reset := by rw [hx]; rfl
  obtain ⟨l, hl, e⟩ := fireEvent_cases x
  have hq : delivered (q.reader.map (Out.reader · .reset)).toList = [] := by
    cases q.reader with
    | none => rfl
    | some cb => rfl
  rw [h, e, hx, runReader_eq]
  simp only [T.ran_log, delivered_append, hl.delivered, hq, List.append_nil]
  simp [delivered, T.emptied]

/-- What is ready is discarded, and the offset stays. -/
theorem Kept.reset (h : Kept q) : Kept (reset q) := by
  have hw := h.toWindowed.reset.windowed
  have hd := reset_delivered q
  obtain ⟨l, e⟩ := reset_cases q
  have hr : isReset q.emptied = true := isReset_resetTransition q
  have hbytes := h.bytes
  have hle := h.handed
  rw [e] at hw hd ⊢
  refine ⟨hw, rfl, fun hn => absurd rfl hn, fun hl => ?_, ?_, nofun, BinHeap.ordered_nil⟩
  · exact absurd (hr.symm.trans hl) Bool.noConfusion
  · rw [hd]
    show ((delivered q.log).length : Int) + 0 ≤ q.offset
    omega

theorem Kept.exec (h : Kept q) (op : Op) : Kept (exec q op) := by
  cases op with
  | read n cb =>
    simp only [InStreamQueue.exec]
    split
    · rename_i hq
      exact h.read hq
    · exact h
  | reset => exact h.reset

theorem Kept.exec_all (h : Kept q) (ops : List Op) : Kept (ops.foldl InStreamQueue.exec q) := by
  induction ops generalizing q with
  | nil => exact h
  | cons op ops ih => exact ih (h.exec op)

/-! ## Receiving -/

/-- Bytes at the offset: `report` goes to the reader, if one waits. -/
theorem Kept.transfer (h : Kept q) (report : Bytes) (tail : Option Bytes) (hook : Option (Nat × Bytes))
    (hne : report ++ tail.getD [] ≠ []) (hshort : (report ++ tail.getD []).length < 4096)
    (hh : hook = none ∧ report = [] ∨ isReset q = false ∧ ∃ cb, hook = some (cb, report)) :
    Kept (transferQueue q tail report.length hook) := by
  have hw := (h.toWindowed.transfer report tail hook hshort).windowed
  have hpos := List.length_pos_of_ne_nil hne
  rw [List.length_append] at hpos hshort
  have hp := process_near q.queue.length 0 (q.ready ++ tail.toList) h.near h.ordered
    (show q.offset < q.offset + report.length + (tail.getD []).length by omega)
    (fun s hs => by have := (h.near s hs).after; omega) (Nat.le_refl _)
  have hle := process_le q.queue.length (q.offset + report.length + (tail.getD []).length) 0
    (q.ready ++ tail.toList) q.queue
  have hq := h.queued
  have hhanded := h.handed
  have hbytes := h.bytes
  have rebased : ∀ {r : Int × Int × List Bytes × List Seg}, Popped q.offset 0 q.queue r → q.offset ≤ r.1 →
      ∀ s ∈ r.2.2.2, Near r.1 s := by
    intro r hr hle s hs
    obtain ⟨hm, hlt⟩ := hr.left s hs
    exact ((h.near s hm).rebase hle hlt).2
  cases hr : isReset q with
  | true =>
    have hnone : hook = none ∧ report = [] := by
      rcases hh with hh | ⟨hl, -⟩
      · exact hh
      · rw [hr] at hl
        cases hl
    obtain ⟨rfl, rfl⟩ := hnone
    obtain ⟨l, hl, e⟩ := transferQueue_tracks hr tail ([] : Bytes).length none
    rw [Option.map_none, Option.toList_none, T.ran_nil] at e
    rw [e] at hw ⊢
    generalize process q.queue.length (q.offset + ([] : Bytes).length + (tail.getD []).length) 0 (q.ready ++ tail.toList)
      q.queue = r at *
    refine ⟨hw, ?_, fun hn => absurd rfl hn, fun hlive => ?_, ?_, rebased hp (by omega), hp.ordered⟩
    · have := hp.ate
      show q.queuedBytes - r.2.1 = total r.2.2.2
      omega
    · exact absurd (hr.symm.trans hlive) Bool.noConfusion
    · show ((delivered (q.log ++ l)).length : Int) + (q.readyBytes + 0) ≤ r.1
      rw [delivered_append, hl.delivered, List.append_nil]
      omega
  | false =>
    obtain ⟨l, hl, e⟩ := transferQueue_cases hr tail report.length hook
    rw [e] at hw ⊢
    generalize process q.queue.length (q.offset + report.length + (tail.getD []).length) 0 (q.ready ++ tail.toList)
      q.queue = r at *
    have hlen : (delivered (hook.map fun p => Out.reader p.1 (.data p.2)).toList).length = report.length := by
      rcases hh with ⟨rfl, rfl⟩ | ⟨-, cb, rfl⟩
      · rfl
      · exact congrArg List.length (delivered_data cb report)
    have hsum : ((delivered (q.log ++ l ++ (hook.map fun p => Out.reader p.1 (.data p.2)).toList)).length : Int) +
        (q.readyBytes + (r.1 - (q.offset + report.length))) = r.1 := by
      have hc := h.counted hr
      rw [delivered_append, delivered_append, hl.delivered, List.append_nil, List.length_append, hlen]
      omega
    refine ⟨hw, ?_, fun hn => absurd rfl hn, fun _ => hsum, Int.le_of_eq hsum, rebased hp (by omega), hp.ordered⟩
    have := hp.ate
    show q.queuedBytes - r.2.1 = total r.2.2.2
    omega

theorem Kept.feed (h : Kept q) {data : Bytes} (hne : data ≠ []) (hshort : data.length < 4096) : Kept (feedReader q data) := by
  unfold feedReader
  split
  · exact h.transfer [] (some data) none hne hshort (.inl ⟨rfl, rfl⟩)
  · rename_i hb
    obtain ⟨hlive, -, -, cb, hcb⟩ := h.idle hb
    dsimp only
    split
    · have e : data ++ (none : Option Bytes).getD [] = data := List.append_nil data
      exact h.transfer data none _ (by rw [e]; exact hne) (by rw [e]; exact hshort) (.inr ⟨hlive, cb, by rw [hcb]; rfl⟩)
    · have e : data.take q.bufferSize.toNat ++ (some (data.drop q.bufferSize.toNat)).getD [] = data :=
        List.take_append_drop _ _
      exact h.transfer (data.take q.bufferSize.toNat) (some (data.drop q.bufferSize.toNat)) _ (by rw [e]; exact hne)
        (by rw [e]; exact hshort) (.inr ⟨hlive, cb, by rw [hcb]; rfl⟩)

/-- A segment that does not continue the stream lies past the offset. -/
theorem Kept.outOfOrder (h : Kept q) {o : Int} {data : Bytes} (ho : 2 ^ 31 ≤ word32 (q.offset - o))
    (hshort : data.length < 4096) : Kept (outOfOrder q o data) := by
  have hnew : Near q.offset ⟨o, data⟩ := by
    have hp : position q.offset ⟨o, data⟩ = q.offset + (o - q.offset) % 2 ^ 32 := rfl
    have hw : word32 (q.offset - o) = (q.offset - o) % 2 ^ 32 := rfl
    refine ⟨?_, ?_, hshort⟩
    · omega
    · omega
  have hmem : ∀ s ∈ BinHeap.push Seg.less q.queue ⟨o, data⟩, Near q.offset s := by
    intro s hs
    rcases (BinHeap.mem_push Seg.less).mp hs with rfl | hs
    · exact hnew
    · exact h.near s hs
  have hw := (h.toWindowed.outOfOrder o hshort).windowed
  have hk : Kept { q with queue := BinHeap.push Seg.less q.queue ⟨o, data⟩, queuedBytes := q.queuedBytes + data.length } := by
    refine ⟨⟨hw.bytes, hw.ready, hw.queue, hw.emptied, hw.window, hw.low, hw.high⟩, ?_, h.idle, h.counted, h.handed, hmem,
      BinHeap.push_ordered (near_weak q.offset) h.near hnew h.ordered⟩
    show q.queuedBytes + data.length = total (BinHeap.push Seg.less q.queue ⟨o, data⟩)
    rw [total_perm (BinHeap.push_perm Seg.less q.queue ⟨o, data⟩), total_cons, h.queued]
    exact Int.add_comm _ _
  exact hk.ran rfl

theorem classify_feed {o : Int} {data rest : Bytes} (h : classify q o data = .feed rest) :
    rest ≠ [] ∧ rest.length ≤ data.length := by
  unfold classify at h
  dsimp only at h
  split at h
  · cases h
  split at h
  · cases h
  split at h
  · split at h
    · cases h
    · rename_i hlen
      cases h
      have hpos : (0 : Int) ≤ word32 (q.offset - o) := Int.emod_nonneg _ (by decide)
      refine ⟨fun e => ?_, by rw [List.length_drop]; omega⟩
      have hl := congrArg List.length e
      rw [List.length_drop, List.length_nil] at hl
      omega
  · cases h

theorem classify_queue {o : Int} {data : Bytes} (h : classify q o data = .queue) : 2 ^ 31 ≤ word32 (q.offset - o) := by
  unfold classify at h
  dsimp only at h
  split at h
  · cases h
  split at h
  · cases h
  split at h
  · split at h
    · cases h
    · cases h
  · omega

theorem Kept.recvData (h : Kept q) (o : Int) {data : Bytes} (hshort : data.length < 4096) : Kept (recvData q o data).1 := by
  unfold InStreamQueue.recvData
  cases e : classify q o data with
  | reject => exact h
  | drop => exact h
  | feed rest =>
    obtain ⟨hne, hle⟩ := classify_feed e
    exact h.feed hne (by omega)
  | queue => exact h.outOfOrder (classify_queue e) hshort

theorem Kept.shutdown (h : Kept q) (eof : Int) : Kept (shutdown q eof) := by
  have hw := (h.toWindowed.shutdown eof).windowed
  obtain ⟨q2, l, hl, e2, e⟩ := shutdown_cases q eof
  have h2 : Kept q2 := by
    have hs : Kept { q with state := stateTransition eof q.state } :=
      h.frame (h.toWindowed.restate (isReset_stateTransition q eof)).windowed (isReset_stateTransition q eof) rfl rfl rfl rfl
        rfl rfl rfl rfl
    rw [e2]
    exact hs.ran hl.delivered
  rw [e] at hw ⊢
  split
  · have h3 := h2.ran (l := [.event .becameComplete]) rfl
    have hk : Kept { callback q2 .becameComplete with reader := none, bufferSize := noBuffer } :=
      { h3 with
        toWindowed := ⟨h3.bytes, h3.ready, h3.queue, h3.emptied, h3.window, h3.low, h3.high⟩
        idle := fun hn => absurd rfl hn }
    have hd : delivered (q2.reader.map (Out.reader · .shutdown)).toList = [] := by
      cases q2.reader with
      | none => rfl
      | some cb => rfl
    rw [runReader_eq]
    exact hk.ran hd
  · exact h2

theorem Kept.recvDATA (h : Kept q) (eof : Bool) (o : Int) {data : Bytes} (hshort : data.length < 4096) (react : List Op) :
    Kept (recvDATA q eof o data react).1 := by
  have h1 := h.recvData o hshort
  have h2 : Kept (if feeds q o data then react.foldl InStreamQueue.exec (InStreamQueue.recvData q o data).1
      else (InStreamQueue.recvData q o data).1) := by
    split
    · exact h1.exec_all react
    · exact h1
  unfold InStreamQueue.recvDATA
  dsimp only
  split
  · exact h2.shutdown _
  · exact h2

/-- The writer's reset is a local one, of a queue that counts as shut down for a moment. -/
theorem Kept.writerResets (h : Kept q) : Kept (InStreamQueue.reset { q with state := .amShutdown 0 }) := by
  have hw := (h.toWindowed.recv (fun _ _ _ e => by cases e)
    (show recv q ⟨0, []⟩ .writerResets [] = .ok (InStreamQueue.reset { q with state := .amShutdown 0 }, 4) from rfl)).windowed
  have hd := reset_delivered { q with state := .amShutdown 0 }
  obtain ⟨l, e⟩ := reset_cases { q with state := .amShutdown 0 }
  have hbytes := h.bytes
  have hle := h.handed
  rw [e] at hw hd ⊢
  refine ⟨hw, rfl, fun hn => absurd rfl hn, nofun, ?_, nofun, BinHeap.ordered_nil⟩
  rw [hd]
  show ((delivered q.log).length : Int) + 0 ≤ q.offset
  omega

theorem Kept.recv (h : Kept q) {data : Slice} {x : PacketFormat.Reader} {react : List Op} {n : Int}
    (hx : ∀ eof offset length, x = .data eof offset length → length < 4096) (hq : recv q data x react = .ok (q', n)) :
    Kept q' := by
  rcases recv_cases hq with rfl | ⟨-, rfl⟩ | ⟨eof, offset, length, o, bytes, rfl, hle, rfl⟩
  · exact h
  · exact h.writerResets
  · exact h.recvDATA eof o (Nat.lt_of_le_of_lt hle (hx _ _ _ rfl)) react

/-! ## Announcing the barrier -/

theorem Kept.pull (h : Kept q) {id seq : Nat} {p : Pulled} (hp : pull q id seq = .ok (p, q')) : Kept q' := by
  have hw := (h.toWindowed.pull hp).windowed
  unfold InStreamQueue.pull at hp
  split at hp
  · cases hp
  · cases hp
    exact h.frame hw rfl rfl rfl rfl rfl rfl rfl rfl (by simp [callback, emit, delivered])
  · cases hp
    exact h.ran rfl

theorem Kept.ack (h : Kept q) (a : Ack) (ok : Bool) : Kept (ack q a ok) := by
  have hw := (h.toWindowed.ack a ok).windowed
  cases a with
  | reset => cases ok <;> exact h.ran rfl
  | barrier o b l =>
    cases ok with
    | true =>
      simp only [InStreamQueue.ack] at hw ⊢
      obtain ⟨l', hl, e⟩ := fireEvent_cases { q with
        barrier := Key.max (readerOffset q + newWindow o (readerOffset q)) q.barrier,
        window := newWindow o (readerOffset q) }
      rw [e] at hw ⊢
      exact h.frame hw rfl rfl rfl rfl rfl rfl rfl rfl (by rw [T.ran_log, delivered_append, hl.delivered, List.append_nil])
    | false =>
      simp only [InStreamQueue.ack] at hw ⊢
      split
      · exact h
      · rename_i hne
        rw [if_neg hne] at hw
        obtain ⟨l', hl, e⟩ := fireEvent_cases { q with lastBarrier := l }
        rw [e] at hw ⊢
        exact h.frame hw rfl rfl rfl rfl rfl rfl rfl rfl (by rw [T.ran_log, delivered_append, hl.delivered, List.append_nil])

/-! ## Runs -/

/-- A call that returns. A segment is what a header word announces; `react` is what the
    reader that it feeds does before the rest of the segment is processed. -/
inductive Step : T → T → Prop where
  | recv {q q' : T} {command id : Nat} {x : PacketFormat.Reader} {data : Slice} {react : List Op} {n : Int}
      (hc : PacketFormat.ofWord command = .reader x id) (h : recv q data x react = .ok (q', n)) : Step q q'
  | read {q q' : T} {n : Int} {cb : Nat} (h : read q n cb = .ok q') : Step q q'
  | reset (q : T) : Step q (reset q)
  | pull {q q' : T} {id seq : Nat} {p : Pulled} (h : pull q id seq = .ok (p, q')) : Step q q'
  /-- The callback of a segment, acknowledged or lost. -/
  | ack (q : T) (a : Ack) (ok : Bool) : Step q (ack q a ok)

/-- A header has room for 12 bits of length. -/
theorem ofWord_short {command id : Nat} {x : PacketFormat.Reader} (h : PacketFormat.ofWord command = .reader x id) :
    ∀ eof offset length, x = .data eof offset length → length < 4096 := by
  have hlen : command / 2 ^ 16 % 2 ^ 12 < 4096 := Nat.mod_lt _ (by decide)
  intro eof offset length e
  subst e
  unfold PacketFormat.ofWord at h
  dsimp only at h
  split at h
  all_goals
    cases h
  all_goals exact hlen

theorem Kept.step (h : Kept q) (hs : Step q q') : Kept q' := by
  cases hs with
  | recv hc hr => exact h.recv (ofWord_short hc) hr
  | read hr => exact h.read hr
  | reset => exact h.reset
  | pull hp => exact h.pull hp
  | ack a ok => exact h.ack a ok

theorem kept_run {id : Nat} (h : Relation.ReflTransGen Step (new id) q) : Kept q := by
  induction h with
  | refl => exact kept_new id
  | tail _ hs ih => exact ih.step hs

/-- After every call: the counters are those of the lists; a waiting reader has nothing
    ready; the offset is what was handed out and what is ready, until the queue is reset;
    the keys lie within half the circle past the offset, where the heap's order is that of
    their distance; and the barrier stays within the largest window. -/
theorem representation {id : Nat} (h : Relation.ReflTransGen Step (new id) q) :
    q.readyBytes = q.ready.flatten.length ∧ q.queuedBytes = total q.queue ∧
      (q.bufferSize ≠ noBuffer → q.ready = []) ∧
      (isReset q = false → q.offset = (delivered q.log).length + q.readyBytes) ∧
      (isReset q = true → q.ready = [] ∧ (delivered q.log).length ≤ q.offset) ∧
      (∀ s ∈ q.queue, 0 < word32 (s.offset - q.offset) ∧ word32 (s.offset - q.offset) ≤ 2 ^ 31) ∧
      (∀ s ∈ q.queue, ∀ t ∈ q.queue,
        Seg.less s t = true ↔ word32 (s.offset - q.offset) < word32 (t.offset - q.offset)) ∧
      BinHeap.Ordered Seg.less q.queue ∧
      q.barrier - readerOffset q < 2 ^ 31 - 2 ^ 24 ∧ (isReset q = false → 0 < q.barrier - readerOffset q) := by
  have hk := kept_run h
  have hhigh := hk.high
  have hwin := hk.window
  have hbytes := hk.bytes
  have hhanded := hk.handed
  unfold maximumWindow at hhigh
  unfold minimumWindow at hwin
  refine ⟨hk.bytes, hk.queued, fun hn => (hk.idle hn).2.1, fun hl => (hk.counted hl).symm, ?_, ?_, ?_, hk.ordered, ?_, ?_⟩
  · intro hr
    exact ⟨hk.emptied hr, by omega⟩
  · intro s hs
    have h1 := (hk.near s hs).after
    have h2 := (hk.near s hs).within
    unfold position at h1 h2
    omega
  · intro s hs t ht
    rw [(hk.near s hs).less_iff (hk.near t ht)]
    unfold position
    omega
  · omega
  · intro hl
    have := hk.low hl
    omega

/-- A byte that is received and read. -/
theorem representation_read : ∃ q, Relation.ReflTransGen Step (new 0) q ∧ delivered q.log = [7] ∧
    q.offset = (delivered q.log).length + q.readyBytes := by
  have h1 : ∃ q, recv (new 0) ⟨0, [0, 0, 0, 0, 7, 0, 0, 0]⟩ (.data false false 1) [] = .ok (q, 8) ∧
      ∃ q', read q (-1) 5 = .ok q' ∧ isReset q' = false ∧ delivered q'.log = [7] := ⟨_, rfl, _, rfl, rfl, rfl⟩
  obtain ⟨q, hr, q', hq, hl, hd⟩ := h1
  have hc : PacketFormat.ofWord (2 ^ 16) = .reader (.data false false 1) 0 := rfl
  have hrun : Relation.ReflTransGen Step (new 0) q' :=
    (Relation.ReflTransGen.single (.recv hc hr)).tail (.read hq)
  exact ⟨q', hrun, hd, (representation hrun).2.2.2.1 hl⟩

/-- A byte that is received, and then the stream is reset: the offset stays ahead of what
    was handed out. -/
theorem reset_discards : ∃ q, Relation.ReflTransGen Step (new 0) q ∧
    word32 q.offset ≠ word32 ((delivered q.log).length + q.readyBytes) := by
  have h1 : ∃ q, recv (new 0) ⟨0, [0, 0, 0, 0, 7, 0, 0, 0]⟩ (.data false false 1) [] = .ok (q, 8) ∧
      word32 (reset q).offset ≠ word32 ((delivered (reset q).log).length + (reset q).readyBytes) :=
    ⟨_, rfl, by decide⟩
  obtain ⟨q, hr, hne⟩ := h1
  have hc : PacketFormat.ofWord (2 ^ 16) = .reader (.data false false 1) 0 := rfl
  exact ⟨reset q, (Relation.ReflTransGen.single (.recv hc hr)).tail (.reset q), hne⟩

end BubbleStorm.Cusp.Stream.InStreamQueue
