/-
  BubbleStorm.Cusp.Stream.ReceiveLimit — a receiving queue whose peer keeps to the
  barrier.

  `Fed v q`: all that `q` was sent are pieces of `v`, which ends before its barrier. Such
  a queue takes every piece that is not too far behind, reset or not, and its barrier
  only moves forward.
-/

import BubbleStorm.Cusp.Stream.Window

namespace BubbleStorm.Cusp.Stream.InStreamQueue

open Span

structure Fed (v : Bytes) (q : T) : Prop extends Windowed q where
  nonneg : 0 ≤ q.offset
  le : q.offset ≤ v.length
  limit : v.length ≤ q.barrier
  ahead : ∀ s ∈ q.queue, Ahead v q.offset s
  ordered : BinHeap.Ordered Seg.less q.queue

theorem fed_new (id : Nat) : Fed [] (new id) where
  toWindowed := windowed_new id
  nonneg := Int.le_refl 0
  le := Int.le_refl 0
  limit := by show (0 : Int) ≤ minimumWindow; decide
  ahead := nofun
  ordered := BinHeap.ordered_nil

structure Climbs (v : Bytes) (q q' : T) : Prop where
  fed : Fed v q'
  barrier : q.barrier ≤ q'.barrier
  offset : q.offset ≤ q'.offset

variable {v v' : Bytes} {q q' : T}

theorem Fed.mono (h : Fed v q) (hv : v <+: v') (hl : v'.length ≤ q.barrier) : Fed v' q :=
  { h with
    le := Int.le_trans h.le (by have := hv.length_le; omega)
    limit := hl
    ahead := fun s hs => by
      have := h.ahead s hs
      exact ⟨this.lies.mono hv, this.after, this.within, this.short⟩ }

theorem Climbs.refl (h : Fed v q) : Climbs v q q := ⟨h, Int.le_refl _, Int.le_refl _⟩

theorem Climbs.trans {q'' : T} (h : Climbs v q q') (h' : Climbs v q' q'') : Climbs v q q'' :=
  ⟨h'.fed, Int.le_trans h.barrier h'.barrier, Int.le_trans h.offset h'.offset⟩

theorem Climbs.ran (h : Climbs v q q') (l : List Out) : Climbs v q (q'.ran l) :=
  ⟨⟨h.fed.toWindowed.ran l, h.fed.nonneg, h.fed.le, h.fed.limit, h.fed.ahead, h.fed.ordered⟩, h.barrier, h.offset⟩

/-- A step that leaves the offset and the heap alone. -/
theorem Fed.keep (h : Fed v q) (hw : Windowed q') (ho : q'.offset = q.offset) (hq : q'.queue = q.queue)
    (hb : q.barrier ≤ q'.barrier) : Climbs v q q' :=
  ⟨⟨hw, by rw [ho]; exact h.nonneg, by rw [ho]; exact h.le, Int.le_trans h.limit hb, by rw [hq, ho]; exact h.ahead,
    by rw [hq]; exact h.ordered⟩, hb, Int.le_of_eq ho.symm⟩

/-! ## The application -/

theorem read_queue {n : Int} {cb : Nat} (h : read q n cb = .ok q') : q'.queue = q.queue := by
  have hf : ∀ (q : T) ready n reader m, (finishRead q ready n reader m).queue = q.queue := by
    intro q ready n reader m
    obtain ⟨l, -, e⟩ := finishRead_cases q ready n reader m
    rw [e]
    rfl
  cases read_reads h with
  | reset => rfl
  | wait => exact hf _ _ _ _ _
  | atEnd => exact hf _ _ _ _ _
  | hand => exact hf _ _ _ _ _

theorem Fed.read (h : Fed v q) {n : Int} {cb : Nat} (hread : read q n cb = .ok q') : Climbs v q q' := by
  obtain ⟨ho, hs⟩ := read_frame hread
  have hsl := h.toWindowed.read hread
  refine h.keep hsl.windowed ho (read_queue hread) ?_
  cases hr : isReset q with
  | true =>
    -- a queue that is reset only runs the reader
    unfold InStreamQueue.read at hread
    rw [if_pos hr] at hread
    cases hread
    exact Int.le_refl _
  | false =>
    refine (hsl.barrier ?_).2
    unfold isReset at hr ⊢
    rw [hs]
    exact hr

theorem Fed.reset (h : Fed v q) : Climbs v q (reset q) := by
  have hw := h.toWindowed.reset.windowed
  obtain ⟨l, e⟩ := reset_cases q
  rw [e] at hw ⊢
  exact ⟨⟨hw, h.nonneg, h.le, h.limit, nofun, BinHeap.ordered_nil⟩, Int.le_refl _, Int.le_refl _⟩

theorem Fed.exec (h : Fed v q) (op : Op) : Climbs v q (exec q op) := by
  cases op with
  | read n cb =>
    simp only [InStreamQueue.exec]
    split
    · rename_i hq; exact h.read hq
    · exact .refl h
  | reset => exact h.reset

theorem Fed.exec_all (h : Fed v q) (ops : List Op) : Climbs v q (ops.foldl InStreamQueue.exec q) := by
  induction ops generalizing q with
  | nil => exact .refl h
  | cons op ops ih => exact (h.exec op).trans (ih (h.exec op).fed)

/-! ## Segments -/

theorem Fed.transfer (h : Fed v q) (report : Bytes) (tail : Option Bytes) (hook : Option (Nat × Bytes))
    (hd : At v q.offset (report ++ tail.getD [])) (hne : report ++ tail.getD [] ≠ [])
    (hshort : (report ++ tail.getD []).length < 4096) : Climbs v q (transferQueue q tail report.length hook) := by
  have hsl := h.toWindowed.transfer report tail hook hshort
  have hpos := List.length_pos_of_ne_nil hne
  rw [List.length_append] at hpos hshort
  have hdl := hd.le
  rw [List.length_append] at hdl
  have hp := process_spec q.queue.length 0 (q.ready ++ tail.toList) h.ahead h.ordered h.nonneg
    (show q.offset < q.offset + report.length + (tail.getD []).length by omega) (by omega)
    (fun s hs => by have := (h.ahead s hs).after; omega) (Nat.le_refl _)
  have hle := hp.le
  obtain ⟨d, hat, hlen, -⟩ := hp.added
  have hend := hat.le
  have hleft := hp.left
  have hord := hp.ordered
  have hrebase : ∀ s ∈ (process q.queue.length (q.offset + report.length + (tail.getD []).length) 0
      (q.ready ++ tail.toList) q.queue).2.2.2, Ahead v (process q.queue.length
        (q.offset + report.length + (tail.getD []).length) 0 (q.ready ++ tail.toList) q.queue).1 s := by
    intro s hs
    obtain ⟨hm, hlt⟩ := hleft s hs
    exact ((h.ahead s hm).rebase (by omega) hlt).2
  have hhigh := h.high
  have hwin := h.window
  have hlim := h.limit
  have hnn := h.nonneg
  cases hr : isReset q with
  | true =>
    obtain ⟨l, -, e⟩ := transferQueue_tracks hr tail report.length hook
    have hb := h.bytes
    rw [h.emptied hr] at hb
    rw [e] at hsl ⊢
    generalize process q.queue.length (q.offset + report.length + (tail.getD []).length) 0 (q.ready ++ tail.toList)
      q.queue = r at *
    have hbar : q.barrier ≤ (q.tracked report.length r).barrier := by
      show q.barrier ≤ Key.max q.barrier (r.1 - (q.readyBytes + 0) + q.window)
      have hb' : q.readyBytes = 0 := hb
      unfold readerOffset maximumWindow minimumWindow at *
      rw [Key.max_eq (by omega) (by omega)]
      exact Int.le_max_left _ _
    exact ⟨⟨hsl.windowed, show 0 ≤ r.1 by omega, show r.1 ≤ v.length by omega, Int.le_trans hlim hbar, hrebase, hord⟩,
      hbar, show q.offset ≤ r.1 by omega⟩
  | false =>
    have hl : isReset (transferQueue q tail report.length hook) = false := by
      have := transferQueue_frame hr tail report.length hook
      unfold isReset at hr ⊢
      rw [this]
      exact hr
    have hbar := (hsl.barrier hl).2
    obtain ⟨l, -, e⟩ := transferQueue_cases hr tail report.length hook
    rw [e] at hsl hbar ⊢
    generalize process q.queue.length (q.offset + report.length + (tail.getD []).length) 0 (q.ready ++ tail.toList)
      q.queue = r at *
    exact ⟨⟨hsl.windowed, show 0 ≤ r.1 by omega, show r.1 ≤ v.length by omega, Int.le_trans hlim hbar, hrebase, hord⟩,
      hbar, show q.offset ≤ r.1 by omega⟩

theorem Fed.feed (h : Fed v q) {data : Bytes} (hd : At v q.offset data) (hne : data ≠ []) (hshort : data.length < 4096) :
    Climbs v q (feedReader q data) := by
  unfold feedReader
  split
  · exact h.transfer [] (some data) none hd hne hshort
  · split
    · have e : data ++ (none : Option Bytes).getD [] = data := List.append_nil data
      exact h.transfer data none _ (by rw [e]; exact hd) (by rw [e]; exact hne) (by rw [e]; exact hshort)
    · have e : data.take q.bufferSize.toNat ++ (some (data.drop q.bufferSize.toNat)).getD [] = data :=
        List.take_append_drop _ _
      exact h.transfer (data.take q.bufferSize.toNat) (some (data.drop q.bufferSize.toNat)) _ (by rw [e]; exact hd)
        (by rw [e]; exact hne) (by rw [e]; exact hshort)

theorem Fed.outOfOrder (h : Fed v q) {p o : Int} {data : Bytes} (hd : At v p data) (ho : (o - p) % 2 ^ 32 = 0)
    (h1 : q.offset < p) (h2 : p ≤ q.offset + 2 ^ 31) (hshort : data.length < 4096) :
    Climbs v q (outOfOrder q o data) := by
  have e : position q.offset ⟨o, data⟩ = p := position_eq ho (by omega) (by omega)
  have hnew : Ahead v q.offset ⟨o, data⟩ := ⟨by rw [e]; exact hd, by rw [e]; exact h1, by rw [e]; exact h2, hshort⟩
  refine ⟨⟨(h.toWindowed.outOfOrder o hshort).windowed, h.nonneg, h.le, h.limit, fun s hs => ?_,
    BinHeap.push_ordered (weak v q.offset) h.ahead hnew h.ordered⟩, Int.le_refl _, Int.le_refl _⟩
  rcases (BinHeap.mem_push Seg.less).mp hs with rfl | hs
  · exact hnew
  · exact h.ahead s hs

/-- The margin a window keeps to half the offset space. -/
def safetyMargin : Int := 1024 * 1024 * 16

theorem Fed.recvData (h : Fed v q) {p o : Int} {data : Bytes} (hd : At v p data) (ho : (o - p) % 2 ^ 32 = 0)
    (hnear : q.offset ≤ p + safetyMargin) (hshort : data.length < 4096) :
    (recvData q o data).2 = true ∧ Climbs v q (recvData q o data).1 := by
  have hle := hd.le
  have hlim := h.limit
  have hhigh := h.high
  have hbytes := h.bytes
  have hro : readerOffset q = q.offset - q.readyBytes := rfl
  unfold safetyMargin at hnear
  unfold maximumWindow at hhigh
  have hsound := classify_sound q data ho (by omega) (by omega)
  have hkeep : classify q o data ≠ .reject := by
    have hlt : Key.lt q.barrier (o + data.length) = false := by
      rw [Key.lt_def, decide_eq_false_iff_not]
      omega
    unfold classify
    dsimp only
    rw [hlt]
    simp only [Bool.false_eq_true, if_false]
    split
    · exact Take.noConfusion
    · split
      · split <;> exact Take.noConfusion
      · exact Take.noConfusion
  unfold InStreamQueue.recvData
  cases e : classify q o data with
  | reject => exact absurd e hkeep
  | drop => exact ⟨rfl, .refl h⟩
  | feed rest =>
    rw [e] at hsound
    obtain ⟨rfl, hc1, hc2⟩ := hsound
    have hcut := hd.drop (show (q.offset - p).toNat ≤ data.length by omega)
    rw [show p + ((q.offset - p).toNat : Int) = q.offset by omega] at hcut
    have hlen : (data.drop (q.offset - p).toNat).length = data.length - (q.offset - p).toNat := List.length_drop
    have hne : data.drop (q.offset - p).toNat ≠ [] := by
      intro e'
      rw [e'] at hlen
      simp at hlen
      omega
    exact ⟨rfl, h.feed hcut hne (by omega)⟩
  | queue =>
    rw [e] at hsound
    exact ⟨rfl, h.outOfOrder hd ho hsound (by omega) hshort⟩

theorem Fed.shutdown (h : Fed v q) (eof : Int) : Climbs v q (shutdown q eof) := by
  have hw := (h.toWindowed.shutdown eof).windowed
  obtain ⟨q2, l, -, e2, e⟩ := shutdown_cases q eof
  have ho := shutdown_offset q eof
  have hq : (InStreamQueue.shutdown q eof).queue = q.queue := by
    rw [e]
    split
    · rw [runReader_eq, e2]
      rfl
    · rw [e2]
      rfl
  have hb : (InStreamQueue.shutdown q eof).barrier = q.barrier := by
    rw [e]
    split
    · rw [runReader_eq, e2]
      rfl
    · rw [e2]
      rfl
  exact h.keep hw ho hq (Int.le_of_eq hb.symm)

/-- A DATA segment of the stream, at most a safety margin behind, is taken. -/
theorem Fed.recvDATA (h : Fed v q) {p o : Int} {data : Bytes} (hd : At v p data) (ho : (o - p) % 2 ^ 32 = 0)
    (hnear : q.offset ≤ p + safetyMargin) (hshort : data.length < 4096) (eof : Bool) (react : List Op) :
    (recvDATA q eof o data react).2 = true ∧ Climbs v q (recvDATA q eof o data react).1 := by
  obtain ⟨hok, hc⟩ := h.recvData hd ho hnear hshort
  have hx : Climbs v q (if feeds q o data then react.foldl InStreamQueue.exec (InStreamQueue.recvData q o data).1
      else (InStreamQueue.recvData q o data).1) := by
    split
    · exact hc.trans (hc.fed.exec_all react)
    · exact hc
  refine ⟨hok, ?_⟩
  unfold InStreamQueue.recvDATA
  dsimp only
  split
  · exact hx.trans (hx.fed.shutdown _)
  · exact hx

/-- The writer tells its reset. -/
theorem Fed.writerResets (h : Fed v q) : Climbs v q (InStreamQueue.reset { q with state := .amShutdown 0 }) := by
  have hw := h.toWindowed.recv (fun _ _ _ e => by cases e)
    (show recv q ⟨0, []⟩ .writerResets [] = .ok (InStreamQueue.reset { q with state := .amShutdown 0 }, 4) from rfl)
  obtain ⟨l, e⟩ := reset_cases { q with state := .amShutdown 0 }
  have hw' := hw.windowed
  rw [e] at hw' ⊢
  exact ⟨⟨hw', h.nonneg, h.le, h.limit, nofun, BinHeap.ordered_nil⟩, Int.le_refl _, Int.le_refl _⟩

/-! ## Announcing the barrier -/

theorem Fed.pull (h : Fed v q) {id seq : Nat} {p : Pulled} (hp : pull q id seq = .ok (p, q')) : Climbs v q q' := by
  have hw := (h.toWindowed.pull hp).windowed
  unfold InStreamQueue.pull at hp
  split at hp
  · cases hp
  · cases hp
    exact h.keep hw rfl rfl (Int.le_refl _)
  · cases hp
    exact h.keep hw rfl rfl (Int.le_refl _)

theorem Fed.ack (h : Fed v q) (a : Ack) (ok : Bool) : Climbs v q (ack q a ok) := by
  have hw := (h.toWindowed.ack a ok).windowed
  cases a with
  | reset => cases ok <;> exact h.keep hw rfl rfl (Int.le_refl _)
  | barrier o b l =>
    cases ok with
    | true =>
      simp only [InStreamQueue.ack] at hw ⊢
      obtain ⟨l', -, e⟩ := fireEvent_cases { q with
        barrier := Key.max (readerOffset q + newWindow o (readerOffset q)) q.barrier,
        window := newWindow o (readerOffset q) }
      rw [e] at hw ⊢
      refine h.keep hw rfl rfl ?_
      obtain ⟨hw1, hw2⟩ := newWindow_bounds o (readerOffset q)
      have hhigh := h.high
      have hlim := h.limit
      have hle := h.le
      have hbytes := h.bytes
      have hro : readerOffset q = q.offset - q.readyBytes := rfl
      show q.barrier ≤ Key.max (readerOffset q + newWindow o (readerOffset q)) q.barrier
      unfold maximumWindow minimumWindow at *
      rw [Key.max_eq (by omega) (by omega)]
      exact Int.le_max_right _ _
    | false =>
      simp only [InStreamQueue.ack] at hw ⊢
      split
      · exact .refl h
      · rename_i hne
        rw [if_neg hne] at hw
        obtain ⟨l', -, e⟩ := fireEvent_cases { q with lastBarrier := l }
        rw [e] at hw ⊢
        exact h.keep hw rfl rfl (Int.le_refl _)

end BubbleStorm.Cusp.Stream.InStreamQueue
