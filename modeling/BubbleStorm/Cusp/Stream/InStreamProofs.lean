/-
  BubbleStorm.Cusp.Stream.InStreamProofs — the receiving queue hands out a prefix of the
  stream (see `BubbleStorm.Cusp.Stream.InStreamQueue`).

  `Receives w q taken` is the invariant of a queue that is not reset and that receives
  pieces of the stream `w`: `taken` are the positions of the pieces `recvData` accepted.
  - `process_spec`: the out-of-order heap gives up what continues the stream.
  - `Receives.read`, `Receives.recvDATA`, `Receives.shutdown`: every call keeps it.
  - `Receives.all_taken`: when every position was taken, the offset is at the end.
-/

import BubbleStorm.Lib.Span
import BubbleStorm.Cusp.Stream.InStreamQueue

namespace BubbleStorm.Cusp.Stream.InStreamQueue

open Span

/-- What the readers were handed, in order. -/
def delivered (log : List Out) : Bytes :=
  log.flatMap fun
    | .reader _ (.data slice) => slice
    | _ => []

@[simp] theorem delivered_append (l l' : List Out) : delivered (l ++ l') = delivered l ++ delivered l' := by
  simp [delivered]

@[simp] theorem delivered_data (cb : Nat) (d : Bytes) : delivered [.reader cb (.data d)] = d := by simp [delivered]
@[simp] theorem delivered_shutdown (cb : Nat) : delivered [.reader cb .shutdown] = [] := rfl

/-- Log entries that are events only. -/
def Plain (l : List Out) : Prop := ∀ o ∈ l, ∃ e, o = .event e

theorem Plain.append {l l' : List Out} (h : Plain l) (h' : Plain l') : Plain (l ++ l') := fun o ho =>
  (List.mem_append.mp ho).elim (h o) (h' o)

theorem plain_event (e : Event) : Plain [.event e] := fun _ ho => ⟨e, List.mem_singleton.mp ho⟩

theorem Plain.delivered {l : List Out} (h : Plain l) : delivered l = [] := by
  simp only [InStreamQueue.delivered, List.flatMap_eq_nil_iff]
  intro o ho
  obtain ⟨e, rfl⟩ := h o ho
  rfl

theorem Plain.not_reader {l : List Out} (h : Plain l) (cb : Nat) (s : Status) : Out.reader cb s ∉ l := by
  intro hm
  obtain ⟨e, he⟩ := h _ hm
  cases he

/-! ## What each call does -/

/-- The queue after it ran the callbacks `l` and changed nothing else. -/
def T.ran (q : T) (l : List Out) : T := { q with log := q.log ++ l }

@[simp] theorem T.ran_nil (q : T) : q.ran [] = q := by unfold T.ran; rw [List.append_nil]
@[simp] theorem T.ran_ran (q : T) (l l' : List Out) : (q.ran l).ran l' = q.ran (l ++ l') := by
  simp only [T.ran, List.append_assoc]
@[simp] theorem T.ran_state (q : T) (l : List Out) : (q.ran l).state = q.state := rfl
@[simp] theorem T.ran_barrier (q : T) (l : List Out) : (q.ran l).barrier = q.barrier := rfl
@[simp] theorem T.ran_lastBarrier (q : T) (l : List Out) : (q.ran l).lastBarrier = q.lastBarrier := rfl
@[simp] theorem T.ran_window (q : T) (l : List Out) : (q.ran l).window = q.window := rfl
@[simp] theorem T.ran_queue (q : T) (l : List Out) : (q.ran l).queue = q.queue := rfl
@[simp] theorem T.ran_queuedBytes (q : T) (l : List Out) : (q.ran l).queuedBytes = q.queuedBytes := rfl
@[simp] theorem T.ran_ready (q : T) (l : List Out) : (q.ran l).ready = q.ready := rfl
@[simp] theorem T.ran_readyBytes (q : T) (l : List Out) : (q.ran l).readyBytes = q.readyBytes := rfl
@[simp] theorem T.ran_offset (q : T) (l : List Out) : (q.ran l).offset = q.offset := rfl
@[simp] theorem T.ran_reader (q : T) (l : List Out) : (q.ran l).reader = q.reader := rfl
@[simp] theorem T.ran_bufferSize (q : T) (l : List Out) : (q.ran l).bufferSize = q.bufferSize := rfl
@[simp] theorem T.ran_log (q : T) (l : List Out) : (q.ran l).log = q.log ++ l := rfl

theorem callback_eq (q : T) (e : Event) : callback q e = q.ran [.event e] := rfl

theorem runReader_eq (q : T) (cb : Option Nat) (s : Status) :
    runReader q cb s = q.ran (cb.map (Out.reader · s)).toList := by
  cases cb
  · exact q.ran_nil.symm
  · rfl

theorem fireEvent_cases (q : T) : ∃ l, Plain l ∧ fireEvent q = q.ran l := by
  unfold fireEvent
  split
  · split
    · exact ⟨_, plain_event _, callback_eq _ _⟩
    · exact ⟨[], nofun, q.ran_nil.symm⟩
  · exact ⟨[], nofun, q.ran_nil.symm⟩
  · exact ⟨_, plain_event _, callback_eq _ _⟩
  · exact ⟨_, plain_event _, callback_eq _ _⟩

/-! ## The out-of-order heap -/

/-- Where a heap entry lies, seen from `base`: the first position after it with the
    entry's residue. -/
def position (base : Int) (s : Seg) : Int := base + word32 (s.offset - base)

theorem position_emod (base : Int) (s : Seg) : (s.offset - position base s) % 2 ^ 32 = 0 := by
  unfold position word32; omega

theorem position_eq {base p : Int} {s : Seg} (h : (s.offset - p) % 2 ^ 32 = 0) (h1 : base ≤ p) (h2 : p < base + 2 ^ 32) :
    position base s = p := by
  unfold position word32; omega

def total (l : List Seg) : Int := (l.map fun s => (s.data.length : Int)).sum

/-- An entry is a piece of the stream `w` that starts after `base`. -/
structure Ahead (w : Bytes) (base : Int) (s : Seg) : Prop where
  lies : At w (position base s) s.data
  after : base < position base s
  within : position base s ≤ base + 2 ^ 31
  short : s.data.length < 4096

theorem Ahead.rebase {w : Bytes} {base base' : Int} {s : Seg} (h : Ahead w base s) (h1 : base ≤ base')
    (h2 : base' < position base s) : position base' s = position base s ∧ Ahead w base' s := by
  have hw := h.within
  have e : position base' s = position base s := position_eq (position_emod base s) (by omega) (by omega)
  exact ⟨e, by rw [e]; exact h.lies, by rw [e]; exact h2, by rw [e]; omega, h.short⟩

theorem weak (w : Bytes) (base : Int) : BinHeap.Weak Seg.less (Ahead w base) :=
  WrapOrder.weak_window (by decide) Seg.offset (position base) _ (fun s _ => position_emod base s)
    fun s t hs ht => by have := hs.within; have := ht.after; omega

theorem key_le {base cur : Int} {s : Seg} (h1 : cur - position base s < 2 ^ 31) (h2 : position base s - cur < 2 ^ 31) :
    Key.le s.offset cur = true ↔ position base s ≤ cur := by
  have e := position_emod base s
  simp only [Key.le, Key.lt_def, Bool.not_eq_true', decide_eq_false_iff_not]
  omega

/-- What popping everything at or before `cur` gives. -/
structure Processed (w : Bytes) (base cur ate : Int) (ready : List Bytes) (queue : List Seg)
    (r : Int × Int × List Bytes × List Seg) : Prop where
  added : ∃ d, At w cur d ∧ cur + d.length = r.1 ∧ r.2.2.1.flatten = ready.flatten ++ d
  ordered : BinHeap.Ordered Seg.less r.2.2.2
  left : ∀ s ∈ r.2.2.2, s ∈ queue ∧ r.1 < position base s
  gone : ∀ s ∈ queue, s ∈ r.2.2.2 ∨ position base s + s.data.length ≤ r.1
  ate : r.2.1 + total r.2.2.2 = ate + total queue

variable {w : Bytes} {base cur : Int}

@[simp] theorem total_cons (s : Seg) (l : List Seg) : total (s :: l) = s.data.length + total l := by simp [total]

theorem total_perm {l l' : List Seg} (h : l.Perm l') : total l = total l' := by
  induction h with
  | nil => rfl
  | cons s _ ih => rw [total_cons, total_cons, ih]
  | swap s t l => simp only [total_cons]; omega
  | trans _ _ ih ih' => exact ih.trans ih'

theorem Processed.le {ate : Int} {ready : List Bytes} {queue : List Seg} {r : Int × Int × List Bytes × List Seg}
    (h : Processed w base cur ate ready queue r) : cur ≤ r.1 := by
  obtain ⟨d, -, e, -⟩ := h.added
  omega

/-- Popping goes on after an entry that added `d`. -/
theorem Processed.pop {ate : Int} {ready : List Bytes} {queue rest : List Seg} {r : Int × Int × List Bytes × List Seg}
    {s : Seg} {cur' : Int} {ready' : List Bytes} (perm : queue.Perm (s :: rest))
    (h : Processed w base cur' (ate + s.data.length) ready' rest r) {d : Bytes} (hd : At w cur d)
    (hc : cur' = cur + d.length) (hr : ready'.flatten = ready.flatten ++ d)
    (hs : position base s + s.data.length ≤ cur') : Processed w base cur ate ready queue r where
  added := by
    obtain ⟨e, he, hl, hf⟩ := h.added
    refine ⟨d ++ e, hd.append (hc ▸ he), by rw [List.length_append]; omega, ?_⟩
    rw [hf, hr, List.append_assoc]
  ordered := h.ordered
  left t ht := ⟨perm.mem_iff.mpr (.tail _ (h.left t ht).1), (h.left t ht).2⟩
  gone t ht := by
    rcases List.mem_cons.mp (perm.mem_iff.mp ht) with rfl | ht
    · exact .inr (Int.le_trans hs h.le)
    · exact h.gone t ht
  ate := by
    rw [h.ate, total_perm perm, total_cons]; omega

/-- The top of the heap lies before the other entries. -/
theorem top_first {queue : List Seg} (h : ∀ s ∈ queue, Ahead w base s) (ho : BinHeap.Ordered Seg.less queue) {s t : Seg}
    (hs : queue.head? = some s) (ht : t ∈ queue) : position base s ≤ position base t := by
  have hmin := BinHeap.top_min (weak w base) h ho hs ht
  have h1 := h s (List.mem_of_mem_head? hs)
  have h2 := h t ht
  have e1 := position_emod base s
  have e2 := position_emod base t
  have := h1.after
  have := h1.within
  have := h2.after
  have := h2.within
  simp only [Seg.less, Key.lt_def, decide_eq_false_iff_not] at hmin
  omega

theorem process_spec (fuel : Nat) (ate : Int) (ready : List Bytes) {queue : List Seg}
    (h : ∀ s ∈ queue, Ahead w base s) (ho : BinHeap.Ordered Seg.less queue) (h0 : 0 ≤ base) (hb : base < cur)
    (hc : cur ≤ w.length) (hlag : ∀ s ∈ queue, cur - position base s < 4096) (hf : queue.length ≤ fuel) :
    Processed w base cur ate ready queue (process fuel cur ate ready queue) := by
  have stop : ∀ {cur ate ready queue}, base < cur → cur ≤ w.length → BinHeap.Ordered Seg.less queue →
      (∀ s ∈ queue, cur < position base s) → Processed w base cur ate ready queue (cur, ate, ready, queue) :=
    fun hb hc ho hq =>
      ⟨⟨[], at_nil (by omega) hc, by simp, by simp⟩, ho, fun s hs => ⟨hs, hq s hs⟩, fun s hs => .inl hs, rfl⟩
  induction fuel generalizing cur ate ready queue with
  | zero =>
    have hq := List.eq_nil_of_length_eq_zero (Nat.le_zero.mp hf)
    subst hq
    exact stop hb hc ho nofun
  | succ fuel ih =>
    have hle : ∀ s ∈ queue, Key.le s.offset cur = true ↔ position base s ≤ cur := fun s hs =>
      key_le (by have := hlag s hs; omega) (by have := (h s hs).within; omega)
    simp only [process]
    split
    · rename_i hnone
      refine stop hb hc ho fun s hs => ?_
      obtain ⟨t, ht⟩ : ∃ t, queue.head? = some t := by
        cases queue with
        | nil => cases hs
        | cons t _ => exact ⟨t, rfl⟩
      have hk := BinHeap.popIf_none _ hnone ht
      have h1 := top_first h ho ht hs
      have h2 : ¬ position base t ≤ cur := by rw [← hle t (List.mem_of_mem_head? ht), hk]; simp
      omega
    · rename_i s rest hpop
      obtain ⟨hk, hpop⟩ := BinHeap.popIf_some _ hpop
      have perm := BinHeap.pop_perm _ hpop
      have hhead := BinHeap.pop_head _ hpop
      have hs := perm.mem_iff.mpr (.head _)
      have hrest : ∀ t ∈ rest, t ∈ queue := fun t ht => perm.mem_iff.mpr (.tail _ ht)
      have ho' := BinHeap.pop_ordered (weak w base) h ho hpop
      have hlen : rest.length ≤ fuel := by
        have := perm.length_eq
        rw [List.length_cons] at this; omega
      have hpos := (hle s hs).mp hk
      have ha := h s hs
      have hshort := ha.short
      have hlies := ha.lies
      have hmod := position_emod base s
      have hl := hlag s hs
      split
      · -- the slice adds nothing
        rename_i hend
        have hend' : position base s + s.data.length ≤ cur := by
          simp only [Key.le, Key.lt_def, Bool.not_eq_true', decide_eq_false_iff_not] at hend
          omega
        have hp := ih (ate + s.data.length) ready (fun t ht => h t (hrest t ht)) ho' hb hc
          (fun t ht => hlag t (hrest t ht)) hlen
        exact hp.pop perm (at_nil (by omega) hc) (by simp) (by simp) hend'
      · -- the slice continues the stream past `cur`
        rename_i hend
        have hend' : cur < position base s + s.data.length := by
          simp only [Key.le, Key.lt_def, Bool.not_eq_true, Bool.not_eq_false', decide_eq_true_eq] at hend
          omega
        have htrim : word32 (cur - s.offset) = cur - position base s := by unfold word32; omega
        have hadd : cur + word32 (s.offset + s.data.length - cur) = position base s + s.data.length := by
          unfold word32; omega
        have hcut := hlies.drop (show (cur - position base s).toNat ≤ s.data.length by omega)
        have hstart : position base s + ((cur - position base s).toNat : Int) = cur := by omega
        rw [hstart] at hcut
        rw [htrim, hadd]
        have hp := ih (ate + s.data.length) (ready ++ [s.data.drop (cur - position base s).toNat])
          (fun t ht => h t (hrest t ht)) ho' (by omega) hlies.le
          (fun t ht => by have := top_first h ho hhead (hrest t ht); omega) hlen
        exact hp.pop perm hcut (by rw [List.length_drop]; omega) (by simp) (Int.le_refl _)

/-! ## The invariant of a queue that is not reset -/

/-- The end of the stream is only told to a reader that has been handed all of it. -/
def Closed (w : Bytes) (q : T) : Prop :=
  ∀ pre cb post, q.log = pre ++ .reader cb .shutdown :: post → delivered pre = w ∧ ∃ eof, q.state = .amShutdown eof

structure Receives (w : Bytes) (q : T) (taken : Int → Prop) : Prop where
  live : isReset q = false
  nonneg : 0 ≤ q.offset
  le : q.offset ≤ w.length
  handed : delivered q.log ++ q.ready.flatten = w.take q.offset.toNat
  readyBytes : q.readyBytes = q.ready.flatten.length
  /-- A reader only waits while nothing is ready. -/
  idle : q.bufferSize ≠ noBuffer → q.ready = [] ∧ -1 ≤ q.bufferSize ∧ ∃ cb, q.reader = some cb
  ahead : ∀ s ∈ q.queue, Ahead w q.offset s
  ordered : BinHeap.Ordered Seg.less q.queue
  complete : ∀ p, taken p → p < q.offset ∨
    ∃ s ∈ q.queue, position q.offset s ≤ p ∧ p < position q.offset s + s.data.length
  ends : ∀ eof, q.state = .amShutdown eof → word32 eof = word32 w.length ∧ (w.length : Int) < q.offset + 2 ^ 32
  closed : Closed w q

theorem receives_new (id : Nat) : Receives [] (new id) fun _ => False where
  live := rfl
  nonneg := Int.le_refl 0
  le := Int.le_refl 0
  handed := rfl
  readyBytes := rfl
  idle h := absurd rfl h
  ahead := nofun
  ordered := BinHeap.ordered_nil
  complete := nofun
  ends := nofun
  closed pre cb post h := by
    have := congrArg List.length h
    simp [new] at this

variable {q q' : T} {taken taken' : Int → Prop}

theorem Closed.append {l : List Out} (h : Closed w q) (hs : q'.state = q.state) (hq : q'.log = q.log ++ l)
    (hl : ∀ cb, Out.reader cb .shutdown ∉ l) : Closed w q' := by
  intro pre cb post e
  rw [hq] at e
  rcases List.append_eq_append_iff.mp e with ⟨m, rfl, e'⟩ | ⟨m, e', e''⟩
  · exact absurd (e' ▸ List.mem_append_right m (.head _)) (hl cb)
  · cases m with
    | nil =>
      rw [List.nil_append] at e''
      exact absurd (e'' ▸ List.mem_cons_self) (hl cb)
    | cons o m =>
      cases e''
      rw [hs]
      exact h pre cb m e'

/-- What a queue does with events alone. -/
theorem Receives.ran (h : Receives w q taken) {l : List Out} (hl : Plain l) : Receives w (q.ran l) taken where
  live := h.live
  nonneg := h.nonneg
  le := h.le
  handed := by
    rw [T.ran_log, delivered_append, hl.delivered, List.append_nil]
    exact h.handed
  readyBytes := h.readyBytes
  idle := h.idle
  ahead := h.ahead
  ordered := h.ordered
  complete := h.complete
  ends := h.ends
  closed := h.closed.append rfl rfl fun cb => hl.not_reader cb .shutdown

theorem Receives.fireEvent (h : Receives w q taken) : Receives w (fireEvent q) taken := by
  obtain ⟨l, hl, e⟩ := fireEvent_cases q
  rw [e]; exact h.ran hl

/-- Positions that lie before the offset are taken. -/
theorem Receives.weaken (h : Receives w q taken) (ht : ∀ p, taken' p → taken p ∨ p < q.offset) : Receives w q taken' :=
  { h with
    complete := fun p hp => by
      rcases ht p hp with hp | hp
      · exact h.complete p hp
      · exact .inl hp }

/-- The end the queue was told is where the stream ends. -/
theorem Receives.at_end (h : Receives w q taken) {eof : Int} (hs : q.state = .amShutdown eof)
    (he : endsAt eof q.offset = true) : q.offset = w.length := by
  obtain ⟨h1, h2⟩ := h.ends eof hs
  have h3 := h.le
  simp only [endsAt, decide_eq_true_eq] at he
  unfold word32 at h1 he
  omega

/-- The reader is told of the end when it has been handed everything. -/
theorem Receives.tell_end (h : Receives w q taken) {eof : Int} (hs : q.state = .amShutdown eof)
    (he : endsAt eof q.offset = true) (hr : q.ready = []) (cb : Nat) :
    Receives w (q.ran [.reader cb .shutdown]) taken := by
  have hd : delivered q.log = w := by
    have := h.handed
    rw [hr, List.flatten_nil, List.append_nil, h.at_end hs he] at this
    simpa using this
  refine { h with handed := ?_, closed := ?_ }
  · rw [T.ran_log, delivered_append, delivered_shutdown, List.append_nil]
    exact h.handed
  · intro pre cb' post e
    rw [T.ran_log] at e
    rcases List.append_eq_append_iff.mp e with ⟨m, rfl, e'⟩ | ⟨m, e', e''⟩
    · cases m with
      | nil => exact ⟨by rw [List.append_nil]; exact hd, eof, hs⟩
      | cons o m =>
        have := congrArg List.length e'
        simp at this
    · cases m with
      | nil => rw [List.append_nil] at e'; exact ⟨by rw [← e']; exact hd, eof, hs⟩
      | cons o m =>
        cases e''
        exact h.closed pre cb' m e'

/-! ## Reading -/

/-- What `read` changes besides the log. -/
def T.advanced (q : T) (ready : List Bytes) (n : Int) (reader : Option Nat) (m : Int) : T :=
  { q with ready := ready, readyBytes := q.readyBytes - m, bytesReceived := q.bytesReceived + m, reader := reader,
           barrier := Key.max q.barrier (q.offset - (q.readyBytes - m) + q.window), bufferSize := n }

theorem finishRead_cases (q : T) (ready : List Bytes) (n : Int) (reader : Option Nat) (m : Int) :
    ∃ l, Plain l ∧ finishRead q ready n reader m = (q.advanced ready n reader m).ran l := by
  obtain ⟨l, hl, e⟩ := fireEvent_cases ((q.advanced ready n reader m).ran [.event (.unreadBytes (-m))])
  exact ⟨_, (plain_event _).append hl, e.trans (T.ran_ran _ _ _)⟩

/-- What `read` does. -/
inductive Reads (q : T) (n : Int) (cb : Nat) : T → Prop where
  | reset (h : isReset q = true) : Reads q n cb (runReader q (some cb) .reset)
  | wait (h : isReset q = false) (hr : q.ready = []) (hn : -1 ≤ n) : Reads q n cb (finishRead q [] n (some cb) 0)
  | atEnd (h : isReset q = false) (hr : q.ready = []) (he : atEOF q = true) :
      Reads q n cb (runReader (finishRead (callback q .becameComplete) [] noBuffer none 0) (some cb) .shutdown)
  | hand {ready : List Bytes} {report : Bytes} (h : isReset q = false) (hr : q.ready.flatten = report ++ ready.flatten)
      (hs : ∀ d ∈ report :: ready, ∃ d' ∈ q.ready, d.length ≤ d'.length) :
      Reads q n cb (runReader (finishRead q ready noBuffer none report.length) (some cb) (.data report))

theorem read_reads {n : Int} {cb : Nat} (h : read q n cb = .ok q') : Reads q n cb q' := by
  unfold read at h
  split at h
  · rename_i hr
    cases h
    exact .reset hr
  rename_i hr
  rw [Bool.not_eq_true] at hr
  split at h
  · cases h
  split at h
  · cases h
  rename_i hn
  split at h
  · rename_i hready
    split at h
    · rename_i heof
      cases h
      exact .atEnd hr hready heof
    · cases h
      exact .wait hr hready (by omega)
  · rename_i slice ready hready
    split at h
    · cases h
      refine .hand hr (by rw [hready, List.flatten_cons]) fun d hd => ⟨d, ?_, Nat.le_refl _⟩
      rw [hready]
      exact hd
    · cases h
      refine .hand hr ?_ fun d hd => ?_
      · rw [hready, List.flatten_cons, List.flatten_cons, ← List.append_assoc, List.take_append_drop]
      · -- the slice is cut in two, and the others stay
        rw [hready]
        rcases List.mem_cons.mp hd with rfl | hd
        · exact ⟨slice, .head _, List.length_take_le' _ _⟩
        rcases List.mem_cons.mp hd with rfl | hd
        · exact ⟨slice, .head _, by rw [List.length_drop]; omega⟩
        · exact ⟨d, .tail _ hd, Nat.le_refl _⟩

/-- A reader that waits, or is told of the end. -/
theorem Receives.advanced (h : Receives w q taken) (hr : q.ready = []) (n : Int) (reader : Option Nat)
    (hi : n ≠ noBuffer → -1 ≤ n ∧ ∃ cb, reader = some cb) : Receives w (q.advanced [] n reader 0) taken :=
  { h with
    handed := hr ▸ h.handed
    readyBytes := by
      have := h.readyBytes
      rw [hr] at this
      show q.readyBytes - 0 = _
      rw [Int.sub_zero]; exact this
    idle := fun hn => ⟨rfl, hi hn⟩
    closed := fun pre cb post e => h.closed pre cb post e }

/-- Handing out `report`, the front of what is ready. -/
theorem Receives.hand (h : Receives w q taken) {ready : List Bytes} {report : Bytes}
    (hr : q.ready.flatten = report ++ ready.flatten) {l : List Out} (hl : Plain l) (cb : Nat) :
    Receives w (((q.advanced ready noBuffer none report.length).ran l).ran [.reader cb (.data report)]) taken := by
  rw [T.ran_ran]
  refine { h with handed := ?_, readyBytes := ?_, idle := fun hn => absurd rfl hn, closed := ?_ }
  · show delivered (q.log ++ (l ++ [.reader cb (.data report)])) ++ ready.flatten = _
    rw [delivered_append, delivered_append, hl.delivered, delivered_data, List.nil_append, List.append_assoc, ← hr]
    exact h.handed
  · have := h.readyBytes
    rw [hr, List.length_append] at this
    show q.readyBytes - report.length = ready.flatten.length
    omega
  · refine h.closed.append rfl rfl fun cb' hm => ?_
    rcases List.mem_append.mp hm with hm | hm
    · exact hl.not_reader _ _ hm
    · simp at hm

theorem Receives.read (h : Receives w q taken) {n : Int} {cb : Nat} (hread : read q n cb = .ok q') :
    Receives w q' taken := by
  cases read_reads hread with
  | reset hr => exact absurd hr (by simp [h.live])
  | wait hr hready hn =>
    obtain ⟨l, hl, e⟩ := finishRead_cases q [] n (some cb) 0
    rw [e]
    exact (h.advanced hready n (some cb) fun _ => ⟨hn, cb, rfl⟩).ran hl
  | atEnd hr hready heof =>
    obtain ⟨l, hl, e⟩ := finishRead_cases (callback q .becameComplete) [] noBuffer none 0
    rw [e, runReader_eq]
    have h1 := ((h.ran (plain_event .becameComplete)).advanced hready noBuffer none
      fun hn => absurd rfl hn).ran hl
    cases hs : q.state with
    | amShutdown eof =>
      simp only [atEOF, hs] at heof
      exact h1.tell_end hs heof rfl cb
    | amConnected => simp [atEOF, hs] at heof
    | amReset => simp [atEOF, hs] at heof
    | amResetDown => simp [atEOF, hs] at heof
  | hand hr hready =>
    obtain ⟨l, hl, e⟩ := finishRead_cases q _ noBuffer none _
    rw [e, runReader_eq]
    exact h.hand hready hl cb

theorem Receives.exec (h : Receives w q taken) {op : Op} (hop : op ≠ .reset) : Receives w (exec q op) taken := by
  cases op with
  | read n cb =>
    simp only [InStreamQueue.exec]
    split
    · rename_i hq; exact h.read hq
    · exact h
  | reset => exact absurd rfl hop

theorem Receives.exec_all (h : Receives w q taken) {ops : List Op} (hops : Op.reset ∉ ops) :
    Receives w (ops.foldl InStreamQueue.exec q) taken := by
  induction ops generalizing q with
  | nil => exact h
  | cons op ops ih =>
    rw [List.mem_cons, not_or] at hops
    exact ih (h.exec fun e => hops.1 e.symm) hops.2

/-! ## Receiving -/

/-- What `transferQueue` changes besides the log, `r` being what `process` gave. -/
def T.transferred (q : T) (recvd : Int) (r : Int × Int × List Bytes × List Seg) : T :=
  let readyBytes := q.readyBytes + (r.1 - (q.offset + recvd))
  { q with queue := r.2.2.2, queuedBytes := q.queuedBytes - r.2.1, ready := r.2.2.1, readyBytes := readyBytes,
           barrier := Key.max q.barrier (r.1 - readyBytes + q.window), bytesReceived := q.bytesReceived + recvd,
           reader := none, bufferSize := noBuffer, offset := r.1 }

theorem transferQueue_cases (hlive : isReset q = false) (tail : Option Bytes) (recvd : Int) (hook : Option (Nat × Bytes)) :
    ∃ l, Plain l ∧ transferQueue q tail recvd hook =
      ((q.transferred recvd (process q.queue.length (q.offset + recvd + (tail.getD []).length) 0
        (q.ready ++ tail.toList) q.queue)).ran l).ran (hook.map fun p => Out.reader p.1 (.data p.2)).toList := by
  unfold transferQueue
  simp only [hlive, Bool.false_eq_true, if_false]
  generalize process q.queue.length (q.offset + recvd + (tail.getD []).length) 0 (q.ready ++ tail.toList) q.queue = r
  obtain ⟨l, hl, e⟩ := fireEvent_cases (callback (callback (q.transferred recvd r) (.outOfOrderBytes (-r.2.1)))
    (.unreadBytes (r.1 - (q.offset + recvd))))
  refine ⟨[.event (.outOfOrderBytes (-r.2.1))] ++ [.event (.unreadBytes (r.1 - (q.offset + recvd)))] ++ l,
    ((plain_event _).append (plain_event _)).append hl, ?_⟩
  have e' : fireEvent (callback (callback (q.transferred recvd r) (.outOfOrderBytes (-r.2.1)))
      (.unreadBytes (r.1 - (q.offset + recvd)))) = (q.transferred recvd r).ran
        ([.event (.outOfOrderBytes (-r.2.1))] ++ [.event (.unreadBytes (r.1 - (q.offset + recvd)))] ++ l) := by
    rw [e, callback_eq, callback_eq, T.ran_ran, T.ran_ran, List.append_assoc]
  cases hook with
  | none => exact e'.trans (T.ran_nil _).symm
  | some p => exact congrArg (fun q => runReader q (some p.1) (.data p.2)) e'

/-- New bytes at the offset: `report` goes to the waiting reader, the rest is kept. -/
theorem Receives.transfer (h : Receives w q taken) (report : Bytes) (tail : Option Bytes) (hook : Option (Nat × Bytes))
    (hd : At w q.offset (report ++ tail.getD [])) (hne : report ++ tail.getD [] ≠ [])
    (hshort : (report ++ tail.getD []).length < 4096)
    (hh : hook = none ∧ report = [] ∨ ∃ cb, hook = some (cb, report) ∧ q.ready = []) :
    Receives w (transferQueue q tail report.length hook)
      fun p => taken p ∨ (p < q.offset + (report ++ tail.getD []).length) := by
  obtain ⟨l, hl, e⟩ := transferQueue_cases h.live tail report.length hook
  have hpos := List.length_pos_of_ne_nil hne
  rw [List.length_append] at hpos hshort
  have hdl := hd.le
  rw [List.length_append] at hdl
  have hp := process_spec q.queue.length 0 (q.ready ++ tail.toList) h.ahead h.ordered h.nonneg
    (show q.offset < q.offset + report.length + (tail.getD []).length by omega) (by omega)
    (fun s hs => by have := (h.ahead s hs).after; omega) (Nat.le_refl _)
  rw [e]
  generalize process q.queue.length (q.offset + report.length + (tail.getD []).length) 0 (q.ready ++ tail.toList)
    q.queue = r at hp ⊢
  obtain ⟨d, hat, hlen, hready⟩ := hp.added
  have htail : tail.toList.flatten = tail.getD [] := by cases tail <;> simp
  rw [List.flatten_append, htail] at hready
  have hall : At w q.offset (report ++ tail.getD [] ++ d) := by
    refine hd.append ?_
    rw [List.length_append]
    have : q.offset + ((report.length + (tail.getD []).length : Nat) : Int) =
      q.offset + report.length + (tail.getD []).length := by omega
    rw [this]; exact hat
  have htake := hall.take_add
  have hend : q.offset + ((report ++ tail.getD [] ++ d).length : Int) = r.1 := by
    simp only [List.length_append]; omega
  rw [hend] at htake
  refine ⟨h.live, ?_, ?_, ?_, ?_, fun hn => absurd rfl hn, ?_, hp.ordered, ?_, ?_, ?_⟩
  · have := h.nonneg
    show 0 ≤ r.1
    omega
  · show r.1 ≤ w.length
    have := hall.le
    omega
  · show delivered (q.log ++ l ++ _) ++ r.2.2.1.flatten = w.take r.1.toNat
    rw [htake, ← h.handed, hready, delivered_append, delivered_append, hl.delivered, List.append_nil]
    rcases hh with ⟨rfl, rfl⟩ | ⟨cb, rfl, hr⟩
    · simp [delivered]
    · simp [hr]
  · show q.readyBytes + (r.1 - (q.offset + report.length)) = r.2.2.1.flatten.length
    rw [h.readyBytes, hready]
    simp only [List.length_append]; omega
  · intro s hs
    obtain ⟨hm, hlt⟩ := hp.left s hs
    exact ((h.ahead s hm).rebase (by have := hp.le; omega) hlt).2
  · intro p ht
    have := hp.le
    show p < r.1 ∨ ∃ s ∈ r.2.2.2, position r.1 s ≤ p ∧ p < position r.1 s + s.data.length
    rcases ht with ht | ht
    · rcases h.complete p ht with ht | ⟨s, hs, h1, h2⟩
      · exact .inl (by omega)
      · rcases hp.gone s hs with hm | hle
        · have := ((h.ahead s hs).rebase (by omega) (hp.left s hm).2).1
          exact .inr ⟨s, hm, by omega, by omega⟩
        · exact .inl (by omega)
    · rw [List.length_append] at ht
      exact .inl (by omega)
  · intro eof hs
    obtain ⟨h1, h2⟩ := h.ends eof hs
    have := hp.le
    exact ⟨h1, show (w.length : Int) < r.1 + 2 ^ 32 by omega⟩
  · refine h.closed.append rfl (List.append_assoc _ _ _) fun cb hm => ?_
    rcases List.mem_append.mp hm with hm | hm
    · exact hl.not_reader _ _ hm
    · cases hook <;> simp at hm

theorem Receives.feed (h : Receives w q taken) {data : Bytes} (hd : At w q.offset data) (hne : data ≠ [])
    (hshort : data.length < 4096) :
    Receives w (feedReader q data) fun p => taken p ∨ p < q.offset + data.length := by
  unfold feedReader
  split
  · exact h.transfer [] (some data) none hd hne hshort (.inl ⟨rfl, rfl⟩)
  · rename_i hb
    obtain ⟨hr, -, cb, hcb⟩ := h.idle hb
    simp only [hcb, Option.map_some]
    split
    · have e : data ++ (none : Option Bytes).getD [] = data := List.append_nil data
      have := h.transfer data none (some (cb, data)) (by rw [e]; exact hd)
        (by rw [e]; exact hne) (by rw [e]; exact hshort) (.inr ⟨cb, rfl, hr⟩)
      rwa [e] at this
    · have e : data.take q.bufferSize.toNat ++ (some (data.drop q.bufferSize.toNat)).getD [] = data :=
        List.take_append_drop _ _
      have := h.transfer (data.take q.bufferSize.toNat) (some (data.drop q.bufferSize.toNat))
        (some (cb, data.take q.bufferSize.toNat)) (by rw [e]; exact hd) (by rw [e]; exact hne)
        (by rw [e]; exact hshort) (.inr ⟨cb, rfl, hr⟩)
      rwa [e] at this

theorem transferQueue_frame (hlive : isReset q = false) (tail : Option Bytes) (recvd : Int)
    (hook : Option (Nat × Bytes)) : (transferQueue q tail recvd hook).state = q.state := by
  obtain ⟨l, -, e⟩ := transferQueue_cases hlive tail recvd hook
  rw [e]; rfl

theorem feedReader_state (hlive : isReset q = false) (data : Bytes) : (feedReader q data).state = q.state := by
  unfold feedReader
  split
  · exact transferQueue_frame hlive _ _ _
  · split
    · exact transferQueue_frame hlive _ _ _
    · exact transferQueue_frame hlive _ _ _

/-- A piece that lies past the offset waits in the heap. -/
theorem Receives.outOfOrder (h : Receives w q taken) {p o : Int} {data : Bytes} (hd : At w p data)
    (ho : (o - p) % 2 ^ 32 = 0) (h1 : q.offset < p) (h2 : p ≤ q.offset + 2 ^ 31) (hshort : data.length < 4096) :
    Receives w (outOfOrder q o data) fun x => taken x ∨ p ≤ x ∧ x < p + data.length := by
  have e : position q.offset ⟨o, data⟩ = p := position_eq ho (by omega) (by omega)
  have hnew : Ahead w q.offset ⟨o, data⟩ := ⟨by rw [e]; exact hd, by rw [e]; exact h1, by rw [e]; exact h2, hshort⟩
  have hmem : ∀ s, s ∈ BinHeap.push Seg.less q.queue ⟨o, data⟩ ↔ s = ⟨o, data⟩ ∨ s ∈ q.queue := fun s =>
    BinHeap.mem_push Seg.less
  refine { h with ahead := ?_, ordered := BinHeap.push_ordered (weak w q.offset) h.ahead hnew h.ordered,
                  complete := ?_, handed := ?_, closed := ?_ }
  · exact (h.ran (plain_event (.outOfOrderBytes data.length))).handed
  · intro s hs
    rcases (hmem s).mp hs with rfl | hs
    · exact hnew
    · exact h.ahead s hs
  · intro x hx
    rcases hx with hx | ⟨hx1, hx2⟩
    · rcases h.complete x hx with hx | ⟨s, hs, hc⟩
      · exact .inl hx
      · exact .inr ⟨s, (hmem s).mpr (.inr hs), hc⟩
    · refine .inr ⟨_, (hmem _).mpr (.inl rfl), ?_⟩
      rw [show (InStreamQueue.outOfOrder q o data).offset = q.offset from rfl, e]
      exact ⟨hx1, hx2⟩
  · exact (h.ran (plain_event (.outOfOrderBytes data.length))).closed

theorem isReset_stateTransition (q : T) (eof : Int) :
    isReset { q with state := stateTransition eof q.state } = isReset q := by
  cases hs : q.state <;> simp [isReset, stateTransition, hs]

theorem shutdown_cases (q : T) (eof : Int) :
    ∃ q2 l, Plain l ∧ q2 = { q with state := stateTransition eof q.state }.ran l ∧ shutdown q eof =
      if endsAt eof q2.offset && q2.ready.isEmpty && q2.bufferSize ≠ noBuffer then
        runReader { callback q2 .becameComplete with reader := none, bufferSize := noBuffer } q2.reader .shutdown
      else q2 := by
  have hq : ∃ l, Plain l ∧ (if q.state = .amConnected then callback q (.rts .negInf) else q) = q.ran l := by
    split
    · exact ⟨_, plain_event _, rfl⟩
    · exact ⟨[], nofun, q.ran_nil.symm⟩
  obtain ⟨l, hl, e⟩ := hq
  obtain ⟨l', hl', e'⟩ := fireEvent_cases ({ q with state := stateTransition eof q.state }.ran l)
  refine ⟨_, l ++ l', hl.append hl', e'.trans (T.ran_ran _ _ _), ?_⟩
  unfold shutdown
  rw [e]
  rfl

theorem Receives.shutdown (h : Receives w q taken) {eof : Int} (he : word32 eof = word32 w.length)
    (hn : (w.length : Int) < q.offset + 2 ^ 32) : Receives w (shutdown q eof) taken := by
  obtain ⟨q2, l, hl, e2, e⟩ := shutdown_cases q eof
  -- the state that is left tells the same end
  have hstate : ∃ eof', stateTransition eof q.state = .amShutdown eof' ∧ word32 eof' = word32 w.length := by
    have := h.live
    cases hs : q.state with
    | amConnected => exact ⟨eof, rfl, he⟩
    | amShutdown eof' => exact ⟨eof', rfl, (h.ends eof' hs).1⟩
    | amReset => simp [isReset, hs] at this
    | amResetDown => simp [isReset, hs] at this
  obtain ⟨eof', hs', he'⟩ := hstate
  have h1 : Receives w { q with state := stateTransition eof q.state } taken := by
    refine { h with live := ?_, ends := ?_, closed := ?_ }
    · simp [isReset, hs']
    · intro e'' hs''
      simp only [hs', State.amShutdown.injEq] at hs''
      subst hs''
      exact ⟨he', hn⟩
    · intro pre cb post hlog
      exact ⟨(h.closed pre cb post hlog).1, eof', hs'⟩
  have h2 : Receives w q2 taken := by rw [e2]; exact h1.ran hl
  have hst : q2.state = .amShutdown eof' := by rw [e2]; exact hs'
  rw [e]
  split
  · rename_i hc
    simp only [Bool.and_eq_true, List.isEmpty_iff, decide_eq_true_eq] at hc
    obtain ⟨⟨hc1, hc2⟩, hc3⟩ := hc
    obtain ⟨-, -, cb, hcb⟩ := h2.idle hc3
    rw [hcb]
    have hend : endsAt eof' q2.offset = true := by
      simp only [endsAt, decide_eq_true_eq] at hc1 ⊢
      rw [he', ← he, hc1]
    have h3 : Receives w { callback q2 .becameComplete with reader := none, bufferSize := noBuffer } taken :=
      { h2.ran (plain_event .becameComplete) with
        idle := fun hn => absurd rfl hn
        closed := fun pre cb post e => (h2.ran (plain_event .becameComplete)).closed pre cb post e }
    exact h3.tell_end hst hend hc2 cb
  · exact h2

theorem shutdown_offset (q : T) (eof : Int) : (shutdown q eof).offset = q.offset := by
  obtain ⟨q2, l, -, e2, e⟩ := shutdown_cases q eof
  rw [e]
  split
  · rw [runReader_eq, e2]; rfl
  · rw [e2]; rfl

theorem process_le (fuel : Nat) (cur ate : Int) (ready : List Bytes) (queue : List Seg) :
    cur ≤ (process fuel cur ate ready queue).1 := by
  induction fuel generalizing cur ate ready queue with
  | zero => exact Int.le_refl _
  | succ fuel ih =>
    simp only [process]
    split
    · exact Int.le_refl _
    · split
      · exact ih _ _ _ _
      · refine Int.le_trans ?_ (ih _ _ _ _)
        unfold word32; omega

theorem transferQueue_offset (hlive : isReset q = false) (tail : Option Bytes) (n : Nat)
    (hook : Option (Nat × Bytes)) : q.offset ≤ (transferQueue q tail n hook).offset := by
  obtain ⟨l, -, e⟩ := transferQueue_cases hlive tail n hook
  rw [e]
  exact Int.le_trans (by omega) (process_le q.queue.length (q.offset + n + (tail.getD []).length) 0 _ q.queue)

theorem feedReader_offset (hlive : isReset q = false) (data : Bytes) : q.offset ≤ (feedReader q data).offset := by
  unfold feedReader
  split
  · exact transferQueue_offset hlive _ 0 _
  · split
    · exact transferQueue_offset hlive _ _ _
    · exact transferQueue_offset hlive _ _ _

/-- The positions an accepted piece adds. -/
def takes (taken : Int → Prop) (ok : Bool) (p : Int) (data : Bytes) : Int → Prop :=
  fun x => taken x ∨ ok = true ∧ p ≤ x ∧ x < p + data.length

/-- What the classification says about a piece at position `p`. -/
def Take.Sound (q : T) (p : Int) (data : Bytes) : Take → Prop
  | .reject => True
  | .drop => p + data.length ≤ q.offset ∨ data = []
  | .feed rest => rest = data.drop (q.offset - p).toNat ∧ p ≤ q.offset ∧ q.offset < p + data.length
  | .queue => q.offset < p

theorem classify_sound (q : T) {p o : Int} (data : Bytes) (ho : (o - p) % 2 ^ 32 = 0) (h1 : p ≤ q.offset + 2 ^ 31)
    (h2 : q.offset < p + 2 ^ 31) : (classify q o data).Sound q p data := by
  unfold classify
  simp only
  split
  · trivial
  split
  · rename_i hlen
    exact .inr (List.eq_nil_of_length_eq_zero hlen)
  split
  · rename_i hlt
    have e : word32 (q.offset - o) = q.offset - p := by unfold word32 at hlt ⊢; omega
    rw [e] at hlt ⊢
    have hle : p ≤ q.offset := by unfold word32 at e; omega
    split
    · rename_i hlen
      exact .inl (by omega)
    · exact ⟨rfl, hle, by omega⟩
  · rename_i hge
    show q.offset < p
    unfold word32 at hge; omega

theorem Receives.recvData (h : Receives w q taken) {p o : Int} {data : Bytes} (hd : At w p data)
    (ho : (o - p) % 2 ^ 32 = 0) (h1 : p ≤ q.offset + 2 ^ 31) (h2 : q.offset < p + 2 ^ 31) (hshort : data.length < 4096) :
    Receives w (recvData q o data).1 (takes taken (recvData q o data).2 p data) ∧
      q.offset ≤ (recvData q o data).1.offset ∧ (recvData q o data).1.state = q.state := by
  have hc := classify_sound q data ho h1 h2
  unfold InStreamQueue.recvData
  cases e : classify q o data with
  | reject =>
    refine ⟨h.weaken fun x hx => ?_, Int.le_refl _, rfl⟩
    rcases hx with hx | ⟨hx, -⟩
    · exact .inl hx
    · cases hx
  | drop =>
    rw [e] at hc
    refine ⟨h.weaken fun x hx => ?_, Int.le_refl _, rfl⟩
    rcases hx with hx | ⟨-, hx1, hx2⟩
    · exact .inl hx
    · rcases hc with hc | rfl
      · exact .inr (by omega)
      · simp at hx2; omega
  | feed rest =>
    rw [e] at hc
    obtain ⟨rfl, hc1, hc2⟩ := hc
    have hcut := hd.drop (show (q.offset - p).toNat ≤ data.length by omega)
    rw [show p + ((q.offset - p).toNat : Int) = q.offset by omega] at hcut
    have hlen : (data.drop (q.offset - p).toNat).length = data.length - (q.offset - p).toNat := List.length_drop
    have hne : data.drop (q.offset - p).toNat ≠ [] := by
      intro e'
      rw [e'] at hlen
      simp at hlen; omega
    refine ⟨(h.feed hcut hne (by omega)).weaken fun x hx => ?_, feedReader_offset h.live _, feedReader_state h.live _⟩
    rcases hx with hx | ⟨-, hx1, hx2⟩
    · exact .inl (.inl hx)
    · exact .inl (.inr (by omega))
  | queue =>
    rw [e] at hc
    have hgt : q.offset < p := hc
    refine ⟨(h.outOfOrder hd ho hgt (by omega) hshort).weaken fun x hx => ?_, Int.le_refl _, rfl⟩
    rcases hx with hx | ⟨-, hx⟩
    · exact .inl (.inl hx)
    · exact .inl (.inr hx)

theorem read_frame {n : Int} {cb : Nat} (h : read q n cb = .ok q') : q'.offset = q.offset ∧ q'.state = q.state := by
  have hf : ∀ (q : T) ready n reader m, (finishRead q ready n reader m).offset = q.offset ∧
      (finishRead q ready n reader m).state = q.state := by
    intro q ready n reader m
    obtain ⟨l, -, e⟩ := finishRead_cases q ready n reader m
    rw [e]; exact ⟨rfl, rfl⟩
  cases read_reads h with
  | reset => exact ⟨rfl, rfl⟩
  | wait => exact hf _ _ _ _ _
  | atEnd => exact hf _ _ _ _ _
  | hand => exact hf _ _ _ _ _

theorem exec_frame (q : T) {op : Op} (hop : op ≠ .reset) :
    (exec q op).offset = q.offset ∧ (exec q op).state = q.state := by
  cases op with
  | read n cb =>
    simp only [exec]
    split
    · rename_i h; exact read_frame h
    · exact ⟨rfl, rfl⟩
  | reset => exact absurd rfl hop

theorem exec_all_frame (q : T) {ops : List Op} (hops : Op.reset ∉ ops) :
    (ops.foldl exec q).offset = q.offset ∧ (ops.foldl exec q).state = q.state := by
  induction ops generalizing q with
  | nil => exact ⟨rfl, rfl⟩
  | cons op ops ih =>
    rw [List.mem_cons, not_or] at hops
    obtain ⟨h1, h2⟩ := ih (exec q op) hops.2
    obtain ⟨h3, h4⟩ := exec_frame q fun e => hops.1 e.symm
    exact ⟨h1.trans h3, h2.trans h4⟩

/-- A DATA segment of the stream `w` arrives; if it carries the end, it ends where `w`
    does. -/
theorem Receives.recvDATA (h : Receives w q taken) {p o : Int} {data : Bytes} (hd : At w p data)
    (ho : (o - p) % 2 ^ 32 = 0) (h1 : p ≤ q.offset + 2 ^ 31) (h2 : q.offset < p + 2 ^ 31) (hshort : data.length < 4096)
    {eof : Bool} (heof : eof = true → p + data.length = w.length) {react : List Op} (hr : Op.reset ∉ react) :
    Receives w (recvDATA q eof o data react).1 (takes taken (recvDATA q eof o data react).2 p data) ∧
      q.offset ≤ (recvDATA q eof o data react).1.offset ∧
      ((recvDATA q eof o data react).1.state = q.state ∨ eof = true) := by
  obtain ⟨hr1, hr2, hr3⟩ := h.recvData hd ho h1 h2 hshort
  have hx : Receives w (if feeds q o data then react.foldl InStreamQueue.exec (InStreamQueue.recvData q o data).1
      else (InStreamQueue.recvData q o data).1) (takes taken (InStreamQueue.recvData q o data).2 p data) ∧
      q.offset ≤ (if feeds q o data then react.foldl InStreamQueue.exec (InStreamQueue.recvData q o data).1
        else (InStreamQueue.recvData q o data).1).offset ∧
      (if feeds q o data then react.foldl InStreamQueue.exec (InStreamQueue.recvData q o data).1
        else (InStreamQueue.recvData q o data).1).state = q.state := by
    split
    · obtain ⟨e1, e2⟩ := exec_all_frame (InStreamQueue.recvData q o data).1 hr
      exact ⟨hr1.exec_all hr, by rw [e1]; exact hr2, e2.trans hr3⟩
    · exact ⟨hr1, hr2, hr3⟩
  obtain ⟨hx1, hx2, hx3⟩ := hx
  unfold InStreamQueue.recvDATA
  simp only
  cases eof with
  | false => exact ⟨hx1, hx2, .inl hx3⟩
  | true =>
    have hend := heof rfl
    simp only [if_true]
    refine ⟨hx1.shutdown ?_ (by omega), by rw [shutdown_offset]; exact hx2, .inr trivial⟩
    unfold word32; omega

/-! ## Flow control leaves the stream alone -/

theorem Receives.barriers (h : Receives w q taken) (barrier lastBarrier window : Int) :
    Receives w { q with barrier := barrier, lastBarrier := lastBarrier, window := window } taken :=
  { h with closed := fun pre cb post e => h.closed pre cb post e }

theorem Receives.pull (h : Receives w q taken) {id seq : Nat} {p : Pulled} (hp : pull q id seq = .ok (p, q')) :
    Receives w q' taken ∧ q'.state = q.state ∧ q'.offset = q.offset ∧
      p = ⟨.writer .readerBarrier id seq, toBe32 (word32 q.barrier).toNat,
        .barrier (readerOffset q) q.barrier q.lastBarrier⟩ := by
  have hl := h.live
  unfold InStreamQueue.pull at hp
  split at hp
  · cases hp
  · cases hp
    exact ⟨(h.barriers q.barrier q.barrier q.window).ran (plain_event _), rfl, rfl, rfl⟩
  · rename_i h1 h2
    cases hs : q.state with
    | amConnected => exact absurd hs h2
    | amShutdown eof => exact absurd hs (h1 eof)
    | amReset => simp [isReset, hs] at hl
    | amResetDown => simp [isReset, hs] at hl

theorem fireEvent_frame (q : T) : (fireEvent q).state = q.state ∧ (fireEvent q).offset = q.offset := by
  obtain ⟨l, -, e⟩ := fireEvent_cases q
  rw [e]; exact ⟨rfl, rfl⟩

theorem Receives.ack (h : Receives w q taken) (o b l : Int) (ok : Bool) :
    Receives w (ack q (.barrier o b l) ok) taken ∧ (InStreamQueue.ack q (.barrier o b l) ok).state = q.state ∧
      (InStreamQueue.ack q (.barrier o b l) ok).offset = q.offset := by
  cases ok with
  | true =>
    simp only [InStreamQueue.ack]
    exact ⟨(h.barriers _ q.lastBarrier _).fireEvent, fireEvent_frame _⟩
  | false =>
    simp only [InStreamQueue.ack]
    split
    · exact ⟨h, rfl, rfl⟩
    · exact ⟨(h.barriers q.barrier l q.window).fireEvent, fireEvent_frame _⟩

/-- When every position was taken, the offset is at the end. -/
theorem Receives.all_taken (h : Receives w q taken) (ht : ∀ p : Int, 0 ≤ p → p < w.length → taken p) :
    q.offset = w.length := by
  have hle := h.le
  by_cases e : q.offset < w.length
  · rcases h.complete q.offset (ht _ h.nonneg e) with hlt | ⟨r, hr, h1, -⟩
    · omega
    · have := (h.ahead r hr).after
      omega
  · omega

end BubbleStorm.Cusp.Stream.InStreamQueue
