/-
  BubbleStorm.Cusp.Stream.OutStreamProofs — the sending queue's records partition what
  was written (see `BubbleStorm.Cusp.Stream.OutStreamQueue`).

  `Sends q held high done` is the invariant of a queue that is not reset, seen from
  the stream: `held` are the records that are not in the retransmit heap (the segments
  of unacknowledged copies, and what a running pull has popped), `high` is the end of
  what has ever been pulled, and `done` are the positions that were acknowledged.
  - `Sends.makeProgress`, `Sends.exec`: the application's calls keep it.
  - `Sends.pull`: a pull takes a run of the stream that starts at `pullOffset`.
  - `Sends.acknowledge` / `Sends.requeue`: an acknowledgement drops the records of a
    copy, a loss puts them back.
-/

import Mathlib.Data.List.Nodup
import BubbleStorm.Lib.Span
import BubbleStorm.Cusp.Stream.OutStreamQueue

namespace BubbleStorm.Cusp.Stream.OutStreamQueue

open List (append_assoc append_nil length_append length_drop length_take mem_append_left mem_append_right mem_cons)
open Span

/-- What `write` has taken, in order. -/
def written (log : List Out) : Bytes :=
  log.flatMap fun
    | .wrote buffer => buffer.val
    | _ => []

@[simp] theorem written_nil : written [] = [] := rfl

@[simp] theorem written_append (l l' : List Out) : written (l ++ l') = written l ++ written l' := by
  simp [written]

@[simp] theorem written_event (e : Event) : written [.event e] = [] := rfl
@[simp] theorem written_wrote (b : Word8Vector) : written [.wrote b] = b.val := by simp [written]

/-- Log entries that record no written buffer. -/
def Quiet (l : List Out) : Prop := ∀ b, Out.wrote b ∉ l

theorem Quiet.written {l : List Out} (h : Quiet l) : written l = [] := by
  simp only [OutStreamQueue.written, List.flatMap_eq_nil_iff]
  intro o ho
  cases o with
  | wrote b => exact absurd ho (h b)
  | _ => rfl

/-- Log entries that are events and writers only. -/
def Plain (l : List Out) : Prop := ∀ o ∈ l, (∃ e, o = .event e) ∨ ∃ cb s, o = .writer cb s

theorem Plain.quiet {l : List Out} (h : Plain l) : Quiet l := by
  intro b hb
  rcases h _ hb with ⟨e, he⟩ | ⟨cb, s, he⟩ <;> cases he

theorem Plain.not_shutdowner {l : List Out} (h : Plain l) (cb : Nat) (ok : Bool) : Out.shutdowner cb ok ∉ l := by
  intro hm
  rcases h _ hm with ⟨e, he⟩ | ⟨cb, s, he⟩ <;> cases he

/-! ## What each call does -/

/-- The queue after it ran the callbacks `l` and changed nothing else. -/
def T.ran (q : T) (l : List Out) : T := { q with log := q.log ++ l }

@[simp] theorem T.ran_nil (q : T) : q.ran [] = q := by unfold T.ran; rw [append_nil]
@[simp] theorem T.ran_ran (q : T) (l l' : List Out) : (q.ran l).ran l' = q.ran (l ++ l') := by
  simp only [T.ran, append_assoc]
@[simp] theorem T.ran_state (q : T) (l : List Out) : (q.ran l).state = q.state := rfl
@[simp] theorem T.ran_priority (q : T) (l : List Out) : (q.ran l).priority = q.priority := rfl
@[simp] theorem T.ran_inflight (q : T) (l : List Out) : (q.ran l).inflight = q.inflight := rfl
@[simp] theorem T.ran_retransmit (q : T) (l : List Out) : (q.ran l).retransmit = q.retransmit := rfl
@[simp] theorem T.ran_sendOffset (q : T) (l : List Out) : (q.ran l).sendOffset = q.sendOffset := rfl
@[simp] theorem T.ran_barrier (q : T) (l : List Out) : (q.ran l).barrier = q.barrier := rfl
@[simp] theorem T.ran_buffer (q : T) (l : List Out) : (q.ran l).buffer = q.buffer := rfl
@[simp] theorem T.ran_fresh (q : T) (l : List Out) : (q.ran l).fresh = q.fresh := rfl
@[simp] theorem T.ran_log (q : T) (l : List Out) : (q.ran l).log = q.log ++ l := rfl

theorem callback_eq (q : T) (e : Event) : callback q e = q.ran [.event e] := rfl

theorem updateRTS_eq (q : T) : updateRTS q = q.ran [.event (.rts (if amRTS q then q.priority else .negInf))] := rfl

theorem runWriter_eq (q : T) (cb : Option Nat) (s : Status) :
    runWriter q cb s = q.ran (cb.map (Out.writer · s)).toList := by
  cases cb
  · exact q.ran_nil.symm
  · rfl

theorem runShutdowner_eq (q : T) (cb : Option Nat) (ok : Bool) :
    runShutdowner q cb ok = q.ran (cb.map (Out.shutdowner · ok)).toList := by
  cases cb
  · exact q.ran_nil.symm
  · rfl

/-- Move the buffer `b` into the empty retransmit heap. -/
def T.moved (q : T) (b : Word8Vector) : T :=
  { q with retransmit := [⟨q.fresh, q.sendOffset, b.val⟩], fresh := q.fresh + 1, buffer := none, writer := none,
           retransmitBytes := q.retransmitBytes + b.val.length, sendOffset := q.sendOffset + b.val.length }

/-- `makeProgress` moves the buffer, or it does nothing but report. -/
theorem makeProgress_cases (q : T) :
    ((q.retransmit ≠ [] ∨ q.buffer = none) ∧ ∃ l, Plain l ∧ makeProgress q = q.ran l) ∨
    (q.retransmit = [] ∧ ∃ b l, q.buffer = some b ∧ Plain l ∧ makeProgress q = (q.moved b).ran l) := by
  unfold makeProgress
  by_cases hr : q.retransmit = []
  · rw [if_neg (not_not.mpr hr)]
    cases hb : q.buffer with
    | none => exact .inl ⟨.inr rfl, [], nofun, (q.ran_nil).symm⟩
    | some b =>
      let rts := if amRTS (q.moved b) then q.priority else .negInf
      refine .inr ⟨hr, b, .event (.retransmitBytes b.val.length) :: .event (.rts rts) ::
        (q.writer.map (Out.writer · .ready)).toList, rfl, ?_, ?_⟩
      · rintro o (_ | ⟨_, _ | ⟨_, ho⟩⟩)
        · exact .inl ⟨_, rfl⟩
        · exact .inl ⟨_, rfl⟩
        · obtain ⟨cb, -, rfl⟩ := Option.map_eq_some_iff.mp (Option.mem_toList.mp ho)
          exact .inr ⟨cb, .ready, rfl⟩
      · simp only [runWriter_eq, updateRTS_eq, callback_eq, hr]
        exact (T.ran_ran ((q.moved b).ran [_]) [_] _).trans (T.ran_ran _ _ _)
  · rw [if_pos hr, updateRTS_eq]
    exact .inl ⟨.inl hr, _, fun o h => .inl ⟨_, List.mem_singleton.mp h⟩, rfl⟩

theorem makeProgress_written (q : T) : written (makeProgress q).log = written q.log := by
  rcases makeProgress_cases q with ⟨-, l, hl, e⟩ | ⟨-, b, l, -, hl, e⟩
  · rw [e, T.ran_log, written_append, hl.quiet.written, append_nil]
  · rw [e, T.ran_log, written_append, hl.quiet.written, append_nil]
    rfl

/-! ## Records of the stream -/

def Seg.Covers (s : Seg) (p : Int) : Prop := s.offset ≤ p ∧ p < s.offset + s.len

/-- No position lies in both. -/
def Seg.Apart (s t : Seg) : Prop :=
  s.data = [] ∨ t.data = [] ∨ s.offset + s.len ≤ t.offset ∨ t.offset + t.len ≤ s.offset

theorem Seg.Apart.symm {s t : Seg} (h : s.Apart t) : t.Apart s := by
  rcases h with h | h | h | h
  · exact .inr (.inl h)
  · exact .inl h
  · exact .inr (.inr (.inr h))
  · exact .inr (.inr (.inl h))

@[simp] theorem Seg.len_nonneg (s : Seg) : 0 ≤ s.len := Int.natCast_nonneg _

theorem Seg.len_pos {s : Seg} (h : s.data ≠ []) : 0 < s.len := by
  have := List.length_pos_of_ne_nil h
  unfold Seg.len; omega

/-- Records are disjoint pieces of the stream `w` before `stop`. -/
structure Records (w : Bytes) (stop : Int) (fresh : Nat) (l : List Seg) : Prop where
  lies : ∀ s ∈ l, At w s.offset s.data
  le : ∀ s ∈ l, s.offset + s.len ≤ stop
  apart : l.Pairwise Seg.Apart
  refs : (l.map Seg.ref).Nodup
  fresh : ∀ s ∈ l, s.ref < fresh

variable {w w' : Bytes} {stop stop' : Int} {fresh fresh' : Nat} {l l' : List Seg}

theorem Records.perm (h : Records w stop fresh l) (p : l.Perm l') : Records w stop fresh l' where
  lies s hs := h.lies s (p.mem_iff.mpr hs)
  le s hs := h.le s (p.mem_iff.mpr hs)
  apart := h.apart.perm p Seg.Apart.symm
  refs := (p.map Seg.ref).nodup_iff.mp h.refs
  fresh s hs := h.fresh s (p.mem_iff.mpr hs)

theorem Records.mono (h : Records w stop fresh l) (hw : w <+: w') (hs : stop ≤ stop') (hf : fresh ≤ fresh') :
    Records w' stop' fresh' l where
  lies s hm := (h.lies s hm).mono hw
  le s hm := Int.le_trans (h.le s hm) hs
  apart := h.apart
  refs := h.refs
  fresh s hm := Nat.lt_of_lt_of_le (h.fresh s hm) hf

theorem Records.sublist (h : Records w stop fresh l) (p : l'.Sublist l) : Records w stop fresh l' where
  lies s hs := h.lies s (p.mem hs)
  le s hs := h.le s (p.mem hs)
  apart := h.apart.sublist p
  refs := h.refs.sublist (p.map _)
  fresh s hs := h.fresh s (p.mem hs)

/-- A piece that starts where the records end is a new record. -/
theorem Records.cons_end {d : Bytes} (h : Records w stop fresh l) (hd : At w stop d) :
    Records w (stop + d.length) (fresh + 1) (⟨fresh, stop, d⟩ :: l) := by
  have h' := h.mono (List.prefix_refl w) (show stop ≤ stop + d.length by omega) (Nat.le_succ fresh)
  refine ⟨?_, ?_, ?_, ?_, ?_⟩
  · rintro s (_ | ⟨_, hs⟩)
    · exact hd
    · exact h'.lies s hs
  · rintro s (_ | ⟨_, hs⟩)
    · exact Int.le_refl _
    · exact h'.le s hs
  · exact h.apart.cons fun s hs => .inr (.inr (.inr (h.le s hs)))
  · refine List.nodup_cons.mpr ⟨fun hm => ?_, h.refs⟩
    obtain ⟨s, hs, e⟩ := List.mem_map.mp hm
    exact absurd (h.fresh s hs) (by simp only at e; omega)
  · rintro s (_ | ⟨_, hs⟩)
    · exact Nat.lt_succ_self fresh
    · exact h'.fresh s hs

/-- A record is cut in two, which get new names. -/
theorem Records.split {s : Seg} {n : Nat} (h : Records w stop fresh (s :: l)) (hn : n ≤ s.data.length) :
    Records w stop (fresh + 2)
      (⟨fresh, s.offset + n, s.data.drop n⟩ :: ⟨fresh + 1, s.offset, s.data.take n⟩ :: l) := by
  have hs := h.lies s (.head _)
  have hle := h.le s (.head _)
  have hl := h.sublist (List.sublist_cons_self s l)
  have hap := (List.pairwise_cons.mp h.apart).1
  simp only [Seg.len] at hle
  have inside : ∀ t ∈ l, ∀ o (d : Bytes), s.offset ≤ o → o + d.length ≤ s.offset + s.data.length →
      ∀ r, Seg.Apart ⟨r, o, d⟩ t := by
    intro t ht o d h1 h2 r
    rcases hap t ht with e | e | e | e
    · have : d = [] := List.eq_nil_of_length_eq_zero (by rw [e] at h2; simp only [List.length_nil] at h2; omega)
      exact .inl this
    · exact .inr (.inl e)
    · exact .inr (.inr (.inl (by simp only [Seg.len] at e ⊢; omega)))
    · exact .inr (.inr (.inr (by simp only [Seg.len] at e ⊢; omega)))
  refine ⟨?_, ?_, ?_, ?_, ?_⟩
  · rintro t (_ | ⟨_, _ | ⟨_, ht⟩⟩)
    · exact hs.drop hn
    · exact hs.take n
    · exact hl.lies t ht
  · rintro t (_ | ⟨_, _ | ⟨_, ht⟩⟩)
    · simp only [Seg.len, length_drop]; omega
    · simp only [Seg.len, length_take]; omega
    · exact hl.le t ht
  · refine .cons ?_ (.cons (fun t ht => inside t ht _ _ (Int.le_refl _)
      (by simp only [length_take]; omega) _) hl.apart)
    rintro t (_ | ⟨_, ht⟩)
    · exact .inr (.inr (.inr (by simp only [Seg.len, length_take]; omega)))
    · exact inside t ht _ _ (by omega) (by simp only [length_drop]; omega) _
  · have old : ∀ r, fresh ≤ r → r ∉ l.map Seg.ref := by
      intro r hr hm
      obtain ⟨t, ht, e⟩ := List.mem_map.mp hm
      exact absurd (hl.fresh t ht) (by omega)
    refine List.nodup_cons.mpr ⟨?_, List.nodup_cons.mpr ⟨old _ (Nat.le_succ _), hl.refs⟩⟩
    rw [List.map_cons, mem_cons, not_or]
    exact ⟨by simp, old _ (Nat.le_refl _)⟩
  · rintro t (_ | ⟨_, _ | ⟨_, ht⟩⟩)
    · exact Nat.lt_succ_of_lt (Nat.lt_succ_self fresh)
    · exact Nat.lt_succ_self _
    · exact Nat.lt_succ_of_lt (Nat.lt_succ_of_lt (hl.fresh t ht))

/-! ## The invariant of a queue that is not reset -/

def T.waiting (q : T) : Bytes :=
  match q.buffer with
  | some b => b.val
  | none => []

structure Sends (q : T) (held : List Seg) (high : Int) (done : Int → Prop) : Prop where
  live : q.state ≠ .amReset
  shut : ∀ p, q.state = .amShutdown p → q.buffer = none
  records : Records (written q.log) q.sendOffset q.fresh (q.retransmit ++ held)
  /-- What is waiting in the buffer continues the stream, and ends it. -/
  whole : ∃ pre : Bytes, written q.log = pre ++ q.waiting ∧ (pre.length : Int) = q.sendOffset
  ordered : BinHeap.Ordered Seg.less q.retransmit
  window : ∀ s ∈ q.retransmit, s.offset ≤ high ∧ high < s.offset + 2 ^ 31
  nonneg : 0 ≤ high
  high_le : high ≤ q.sendOffset
  near : q.sendOffset < high + 2 ^ 31
  held_le : ∀ s ∈ held, s.offset + s.len ≤ high
  covered : ∀ p, 0 ≤ p → p < q.sendOffset → (∃ s ∈ q.retransmit ++ held, s.Covers p) ∨ done p
  done_lt : ∀ p, done p → p < high

theorem sends_new : Sends new [] 0 fun _ => False where
  live h := by cases h
  shut p h := by cases h
  records := ⟨by simp [new], by simp [new], .nil, .nil, by simp [new]⟩
  whole := ⟨[], rfl, rfl⟩
  ordered := BinHeap.ordered_nil
  window s h := by cases h
  nonneg := Int.le_refl 0
  high_le := Int.le_refl 0
  near := by decide
  held_le s h := by cases h
  covered p h0 h := by simp only [new] at h; omega
  done_lt p h := h.elim

variable {q q' : T} {held held' : List Seg} {high high' : Int} {done : Int → Prop}

/-- The retransmit heap is ordered as positions are. -/
theorem weak (high : Int) : BinHeap.Weak Seg.less fun s => s.offset ≤ high ∧ high < s.offset + 2 ^ 31 :=
  WrapOrder.weak_window (by decide) Seg.offset Seg.offset _ (fun s _ => by simp) fun s t hs ht => by omega

theorem Sends.ran (h : Sends q held high done) {l : List Out} (hl : Quiet l) : Sends (q.ran l) held high done := by
  have e : written (q.ran l).log = written q.log := by
    rw [T.ran_log, written_append, hl.written, append_nil]
  exact { h with records := by rw [e]; exact h.records, whole := by rw [e]; exact h.whole }

/-- Bytes that were never pulled are in the retransmit heap. -/
theorem Sends.unsent (h : Sends q held high done) {p : Int} (h1 : high ≤ p) (h2 : p < q.sendOffset) :
    ∃ s ∈ q.retransmit, s.Covers p := by
  rcases h.covered p (Int.le_trans h.nonneg h1) h2 with ⟨s, hs, hc⟩ | hd
  · rcases List.mem_append.mp hs with hs | hs
    · exact ⟨s, hs, hc⟩
    · have := h.held_le s hs
      exact absurd hc.2 (by omega)
  · exact absurd (h.done_lt p hd) (by omega)

theorem Sends.drained (h : Sends q held high done) (hr : q.retransmit = []) : high = q.sendOffset := by
  by_cases e : high < q.sendOffset
  · obtain ⟨s, hs, -⟩ := h.unsent (Int.le_refl high) e
    rw [hr] at hs; cases hs
  · have := h.high_le; omega

theorem Sends.moved (h : Sends q held high done) (hr : q.retransmit = []) {b : Word8Vector} (hb : q.buffer = some b) :
    Sends (q.moved b) held high done := by
  have hd := h.drained hr
  obtain ⟨pre, hw, hp⟩ := h.whole
  have hwait : q.waiting = b.val := by simp only [T.waiting, hb]
  have hat : At (written q.log) q.sendOffset b.val := by
    rw [hw, hwait, ← hp]; exact at_end _ _
  have hrec : Records (written q.log) q.sendOffset q.fresh held := by
    have := h.records; rwa [hr, List.nil_append] at this
  have hlen := b.property
  have h0 := h.nonneg
  refine { live := h.live, shut := fun p hp => rfl, records := hrec.cons_end hat, whole := ?_, ordered := ?_,
           window := ?_, nonneg := h0, high_le := ?_, near := ?_, held_le := h.held_le, covered := ?_,
           done_lt := h.done_lt }
  · refine ⟨pre ++ b.val, ?_, by simp only [length_append, T.moved]; omega⟩
    show written q.log = pre ++ b.val ++ []
    rw [append_nil, hw, hwait]
  · exact fun i x p hi hx hp => by
      have := (List.getElem?_eq_some_iff.mp hx).1
      simp only [T.moved, List.length_singleton] at this; omega
  · rintro s (_ | ⟨_, hs⟩)
    · exact ⟨by simp only; omega, by simp only; omega⟩
    · cases hs
  · simp only [T.moved]; omega
  · simp only [T.moved]; omega
  · intro p hp0 hp
    simp only [T.moved] at hp ⊢
    by_cases e : p < q.sendOffset
    · rcases h.covered p hp0 e with ⟨s, hs, hc⟩ | hdn
      · rw [hr] at hs
        exact .inl ⟨s, .tail _ hs, hc⟩
      · exact .inr hdn
    · exact .inl ⟨_, .head _, by simp only; omega, by simp only [Seg.len]; omega⟩

theorem Sends.makeProgress (h : Sends q held high done) : Sends (makeProgress q) held high done := by
  rcases makeProgress_cases q with ⟨-, l, hl, e⟩ | ⟨hr, b, l, hb, hl, e⟩
  · rw [e]; exact h.ran hl.quiet
  · rw [e]; exact (h.moved hr hb).ran hl.quiet

/-! ## The application's calls -/

/-- What nothing short of a reset does to a queue: the stream only grows, and a shutdown
    that was asked for stays. -/
structure Frame (q q' : T) : Prop where
  inflight : q'.inflight = q.inflight
  barrier : q'.barrier = q.barrier
  sendOffset : q.sendOffset ≤ q'.sendOffset
  state : q'.state = q.state ∨ q.state = .amConnected ∧ q'.state = .amShutdown .retransmit
  log : ∃ l, q'.log = q.log ++ l ∧ ∀ cb, Out.shutdowner cb true ∉ l
  frozen : q.state ≠ .amConnected → written q'.log = written q.log

theorem Frame.refl (q : T) : Frame q q :=
  ⟨rfl, rfl, Int.le_refl _, .inl rfl, ⟨[], (append_nil _).symm, nofun⟩, fun _ => rfl⟩

theorem Frame.trans {q'' : T} (h : Frame q q') (h' : Frame q' q'') : Frame q q'' where
  inflight := h'.inflight.trans h.inflight
  barrier := h'.barrier.trans h.barrier
  sendOffset := Int.le_trans h.sendOffset h'.sendOffset
  state := by
    rcases h.state with e | ⟨e, e'⟩
    · rw [← e]; exact h'.state
    · rcases h'.state with e'' | ⟨e'', -⟩
      · exact .inr ⟨e, e''.trans e'⟩
      · rw [e'] at e''; cases e''
  log := by
    obtain ⟨l, e, hl⟩ := h.log
    obtain ⟨l', e', hl'⟩ := h'.log
    exact ⟨l ++ l', by rw [e', e, append_assoc], fun cb hm => (List.mem_append.mp hm).elim (hl cb) (hl' cb)⟩
  frozen hs := by
    rw [← h.frozen hs]
    refine h'.frozen fun e => ?_
    rcases h.state with e' | ⟨e', -⟩
    · exact hs (e'.symm.trans e)
    · exact hs e'

theorem Frame.written (h : Frame q q') : written q.log <+: written q'.log := by
  obtain ⟨l, e, -⟩ := h.log
  exact ⟨OutStreamQueue.written l, by rw [e, written_append]⟩

/-- A call of the application puts new records behind the ones that are there. -/
structure Extends (q q' : T) : Prop extends Frame q q' where
  queued : ∀ s ∈ q'.retransmit, s ∈ q.retransmit ∨ q.sendOffset ≤ s.offset

theorem Extends.refl (q : T) : Extends q q := ⟨.refl q, fun _ h => .inl h⟩

theorem Extends.trans {q'' : T} (h : Extends q q') (h' : Extends q' q'') : Extends q q'' where
  toFrame := h.toFrame.trans h'.toFrame
  queued s hs := by
    rcases h'.queued s hs with hs | hs
    · exact h.queued s hs
    · exact .inr (Int.le_trans h.sendOffset hs)

theorem extends_ran (q : T) {l : List Out} (h : Plain l) : Extends q (q.ran l) :=
  ⟨⟨rfl, rfl, Int.le_refl _, .inl rfl, ⟨l, rfl, fun cb => h.not_shutdowner cb true⟩, fun _ => by
    rw [T.ran_log, written_append, h.quiet.written, append_nil]⟩, fun _ h => .inl h⟩

theorem extends_updateRTS (q : T) : Extends q (updateRTS q) :=
  extends_ran q fun _ ho => .inl ⟨_, List.mem_singleton.mp ho⟩

theorem extends_moved (q : T) (b : Word8Vector) : Extends q (q.moved b) := by
  refine ⟨⟨rfl, rfl, by simp only [T.moved]; omega, .inl rfl, ⟨[], (append_nil _).symm, nofun⟩, fun _ => rfl⟩, ?_⟩
  rintro s (_ | ⟨_, hs⟩)
  · exact .inr (Int.le_refl _)
  · cases hs

theorem makeProgress_extends (q : T) : Extends q (makeProgress q) := by
  rcases makeProgress_cases q with ⟨-, l, hl, e⟩ | ⟨-, b, l, -, hl, e⟩
  · rw [e]; exact extends_ran q hl
  · rw [e]; exact (extends_moved q b).trans (extends_ran _ hl)

/-- A call that is taken: a write on a connected queue puts its buffer in place, and a
    shutdown moves the state. -/
theorem exec_cases (q : T) (op : Op) :
    (∃ l, Plain l ∧ exec q op = q.ran l) ∨
    (∃ prio, exec q op = updateRTS { q with priority := prio }) ∨
    (∃ b cb, op = .write b cb ∧ q.state = .amConnected ∧ q.buffer = none ∧
      exec q op = makeProgress { q with buffer := some b, writer := some cb, log := q.log ++ [.wrote b] }) ∨
    (∃ cb, op = .shutdown cb ∧ q.state = .amConnected ∧ q.buffer = none ∧
      exec q op = updateRTS { q with state := .amShutdown .retransmit, shutdowner := some cb }) ∨
    q.state = .amReset ∨ op = .reset := by
  have same : ∃ l, Plain l ∧ q = q.ran l := ⟨[], nofun, q.ran_nil.symm⟩
  cases op with
  | write b cb =>
    simp only [exec, write]
    cases hb : q.buffer with
    | some b' => exact .inl same
    | none =>
      cases hs : q.state with
      | amShutdown p => exact .inl same
      | amReset => exact .inr (.inr (.inr (.inr (.inl rfl))))
      | amConnected => exact .inr (.inr (.inl ⟨b, cb, rfl, rfl, rfl, rfl⟩))
  | shutdown cb =>
    simp only [exec, shutdown]
    cases hb : q.buffer with
    | some b' => exact .inl same
    | none =>
      cases hs : q.state with
      | amShutdown p => exact .inl same
      | amReset => exact .inr (.inr (.inr (.inr (.inl rfl))))
      | amConnected => exact .inr (.inr (.inr (.inl ⟨cb, rfl, rfl, rfl, rfl⟩)))
  | reset => exact .inr (.inr (.inr (.inr (.inr rfl))))
  | setPriority prio =>
    simp only [exec, setPriority]
    split
    · exact .inr (.inl ⟨prio, rfl⟩)
    · exact .inl same

theorem exec_extends (hlive : q.state ≠ .amReset) {op : Op} (hop : op ≠ .reset) : Extends q (exec q op) := by
  have none_ran : ∃ l, q.log = q.log ++ l ∧ ∀ cb, Out.shutdowner cb true ∉ l := ⟨[], (append_nil _).symm, nofun⟩
  rcases exec_cases q op with ⟨l, hl, e⟩ | ⟨prio, e⟩ | ⟨b, cb, -, hc, -, e⟩ | ⟨cb, -, hs, -, e⟩ | e | e
  · rw [e]; exact extends_ran q hl
  · rw [e]
    refine Extends.trans (?_ : Extends q { q with priority := prio }) (extends_updateRTS _)
    exact ⟨⟨rfl, rfl, Int.le_refl _, .inl rfl, none_ran, fun _ => rfl⟩, fun _ h => .inl h⟩
  · rw [e]
    refine Extends.trans ?_ (makeProgress_extends _)
    exact ⟨⟨rfl, rfl, Int.le_refl _, .inl rfl, ⟨[.wrote b], rfl, by simp⟩, fun hn => absurd hc hn⟩, fun _ h => .inl h⟩
  · rw [e]
    refine Extends.trans (?_ : Extends q { q with state := .amShutdown .retransmit, shutdowner := some cb })
      (extends_updateRTS _)
    exact ⟨⟨rfl, rfl, Int.le_refl _, .inr ⟨hs, rfl⟩, none_ran, fun _ => rfl⟩, fun _ h => .inl h⟩
  · exact absurd e hlive
  · exact absurd e hop

theorem Sends.updateRTS (h : Sends q held high done) : Sends (updateRTS q) held high done := by
  rw [updateRTS_eq]; exact h.ran fun b hb => by simp at hb

theorem Sends.exec (h : Sends q held high done) {op : Op} (hop : op ≠ .reset) :
    Sends (exec q op) held high done := by
  rcases exec_cases q op with ⟨l, hl, e⟩ | ⟨prio, e⟩ | ⟨b, cb, -, hs, hb, e⟩ | ⟨cb, -, hs, hb, e⟩ | e | e
  · rw [e]; exact h.ran hl.quiet
  · rw [e]; exact Sends.updateRTS { h with }
  · rw [e]
    have hwait : q.waiting = [] := by simp only [T.waiting, hb]
    obtain ⟨pre, hw, hp⟩ := h.whole
    rw [hwait, append_nil] at hw
    refine Sends.makeProgress { h with shut := ?_, records := ?_, whole := ?_ }
    · intro p hp'
      simp only [hs] at hp'; cases hp'
    · rw [written_append]
      exact h.records.mono (List.prefix_append _ _) (Int.le_refl _) (Nat.le_refl _)
    · exact ⟨pre, by rw [written_append, written_wrote, hw]; rfl, hp⟩
  · rw [e]; exact Sends.updateRTS { h with live := State.noConfusion, shut := fun p _ => hb }
  · exact absurd e h.live
  · exact absurd e hop

theorem exec_all (h : Sends q held high done) {ops : List Op} (hops : Op.reset ∉ ops) :
    Sends (ops.foldl OutStreamQueue.exec q) held high done ∧ Extends q (ops.foldl OutStreamQueue.exec q) := by
  induction ops generalizing q with
  | nil => exact ⟨h, .refl q⟩
  | cons op ops ih =>
    rw [mem_cons, not_or] at hops
    have hop : op ≠ .reset := fun e => hops.1 e.symm
    obtain ⟨h1, h2⟩ := ih (h.exec hop) hops.2
    exact ⟨h1, (exec_extends h.live hop).trans h2⟩

/-! ## Pulling -/

theorem makeProgressThen_spec (h : Sends q held high done) {react : List (List Op)} (hr : ∀ ops ∈ react, Op.reset ∉ ops) :
    Sends (makeProgressThen q react).1 held high done ∧ Extends q (makeProgressThen q react).1 ∧
      ∀ ops ∈ (makeProgressThen q react).2, Op.reset ∉ ops := by
  unfold makeProgressThen
  split
  · have hhead : Op.reset ∉ react.headD [] := by
      cases react with
      | nil => simp
      | cons ops _ => exact hr ops (.head _)
    obtain ⟨h1, h2⟩ := exec_all h.makeProgress hhead
    exact ⟨h1, (makeProgress_extends q).trans h2, fun ops ho => hr ops (List.mem_of_mem_tail ho)⟩
  · exact ⟨h.makeProgress, makeProgress_extends q, hr⟩

@[simp] theorem lens_nil : lens [] = 0 := rfl
@[simp] theorem lens_cons (s : Seg) (l : List Seg) : lens (s :: l) = s.len + lens l := by simp [lens]
@[simp] theorem payload_nil : payload [] = [] := rfl
@[simp] theorem payload_cons (s : Seg) (l : List Seg) : payload (s :: l) = s.data ++ payload l := by simp [payload]

theorem length_payload (l : List Seg) : ((payload l).length : Int) = lens l := by
  induction l with
  | nil => rfl
  | cons s l ih => rw [payload_cons, lens_cons, length_append, ← ih]; simp [Seg.len]

theorem lens_nonneg (l : List Seg) : 0 ≤ lens l := by rw [← length_payload]; exact Int.natCast_nonneg _

/-- The heap's top is a record of it that lies before the others. -/
structure Popped (q : T) (s : Seg) (rest : List Seg) : Prop where
  perm : q.retransmit.Perm (s :: rest)
  ordered : BinHeap.Ordered Seg.less rest
  first : ∀ t ∈ rest, s.offset ≤ t.offset

theorem Sends.popped (h : Sends q held high done) {s : Seg} {rest : List Seg}
    (hp : BinHeap.pop Seg.less q.retransmit = some (s, rest)) : Popped q s rest := by
  have perm := BinHeap.pop_perm _ hp
  refine ⟨perm, BinHeap.pop_ordered (weak high) h.window h.ordered hp, fun t ht => ?_⟩
  have hs := h.window s (perm.mem_iff.mpr (.head _))
  have ht' := perm.mem_iff.mpr (.tail s ht)
  have hw := h.window t ht'
  have hmin := BinHeap.top_min (weak high) h.window h.ordered (BinHeap.pop_head _ hp) ht'
  exact (Key.lt_false_iff (by omega) (by omega)).mp hmin

/-- A whole record leaves the retransmit heap. -/
theorem Sends.taken (h : Sends q held high done) {s : Seg} {rest : List Seg} (hp : Popped q s rest)
    (hlen : s.len ≤ 4092) :
    Sends { q with retransmit := rest } (s :: held) (max high (s.offset + s.len)) done := by
  have perm : (q.retransmit ++ held).Perm (rest ++ s :: held) :=
    (hp.perm.append_right held).trans List.perm_middle.symm
  have hs := hp.perm.mem_iff.mpr (.head _)
  have hle := h.records.le s (mem_append_left _ hs)
  have := h.nonneg
  have := h.high_le
  have := h.near
  have := s.len_nonneg
  have high_le : max high (s.offset + s.len) ≤ q.sendOffset := by omega
  have near : q.sendOffset < max high (s.offset + s.len) + 2 ^ 31 := by omega
  refine { live := h.live, shut := h.shut, records := h.records.perm perm, whole := h.whole, ordered := hp.ordered,
           window := ?_, nonneg := by omega, high_le := high_le, near := near, held_le := ?_, covered := ?_,
           done_lt := ?_ }
  · intro t ht
    have := h.window t (hp.perm.mem_iff.mpr (.tail _ ht))
    have := hp.first t ht
    omega
  · rintro t (_ | ⟨_, ht⟩)
    · omega
    · have := h.held_le t ht
      omega
  · intro p h0 hp'
    rcases h.covered p h0 hp' with ⟨t, ht, hc⟩ | hd
    · exact .inl ⟨t, perm.mem_iff.mp ht, hc⟩
    · exact .inr hd
  · intro p hd
    have := h.done_lt p hd
    omega

/-- The front of a record leaves the retransmit heap, and the rest goes back. -/
theorem Sends.cut (h : Sends q held high done) {s : Seg} {rest : List Seg} (hp : Popped q s rest) {room : Nat}
    (hlen : room ≤ s.data.length) (hroom : room ≤ 4092) :
    Sends { q with retransmit := BinHeap.push Seg.less rest ⟨q.fresh, s.offset + room, s.data.drop room⟩,
                   fresh := q.fresh + 2 }
      (⟨q.fresh + 1, s.offset, s.data.take room⟩ :: held) (max high (s.offset + room)) done := by
  have perm : (q.retransmit ++ held).Perm (s :: (rest ++ held)) := hp.perm.append_right held
  have push := BinHeap.push_perm Seg.less rest ⟨q.fresh, s.offset + room, s.data.drop room⟩
  have hs := hp.perm.mem_iff.mpr (.head _)
  have hw := h.window s hs
  have hle := h.records.le s (mem_append_left _ hs)
  have := h.nonneg
  have := h.high_le
  have := h.near
  simp only [Seg.len] at hle
  have window : ∀ t ∈ rest, t.offset ≤ max high (s.offset + room) ∧ max high (s.offset + room) < t.offset + 2 ^ 31 := by
    intro t ht
    have := h.window t (hp.perm.mem_iff.mpr (.tail _ ht))
    have := hp.first t ht
    omega
  have htail : s.offset + (room : Int) ≤ max high (s.offset + room) ∧
      max high (s.offset + room) < s.offset + room + 2 ^ 31 := by omega
  have high_le : max high (s.offset + room) ≤ q.sendOffset := by omega
  have near : q.sendOffset < max high (s.offset + room) + 2 ^ 31 := by omega
  refine { live := h.live, shut := h.shut, records := ?_, whole := h.whole,
           ordered := BinHeap.push_ordered (weak _) window htail hp.ordered, window := ?_, nonneg := by omega,
           high_le := high_le, near := near, held_le := ?_, covered := ?_, done_lt := ?_ }
  · refine ((h.records.perm perm).split hlen).perm ?_
    exact ((List.Perm.cons _ List.perm_middle.symm).trans (push.append_right _).symm)
  · intro t ht
    rcases (BinHeap.mem_push Seg.less).mp ht with rfl | ht
    · exact htail
    · exact window t ht
  · rintro t (_ | ⟨_, ht⟩)
    · simp only [Seg.len, length_take]; omega
    · have := h.held_le t ht
      omega
  · intro p h0 hp'
    rcases h.covered p h0 hp' with ⟨t, ht, hc⟩ | hd
    · refine .inl ?_
      rcases List.mem_cons.mp (perm.mem_iff.mp ht) with rfl | ht
      · obtain ⟨hc1, hc2⟩ := hc
        simp only [Seg.len] at hc2
        by_cases e : p < t.offset + room
        · refine ⟨_, mem_append_right _ (.head _), hc1, ?_⟩
          simp only [Seg.len, length_take]; omega
        · refine ⟨_, mem_append_left _ ((BinHeap.mem_push Seg.less).mpr (.inl rfl)), by simp only; omega, ?_⟩
          simp only [Seg.len, length_drop]; omega
      · rcases List.mem_append.mp ht with ht | ht
        · exact ⟨t, mem_append_left _ ((BinHeap.mem_push Seg.less).mpr (.inr ht)), hc⟩
        · exact ⟨t, mem_append_right _ (.tail _ ht), hc⟩
    · exact .inr hd
  · intro p hd
    have := h.done_lt p hd
    omega

theorem Sends.perm (h : Sends q held high done) (p : held.Perm held') : Sends q held' high done where
  live := h.live
  shut := h.shut
  records := h.records.perm (p.append_left _)
  whole := h.whole
  ordered := h.ordered
  window := h.window
  nonneg := h.nonneg
  high_le := h.high_le
  near := h.near
  held_le s hs := h.held_le s (p.mem_iff.mpr hs)
  covered x h0 hx := by
    rcases h.covered x h0 hx with ⟨s, hs, hc⟩ | hd
    · exact .inl ⟨s, (p.append_left _).mem_iff.mp hs, hc⟩
    · exact .inr hd
  done_lt := h.done_lt

theorem Sends.weaken_done {done' : Int → Prop} (h : Sends q held high done) (hd : ∀ p, done p → done' p)
    (hlt : ∀ p, done' p → p < high) : Sends q held high done' :=
  { h with
    covered := fun p h0 hp => (h.covered p h0 hp).imp_right (hd p)
    done_lt := hlt }

theorem Sends.length (h : Sends q held high done) : q.sendOffset ≤ (written q.log).length := by
  obtain ⟨pre, hw, hp⟩ := h.whole
  rw [hw, length_append]; omega

/-- After a shutdown nothing waits: the stream ends at `sendOffset`. -/
theorem Sends.length_shut (h : Sends q held high done) {p : Progress} (hs : q.state = .amShutdown p) :
    ((written q.log).length : Int) = q.sendOffset := by
  obtain ⟨pre, hw, hp⟩ := h.whole
  have hb : q.waiting = [] := by simp only [T.waiting, h.shut p hs]
  rw [hw, hb, append_nil, hp]

/-- What popping contiguous records from position `offset` on gives. -/
structure Pulls (q : T) (held : List Seg) (high : Int) (done : Int → Prop) (offset : Int) (room : Nat)
    (r : List Seg × T) : Prop where
  sends : Sends r.2 (r.1 ++ held) (max high (offset + lens r.1)) done
  frame : Frame q r.2
  lies : At (written r.2.log) offset (payload r.1)
  fits : lens r.1 ≤ room
  taken : ∀ p, offset ≤ p → p < offset + lens r.1 → (∃ s ∈ q.retransmit, s.Covers p) ∨ q.sendOffset ≤ p
  inside : ∀ s ∈ r.1, ∀ p, s.Covers p → offset ≤ p ∧ p < offset + lens r.1
  above : ∀ base, (∀ s ∈ q.retransmit, base ≤ s.offset) → base ≤ q.sendOffset → ∀ s ∈ r.1, base ≤ s.offset

theorem pulls_nothing (h : Sends q held high done) {offset : Int} (room : Nat) (h0 : 0 ≤ offset) (hle : offset ≤ high) :
    Pulls q held high done offset room ([], q) where
  sends := by
    have e : max high (offset + lens []) = high := by rw [lens_nil]; omega
    rw [e]; exact h
  frame := .refl q
  lies := at_nil h0 (Int.le_trans (Int.le_trans hle h.high_le) h.length)
  fits := by simp
  taken p h1 h2 := by rw [lens_nil] at h2; omega
  inside := nofun
  above _ _ _ := nofun

/-- A run goes on where its first record ends. -/
theorem Pulls.cons {s : Seg} {segs : List Seg} {q'' : T} {offset : Int} {room : Nat}
    (h : Pulls q held high done offset room ([s], q'))
    (h' : Pulls q' (s :: held) (max high (offset + s.len)) done (offset + s.len) (room - s.data.length) (segs, q''))
    (hq : ∀ t ∈ q'.retransmit, t ∈ q.retransmit ∨ q.sendOffset ≤ t.offset) :
    Pulls q held high done offset room (s :: segs, q'') where
  sends := by
    have e : max (max high (offset + s.len)) (offset + s.len + lens segs) = max high (offset + lens (s :: segs)) := by
      have := lens_nonneg segs
      rw [lens_cons]; omega
    rw [← e]
    exact h'.sends.perm List.perm_middle
  frame := h.frame.trans h'.frame
  lies := by
    rw [payload_cons]
    refine At.append ?_ h'.lies
    have := h.lies.mono h'.frame.written
    simpa using this
  fits := by
    have h1 := h.fits
    have h2 := h'.fits
    simp only [lens_cons, lens_nil, Seg.len] at h1 h2 ⊢
    omega
  taken p h1 h2 := by
    rw [lens_cons] at h2
    by_cases e : p < offset + s.len
    · exact h.taken p h1 (by simpa using e)
    · rcases h'.taken p (by omega) (by simp only; omega) with ⟨t, ht, hc⟩ | hp
      · rcases hq t ht with ht | ht
        · exact .inl ⟨t, ht, hc⟩
        · exact .inr (Int.le_trans ht hc.1)
      · exact .inr (Int.le_trans h.frame.sendOffset hp)
  inside := by
    have h0 := lens_nonneg segs
    have h1 := s.len_nonneg
    rintro t (_ | ⟨_, ht⟩) p hc
    · have := h.inside s (.head _) p hc
      simp only [lens_cons, lens_nil] at this ⊢
      omega
    · have := h'.inside t ht p hc
      simp only [lens_cons] at this ⊢
      omega
  above base hb hle := by
    rintro t (_ | ⟨_, ht⟩)
    · exact h.above base hb hle s (.head _)
    · refine h'.above base (fun t ht => ?_) (Int.le_trans hle h.frame.sendOffset) t ht
      rcases hq t ht with ht | ht
      · exact hb t ht
      · exact Int.le_trans hle ht

/-- The record popped at `offset` starts there, unless it is empty. -/
structure Head (q : T) (offset high : Int) (s : Seg) (rest : List Seg) : Prop where
  popped : Popped q s rest
  starts : s.data ≠ [] → s.offset = offset
  high : max high (s.offset + s.len) = max high (offset + s.len)
  next : ∀ t ∈ rest, t.data ≠ [] → offset + s.len ≤ t.offset

theorem Seg.len_eq_zero {s : Seg} (h : s.data = []) : s.len = 0 := by simp [Seg.len, h]

theorem Sends.head (h : Sends q held high done) {offset : Int} (hle : offset ≤ high) (hnear : high < offset + 2 ^ 31)
    (hfirst : ∀ s ∈ q.retransmit, s.data ≠ [] → offset ≤ s.offset) {s : Seg} {rest : List Seg}
    (hpop : BinHeap.popIf Seg.less (fun s => Key.le s.offset offset) q.retransmit = some (s, rest)) :
    Head q offset high s rest := by
  obtain ⟨hkey, hpop⟩ := BinHeap.popIf_some _ hpop
  have hp := h.popped hpop
  have hs := hp.perm.mem_iff.mpr (.head _)
  have hw := h.window s hs
  have hso : s.offset ≤ offset := (Key.le_iff (by omega) (by omega)).mp hkey
  have heq : s.data ≠ [] → s.offset = offset := fun hne => Int.le_antisymm hso (hfirst s hs hne)
  refine ⟨hp, heq, ?_, fun t ht hne => ?_⟩
  · by_cases he : s.data = []
    · rw [Seg.len_eq_zero he]; omega
    · rw [heq he]
  · have htf := hfirst t (hp.perm.mem_iff.mpr (.tail _ ht)) hne
    by_cases he : s.data = []
    · rw [Seg.len_eq_zero he]; omega
    · have hap := (List.pairwise_cons.mp (h.records.apart.perm (hp.perm.append_right held) Seg.Apart.symm)).1 t
        (mem_append_left _ ht)
      have := heq he
      have := Seg.len_pos hne
      rcases hap with e | e | e | e
      · exact absurd e he
      · exact absurd e hne
      · omega
      · omega

theorem Head.lies {offset : Int} {s : Seg} {rest : List Seg} {w : Bytes} (hd : Head q offset high s rest)
    (hl : At w s.offset s.data) (h0 : 0 ≤ offset) (hle : offset ≤ w.length) : At w offset s.data := by
  by_cases he : s.data = []
  · rw [he]; exact at_nil h0 hle
  · rw [← hd.starts he]; exact hl

theorem Head.covers {offset : Int} {s : Seg} {rest : List Seg} (hd : Head q offset high s rest) {p : Int}
    (h1 : offset ≤ p) (h2 : p < offset + s.len) : ∃ t ∈ q.retransmit, t.Covers p := by
  have hne : s.data ≠ [] := fun e => by rw [Seg.len_eq_zero e] at h2; omega
  have := hd.starts hne
  exact ⟨s, hd.popped.perm.mem_iff.mpr (.head _), by omega, by omega⟩

/-- A whole record is consumed, and a writer may run. -/
theorem Head.consumed {offset : Int} {s : Seg} {rest : List Seg} (hd : Head q offset high s rest)
    {room : Nat} (h0 : 0 ≤ offset) (hle : offset ≤ high) (hlen : s.data.length ≤ room) {q1 : T} (h1 : q1 = { q with retransmit := rest }) {q2 : T}
    (hs2 : Sends q2 (s :: held) (max high (offset + s.len)) done) (hx2 : Extends q1 q2) :
    Pulls q held high done offset room ([s], q2) := by
  subst h1
  have hf : Frame q { q with retransmit := rest } :=
    ⟨rfl, rfl, Int.le_refl _, .inl rfl, ⟨[], (append_nil _).symm, nofun⟩, fun _ => rfl⟩
  refine ⟨by simpa using hs2, hf.trans hx2.toFrame, ?_, ?_, fun p hp1 hp2 => .inl (hd.covers hp1 (by simpa using hp2)),
    ?_, fun base hb _ t ht => ?_⟩
  · have := hs2.high_le
    have := hs2.length
    have := s.len_nonneg
    have hl := hd.lies (hs2.records.lies s (mem_append_right _ (.head _))) h0 (by omega)
    simpa using hl
  · simp only [lens_cons, lens_nil, Seg.len]; omega
  · rintro t (_ | ⟨_, ht⟩) p ⟨hc1, hc2⟩
    · have := hd.starts fun e => by rw [Seg.len_eq_zero e] at hc2; omega
      simp only [lens_cons, lens_nil]; omega
    · cases ht
  · rw [List.mem_singleton.mp ht]
    exact hb s (hd.popped.perm.mem_iff.mpr (.head _))

theorem pullContiguousSegments_spec (fuel : Nat) (h : Sends q held high done) {room : Nat} {offset : Int}
    {react : List (List Op)} (hroom : room ≤ 4092) (h0 : 0 ≤ offset) (hle : offset ≤ high)
    (hnear : high < offset + 2 ^ 31) (hfirst : ∀ s ∈ q.retransmit, s.data ≠ [] → offset ≤ s.offset)
    (hr : ∀ ops ∈ react, Op.reset ∉ ops) :
    Pulls q held high done offset room (pullContiguousSegments fuel q room offset react) := by
  induction fuel generalizing q held high room offset react with
  | zero => exact pulls_nothing h room h0 hle
  | succ fuel ih =>
    simp only [pullContiguousSegments]
    split
    · exact pulls_nothing h room h0 hle
    · rename_i s rest hpop
      have hd := h.head hle hnear hfirst hpop
      have hlen0 := s.len_nonneg
      split
      · rename_i hlen
        have htaken := h.taken hd.popped (by unfold Seg.len; omega)
        rw [hd.high] at htaken
        obtain ⟨hs2, hx2, hr2⟩ := makeProgressThen_spec htaken hr
        have h1 := hd.consumed h0 hle hlen rfl hs2 hx2
        have hq : ∀ t ∈ (makeProgressThen { q with retransmit := rest } react).1.retransmit,
            t ∈ rest ∨ q.sendOffset ≤ t.offset := hx2.queued
        split
        · exact h1
        · refine h1.cons (ih hs2 (by omega) (by omega) (by omega) (by omega) ?_ hr2) fun t ht => ?_
          · intro t ht hne
            rcases hq t ht with ht | ht
            · exact hd.next t ht hne
            · have := htaken.high_le
              simp only at this; omega
          · rcases hq t ht with ht | ht
            · exact .inl (hd.popped.perm.mem_iff.mpr (.tail _ ht))
            · exact .inr ht
      · -- the record is longer than the room, so it is not empty
        rename_i hlen
        have hstart := hd.starts fun e => hlen (by rw [e]; exact Nat.zero_le _)
        have hcut := h.cut hd.popped (show room ≤ s.data.length by omega) hroom
        have hlies := hcut.records.lies _ (mem_append_right _ (.head _))
        have hl : lens [⟨q.fresh + 1, offset, s.data.take room⟩] = room := by
          simp only [lens_cons, lens_nil, Seg.len, length_take]; omega
        rw [hstart] at hcut hlies
        refine ⟨?_, ⟨rfl, rfl, Int.le_refl _, .inl rfl, ⟨[], (append_nil _).symm, nofun⟩, fun _ => rfl⟩, ?_,
          Int.le_of_eq hl, ?_, ?_, fun base hb _ t ht => ?_⟩
        · rw [hl]; exact hcut
        · simpa using hlies
        · intro p hp1 hp2
          rw [hl] at hp2
          exact .inl (hd.covers hp1 (by unfold Seg.len; omega))
        · intro t ht p hc
          rw [List.mem_singleton.mp ht] at hc
          simpa [lens, Seg.Covers] using hc
        · rw [List.mem_singleton.mp ht, ← hstart]
          exact hb s (hd.popped.perm.mem_iff.mpr (.head _))

/-- Where a pull starts, the stream has not been acknowledged and no record lies before. -/
structure Start (q : T) (high : Int) : Prop where
  nonneg : 0 ≤ pullOffset q
  le : pullOffset q ≤ high
  near : high < pullOffset q + 2 ^ 31
  first : ∀ s ∈ q.retransmit, pullOffset q ≤ s.offset

theorem Sends.start (h : Sends q held high done) : Start q high := by
  cases hr : q.retransmit with
  | nil =>
    have hd := h.drained hr
    have e : pullOffset q = q.sendOffset := by simp only [pullOffset, hr, List.head?_nil]
    have := h.nonneg
    exact ⟨by omega, by omega, by omega, fun s hs => by rw [hr] at hs; cases hs⟩
  | cons s rest =>
    have e : pullOffset q = s.offset := by simp only [pullOffset, hr, List.head?_cons]
    have hs : s ∈ q.retransmit := by rw [hr]; exact .head _
    have hw := h.window s hs
    refine ⟨?_, by omega, by omega, fun t ht => ?_⟩
    · rw [e]; exact (h.records.lies s (mem_append_left _ hs)).nonneg
    · have ht' := h.window t ht
      have hmin := BinHeap.top_min (weak high) h.window h.ordered (r := s) (by rw [hr]; rfl) ht
      rw [e]
      exact (Key.lt_false_iff (by omega) (by omega)).mp hmin

theorem pullSegments_spec (h : Sends q held high done) {room : Nat} (hroom : room ≤ 4092) {react : List (List Op)}
    (hr : ∀ ops ∈ react, Op.reset ∉ ops) :
    Pulls q held high done (pullOffset q) room (pullSegments q room react) := by
  have st := h.start
  unfold pullSegments
  split
  · exact pulls_nothing h room st.nonneg st.le
  · rename_i s hs
    have e : pullOffset q = s.offset := by simp only [pullOffset, hs]
    rw [← e]
    exact pullContiguousSegments_spec _ h hroom st.nonneg st.le st.near (fun t ht _ => st.first t ht) hr

theorem pullLimit_le (q : T) (room : Nat) : pullLimit q room ≤ 4092 := Nat.min_le_right _ _

/-- The queue a pull leaves, once it has taken `segments` and `q1` is left. -/
def T.sent (q1 : T) (state : State) (segments : List Seg) : T :=
  (updateRTS { q1 with inflight := segments.foldl (BinHeap.push Seg.less) q1.inflight, state := state,
                       inflightBytes := q1.inflightBytes + lens segments,
                       retransmitBytes := q1.retransmitBytes - lens segments }).ran
    [.event (.inflightBytes (lens segments)), .event (.retransmitBytes (-lens segments))]

theorem T.sent_log (q1 : T) (state : State) (segments : List Seg) :
    ∃ l, Plain l ∧ (q1.sent state segments).log = q1.log ++ l := by
  refine ⟨[_, _, _], ?_, append_assoc _ [_] [_, _]⟩
  rintro o (_ | ⟨_, _ | ⟨_, _ | ⟨_, ho⟩⟩⟩)
  · exact .inl ⟨_, rfl⟩
  · exact .inl ⟨_, rfl⟩
  · exact .inl ⟨_, rfl⟩
  · cases ho

theorem pull_eq (hs : q.state ≠ .amReset) (id room : Nat) (react : List (List Op)) :
    pull q id room react =
      (let r := pullSegments q (pullLimit q room) react
       let a := attachEOF r.2.state (word32 (pullOffset q + lens r.1) = word32 r.2.sendOffset)
       (dataSegment id a.1 (pullOffset q) r.1, r.2.sent a.2 r.1)) := by
  simp only [pull, hs, if_false]
  exact Prod.ext rfl (T.ran_ran _ [_] [_])

theorem attachEOF_cases (s : State) (atEnd : Bool) :
    (attachEOF s atEnd = (false, s)) ∨
    (atEnd = true ∧ (∃ p, s = .amShutdown p ∧ p ≠ .ackd) ∧ attachEOF s atEnd = (true, .amShutdown .inflight)) := by
  cases s with
  | amConnected => exact .inl rfl
  | amReset => exact .inl rfl
  | amShutdown p =>
    cases atEnd <;> cases p
    all_goals first
    | exact .inl rfl
    | exact .inr ⟨rfl, ⟨_, rfl, by decide⟩, rfl⟩

theorem foldl_push_perm (l h : List Seg) : (l.foldl (BinHeap.push Seg.less) h).Perm (l ++ h) := by
  induction l generalizing h with
  | nil => exact .refl _
  | cons s l ih =>
    exact (ih _).trans (((BinHeap.push_perm _ h s).append_left l).trans List.perm_middle)

/-- What a pull of a queue that is not reset gives. -/
structure Pull (q : T) (held : List Seg) (high : Int) (done : Int → Prop) (id room : Nat) (segments : List Seg)
    (eof : Bool) (r : Pulled × T) : Prop where
  segment : r.1 = dataSegment id eof (pullOffset q) segments
  sends : Sends r.2 (segments ++ held) (max high (pullOffset q + lens segments)) done
  inflight : r.2.inflight.Perm (segments ++ q.inflight)
  barrier : r.2.barrier = q.barrier
  written : written q.log <+: written r.2.log
  lies : At (OutStreamQueue.written r.2.log) (pullOffset q) (payload segments)
  fits : lens segments ≤ pullLimit q room
  taken : ∀ p, pullOffset q ≤ p → p < pullOffset q + lens segments →
    (∃ s ∈ q.retransmit, s.Covers p) ∨ q.sendOffset ≤ p
  inside : ∀ s ∈ segments, ∀ p, s.Covers p → pullOffset q ≤ p ∧ p < pullOffset q + lens segments
  above : ∀ s ∈ segments, pullOffset q ≤ s.offset
  frozen : q.state ≠ .amConnected → OutStreamQueue.written r.2.log = OutStreamQueue.written q.log
  shutdowner : ∀ cb, Out.shutdowner cb true ∈ r.2.log → Out.shutdowner cb true ∈ q.log
  /-- The end of the stream goes out only behind all of it. -/
  ends : eof = true → (∃ p, r.2.state = .amShutdown p) ∧ pullOffset q + lens segments = r.2.sendOffset
  shut : ∀ p, q.state = .amShutdown p → ∃ p', r.2.state = .amShutdown p'

theorem Frame.shutdowner (h : Frame q q') {cb : Nat} (hm : Out.shutdowner cb true ∈ q'.log) :
    Out.shutdowner cb true ∈ q.log := by
  obtain ⟨l, e, hl⟩ := h.log
  rw [e] at hm
  exact (List.mem_append.mp hm).resolve_right (hl cb)

theorem Frame.shut (h : Frame q q') {p : Progress} (hs : q.state = .amShutdown p) : q'.state = .amShutdown p := by
  rcases h.state with e | ⟨e, -⟩
  · exact e.trans hs
  · rw [hs] at e; cases e

/-- The bookkeeping at the end of a pull. -/
theorem Pulls.sent {segments : List Seg} {q1 : T} {room : Nat} (st : Start q high) (hle : pullOffset q ≤ q.sendOffset)
    (hp : Pulls q held high done (pullOffset q) (pullLimit q room) (segments, q1)) {id : Nat} {eof : Bool} {state : State}
    (hlive : state ≠ .amReset) (hstate : ∀ p, state = .amShutdown p → ∃ p', q1.state = .amShutdown p')
    (hshut : ∀ p, q1.state = .amShutdown p → ∃ p', state = .amShutdown p')
    (hends : eof = true → (∃ p, state = .amShutdown p) ∧ pullOffset q + lens segments = q1.sendOffset) :
    Pull q held high done id room segments eof (dataSegment id eof (pullOffset q) segments, q1.sent state segments) := by
  obtain ⟨l, hl, hlog⟩ := q1.sent_log state segments
  have hs := hp.sends
  have hwr : OutStreamQueue.written (q1.sent state segments).log = OutStreamQueue.written q1.log := by
    rw [hlog, written_append, hl.quiet.written, append_nil]
  refine { segment := rfl, sends := ?_, inflight := ?_, barrier := hp.frame.barrier, written := ?_, lies := ?_,
           fits := hp.fits, taken := hp.taken, inside := hp.inside, above := hp.above _ st.first hle,
           frozen := fun hs => hwr.trans (hp.frame.frozen hs), shutdowner := ?_, ends := hends, shut := ?_ }
  · refine { live := hlive, shut := fun p e => ?_, records := ?_, whole := ?_, ordered := hs.ordered,
             window := hs.window, nonneg := hs.nonneg, high_le := hs.high_le, near := hs.near,
             held_le := hs.held_le, covered := hs.covered, done_lt := hs.done_lt }
    · obtain ⟨p', e'⟩ := hstate p e
      exact hs.shut p' e'
    · rw [hwr]; exact hs.records
    · rw [hwr]; exact hs.whole
  · exact (foldl_push_perm segments q1.inflight).trans (.of_eq (by rw [hp.frame.inflight]))
  · rw [hwr]; exact hp.frame.written
  · rw [hwr]; exact hp.lies
  · intro cb hm
    rw [hlog] at hm
    exact hp.frame.shutdowner ((List.mem_append.mp hm).resolve_right (hl.not_shutdowner cb true))
  · intro p e
    exact hshut p (hp.frame.shut e)

theorem Sends.pull (h : Sends q held high done) (id room : Nat) {react : List (List Op)}
    (hr : ∀ ops ∈ react, Op.reset ∉ ops) :
    ∃ segments eof, Pull q held high done id room segments eof (pull q id room react) := by
  have hp := pullSegments_spec h (pullLimit_le q room) hr
  have st := h.start
  rw [pull_eq h.live]
  generalize pullSegments q (pullLimit q room) react = r at hp ⊢
  obtain ⟨segments, q1⟩ := r
  have hlive := hp.sends.live
  have hle := Int.le_trans st.le h.high_le
  rcases attachEOF_cases q1.state (word32 (pullOffset q + lens segments) = word32 q1.sendOffset) with
    e | ⟨hend, ⟨p, hs, -⟩, e⟩
  · simp only [e]
    exact ⟨_, _, hp.sent st hle hlive (fun p hp => ⟨p, hp⟩) (fun p hp => ⟨p, hp⟩) nofun⟩
  · simp only [e]
    refine ⟨_, _, hp.sent st hle State.noConfusion (fun _ _ => ⟨p, hs⟩) (fun _ _ => ⟨_, rfl⟩) fun _ => ⟨⟨_, rfl⟩, ?_⟩⟩
    have h1 := hp.sends.high_le
    have h2 := hp.sends.near
    have h3 := lens_nonneg segments
    have h4 := st.near
    have hw := of_decide_eq_true hend
    simp only [word32] at hw h1 h2
    omega

/-! ## Acknowledging -/

theorem heapRemove_perm {h : List Seg} {x : Seg} (hx : x ∈ h) (hn : (h.map Seg.ref).Nodup) :
    h.Perm (x :: heapRemove h x) := by
  unfold heapRemove
  split
  · rename_i i hi
    obtain ⟨hlt, he, -⟩ := List.findIdx?_eq_some_iff_getElem.mp hi
    have : h[i] = x := List.inj_on_of_nodup_map hn (List.getElem_mem hlt) hx (beq_iff_eq.mp he)
    exact BinHeap.removeAt_perm _ (by rw [List.getElem?_eq_getElem hlt, this])
  · rename_i hi
    have := List.findIdx?_eq_none_iff.mp hi x hx
    simp at this

theorem foldl_heapRemove_perm {l h rest : List Seg} (hp : h.Perm (l ++ rest)) (hn : (h.map Seg.ref).Nodup) :
    (l.foldl heapRemove h).Perm rest := by
  induction l generalizing h with
  | nil => exact hp
  | cons s l ih =>
    have h1 := heapRemove_perm (hp.mem_iff.mpr (.head _)) hn
    refine ih (List.Perm.cons_inv (h1.symm.trans hp)) ?_
    exact (List.nodup_cons.mp ((h1.map Seg.ref).nodup_iff.mp hn)).2

theorem ackState_cases (s : State) (eof ok : Bool) :
    ackState s eof ok = s ∨ ∃ p p', s = .amShutdown p ∧ ackState s eof ok = .amShutdown p' := by
  cases s with
  | amConnected => cases eof <;> exact .inl rfl
  | amReset => cases eof <;> exact .inl rfl
  | amShutdown p =>
    cases p <;> cases eof
    all_goals first
    | exact .inl rfl
    | exact .inr ⟨_, _, rfl, rfl⟩

theorem ackState_live {s : State} (h : s ≠ .amReset) (eof ok : Bool) : ackState s eof ok ≠ .amReset := by
  rcases ackState_cases s eof ok with e | ⟨p, p', -, e⟩
  · rw [e]; exact h
  · rw [e]; exact State.noConfusion

theorem checkDone_cases (q : T) :
    (checkDone q = q) ∨ (amDone q = true ∧ ∃ l, Quiet l ∧ checkDone q = { q.ran l with shutdowner := none }) := by
  unfold checkDone
  split
  · rename_i hd
    refine .inr ⟨hd, .event .becameComplete :: (q.shutdowner.map (Out.shutdowner · true)).toList, ?_, ?_⟩
    · intro b
      cases q.shutdowner <;> simp
    · rw [runShutdowner_eq, callback_eq]
      simp only [T.ran, append_assoc, List.cons_append, List.nil_append]
  · exact .inl rfl

/-- What the acknowledgement callback leaves once it has dropped the copy from flight. -/
def T.landed (q : T) (segments : List Seg) (eof ok : Bool) (retransmit : List Seg) : T :=
  let len := lens segments
  { q with inflight := segments.foldl heapRemove q.inflight, log := q.log ++ [.event (.inflightBytes (-len))],
           state := ackState q.state eof ok, bytesSent := q.bytesSent + (if ok then len else 0),
           inflightBytes := q.inflightBytes - len,
           retransmitBytes := q.retransmitBytes + (if ok then 0 else len), retransmit := retransmit }

theorem ack_true_eq (q : T) (segments : List Seg) (eof : Bool) :
    ack q (.data segments eof) true = checkDone (makeProgress (q.landed segments eof true q.retransmit)) := by
  simp [ack, T.landed, callback, emit]

theorem ack_false_eq (hlive : q.state ≠ .amReset) (segments : List Seg) (eof : Bool) :
    ack q (.data segments eof) false =
      updateRTS ((q.landed segments eof false (segments.foldl (BinHeap.push Seg.less) q.retransmit)).ran
        [.event (.retransmitBytes (lens segments))]) := by
  have := ackState_live hlive eof false
  simp [ack, T.landed, callback, emit, T.ran, this]

variable {segments : List Seg}

/-- What an acknowledgement of a copy with records `segments` leaves. -/
structure Acked (q : T) (rest : List Seg) (high : Int) (done : Int → Prop) (q' : T) : Prop where
  sends : Sends q' rest high done
  inflight : q'.inflight.Perm rest
  barrier : q'.barrier = q.barrier
  written : OutStreamQueue.written q'.log = OutStreamQueue.written q.log
  shutdowner : ∀ cb, Out.shutdowner cb true ∈ q'.log →
    Out.shutdowner cb true ∈ q.log ∨ rest = [] ∧ q'.retransmit = [] ∧ ∃ p, q'.state = .amShutdown p
  shut : ∀ p, q.state = .amShutdown p → ∃ p', q'.state = .amShutdown p'

theorem refs_nodup (h : Sends q held high done) (hin : q.inflight.Perm held) : (q.inflight.map Seg.ref).Nodup := by
  have := h.records.refs
  rw [List.map_append] at this
  exact (hin.map Seg.ref).nodup_iff.mpr (List.nodup_append.mp this).2.1

theorem landed_written (q : T) (eof ok : Bool) (r : List Seg) :
    written (q.landed segments eof ok r).log = written q.log := by simp [T.landed]

/-- Acknowledged records are dropped: their positions are done. -/
theorem Sends.landed {rest : List Seg} (h : Sends q (segments ++ rest) high done) (eof : Bool) :
    Sends (q.landed segments eof true q.retransmit) rest high fun p => done p ∨ ∃ s ∈ segments, s.Covers p where
  live := ackState_live h.live eof true
  shut p hp := by
    rcases ackState_cases q.state eof true with e | ⟨p', _, e, -⟩
    · exact h.shut p (e ▸ hp)
    · exact h.shut p' e
  records := by
    rw [landed_written]
    exact h.records.sublist ((List.sublist_append_right segments rest).append_left _)
  whole := by rw [landed_written]; exact h.whole
  ordered := h.ordered
  window := h.window
  nonneg := h.nonneg
  high_le := h.high_le
  near := h.near
  held_le s hs := h.held_le s (mem_append_right _ hs)
  covered p h0 hp := by
    rcases h.covered p h0 hp with ⟨s, hs, hc⟩ | hd
    · rcases List.mem_append.mp hs with hs | hs
      · exact .inl ⟨s, mem_append_left _ hs, hc⟩
      · rcases List.mem_append.mp hs with hs | hs
        · exact .inr (.inr ⟨s, hs, hc⟩)
        · exact .inl ⟨s, mem_append_right _ hs, hc⟩
    · exact .inr (.inl hd)
  done_lt p hp := by
    rcases hp with hp | ⟨s, hs, hc⟩
    · exact h.done_lt p hp
    · exact Int.lt_of_lt_of_le hc.2 (h.held_le s (mem_append_left _ hs))

theorem Sends.acknowledge {rest : List Seg} (h : Sends q (segments ++ rest) high done)
    (hin : q.inflight.Perm (segments ++ rest)) (eof : Bool) :
    Acked q rest high (fun p => done p ∨ ∃ s ∈ segments, s.Covers p) (ack q (.data segments eof) true) := by
  have hmp := (h.landed eof).makeProgress
  have hx := makeProgress_extends (q.landed segments eof true q.retransmit)
  have hperm : (OutStreamQueue.makeProgress (q.landed segments eof true q.retransmit)).inflight.Perm rest := by
    rw [hx.inflight]
    exact foldl_heapRemove_perm hin (refs_nodup h hin)
  have hwr : OutStreamQueue.written (OutStreamQueue.makeProgress (q.landed segments eof true q.retransmit)).log =
      OutStreamQueue.written q.log := by
    rw [makeProgress_written, landed_written]
  have hsd : ∀ cb, Out.shutdowner cb true ∈ (OutStreamQueue.makeProgress (q.landed segments eof true q.retransmit)).log →
      Out.shutdowner cb true ∈ q.log := by
    intro cb hm
    have := hx.toFrame.shutdowner hm
    simpa [T.landed] using this
  have hsh : ∀ p, q.state = .amShutdown p →
      ∃ p', (OutStreamQueue.makeProgress (q.landed segments eof true q.retransmit)).state = .amShutdown p' := by
    intro p e
    have : ∃ p', (q.landed segments eof true q.retransmit).state = .amShutdown p' := by
      rcases ackState_cases q.state eof true with e' | ⟨_, p', -, e'⟩
      · exact ⟨p, e'.trans e⟩
      · exact ⟨p', e'⟩
    obtain ⟨p', e'⟩ := this
    exact ⟨p', hx.toFrame.shut e'⟩
  rw [ack_true_eq]
  rcases checkDone_cases (OutStreamQueue.makeProgress (q.landed segments eof true q.retransmit)) with
    e | ⟨hd, l, hl, e⟩
  · rw [e]
    exact ⟨hmp, hperm, hx.barrier, hwr, fun cb hm => .inl (hsd cb hm), hsh⟩
  · rw [e]
    simp only [amDone, Bool.and_eq_true, decide_eq_true_eq, List.isEmpty_iff] at hd
    obtain ⟨⟨hd1, hd2⟩, hd3⟩ := hd
    rw [hd2] at hperm
    refine ⟨{ hmp.ran hl with }, ?_, hx.barrier, ?_, fun cb hm => .inr ⟨hperm.nil_eq.symm, hd3, _, hd1⟩, hsh⟩
    · show List.Perm (OutStreamQueue.makeProgress _).inflight _
      rw [hd2]; exact hperm
    · rw [T.ran_log, written_append, hl.written, append_nil, hwr]

theorem foldl_push_ordered {r : List Seg} (hr : ∀ s ∈ r, s.offset ≤ high ∧ high < s.offset + 2 ^ 31)
    (hs : ∀ s ∈ segments, s.offset ≤ high ∧ high < s.offset + 2 ^ 31) (ho : BinHeap.Ordered Seg.less r) :
    BinHeap.Ordered Seg.less (segments.foldl (BinHeap.push Seg.less) r) := by
  induction segments generalizing r with
  | nil => exact ho
  | cons s l ih =>
    refine ih (fun t ht => ?_) (fun t ht => hs t (.tail _ ht)) (BinHeap.push_ordered (weak high) hr (hs s (.head _)) ho)
    rcases (BinHeap.mem_push Seg.less).mp ht with rfl | ht
    · exact hs t (.head _)
    · exact hr t ht

/-- A lost copy's records go back into the retransmit heap. -/
theorem Sends.requeued {rest : List Seg} (h : Sends q (segments ++ rest) high done) (eof : Bool)
    (hw : ∀ s ∈ segments, high < s.offset + 2 ^ 31) :
    Sends (q.landed segments eof false (segments.foldl (BinHeap.push Seg.less) q.retransmit)) rest high done := by
  have hpush := foldl_push_perm segments q.retransmit
  have perm : (q.retransmit ++ (segments ++ rest)).Perm (segments.foldl (BinHeap.push Seg.less) q.retransmit ++ rest) := by
    rw [← append_assoc]
    exact (List.perm_append_comm.trans hpush.symm).append_right rest
  have hws : ∀ s ∈ segments, s.offset ≤ high ∧ high < s.offset + 2 ^ 31 := by
    intro s hs
    have := h.held_le s (mem_append_left _ hs)
    have := s.len_nonneg
    exact ⟨by omega, hw s hs⟩
  refine { live := ackState_live h.live eof false, shut := ?_, records := ?_, whole := ?_,
           ordered := foldl_push_ordered h.window hws h.ordered, window := ?_, nonneg := h.nonneg,
           high_le := h.high_le, near := h.near, held_le := fun s hs => h.held_le s (mem_append_right _ hs),
           covered := ?_, done_lt := h.done_lt }
  · intro p hp
    rcases ackState_cases q.state eof false with e | ⟨p', _, e, -⟩
    · exact h.shut p (e ▸ hp)
    · exact h.shut p' e
  · rw [landed_written]; exact h.records.perm perm
  · rw [landed_written]; exact h.whole
  · intro s hm
    rcases List.mem_append.mp (hpush.mem_iff.mp hm) with hm | hm
    · exact hws s hm
    · exact h.window s hm
  · intro p h0 hp
    rcases h.covered p h0 hp with ⟨s, hm, hc⟩ | hd
    · exact .inl ⟨s, perm.mem_iff.mp hm, hc⟩
    · exact .inr hd

theorem Sends.requeue {rest : List Seg} (h : Sends q (segments ++ rest) high done)
    (hin : q.inflight.Perm (segments ++ rest)) (eof : Bool) (hw : ∀ s ∈ segments, high < s.offset + 2 ^ 31) :
    Acked q rest high done (ack q (.data segments eof) false) := by
  have hs := h.requeued eof hw
  rw [ack_false_eq h.live]
  refine ⟨(hs.ran fun b hb => by simp at hb).updateRTS, foldl_heapRemove_perm hin (refs_nodup h hin), rfl, ?_, ?_, ?_⟩
  · rw [updateRTS_eq, T.ran_log, T.ran_log, written_append, written_append, landed_written, written_event,
      written_event, append_nil, append_nil]
  · intro cb hm
    rw [updateRTS_eq] at hm
    exact .inl (by simpa [T.landed] using hm)
  · intro p e
    rcases ackState_cases q.state eof false with e' | ⟨_, p', -, e'⟩
    · exact ⟨p, e'.trans e⟩
    · exact ⟨p', e'⟩

end BubbleStorm.Cusp.Stream.OutStreamQueue
