/-
  BubbleStorm.Cusp.Stream.SendLimit — how far a pull reaches.

  A queue is ready to send while its first record starts 2048 bytes before the barrier,
  and always while a shutdown is to be indicated; what a pull takes is bounded by the
  room it is given. `Keeps` is what makes the two meet: the room ends before the barrier
  does, or a byte before the barrier is not there to be sent.

  A writer that `pull` runs may reset the queue. What was pulled by then is sent all the
  same, so such a pull is compared with one whose writers stop short of the reset
  (`untilReset`).
-/

import BubbleStorm.Cusp.Stream.OutStreamReset

namespace BubbleStorm.Cusp.Stream.OutStreamQueue

open Span

/-! ## A reset inside a pull -/

/-- The writers' operations up to the first reset. -/
def untilReset : List (List Op) → List (List Op)
  | [] => []
  | ops :: react =>
    if Op.reset ∈ ops then ops.takeWhile (· ≠ .reset) :: react.map fun _ => [] else ops :: untilReset react

theorem length_untilReset (react : List (List Op)) : (untilReset react).length = react.length := by
  induction react with
  | nil => rfl
  | cons ops react ih =>
    simp only [untilReset]
    split
    · simp
    · simp [ih]

theorem reset_not_mem_untilReset (react : List (List Op)) : ∀ ops ∈ untilReset react, Op.reset ∉ ops := by
  induction react with
  | nil => nofun
  | cons ops react ih =>
    simp only [untilReset]
    split
    · rintro ops' (_ | ⟨_, hm⟩) hr
      · have := List.all_eq_true.mp List.all_takeWhile _ hr
        simp at this
      · obtain ⟨_, -, rfl⟩ := List.mem_map.mp hm
        cases hr
    · rename_i hn
      rintro ops' (_ | ⟨_, hm⟩)
      · exact hn
      · exact ih ops' hm

variable {q q' : T}

theorem exec_all_stops {ops : List Op} (h : Op.reset ∈ ops) (q : T) : Stopped (ops.foldl exec q) := by
  induction ops generalizing q with
  | nil => cases h
  | cons op ops ih =>
    rcases List.mem_cons.mp h with e | h
    · rw [List.foldl_cons, ← e]
      exact (stopped_reset q).exec_all ops
    · exact ih h _

theorem Stopped.pullContiguousSegments (h : Stopped q) (fuel room : Nat) (offset : Int) (react : List (List Op)) :
    pullContiguousSegments fuel q room offset react = ([], q) := by
  cases fuel with
  | zero => rfl
  | succ fuel => simp [OutStreamQueue.pullContiguousSegments, h.retransmit, BinHeap.popIf]

theorem makeProgressThen_untilReset (q : T) (react : List (List Op)) :
    makeProgressThen q (untilReset react) = ((makeProgressThen q react).1, untilReset (makeProgressThen q react).2) ∨
      Stopped (makeProgressThen q react).1 := by
  unfold makeProgressThen
  by_cases hp : progresses q = true
  · rw [if_pos hp, if_pos hp]
    cases react with
    | nil => exact .inl rfl
    | cons ops react =>
      simp only [untilReset, List.headD_cons, List.tail_cons]
      by_cases hr : Op.reset ∈ ops
      · exact .inr (exec_all_stops hr _)
      · rw [if_neg hr]
        exact .inl rfl
  · rw [if_neg hp, if_neg hp]
    exact .inl rfl

/-- A pull with a reset inside either never reaches it, or ends there. -/
theorem pullContiguousSegments_untilReset (fuel : Nat) (q : T) (room : Nat) (offset : Int) (react : List (List Op)) :
    pullContiguousSegments fuel q room offset react = pullContiguousSegments fuel q room offset (untilReset react) ∨
      (Stopped (pullContiguousSegments fuel q room offset react).2 ∧
        (pullContiguousSegments fuel q room offset react).1 <+:
          (pullContiguousSegments fuel q room offset (untilReset react)).1) := by
  induction fuel generalizing q room offset react with
  | zero => exact .inl rfl
  | succ fuel ih =>
    rw [OutStreamQueue.pullContiguousSegments, OutStreamQueue.pullContiguousSegments]
    split
    · exact .inl rfl
    · rename_i s rest hpop
      dsimp only
      by_cases hlen : s.data.length ≤ room
      · rw [if_pos hlen, if_pos hlen]
        rcases makeProgressThen_untilReset { q with retransmit := rest } react with e | hs
        · rw [e]
          generalize makeProgressThen { q with retransmit := rest } react = m
          by_cases hfull : s.data.length = room
          · rw [if_pos hfull, if_pos hfull]
            exact .inl rfl
          · rw [if_neg hfull, if_neg hfull]
            rcases ih m.1 (room - s.data.length) (offset + s.data.length) m.2 with e | ⟨hs, hp⟩
            · rw [e]
              exact .inl rfl
            · exact .inr ⟨hs, (List.prefix_cons_inj s).mpr hp⟩
        · -- the writer resets the queue: nothing follows
          refine .inr ?_
          generalize makeProgressThen { q with retransmit := rest } react = m at hs ⊢
          by_cases hfull : s.data.length = room
          · rw [if_pos hfull, if_pos hfull]
            exact ⟨hs, List.prefix_refl _⟩
          · rw [if_neg hfull, if_neg hfull, hs.pullContiguousSegments]
            exact ⟨hs, (List.prefix_cons_inj s).mpr List.nil_prefix⟩
      · rw [if_neg hlen, if_neg hlen]
        exact .inl rfl

theorem pullSegments_untilReset (q : T) (room : Nat) (react : List (List Op)) :
    pullSegments q room react = pullSegments q room (untilReset react) ∨
      (Stopped (pullSegments q room react).2 ∧
        (pullSegments q room react).1 <+: (pullSegments q room (untilReset react)).1) := by
  unfold pullSegments
  split
  · exact .inl rfl
  · rw [length_untilReset]
    exact pullContiguousSegments_untilReset _ _ _ _ _

/-! ## What a pull finds -/

/-- The bytes an operation hands over. -/
def Op.bytes : Op → Nat
  | .write buffer _ => buffer.val.length
  | _ => 0

/-- The bytes the writers hand over while a pull runs. -/
def handedOver (react : List (List Op)) : Nat := (react.map fun ops => (ops.map Op.bytes).sum).sum

/-- A position a pull may find: in a record, in the buffer, or handed over meanwhile. -/
def Queued (q : T) (react : List (List Op)) (p : Int) : Prop :=
  (∃ s ∈ q.retransmit, s.Covers p) ∨ q.sendOffset ≤ p ∧ p < q.sendOffset + q.waiting.length + handedOver react

/-- How far the barrier is from where a pull starts. -/
def ahead (q : T) : Int := word32 (q.barrier - pullOffset q)

/-- The room of a pull ends before the barrier does, or what there is to send does. -/
def Keeps (q : T) (room : Nat) (react : List (List Op)) : Prop :=
  ahead q < 2 ^ 31 ∧
    (pullLimit q room ≤ ahead q ∨ ∃ p, pullOffset q ≤ p ∧ p ≤ pullOffset q + ahead q ∧ ¬ Queued q react p)

theorem exec_written (q : T) (op : Op) :
    (written (exec q op).log).length ≤ (written q.log).length + op.bytes := by
  cases op with
  | write b cb =>
    simp only [exec, write, Op.bytes]
    split
    · exact Nat.le_add_right _ _
    · split
      · exact Nat.le_add_right _ _
      · simp only [attempt, runWriter_eq]
        rw [T.ran_log, written_append]
        simp [written]
      · simp only [attempt, emit]
        refine Nat.le_of_eq ?_
        rw [makeProgress_written, written_append, written_wrote, List.length_append]
  | shutdown cb =>
    simp only [exec, shutdown]
    split
    · exact Nat.le_add_right _ _
    · split
      · exact Nat.le_add_right _ _
      · simp only [attempt, runShutdowner_eq]
        rw [T.ran_log, written_append]
        simp [written]
      · simp only [attempt, updateRTS_eq]
        rw [T.ran_log, written_append]
        simp
  | reset =>
    obtain ⟨l, hl, e⟩ := reset_cases q
    simp only [exec, e]
    rw [T.ran_log, written_append, hl.written, List.append_nil]
    exact Nat.le_add_right _ _
  | setPriority prio =>
    simp only [exec, setPriority]
    split
    · simp only [attempt, updateRTS_eq]
      rw [T.ran_log, written_append]
      simp
    · exact Nat.le_add_right _ _

theorem exec_all_written (q : T) (ops : List Op) :
    (written (ops.foldl exec q).log).length ≤ (written q.log).length + (ops.map Op.bytes).sum := by
  induction ops generalizing q with
  | nil => exact Nat.le_refl _
  | cons op ops ih =>
    have h1 := exec_written q op
    have h2 := ih (exec q op)
    rw [List.foldl_cons, List.map_cons, List.sum_cons]
    omega

theorem makeProgressThen_written (q : T) (react : List (List Op)) :
    (written (makeProgressThen q react).1.log).length + handedOver (makeProgressThen q react).2 ≤
      (written q.log).length + handedOver react := by
  have hm := makeProgress_written q
  unfold makeProgressThen
  split
  · cases react with
    | nil =>
      refine Nat.le_of_eq ?_
      show (written (makeProgress q).log).length + handedOver [] = _
      rw [hm]
    | cons ops react =>
      have h := exec_all_written (makeProgress q) ops
      rw [hm] at h
      simp only [List.headD_cons, List.tail_cons, handedOver, List.map_cons, List.sum_cons]
      omega
  · refine Nat.le_of_eq ?_
    rw [hm]

theorem pullContiguousSegments_written (fuel : Nat) (q : T) (room : Nat) (offset : Int) (react : List (List Op)) :
    (written (pullContiguousSegments fuel q room offset react).2.log).length ≤
      (written q.log).length + handedOver react := by
  induction fuel generalizing q room offset react with
  | zero => exact Nat.le_add_right _ _
  | succ fuel ih =>
    rw [OutStreamQueue.pullContiguousSegments]
    split
    · exact Nat.le_add_right _ _
    · rename_i s rest hpop
      have h := makeProgressThen_written { q with retransmit := rest } react
      dsimp only at h ⊢
      split
      · split
        · exact Nat.le_trans (Nat.le_add_right _ _) h
        · exact Nat.le_trans (ih _ _ _ _) h
      · exact Nat.le_add_right _ _

theorem handedOver_untilReset (react : List (List Op)) : handedOver (untilReset react) ≤ handedOver react := by
  induction react with
  | nil => exact Nat.le_refl _
  | cons ops react ih =>
    simp only [untilReset]
    split
    · have h0 : ∀ l : List (List Op), handedOver (l.map fun _ => []) = 0 := by
        intro l
        induction l with
        | nil => rfl
        | cons x l ih => exact (Nat.zero_add _).trans ih
      have h1 : ((ops.takeWhile (· ≠ .reset)).map Op.bytes).sum ≤ (ops.map Op.bytes).sum := by
        conv => rhs; rw [← List.takeWhile_append_dropWhile (p := (· ≠ .reset)) (l := ops)]
        rw [List.map_append, List.sum_append]
        exact Nat.le_add_right _ _
      have h2 := h0 react
      simp only [handedOver, List.map_cons, List.sum_cons] at h1 h2 ⊢
      omega
    · simp only [handedOver, List.map_cons, List.sum_cons] at ih ⊢
      omega

theorem pullSegments_written (q : T) (room : Nat) (react : List (List Op)) :
    (written (pullSegments q room react).2.log).length ≤ (written q.log).length + handedOver react := by
  unfold pullSegments
  split
  · exact Nat.le_add_right _ _
  · exact pullContiguousSegments_written _ _ _ _ _

theorem lens_le_of_prefix {l l' : List Seg} (h : l <+: l') : lens l ≤ lens l' := by
  obtain ⟨t, rfl⟩ := h
  have := lens_nonneg t
  simp only [lens, List.map_append, List.sum_append] at this ⊢
  omega

variable {held : List Seg} {high : Int} {done : Int → Prop}

/-- What a pull that keeps to the barrier takes ends before it. -/
theorem Sends.keeps (h : Sends q held high done) {room : Nat} {react : List (List Op)} (hk : Keeps q room react) :
    lens (pullSegments q (pullLimit q room) react).1 ≤ ahead q := by
  have hle : lens (pullSegments q (pullLimit q room) react).1 ≤
      lens (pullSegments q (pullLimit q room) (untilReset react)).1 := by
    rcases pullSegments_untilReset q (pullLimit q room) react with e | ⟨-, hp⟩
    · exact Int.le_of_eq (congrArg lens (congrArg Prod.fst e))
    · exact lens_le_of_prefix hp
  refine Int.le_trans hle ?_
  have hs := pullSegments_spec h (pullLimit_le q room) (reset_not_mem_untilReset react)
  have hw := pullSegments_written q (pullLimit q room) (untilReset react)
  have hh := handedOver_untilReset react
  obtain ⟨pre, hpre, hlen⟩ := h.whole
  rw [hpre, List.length_append] at hw
  generalize pullSegments q (pullLimit q room) (untilReset react) = r at hs hw ⊢
  rcases hk.2 with hfit | ⟨p, h1, h2, hn⟩
  · exact Int.le_trans hs.fits hfit
  · by_cases hlt : lens r.1 ≤ ahead q
    · exact hlt
    · -- the byte that is not there was not taken
      refine absurd ?_ hn
      have hend := hs.sends.high_le
      have hall := hs.sends.length
      rcases hs.taken p h1 (by omega) with hc | hp
      · exact .inl hc
      · exact .inr ⟨hp, by omega⟩

theorem payload_prefix {l l' : List Seg} (h : l <+: l') : payload l <+: payload l' := by
  obtain ⟨t, rfl⟩ := h
  exact ⟨payload t, by simp [payload]⟩

/-- What a pull gives that ends in a reset. -/
structure Cut (q : T) (id : Nat) (r : Pulled × T) : Prop where
  stopped : Stopped r.2
  segment : ∃ w segments eof, written q.log <+: w ∧ r.1 = dataSegment id eof (pullOffset q) segments ∧
    At w (pullOffset q) (payload segments) ∧ lens segments ≤ 4092

/-- A pull, whatever its writers do. -/
theorem Sends.pull_any (h : Sends q held high done) (id room : Nat) (react : List (List Op)) :
    (∃ segments eof, Pull q held high done id room segments eof (OutStreamQueue.pull q id room react)) ∨
      Cut q id (OutStreamQueue.pull q id room react) := by
  have hn := reset_not_mem_untilReset react
  rcases pullSegments_untilReset q (pullLimit q room) react with e | ⟨hs, hp⟩
  · have e' : OutStreamQueue.pull q id room react = OutStreamQueue.pull q id room (untilReset react) := by
      rw [pull_eq h.live, pull_eq h.live, e]
    rw [e']
    exact .inl (h.pull id room hn)
  · have hspec := pullSegments_spec h (pullLimit_le q room) hn
    rw [pull_eq h.live]
    generalize pullSegments q (pullLimit q room) (untilReset react) = r at hp hspec
    refine .inr ⟨?_, _, _, _, hspec.frame.written, rfl, ?_, ?_⟩
    · simp only [hs.state, attachEOF]
      exact ⟨rfl, hs.retransmit, hs.buffer⟩
    · obtain ⟨t, ht⟩ := payload_prefix hp
      have := hspec.lies.take (payload (pullSegments q (pullLimit q room) react).1).length
      rw [← ht, List.take_left] at this
      exact this
    · have := hspec.fits
      have := lens_le_of_prefix hp
      have := pullLimit_le q room
      omega

/-- The segment a pull gives, when the queue is not reset. -/
theorem pull_segments (hs : q.state ≠ .amReset) (id room : Nat) (react : List (List Op)) :
    ∃ eof, (pull q id room react).1 =
      dataSegment id eof (pullOffset q) (pullSegments q (pullLimit q room) react).1 := by
  rw [pull_eq hs]
  exact ⟨_, rfl⟩

/-- A segment that ends within what is ahead ends before the barrier, as words. -/
theorem ends_before {n : Int} (h0 : 0 ≤ n) (h : n ≤ ahead q) (hm : ahead q < 2 ^ 31) :
    Key.lt q.barrier (pullOffset q + n) = false := by
  rw [Key.lt_def, decide_eq_false_iff_not]
  unfold ahead word32 at *
  omega

end BubbleStorm.Cusp.Stream.OutStreamQueue
