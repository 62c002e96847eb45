/-
  BubbleStorm.Cusp.Stream.HostAccounts — the counters of a host.

  A host's counters are the sums of those its streams keep (`Counted`). A stream that is
  gone has nothing unread, and nothing to resend unless a writer reset it from inside a
  pull (`Exact`). Its bytes in flight are counted until the callbacks of its segments have
  run: in flight are the segments whose callback has not (`Accounts`).
-/

import BubbleStorm.Cusp.Stream.HostRuns
import BubbleStorm.Cusp.Stream.HostTurns
import BubbleStorm.Cusp.Stream.OutStreamRanges

namespace BubbleStorm.Cusp.Stream.HostDispatch

open OutStreamQueue (amDone isReset lens_nil owed owed_calm owed_doReset owed_exec recv_cases)
open Function (update)

variable {t t' t'' : T} {r : Nat}

/-! ## What a stream counts -/

/-- A stream counts what it holds; `calm`: no writer resets it from inside a pull. -/
def Exact (calm : Prop) : Stream → Prop
  | .inStream q => InStreamQueue.Kept q
  | .outStream q => OutStreamQueue.Stops q ∧ (calm → owed q = 0)
  | .noStream => True

/-- The end of a stream, as its application sees it: a receiving queue is no longer
    `IS_ACTIVE`; a sending queue is reset, or all of it is acknowledged. -/
def isGone : Stream → Bool
  | .inStream q => InStreamQueue.isReset q || (InStreamQueue.atEOF q && q.ready.isEmpty)
  | .outStream q => isReset q || amDone q
  | .noStream => true

variable {calm : Prop}

/-- What a stream that is gone still counts. -/
theorem Exact.gone {stream : Stream} (h : Exact calm stream) (hg : isGone stream = true) :
    (counts stream).1 = 0 ∧ (calm → (counts stream).2.2.2 = 0) := by
  cases stream with
  | noStream => exact ⟨rfl, fun _ => rfl⟩
  | inStream q =>
    have hk : InStreamQueue.Kept q := h
    refine ⟨?_, fun _ => rfl⟩
    have hready : q.ready = [] := by
      simp only [isGone, Bool.or_eq_true, Bool.and_eq_true, List.isEmpty_iff] at hg
      exact hg.elim hk.emptied And.right
    show q.readyBytes = 0
    rw [hk.bytes, hready]
    rfl
  | outStream q =>
    obtain ⟨hstop, howed⟩ := h
    refine ⟨rfl, fun hc => ?_⟩
    have hnone : q.retransmit = [] := by
      simp only [isGone, isReset, amDone, Bool.or_eq_true, Bool.and_eq_true, decide_eq_true_eq,
        List.isEmpty_iff] at hg
      exact hg.elim (fun hs => (hstop hs).retransmit) And.right
    have hbytes := howed hc
    rw [owed, hnone, lens_nil, sub_zero] at hbytes
    exact hbytes

theorem OutStep.exact {q q' : OutStreamQueue.T} (h : OutStep q q') (hq : Exact calm (.outStream q)) : Exact calm (.outStream q') := by
  obtain ⟨hstop, howed⟩ := hq
  cases h with
  | exec op =>
    refine ⟨hstop.exec op, fun hc => ?_⟩
    by_cases hop : op = .reset
    · subst hop
      exact owed_doReset q
    · exact (owed_exec hop q).trans (howed hc)
  | recv hrecv =>
    refine ⟨hstop.recv hrecv, fun hc => ?_⟩
    rcases recv_cases hrecv with ⟨b, -, e⟩ | ⟨-, e⟩
    · rw [e, OutStreamQueue.owed_makeProgress]
      exact howed hc
    · rw [e]
      exact owed_doReset q
  | named id => exact ⟨fun hs => (hstop hs).same rfl rfl rfl, howed⟩

/-! ## What a step counts -/

/-- The host's counters are the sums over all the streams it ever had, and it had no
    other. It has the out-streams that `t0` has, and `x` bytes more in flight. -/
structure Counted (calm : Prop) (t0 : T) (x : Int) (t : T) : Prop where
  balanced : t.queued = ∑ r ∈ Finset.range t.created, counts (t.records r).stream
  unborn : ∀ r, t.created ≤ r → (t.records r).stream = .noStream
  exact : ∀ r, Exact calm (t.records r).stream
  outs : ∀ r q, (t0.records r).stream = .outStream q → ∃ q', (t.records r).stream = .outStream q'
  inFlight : t.queuedInFlight = t0.queuedInFlight + x

variable {t0 : T} {x : Int}

theorem Counted.base (h : Counted calm t0 x t) : Counted calm t 0 t :=
  ⟨h.balanced, h.unborn, h.exact, fun _ q hq => ⟨q, hq⟩, (add_zero _).symm⟩

theorem Counted.born (h : Counted calm t0 x t) (hq : (t.records r).stream ≠ .noStream) : r < t.created := by
  by_contra hr
  exact hq (h.unborn r (Nat.not_lt.mp hr))

theorem Counted.same (h : Counted calm t0 x t) (ha : Adds t t' 0) : Counted calm t0 x t' where
  balanced := by
    rw [ha.queued, ha.created, h.balanced, add_zero]
    exact Finset.sum_congr rfl fun r _ => by rw [ha.streams r]
  unborn r hr := (ha.streams r).trans (h.unborn r (ha.created ▸ hr))
  exact r := by
    rw [ha.streams r]
    exact h.exact r
  outs r q hq := by
    rw [ha.streams r]
    exact h.outs r q hq
  inFlight := by
    have hsame : t'.queuedInFlight = t.queuedInFlight + 0 := congrArg (·.2.2.1) ha.queued
    rw [hsame, add_zero, h.inFlight]

/-- One stream changes, and the host counts what it gains. -/
theorem Counted.gain (h : Counted calm t0 x t) {stream : Stream} {d : Int × Int × Int × Int} (hq : (t.records r).stream ≠ .noStream)
    (ha : Adds (t.setRecord r { t.records r with stream := stream }) t' d) (hs : counts stream = counts (t.records r).stream + d)
    (hk : ∀ q, (t.records r).stream = .outStream q → ∃ q', stream = .outStream q')
    (hi : Exact calm stream) : Counted calm t0 (x + d.2.2.1) t' := by
  have hr := h.born hq
  have hself : (t'.records r).stream = stream := by
    rw [ha.streams r, setRecord_self]
  have hother : ∀ r', r' ≠ r → (t'.records r').stream = (t.records r').stream := by
    intro r' hr'
    rw [ha.streams r', setRecord_ne hr']
  have hc : t'.created = t.created := ha.created
  have hqueued : t'.queued = t.queued + d := ha.queued
  refine ⟨?_, fun r' hr' => ?_, fun r' => ?_, fun r' q hq' => ?_, ?_⟩
  · have hmem : r ∈ Finset.range t.created := Finset.mem_range.mpr hr
    have hrest : ∑ r' ∈ (Finset.range t.created).erase r, counts (t'.records r').stream =
        ∑ r' ∈ (Finset.range t.created).erase r, counts (t.records r').stream :=
      Finset.sum_congr rfl fun r' hr' => by rw [hother r' (Finset.ne_of_mem_erase hr')]
    rw [hqueued, hc, h.balanced, ← Finset.add_sum_erase _ _ hmem, ← Finset.add_sum_erase _ _ hmem, hself, hs, hrest]
    abel
  · rw [hc] at hr'
    rw [hother r' (Nat.ne_of_gt (Nat.lt_of_lt_of_le hr hr'))]
    exact h.unborn r' hr'
  · by_cases heq : r' = r
    · subst heq
      rw [hself]
      exact hi
    · rw [hother r' heq]
      exact h.exact r'
  · obtain ⟨q1, hq1⟩ := h.outs r' q hq'
    by_cases heq : r' = r
    · subst heq
      rw [hself]
      exact hk q1 hq1
    · rw [hother r' heq]
      exact ⟨q1, hq1⟩
  · have hflight : t'.queuedInFlight = t.queuedInFlight + d.2.2.1 := congrArg (·.2.2.1) hqueued
    rw [hflight, h.inFlight, add_assoc]

theorem Counted.push (h : Counted calm t0 x t) {stream : Stream} (h0 : counts stream = 0)
    (hi : Exact calm stream) (id service : Nat) : Counted calm t0 x (t.push stream id service) := by
  have hlast : (t.push stream id service).records t.created = ⟨stream, id, service, true, .negInf⟩ := Function.update_self ..
  have hother : ∀ r, r ≠ t.created → (t.push stream id service).records r = t.records r := fun r hr => Function.update_of_ne hr ..
  refine ⟨?_, fun r hr => ?_, fun r => ?_, fun r q hq => ?_, h.inFlight⟩
  · show t.queued = ∑ r ∈ Finset.range (t.created + 1), counts ((t.push stream id service).records r).stream
    rw [Finset.sum_range_succ, h.balanced, hlast, h0, add_zero]
    refine Finset.sum_congr rfl fun r hr => ?_
    rw [hother r (Nat.ne_of_lt (Finset.mem_range.mp hr))]
  · have hlt : t.created < r := hr
    rw [hother r (Nat.ne_of_gt hlt)]
    exact h.unborn r (Nat.le_of_lt hlt)
  · by_cases heq : r = t.created
    · subst heq
      rw [hlast]
      exact hi
    · rw [hother r heq]
      exact h.exact r
  · obtain ⟨q', hq'⟩ := h.outs r q hq
    have hr : r < t.created := h.born (by rw [hq']; exact Stream.noConfusion)
    rw [hother r (Nat.ne_of_lt hr)]
    exact ⟨q', hq'⟩

theorem Counted.ranIn {q q' : InStreamQueue.T} (h : Counted calm t0 x t) (hq : (t.records r).stream = .inStream q)
    (hstep : Relation.ReflGen InStreamQueue.Step q q') (hrun : ranIn t r q q' = .ok t') : Counted calm t0 x t' := by
  obtain ⟨l, hl, hu, ho⟩ := InStreamQueue.books_step hstep
  have hk : InStreamQueue.Kept q := by simpa [Exact, hq] using h.exact r
  unfold HostDispatch.ranIn at hrun
  rw [hl, List.drop_left] at hrun
  have hgain := h.gain (by rw [hq]; exact Stream.noConfusion) (adds_hearIns hrun) (by rw [hq, hu, ho]; simp [counts])
    (fun y hy => absurd (hq.symm.trans hy) Stream.noConfusion) (show InStreamQueue.Kept q' by
      cases hstep with
      | refl => exact hk
      | single hstep => exact hk.step hstep)
  rwa [add_zero] at hgain

/-- An out-stream has `y` bytes more in flight. -/
theorem Counted.flies {q q' : OutStreamQueue.T} {y : Int} (h : Counted calm t0 x t) (hq : (t.records r).stream = .outStream q)
    (hb : OutStreamQueue.Books y q q') (he : Exact calm (.outStream q) → Exact calm (.outStream q'))
    (hrun : ranOut t r q q' = .ok t') : Counted calm t0 (x + y) t' := by
  obtain ⟨l, hl, hi, hf, hr⟩ := hb
  unfold HostDispatch.ranOut at hrun
  rw [hl, List.drop_left] at hrun
  have hgain := h.gain (by rw [hq]; exact Stream.noConfusion) (adds_hearOuts hrun) (by rw [hq, hi, hr]; simp [counts, hf])
    (fun _ _ => ⟨q', rfl⟩) (he (hq ▸ h.exact r))
  rwa [hi] at hgain

theorem Counted.ranOut {q q' : OutStreamQueue.T} (h : Counted calm t0 x t) (hq : (t.records r).stream = .outStream q)
    (hstep : OutStep q q') (hrun : ranOut t r q q' = .ok t') : Counted calm t0 x t' := by
  have hflies := h.flies hq hstep.books hstep.exact hrun
  rwa [add_zero] at hflies

/-- The bytes of a pulled segment that are in flight. -/
def Ack.flight : Ack → Int
  | .outStream a => OutStreamQueue.flight a
  | .inStream _ => 0

/-- A pulled segment is of the kind of its stream. -/
def Owned (t : T) (sent : Sent) : Prop := ∀ a, sent.ack = .outStream a → ∃ q, (t.records sent.record).stream = .outStream q

theorem Counted.owned {sent : Sent} (h : Counted calm t0 x t) (ho : Owned t0 sent) : Owned t sent := by
  intro a ha
  obtain ⟨q, hq⟩ := ho a ha
  exact h.outs _ q hq

theorem Counted.turns (h : Counted calm t0 x t) (ht : Turns t t') : Counted calm t0 x t' := by
  induction ht with
  | refl => exact h
  | same _ ha ih => exact ih.same ha
  | push id service _ hmade ih =>
    rcases hmade with rfl | ⟨i, rfl⟩
    · have hnew : Exact calm (.outStream OutStreamQueue.new) := ⟨nofun, fun _ => rfl⟩
      exact ih.push rfl hnew id service
    · have hnew : Exact calm (.inStream (InStreamQueue.new i)) := InStreamQueue.kept_new i
      exact ih.push rfl hnew id service
  | ranIn _ hq hstep hran ih => exact ih.ranIn hq hstep hran
  | ranOut _ hq hstep hran ih => exact ih.ranOut hq hstep hran

theorem Counted.pullRecord {room : Nat} {own : List (List OutStreamQueue.Op)} {sent : Sent} (h : Counted calm t0 x t)
    (hc : calm → ∀ ops ∈ own, OutStreamQueue.Op.reset ∉ ops) (hp : pullRecord t r room own = .ok (t', sent)) : Counted calm t0 (x + sent.ack.flight) t' ∧ Owned t' sent := by
  rcases pullRecord_turns hp with ⟨hturns, -, a, hack⟩ | ⟨t1, q, id, room, hturns, hq, hran, rfl, hack⟩
  · refine ⟨?_, fun b hb => absurd (hack.symm.trans hb) Ack.noConfusion⟩
    rw [hack, show x + (Ack.inStream a).flight = x from add_zero x]
    exact h.turns hturns
  · have h1 := h.turns hturns
    have he : Exact calm (.outStream q) → Exact calm (.outStream (OutStreamQueue.pull q id room own).2) := fun h =>
      ⟨h.1.pull id room own, fun hcalm => (owed_calm id room (hc hcalm)).trans (h.2 hcalm)⟩
    refine ⟨?_, fun _ _ => ?_⟩
    · rw [hack]
      exact h1.flies hq (OutStreamQueue.books_pull ..) he hran
    · exact (h1.base.flies hq (OutStreamQueue.books_pull ..) he hran).outs _ q hq

theorem Counted.heard (h : Counted calm t0 x t) (r : Nat) (ok : Bool) : Counted calm t0 x (t.heard r ok) := by
  obtain ⟨hc, hq⟩ := heard_counts t r ok
  have hs := heard_streams t r ok
  refine ⟨?_, fun r' hr => ?_, fun r' => ?_, fun r' q hq' => ?_, ?_⟩
  · rw [hq, hc, h.balanced]
    exact Finset.sum_congr rfl fun r' _ => by rw [hs r']
  · rw [hs r']
    exact h.unborn r' (hc ▸ hr)
  · rw [hs r']
    exact h.exact r'
  · rw [hs r']
    exact h.outs r' q hq'
  · have hflight : (t.heard r ok).queuedInFlight = t.queuedInFlight := congrArg (·.2.2.1) hq
    rw [hflight, h.inFlight]

theorem Counted.ackSegment {sent : Sent} {ok : Bool} (h : Counted calm t0 x t) (ho : Owned t sent) (ha : ackSegment t sent ok = .ok t') :
    Counted calm t0 (x - sent.ack.flight) t' := by
  have h1 := h.heard sent.record ok
  rcases ackSegment_turns ha with ⟨⟨a, hack⟩, hturns⟩ | ⟨⟨a, hack⟩, hno, -⟩ | ⟨a, q, hack, hq, hran⟩
  · rw [hack, show x - (Ack.inStream a).flight = x from sub_zero x]
    exact h1.turns hturns
  · obtain ⟨q, hq⟩ := ho a hack
    exact absurd hq (hno q)
  · rw [hack]
    exact sub_eq_add_neg x _ ▸ h1.flies ((heard_streams ..).trans hq) (OutStreamQueue.books_ack q a ok)
      (fun h => ⟨h.1.ack a ok, fun hc => (OutStreamQueue.owed_ack q a ok).trans (h.2 hc)⟩) hran

/-! ## Runs -/

/-- The bytes of a segment that are in flight until its callback has run. -/
def outstanding (p : Sent × Bool) : Int := if p.2 then p.1.ack.flight else 0

/-- The invariant of a run: the bytes in flight are those of the segments whose callback
    has not run. -/
structure Accounts (calm : Prop) (s : St) : Prop where
  counted : Counted calm s.host 0 s.host
  owned : ∀ p ∈ s.sent, Owned s.host p.1
  inFlight : s.host.queuedInFlight = (s.sent.map outstanding).sum

/-- A callback has run. -/
theorem outstanding_set {l : List (Sent × Bool)} {i : Nat} {sent : Sent} (h : l[i]? = some (sent, true)) :
    ((l.set i (sent, false)).map outstanding).sum = (l.map outstanding).sum - sent.ack.flight := by
  induction l generalizing i with
  | nil => cases h
  | cons p l ih =>
    cases i with
    | zero =>
      cases h
      simp [outstanding]
    | succ i =>
      rw [List.set_cons_succ, List.map_cons, List.sum_cons, ih h, List.map_cons, List.sum_cons, add_sub_assoc]

/-- No writer that a pull calls resets its stream. -/
def Steady (m : Move) : Prop := ∀ r room own, m = .ev (.pull r room own) → ∀ ops ∈ own, OutStreamQueue.Op.reset ∉ ops

theorem move_accounts {s s' : St} {m : Move} (h : Accounts calm s) (hcalm : calm → Steady m) (hm : move s m = .ok s') :
    Accounts calm s' := by
  have hc := h.counted
  rcases move_cases hm with ⟨hturns, hsent⟩ | ⟨r, room, own, sent, hpulled, -, hpull, hsent⟩ | ⟨i, ok, sent, -, hi, hack, hsent⟩
  · have h1 := hc.turns hturns
    refine ⟨h1.base, ?_, ?_⟩
    · rw [hsent]
      exact fun p hp => h1.owned (h.owned p hp)
    · rw [hsent, ← h.inFlight]
      exact h1.inFlight.trans (add_zero _)
  · obtain ⟨h1, hown⟩ := hc.pullRecord (fun hc => hcalm hc r room own hpulled) hpull
    refine ⟨h1.base, fun p hp => ?_, ?_⟩
    · rw [hsent] at hp
      rcases List.mem_append.mp hp with hp | hp
      · exact h1.owned (h.owned p hp)
      · cases List.mem_singleton.mp hp
        exact hown
    · rw [hsent, List.map_append, List.sum_append, ← h.inFlight]
      simpa [outstanding] using h1.inFlight
  · have h1 := hc.ackSegment (h.owned (sent, true) (List.mem_of_getElem? hi)) hack
    refine ⟨h1.base, fun p hp => ?_, ?_⟩
    · rw [hsent] at hp
      rcases List.mem_or_eq_of_mem_set hp with hp | hp
      · exact h1.owned (h.owned p hp)
      · cases hp
        exact h1.owned (h.owned (sent, true) (List.mem_of_getElem? hi))
    · rw [hsent, outstanding_set hi, ← h.inFlight]
      have hflight := h1.inFlight
      rwa [zero_sub, ← sub_eq_add_neg] at hflight

theorem runs_accounts {global : Nat → Bool} {P : St → Move → Prop} {s : St} (h : Runs global P s) :
    Accounts (∀ s m, P s m → Steady m) s := by
  induction h with
  | start =>
    exact ⟨⟨rfl, fun _ _ => rfl, fun _ => trivial, fun _ q hq => ⟨q, hq⟩, rfl⟩, fun p hp => (by cases hp), rfl⟩
  | step m _ hP hm ih => exact move_accounts ih (fun hc => hc _ m hP) hm

/-- The streams that are not gone. -/
def T.live (t : T) : Finset Nat := (Finset.range t.created).filter fun r => isGone (t.records r).stream = false

theorem sum_live {t : T} {f : Int × Int × Int × Int → Int} (hf : ∀ r, isGone (t.records r).stream = true →
    f (counts (t.records r).stream) = 0) :
    ∑ r ∈ Finset.range t.created, f (counts (t.records r).stream) = ∑ r ∈ t.live, f (counts (t.records r).stream) := by
  refine (Finset.sum_filter_of_ne fun r _ hne => ?_).symm
  by_contra hg
  exact hne (hf r (Bool.not_eq_false _ ▸ hg))

/-- READER_RESETS of the id 0. -/
def resets : Slice := ⟨0, [0x50, 0, 0, 0]⟩

end BubbleStorm.Cusp.Stream.HostDispatch
