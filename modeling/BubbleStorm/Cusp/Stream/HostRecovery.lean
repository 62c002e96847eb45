/-
  BubbleStorm.Cusp.Stream.HostRecovery — the streams that a new session takes over.

  A stream whose service is still in front of its segments has nothing acknowledged,
  and with the segments whose callbacks have not run it holds all it accepted
  (`Recovers`). `wipeState` empties the heap (`Empties`), resets what has lost its
  service and puts the rest back.
-/

import BubbleStorm.Cusp.Stream.HostTurns
import BubbleStorm.Cusp.Stream.OutStreamRecovery

namespace BubbleStorm.Cusp.Stream.HostDispatch

open OutStreamQueue (exec exec_isReset isReset ongoing_exec reset reset_answers reset_tells stopped_reset unheard_new written)
open Function (update)

variable {t t' t'' t0 : T} {r : Nat}

/-! ## The callbacks that have not run -/

/-- What the callback of a segment of record `r` keeps, if it has not run. -/
def awaited (r : Nat) (p : Sent × Bool) : Option OutStreamQueue.Ack :=
  if p.2 = true ∧ p.1.record = r then
    match p.1.ack with
    | .outStream a => some a
    | .inStream _ => none
  else none

def awaits (sent : List (Sent × Bool)) (r : Nat) : List OutStreamQueue.Ack := sent.filterMap (awaited r)

theorem awaited_other {p : Sent × Bool} (h : p.1.record ≠ r) : awaited r p = none := if_neg fun hp => h hp.2

theorem awaited_ran (sent : Sent) (r : Nat) : awaited r (sent, false) = none := if_neg fun hp => Bool.false_ne_true hp.1

theorem awaited_inStream {sent : Sent} {a : InStreamQueue.Ack} (h : sent.ack = .inStream a) (b : Bool) :
    awaited r (sent, b) = none := by
  unfold awaited
  split
  · rw [h]
  · rfl

theorem awaited_outStream {sent : Sent} {a : OutStreamQueue.Ack} (h : sent.ack = .outStream a) :
    awaited sent.record (sent, true) = some a := by
  unfold awaited
  rw [if_pos ⟨rfl, rfl⟩, h]

theorem awaits_unseen {sent : List (Sent × Bool)} (h : ∀ p ∈ sent, p.1.record ≠ r) : awaits sent r = [] :=
  List.filterMap_eq_nil_iff.mpr fun p hp => awaited_other (h p hp)

/-- A callback that runs is awaited no more. -/
theorem awaits_set {l : List (Sent × Bool)} {i : Nat} {sent : Sent} (h : l[i]? = some (sent, true)) (r : Nat) :
    (awaits l r).Perm ((awaited r (sent, true)).toList ++ awaits (l.set i (sent, false)) r) := by
  induction l generalizing i with
  | nil => cases h
  | cons p l ih =>
    cases i with
    | zero =>
      cases h
      have hset : awaits (((sent, true) :: l).set 0 (sent, false)) r = awaits l r := by
        simp [awaits, awaited_ran]
      rw [hset]
      cases ha : awaited r (sent, true) with
      | none => simp [awaits, ha]
      | some a => simp [awaits, ha]
    | succ i =>
      have hp := ih h
      cases ha : awaited r p with
      | none => simpa [awaits, ha] using hp
      | some a =>
        have hcons : (a :: awaits l r).Perm (a :: ((awaited r (sent, true)).toList ++ awaits (l.set i (sent, false)) r)) :=
          hp.cons a
        simpa [awaits, ha] using hcons.trans List.perm_middle.symm

/-! ## Streams that may be recovered -/

/-- An out-stream with its service still in front holds what it accepted. -/
structure Recovers (sent : List (Sent × Bool)) (t : T) : Prop where
  seen : ∀ p ∈ sent, p.1.record < t.created
  unborn : ∀ r, t.created ≤ r → (t.records r).stream = .noStream
  unheard : ∀ r q, (t.records r).stream = .outStream q → (t.records r).service ≠ 0 → OutStreamQueue.Unheard q (awaits sent r)

variable {sent sent' : List (Sent × Bool)}

theorem Recovers.born (h : Recovers sent t) (hq : (t.records r).stream ≠ .noStream) : r < t.created := by
  by_contra hr
  exact hq (h.unborn r (Nat.not_lt.mp hr))

theorem Recovers.same (h : Recovers sent t) (ha : Adds t t' 0) : Recovers sent t' where
  seen p hp := ha.created ▸ h.seen p hp
  unborn r hr := (ha.streams r).trans (h.unborn r (ha.created ▸ hr))
  unheard r q hq hs := h.unheard r q ((ha.streams r).symm.trans hq) (ha.services r ▸ hs)

/-- One stream changes. -/
theorem Recovers.change (h : Recovers sent t) {stream : Stream} {x : Int × Int × Int × Int}
    (ha : Adds (t.setRecord r { t.records r with stream := stream }) t' x) (hr : r < t.created)
    (hseen : ∀ p ∈ sent', p.1.record < t.created) (hother : ∀ r', r' ≠ r → (awaits sent r').Perm (awaits sent' r'))
    (hnew : ∀ q, stream = .outStream q → (t.records r).service ≠ 0 → OutStreamQueue.Unheard q (awaits sent' r)) :
    Recovers sent' t' := by
  have hself : (t'.records r).stream = stream ∧ (t'.records r).service = (t.records r).service := by
    rw [ha.streams r, ha.services r, setRecord_self]
    exact ⟨rfl, rfl⟩
  have hne : ∀ r', r' ≠ r → (t'.records r').stream = (t.records r').stream ∧ (t'.records r').service = (t.records r').service := by
    intro r' hr'
    rw [ha.streams r', ha.services r', setRecord_ne hr']
    exact ⟨rfl, rfl⟩
  have hc : t'.created = t.created := ha.created
  refine ⟨fun p hp => hc ▸ hseen p hp, fun r' hr' => ?_, fun r' q hq hs => ?_⟩
  · rw [hc] at hr'
    rw [(hne r' (Nat.ne_of_gt (Nat.lt_of_lt_of_le hr hr'))).1]
    exact h.unborn r' hr'
  · by_cases heq : r' = r
    · subst heq
      exact hnew q (hself.1.symm.trans hq) (hself.2 ▸ hs)
    · obtain ⟨hstream, hservice⟩ := hne r' heq
      exact (h.unheard r' q (hstream.symm.trans hq) (hservice ▸ hs)).perm (hother r' heq)

theorem Recovers.push (h : Recovers sent t) {stream : Stream} (hm : Made stream) (id service : Nat) :
    Recovers sent (t.push stream id service) := by
  have hlast : (t.push stream id service).records t.created = ⟨stream, id, service, true, .negInf⟩ := Function.update_self ..
  have hother : ∀ r, r ≠ t.created → (t.push stream id service).records r = t.records r := fun r hr => Function.update_of_ne hr ..
  refine ⟨fun p hp => Nat.lt_succ_of_lt (h.seen p hp), fun r hr => ?_, fun r q hq hs => ?_⟩
  · have hlt : t.created < r := hr
    rw [hother r (Nat.ne_of_gt hlt)]
    exact h.unborn r (Nat.le_of_lt hlt)
  · by_cases heq : r = t.created
    · subst heq
      rw [hlast] at hq
      rw [awaits_unseen fun p hp => Nat.ne_of_lt (h.seen p hp)]
      rcases hm with hm | ⟨i, hm⟩
      · cases hm.symm.trans hq
        exact unheard_new
      · cases hm.symm.trans hq
    · rw [hother r heq] at hq hs
      exact h.unheard r q hq hs

theorem OutStep.unheard {q q' : OutStreamQueue.T} {acks : List OutStreamQueue.Ack} (h : OutStep q q')
    (hu : OutStreamQueue.Unheard q acks) : OutStreamQueue.Unheard q' acks := by
  cases h with
  | exec op => exact hu.exec op
  | recv hrecv => exact hu.recv hrecv
  | named id => exact hu.named id

theorem Recovers.turns (h : Recovers sent t) (ht : Turns t t') : Recovers sent t' := by
  induction ht with
  | refl => exact h
  | same _ ha ih => exact ih.same ha
  | push id service _ hmade ih => exact ih.push hmade id service
  | ranIn _ hq _ hran ih =>
    obtain ⟨x, ha⟩ := adds_ranIn hran
    exact ih.change ha (ih.born (by rw [hq]; exact Stream.noConfusion)) ih.seen (fun _ _ => .refl _) fun q hq => by cases hq
  | ranOut _ hq hstep hran ih =>
    obtain ⟨x, ha⟩ := adds_ranOut hran
    refine ih.change ha (ih.born (by rw [hq]; exact Stream.noConfusion)) ih.seen (fun _ _ => .refl _) fun q' hq' hs => ?_
    cases hq'
    exact hstep.unheard (ih.unheard _ _ hq hs)

theorem awaits_snoc (sent : List (Sent × Bool)) (p : Sent × Bool) (r : Nat) :
    awaits (sent ++ [p]) r = awaits sent r ++ (awaited r p).toList := by
  unfold awaits
  rw [List.filterMap_append]
  cases ha : awaited r p <;> simp [ha]

/-- A segment is pulled. -/
theorem Recovers.pullRecord {room : Nat} {own : List (List OutStreamQueue.Op)} {s : Sent} (h : Recovers sent t)
    (hr : r < t.created) (hp : pullRecord t r room own = .ok (t', s)) : Recovers (sent ++ [(s, true)]) t' := by
  rcases pullRecord_turns hp with ⟨hturns, rfl, a, hack⟩ | ⟨t1, q, id, room, hturns, hq, hran, rfl, hack⟩
  · have h1 := h.turns hturns
    have hawaits : ∀ r', awaits (sent ++ [(s, true)]) r' = awaits sent r' := by
      intro r'
      rw [awaits_snoc, awaited_inStream hack]
      exact List.append_nil _
    refine ⟨fun p hp => ?_, h1.unborn, fun r' q hq hs => ?_⟩
    · rcases List.mem_append.mp hp with hp | hp
      · exact h1.seen p hp
      · cases List.mem_singleton.mp hp
        exact Nat.lt_of_lt_of_le hr hturns.silent.1
    · rw [hawaits r']
      exact h1.unheard r' q hq hs
  · have h1 := h.turns hturns
    have hr1 : s.record < t1.created := Nat.lt_of_lt_of_le hr hturns.silent.1
    obtain ⟨x, ha⟩ := adds_ranOut hran
    refine h1.change ha hr1 (fun p hp => ?_) (fun r' hr' => ?_) fun q' hq' hs => ?_
    · rcases List.mem_append.mp hp with hp | hp
      · exact h1.seen p hp
      · cases List.mem_singleton.mp hp
        exact hr1
    · rw [awaits_snoc, awaited_other fun heq => hr' heq.symm]
      exact .of_eq (List.append_nil _).symm
    · cases hq'
      rw [awaits_snoc, awaited_outStream hack]
      exact ((h1.unheard _ q hq hs).pull id room own).perm (List.perm_append_singleton _ _).symm

theorem heard_service (t : T) (r : Nat) (ok : Bool) {r' : Nat} (h : ((t.heard r ok).records r').service ≠ 0) :
    ((t.heard r ok).records r').service = (t.records r').service ∧ (r' = r → ok = false) := by
  unfold T.heard at h ⊢
  cases ok with
  | false => exact ⟨rfl, fun _ => rfl⟩
  | true =>
    rw [if_pos rfl] at h ⊢
    by_cases hr : r' = r
    · subst hr
      rw [setRecord_self] at h
      exact absurd rfl h
    · rw [setRecord_ne hr]
      exact ⟨rfl, fun heq => absurd heq hr⟩

theorem Recovers.heard (h : Recovers sent t) (r : Nat) (ok : Bool) : Recovers sent (t.heard r ok) where
  seen p hp := (heard_counts t r ok).1 ▸ h.seen p hp
  unborn r' hr := (heard_streams t r ok r').trans (h.unborn r' ((heard_counts t r ok).1 ▸ hr))
  unheard r' q hq hs := by
    obtain ⟨hservice, -⟩ := heard_service t r ok hs
    exact h.unheard r' q ((heard_streams t r ok r').symm.trans hq) (hservice ▸ hs)

/-- A callback runs that no stream waits for. -/
theorem Recovers.settle {i : Nat} {s : Sent} (h : Recovers sent t) (hi : sent[i]? = some (s, true))
    (hno : ∀ r q, (t.records r).stream = .outStream q → (t.records r).service ≠ 0 → awaited r (s, true) = none) :
    Recovers (sent.set i (s, false)) t where
  seen p hp := by
    rcases List.mem_or_eq_of_mem_set hp with hp | rfl
    · exact h.seen p hp
    · exact h.seen (s, true) (List.mem_of_getElem? hi)
  unborn := h.unborn
  unheard r q hq hs := by
    have hperm := awaits_set hi r
    rw [hno r q hq hs] at hperm
    exact (h.unheard r q hq hs).perm hperm

/-- A callback runs; fewer than 2^31 bytes of the stream were sent. -/
theorem Recovers.ackSegment {i : Nat} {s : Sent} {ok : Bool} (h : Recovers sent t) (hi : sent[i]? = some (s, true))
    (hw : ∀ q, (t.records s.record).stream = .outStream q → (t.records s.record).service ≠ 0 → q.sendOffset < 2 ^ 31)
    (ha : ackSegment t s ok = .ok t') : Recovers (sent.set i (s, false)) t' := by
  have h1 := h.heard s.record ok
  rcases ackSegment_turns ha with ⟨⟨a, hack⟩, hturns⟩ | ⟨⟨a, hack⟩, hno, rfl⟩ | ⟨a, q, hack, hq, hran⟩
  · exact (h1.settle hi fun r q _ _ => awaited_inStream hack true).turns hturns
  · refine h1.settle hi fun r q hq _ => awaited_other fun heq => ?_
    rw [heard_streams] at hq
    exact hno q (heq ▸ hq)
  · have hq1 : ((t.heard s.record ok).records s.record).stream = .outStream q := (heard_streams ..).trans hq
    obtain ⟨x, hadds⟩ := adds_ranOut hran
    refine h1.change hadds (h1.seen (s, true) (List.mem_of_getElem? hi)) (fun p hp => ?_) (fun r' hr' => ?_) fun q' hq' hs => ?_
    · rcases List.mem_or_eq_of_mem_set hp with hp | rfl
      · exact h1.seen p hp
      · exact h1.seen (s, true) (List.mem_of_getElem? hi)
    · have hperm := awaits_set hi r'
      rwa [awaited_other fun heq => hr' heq.symm] at hperm
    · cases hq'
      obtain ⟨hservice, hok⟩ := heard_service t s.record ok hs
      have hu := (h1.unheard _ q hq1 hs).perm (awaits_set hi s.record)
      rw [awaited_outStream hack] at hu
      rw [hok rfl]
      exact hu.nack (hw q hq (hservice ▸ hs))

/-! ## Runs -/

/-- Of a stream nothing of which is acknowledged fewer than 2^31 bytes were sent: the
    retransmit heap orders wrapped offsets. -/
def Short (s : St) (_ : Move) : Prop :=
  ∀ r q, (s.host.records r).stream = .outStream q → (s.host.records r).service ≠ 0 → q.sendOffset < 2 ^ 31

theorem move_recovers {s s' : St} {m : Move} (h : Recovers s.sent s.host) (hw : Short s m) (hm : move s m = .ok s') :
    Recovers s'.sent s'.host := by
  rcases move_cases hm with ⟨hturns, hsent⟩ | ⟨r, room, own, sent, -, hfirst, hpull, hsent⟩ | ⟨i, ok, sent, -, hi, hack, hsent⟩
  · rw [hsent]
    exact h.turns hturns
  · rw [hsent]
    exact h.pullRecord hfirst.1 hpull
  · rw [hsent]
    exact h.ackSegment hi (hw _) hack

theorem runs_recover {global : Nat → Bool} {s : St} (h : Runs global Short s) : Recovers s.sent s.host := by
  induction h with
  | start => exact ⟨fun p hp => (by cases hp), fun _ _ => rfl, fun r q hq => by cases hq⟩
  | step m _ hw hm ih => exact move_recovers ih hw hm

theorem heard_silent (t : T) (r : Nat) (ok : Bool) {r' : Nat} (h : (t.records r').service = 0) :
    ((t.heard r ok).records r').service = 0 := by
  by_contra hne
  exact hne ((heard_service t r ok hne).1.trans h)

/-- A stream without a service is not given one. -/
theorem move_silent {s s' : St} {m : Move} (hm : move s m = .ok s') : s.host.created ≤ s'.host.created ∧
    ∀ r < s.host.created, (s.host.records r).service = 0 → (s'.host.records r).service = 0 := by
  rcases move_cases hm with ⟨hturns, -⟩ | ⟨r, room, own, sent, -, -, hpull, -⟩ | ⟨i, ok, sent, -, -, hack, -⟩
  · exact hturns.silent
  · rcases pullRecord_turns hpull with ⟨hturns, -⟩ | ⟨t1, q, id, room, hturns, -, hran, -⟩
    · exact hturns.silent
    · obtain ⟨hc, hs⟩ := ranOut_services hran
      exact ⟨hc ▸ hturns.silent.1, fun r hr h0 => (hs r).trans (hturns.silent.2 r hr h0)⟩
  · have hc := (heard_counts s.host sent.record ok).1
    rcases ackSegment_turns hack with ⟨-, hturns⟩ | ⟨-, -, heq⟩ | ⟨a, q, -, -, hran⟩
    · exact ⟨hc ▸ hturns.silent.1, fun r hr h0 => hturns.silent.2 r (hc.symm ▸ hr) (heard_silent _ _ _ h0)⟩
    · rw [heq]
      exact ⟨Nat.le_of_eq hc.symm, fun r _ h0 => heard_silent _ _ _ h0⟩
    · obtain ⟨hc', hs⟩ := ranOut_services hran
      exact ⟨Nat.le_of_eq (hc'.trans hc).symm, fun r _ h0 => (hs r).trans (heard_silent _ _ _ h0)⟩

/-- The states after `s`. -/
inductive Later (s : St) : St → Prop
  | refl : Later s s
  | step {s' s'' : St} (m : Move) : Later s s' → move s' m = .ok s'' → Later s s''

/-- A stream without a service is never given one. -/
theorem Later.silent {s s' : St} (h : Later s s') : s.host.created ≤ s'.host.created ∧
    ∀ r < s.host.created, (s.host.records r).service = 0 → (s'.host.records r).service = 0 := by
  induction h with
  | refl => exact ⟨Nat.le_refl _, fun _ _ hs => hs⟩
  | step m _ hm ih =>
    obtain ⟨hc, hs⟩ := move_silent hm
    exact ⟨Nat.le_trans ih.1 hc, fun r hr h0 => hs r (Nat.lt_of_lt_of_le hr ih.1) (ih.2 r hr h0)⟩

/-! ## Starting over -/

/-- Out-streams stay in the heap or out of it, and keep their service; those that are
    reset stay reset. -/
def Carries (t t' : T) : Prop := t.created ≤ t'.created ∧ ∀ r q, (t.records r).stream = .outStream q → r < t.created →
  (t'.records r).inHeap = (t.records r).inHeap ∧ (t'.records r).service = (t.records r).service ∧
    ∃ q', (t'.records r).stream = .outStream q' ∧ (isReset q = true → isReset q' = true)

theorem carries_same (hc : t'.created = t.created) (hr : t'.records = t.records) : Carries t t' :=
  ⟨Nat.le_of_eq hc.symm, fun r q hq _ => by
    rw [hr]
    exact ⟨rfl, rfl, q, hq, id⟩⟩

theorem Carries.trans (h : Carries t t') (h' : Carries t' t'') : Carries t t'' := by
  refine ⟨Nat.le_trans h.1 h'.1, fun r q hq hr => ?_⟩
  obtain ⟨hin, hs, q1, hq1, hreset⟩ := h.2 r q hq hr
  obtain ⟨hin', hs', q2, hq2, hreset'⟩ := h'.2 r q1 hq1 (Nat.lt_of_lt_of_le hr h.1)
  exact ⟨hin'.trans hin, hs'.trans hs, q2, hq2, hreset' ∘ hreset⟩

/-- A record changes, but is not of an out-stream or stays in the heap. -/
theorem carries_setRecord {record : Record} (h : ∀ q, (t.records r).stream = .outStream q →
    record.inHeap = (t.records r).inHeap ∧ record.service = (t.records r).service ∧
      ∃ q', record.stream = .outStream q' ∧ (isReset q = true → isReset q' = true)) :
    Carries t (t.setRecord r record) := by
  refine ⟨Nat.le_refl _, fun r' q hq _ => ?_⟩
  by_cases hr : r' = r
  · subst hr
    rw [setRecord_self]
    exact h q hq
  · rw [setRecord_ne hr]
    exact ⟨rfl, rfl, q, hq, id⟩

theorem carries_hearRTS (t : T) (r : Nat) (prio : Real32) : Carries t (hearRTS t r prio) := by
  unfold hearRTS
  split
  · exact carries_setRecord fun q hq => ⟨rfl, rfl, q, hq, id⟩
  · exact carries_same rfl rfl

theorem carries_unassign {id : Nat} (h : unassign t id = .ok t') : Carries t t' := by
  unfold unassign at h
  split at h
  · cases h
    exact carries_same rfl rfl
  · obtain ⟨t1, h1, h⟩ := bind_ok h
    cases h
    unfold tickReaderSeq tickSeq at h1
    split at h1
    · cases h1
      exact carries_same rfl rfl
    · cases h1

theorem carries_hearIns {l : List InStreamQueue.Out} (hr : ∀ q, (t.records r).stream ≠ .outStream q)
    (h : l.foldlM (hearIn · r) t = .ok t') : Carries t t' := by
  have hout : ∀ {record : Record}, Carries t (t.setRecord r record) := carries_setRecord fun q hq => absurd hq (hr q)
  induction l generalizing t with
  | nil =>
    cases h
    exact carries_same rfl rfl
  | cons o l ih =>
    rw [List.foldlM_cons] at h
    obtain ⟨t1, h1, h⟩ := bind_ok h
    have hstay : ∀ q, (t1.records r).stream ≠ .outStream q := by
      intro q hq
      exact hr q (((adds_hearIn h1).streams r).symm.trans hq)
    refine Carries.trans ?_ (ih hstay h (carries_setRecord fun q hq => absurd hq (hstay q)))
    cases o with
    | reader cb s =>
      cases h1
      exact carries_same rfl rfl
    | event e =>
      cases e with
      | rts prio =>
        cases h1
        exact carries_hearRTS t r prio
      | becameUnassigned => exact hout.trans (carries_unassign h1)
      | becameComplete => exact hout.trans (carries_unassign h1)
      | becameReset =>
        cases h1
        exact carries_same rfl rfl
      | unreadBytes x =>
        cases h1
        exact carries_same rfl rfl
      | outOfOrderBytes x =>
        cases h1
        exact carries_same rfl rfl

theorem carries_hearOuts {l : List OutStreamQueue.Out} (hl : OutStreamQueue.Out.event .becameComplete ∉ l)
    (h : l.foldlM (hearOut · r) t = .ok t') : Carries t t' := by
  induction l generalizing t with
  | nil =>
    cases h
    exact carries_same rfl rfl
  | cons o l ih =>
    rw [List.foldlM_cons] at h
    obtain ⟨t1, h1, h⟩ := bind_ok h
    refine Carries.trans ?_ (ih (fun hmem => hl (.tail _ hmem)) h)
    cases o with
    | event e =>
      cases e with
      | rts prio =>
        cases h1
        exact carries_hearRTS t r prio
      | becameComplete => exact absurd (.head _) hl
      | becameReset =>
        cases h1
        exact carries_same rfl rfl
      | inflightBytes x =>
        cases h1
        exact carries_same rfl rfl
      | retransmitBytes x =>
        cases h1
        exact carries_same rfl rfl
    | _ =>
      cases h1
      exact carries_same rfl rfl

theorem carries_ranIn {q q' : InStreamQueue.T} (hq : (t.records r).stream = .inStream q) (h : ranIn t r q q' = .ok t') :
    Carries t t' := by
  have hno : ∀ x, (t.records r).stream ≠ .outStream x := fun x hx => Stream.noConfusion (hq.symm.trans hx)
  refine (carries_setRecord fun x hx => absurd hx (hno x)).trans (carries_hearIns (fun x hx => ?_) h)
  rw [setRecord_self] at hx
  cases hx

/-- The application calls an out-stream. -/
theorem carries_exec {q : OutStreamQueue.T} {op : OutStreamQueue.Op} (hq : (t.records r).stream = .outStream q)
    (h : ranOut t r q (exec q op) = .ok t') : Carries t t' := by
  obtain ⟨l, hl, hn⟩ := ongoing_exec q op
  unfold HostDispatch.ranOut at h
  rw [hl, List.drop_left] at h
  refine (carries_setRecord fun x hx => ?_).trans (carries_hearOuts hn h)
  cases hq.symm.trans hx
  exact ⟨rfl, rfl, _, rfl, exec_isReset q op⟩

theorem carries_call {a : App} (h : call t a = .ok t') : Carries t t' := by
  cases a with
  | connect port =>
    cases h
    refine ⟨Nat.le_succ _, fun r q hq hr => ?_⟩
    unfold HostDispatch.connect
    rw [push_ne (Nat.ne_of_lt hr)]
    exact ⟨rfl, rfl, q, hq, id⟩
  | outStream r op =>
    unfold call at h
    dsimp only at h
    split at h
    · rename_i q hq
      exact carries_exec hq h
    · cases h
      exact carries_same rfl rfl
  | inStream r op =>
    unfold call at h
    dsimp only at h
    split at h
    · rename_i q hq
      exact carries_ranIn hq h
    · cases h
      exact carries_same rfl rfl
  | listen port =>
    cases h
    exact carries_same rfl rfl
  | unlisten port =>
    cases h
    exact carries_same rfl rfl

theorem carries_calls {app : List App} (h : app.foldlM call t = .ok t') : Carries t t' := by
  induction app generalizing t with
  | nil =>
    cases h
    exact carries_same rfl rfl
  | cons a app ih =>
    rw [List.foldlM_cons] at h
    obtain ⟨t1, h1, h⟩ := bind_ok h
    exact (carries_call h1).trans (ih h)

/-- The heap is being emptied: an out-stream that was in it still is, or is to come back,
    or is reset. -/
structure Empties (t0 t : T) (recover : List Nat) : Prop where
  created : t0.created ≤ t.created
  each : ∀ r q, (t0.records r).stream = .outStream q → r < t0.created → (t0.records r).inHeap = true →
    ∃ q', (t.records r).stream = .outStream q' ∧
      ((t.records r).inHeap = true ∨ r ∈ recover ∨ isReset q' = true)
  back : ∀ r ∈ recover, r < t.created ∧ (∃ q, (t.records r).stream = .outStream q) ∧ (t.records r).service ≠ 0

variable {recover : List Nat}

theorem empties_refl (t : T) : Empties t t [] :=
  ⟨Nat.le_refl _, fun _ q hq _ hin => ⟨q, hq, .inl hin⟩, fun r hr => by cases hr⟩

theorem Empties.carries (h : Empties t0 t recover) (hc : Carries t t') : Empties t0 t' recover where
  created := Nat.le_trans h.created hc.1
  each r q hq hr hin := by
    obtain ⟨q1, hq1, hcase⟩ := h.each r q hq hr hin
    obtain ⟨hin', -, q2, hq2, hreset⟩ := hc.2 r q1 hq1 (Nat.lt_of_lt_of_le hr h.created)
    refine ⟨q2, hq2, ?_⟩
    rcases hcase with hc1 | hc1 | hc1
    · exact .inl (hin'.trans hc1)
    · exact .inr (.inl hc1)
    · exact .inr (.inr (hreset hc1))
  back r hr := by
    obtain ⟨hlt, ⟨q, hq⟩, hs⟩ := h.back r hr
    obtain ⟨-, hs', q', hq', -⟩ := hc.2 r q hq hlt
    exact ⟨Nat.lt_of_lt_of_le hlt hc.1, ⟨q', hq'⟩, hs' ▸ hs⟩

/-- A record is popped, and its stream is reset or to come back. -/
theorem Empties.pop (h : Empties t0 t recover) (hr : r < t.created) {p : T × List Nat}
    (hw : wipeRecord (t.setRecord r { t.records r with id := nill, inHeap := false }) r = .ok p) :
    Empties t0 p.1 (p.2 ++ recover) := by
  -- a popped out-stream that is reset, or comes back
  have popped : ∀ {t1 : T} {back : List Nat}, Carries (t.setRecord r { t.records r with id := nill, inHeap := false }) t1 →
      (∀ q, (t.records r).stream = .outStream q → r ∈ back ∨
        ∃ q', (t1.records r).stream = .outStream q' ∧ isReset q' = true) →
      (∀ x ∈ back, x = r ∧ (∃ q, (t.records r).stream = .outStream q) ∧ (t.records r).service ≠ 0) →
      Empties t0 t1 (back ++ recover) := by
    intro t1 back hc hself hback
    have hkept : ∀ r' q, (t.records r').stream = .outStream q → r' < t.created →
        (r' ≠ r → (t1.records r').inHeap = (t.records r').inHeap) ∧ (t1.records r').service = (t.records r').service ∧
          ∃ q', (t1.records r').stream = .outStream q' ∧ (isReset q = true → isReset q' = true) := by
      intro r' q hq hlt
      by_cases heq : r' = r
      · subst heq
        obtain ⟨-, hs, hq'⟩ := hc.2 r' q (by rw [setRecord_self]; exact hq) hlt
        rw [setRecord_self] at hs
        exact ⟨fun hne => absurd rfl hne, hs, hq'⟩
      · obtain ⟨hin, hs, hq'⟩ := hc.2 r' q (by rw [setRecord_ne heq]; exact hq) hlt
        rw [setRecord_ne heq] at hin hs
        exact ⟨fun _ => hin, hs, hq'⟩
    refine ⟨Nat.le_trans h.created hc.1, fun r' q hq hr' hin => ?_, fun r' hr' => ?_⟩
    · obtain ⟨q1, hq1, hcase⟩ := h.each r' q hq hr' hin
      obtain ⟨hin', -, q2, hq2, hreset⟩ := hkept r' q1 hq1 (Nat.lt_of_lt_of_le hr' h.created)
      by_cases heq : r' = r
      · subst heq
        rcases hself q1 hq1 with hmem | ⟨q3, hq3, hreset3⟩
        · exact ⟨q2, hq2, .inr (.inl (List.mem_append_left _ hmem))⟩
        · exact ⟨q3, hq3, .inr (.inr hreset3)⟩
      · refine ⟨q2, hq2, ?_⟩
        rcases hcase with hc1 | hc1 | hc1
        · exact .inl ((hin' heq).trans hc1)
        · exact .inr (.inl (List.mem_append_right _ hc1))
        · exact .inr (.inr (hreset hc1))
    · rcases List.mem_append.mp hr' with hmem | hmem
      · obtain ⟨rfl, ⟨q, hq⟩, hs⟩ := hback r' hmem
        obtain ⟨-, hs', q', hq', -⟩ := hkept r' q hq hr
        exact ⟨Nat.lt_of_lt_of_le hr hc.1, ⟨q', hq'⟩, hs' ▸ hs⟩
      · obtain ⟨hlt, ⟨q, hq⟩, hs⟩ := h.back r' hmem
        obtain ⟨-, hs', q', hq', -⟩ := hkept r' q hq hlt
        exact ⟨Nat.lt_of_lt_of_le hlt hc.1, ⟨q', hq'⟩, hs' ▸ hs⟩
  have hstream : ((t.setRecord r { t.records r with id := nill, inHeap := false }).records r).stream = (t.records r).stream := by
    rw [setRecord_self]
  have hservice : ((t.setRecord r { t.records r with id := nill, inHeap := false }).records r).service = (t.records r).service := by
    rw [setRecord_self]
  unfold HostDispatch.wipeRecord at hw
  split at hw
  · rename_i q hq
    obtain ⟨t1, h1, hw⟩ := bind_ok hw
    cases hw
    exact popped (carries_ranIn hq h1) (fun x hx => Stream.noConfusion ((hstream.symm.trans hq).symm.trans hx)) fun x hx => by cases hx
  · rename_i q hq
    split at hw
    · obtain ⟨t1, h1, hw⟩ := bind_ok hw
      cases hw
      have hran : ranOut (t.setRecord r { t.records r with id := nill, inHeap := false }) r q (exec q .reset) = .ok t1 := h1
      obtain ⟨y, ha⟩ := adds_ranOut hran
      refine popped (carries_exec hq hran) (fun x _ => .inr ⟨_, (ha.streams r).trans ?_, decide_eq_true (stopped_reset q).state⟩)
        fun x hx => by cases hx
      rw [setRecord_self]
      rfl
    · rename_i hs
      cases hw
      refine popped (carries_same rfl rfl) (fun _ _ => .inl (.head _)) fun x hx => ?_
      cases List.mem_singleton.mp hx
      exact ⟨rfl, ⟨q, hstream.symm.trans hq⟩, hservice ▸ hs⟩
  · rename_i hq
    cases hw
    exact popped (carries_same rfl rfl) (fun x hx => Stream.noConfusion ((hstream.symm.trans hq).symm.trans hx)) fun x hx => by cases hx

theorem Empties.popAll {pops : List Pop} {p : T × List Nat} (h : Empties t0 t recover)
    (hp : popAll wipeRecord t recover pops = .ok p) : Empties t0 p.1 p.2 := by
  induction pops generalizing t recover with
  | nil =>
    cases hp
    exact h
  | cons pop pops ih =>
    unfold HostDispatch.popAll at hp
    split at hp
    · rename_i htop
      obtain ⟨⟨t1, back⟩, h1, hp⟩ := bind_ok hp
      obtain ⟨t2, h2, hp⟩ := bind_ok hp
      exact ih ((h.pop htop.1 h1).carries (carries_calls h2)) hp
    · exact ih h hp

/-- What is wanted back is back in the heap, but for what is reset. -/
theorem restore_back (h : recover.foldlM restore t = .ok t') : t'.created = t.created ∧ ∀ r,
    (t'.records r).stream = (t.records r).stream ∧ (t'.records r).service = (t.records r).service ∧
      ((t'.records r).inHeap = true ↔ (t.records r).inHeap = true ∨
        r ∈ recover ∧ ∀ q, (t.records r).stream = .outStream q → isReset q = false) := by
  induction recover generalizing t with
  | nil =>
    cases h
    exact ⟨rfl, fun r => ⟨rfl, rfl, by simp⟩⟩
  | cons x recover ih =>
    rw [List.foldlM_cons] at h
    obtain ⟨t1, h1, h⟩ := bind_ok h
    obtain ⟨hc, hrest⟩ := ih h
    have hone : t1.created = t.created ∧ ∀ r, (t1.records r).stream = (t.records r).stream ∧
        (t1.records r).service = (t.records r).service ∧ ((t1.records r).inHeap = true ↔ (t.records r).inHeap = true ∨
          r = x ∧ ∀ q, (t.records r).stream = .outStream q → isReset q = false) := by
      unfold restore at h1
      split at h1
      · rename_i q hq
        split at h1
        · rename_i hreset
          cases h1
          refine ⟨rfl, fun r => ?_⟩
          by_cases hr : r = x
          · subst hr
            rw [setRecord_self, hq]
            simp [hreset]
          · rw [setRecord_ne hr]
            simp [hr]
        · rename_i hreset
          cases h1
          refine ⟨rfl, fun r => ?_⟩
          by_cases hr : r = x
          · subst hr
            rw [setRecord_self, hq]
            simp [hreset]
          · rw [setRecord_ne hr]
            simp [hr]
      · cases h1
    refine ⟨hc.trans hone.1, fun r => ?_⟩
    obtain ⟨hs, hv, hin⟩ := hrest r
    obtain ⟨hs1, hv1, hin1⟩ := hone.2 r
    refine ⟨hs.trans hs1, hv.trans hv1, ?_⟩
    rw [hin, hin1, hs1, List.mem_cons]
    tauto

/-- The list of pops leaves nothing in the heap. -/
def Emptied (t : T) (pops : List Pop) : Prop := ∀ p, popAll wipeRecord t [] pops = .ok p → heapIsEmpty p.1

/-- After `wipeState` an out-stream is in the heap with its service in front and not
    reset, or it was in the heap and is reset. -/
theorem wipeState_keeps {pops : List Pop} (hall : Emptied t pops) (h : wipeState t pops = .ok t') :
    (∀ r q, r < t'.created → (t'.records r).stream = .outStream q → (t'.records r).inHeap = true →
      (t'.records r).service ≠ 0 ∧ isReset q = false) ∧
    ∀ r q, r < t.created → (t.records r).stream = .outStream q → (t.records r).inHeap = true →
      ∃ q', (t'.records r).stream = .outStream q' ∧ ((t'.records r).inHeap = true ∨ isReset q' = true) := by
  obtain ⟨⟨t1, recover⟩, h1, h⟩ := bind_ok h
  have he := hall _ h1
  have hempties := (empties_refl t).popAll h1
  dsimp only at h he hempties
  rw [if_pos he] at h
  obtain ⟨t2, h2, h⟩ := bind_ok h
  cases h
  obtain ⟨hc, hback⟩ := restore_back h2
  refine ⟨fun r q hr hq hin => ?_, fun r q hr hq hin => ?_⟩
  · obtain ⟨hs, hv, hiff⟩ := hback r
    have hr1 : r < t1.created := hc ▸ hr
    have hin2 : (t2.records r).inHeap = true := hin
    rw [hiff, he r hr1] at hin2
    rcases hin2 with hf | ⟨hmem, hreset⟩
    · cases hf
    · obtain ⟨-, -, hservice⟩ := hempties.back r hmem
      exact ⟨fun h0 => hservice (hv.symm.trans h0), hreset q (hs.symm.trans hq)⟩
  · obtain ⟨q1, hq1, hcase⟩ := hempties.each r q hq hr hin
    obtain ⟨hs, -, hiff⟩ := hback r
    refine ⟨q1, hs.trans hq1, ?_⟩
    rcases hcase with hheap | hmem | hreset
    · rw [he r (Nat.lt_of_lt_of_le hr hempties.created)] at hheap
      cases hheap
    · cases hreset : isReset q1 with
      | true => exact .inr rfl
      | false =>
        refine .inl (hiff.mpr (.inr ⟨hmem, fun x hx => ?_⟩))
        cases hq1.symm.trans hx
        exact hreset
    · exact .inr hreset

/-! ## What a new session finds -/

/-- The callback of a segment of record `r` acknowledges it. -/
def Acknowledges (s : St) (m : Move) (r : Nat) : Prop :=
  ∃ i sent, m = .ev (.ack i true) ∧ s.sent[i]? = some (sent, true) ∧ sent.record = r

theorem acknowledged_silent {s s' : St} {m : Move} (hseen : Recovers s.sent s.host) (ha : Acknowledges s m r)
    (hm : move s m = .ok s') : r < s'.host.created ∧ (s'.host.records r).service = 0 := by
  obtain ⟨i, sent, rfl, hi, rfl⟩ := ha
  have hlt : sent.record < s.host.created := hseen.seen (sent, true) (List.mem_of_getElem? hi)
  have hzero : ((s.host.heard sent.record true).records sent.record).service = 0 := by
    unfold T.heard
    rw [if_pos rfl, setRecord_self]
  have hlt' : sent.record < (s.host.heard sent.record true).created := (heard_counts s.host sent.record true).1 ▸ hlt
  refine ⟨Nat.lt_of_lt_of_le hlt (move_silent hm).1, ?_⟩
  unfold move step at hm
  dsimp only at hm
  rw [hi] at hm
  obtain ⟨t1, hack, hm⟩ := bind_ok hm
  cases hm
  rcases ackSegment_turns hack with ⟨-, hturns⟩ | ⟨-, -, heq⟩ | ⟨a, q, -, -, hran⟩
  · exact hturns.silent.2 _ hlt' hzero
  · rw [heq]
    exact hzero
  · exact ((ranOut_services hran).2 _).trans hzero

/-- Of a stream of which a segment was acknowledged the service is not in front any more.
    One with its service in front holds every byte it accepted once its callbacks have
    run. `wipeState` leaves only these in the heap, and resets the others that were in it;
    a reset tells the writer, at once or when it writes again. -/
theorem recovered_whole {global : Nat → Bool} {s : St} (h : Runs global Short s) :
    (∀ m s1 s2 r, Acknowledges s m r → move s m = .ok s1 → Later s1 s2 → (s2.host.records r).service = 0) ∧
    (∀ r q, (s.host.records r).stream = .outStream q → (s.host.records r).service ≠ 0 → isReset q = false →
      awaits s.sent r = [] → OutStreamQueue.Whole q) ∧
    (∀ pops s', Emptied s.host pops → move s (.wipeState pops) = .ok s' →
      (∀ r q, r < s'.host.created → (s'.host.records r).stream = .outStream q → (s'.host.records r).inHeap = true →
        (s'.host.records r).service ≠ 0 ∧ isReset q = false) ∧
      ∀ r q, r < s.host.created → (s.host.records r).stream = .outStream q → (s.host.records r).inHeap = true →
        ∃ q', (s'.host.records r).stream = .outStream q' ∧
          ((s'.host.records r).inHeap = true ∨ isReset q' = true)) ∧
    ∀ (q : OutStreamQueue.T) (cb : Nat), (q.writer = some cb → .writer cb .reset ∈ (reset q).log) ∧
      ∀ buffer, .writer cb .reset ∈ (exec (reset q) (.write buffer cb)).log := by
  have hrec := runs_recover h
  refine ⟨fun m s1 s2 r ha hm hlater => ?_, fun r q hq hs hreset hnone => ?_, fun pops s' hall hm => ?_, fun q cb => ⟨?_, ?_⟩⟩
  · obtain ⟨hlt, hzero⟩ := acknowledged_silent hrec ha hm
    exact hlater.silent.2 r hlt hzero
  · have hu := hrec.unheard r q hq hs
    rw [hnone] at hu
    exact hu.whole (of_decide_eq_false hreset)
  · obtain ⟨t', hw, hm⟩ := bind_ok hm
    cases hm
    exact wipeState_keeps hall hw
  · exact reset_tells
  · exact reset_answers q cb

/-- A byte is written and sent, the session is replaced, and the segment is lost. -/
theorem recovered_whole_example : ∃ s, Runs (fun _ => true) Short s ∧ ∃ q, (s.host.records 0).stream = .outStream q ∧
    (s.host.records 0).service = 80 ∧ (s.host.records 0).inHeap = true ∧ written q.log = [7] ∧ q.inflight = [] ∧ OutStreamQueue.Whole q := by
  have short : ∀ {s : St}, Runs (fun _ => true) Short s → s.host.created = 1 →
      (∃ q, (s.host.records 0).stream = .outStream q ∧ q.sendOffset < 2 ^ 31) → ∀ m, Short s m := by
    intro s hs hc ⟨q0, hq0, hlt⟩ m r q hq _
    by_cases hr : r = 0
    · subst hr
      cases hq0.symm.trans hq
      exact hlt
    · cases ((runs_recover hs).unborn r (by omega)).symm.trans hq
  have h1 : Runs (fun _ => true) Short _ := .step (.ev (.call (.connect 80))) .start (fun r q hq => by cases hq) rfl
  have h2 : Runs (fun _ => true) Short _ := .step (.ev (.call (.outStream 0 (.write ⟨[7], by decide⟩ 0)))) h1
    (short h1 rfl ⟨_, rfl, by decide⟩ _) rfl
  have h3 : Runs (fun _ => true) Short _ := .step (.ev (.pull 0 32 [])) h2 (short h2 rfl ⟨_, rfl, by decide⟩ _) rfl
  have h4 : Runs (fun _ => true) Short _ := .step (.wipeState [⟨0, []⟩]) h3 (short h3 rfl ⟨_, rfl, by decide⟩ _) rfl
  have h5 : Runs (fun _ => true) Short _ := .step (.ev (.ack 0 false)) h4 (short h4 rfl ⟨_, rfl, by decide⟩ _) rfl
  exact ⟨_, h5, _, rfl, rfl, rfl, rfl, rfl, (recovered_whole h5).2.1 0 _ rfl (by decide) rfl rfl⟩

end BubbleStorm.Cusp.Stream.HostDispatch
