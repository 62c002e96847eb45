/-
  BubbleStorm.Cusp.Stream.HostTurns — what a host does to its streams.

  Whatever a host does but pulling and hearing of what it pulled is a series of `Turns`:
  the streams stay, a stream is made, or one queue takes a step and what it fires is
  counted. What holds of a host is carried through these.
-/

import Mathlib.Algebra.BigOperators.Group.Finset.Basic
import Mathlib.Tactic.Abel
import BubbleStorm.Cusp.Stream.HostFails
import BubbleStorm.Cusp.Stream.QueueBooks

namespace BubbleStorm.Cusp.Stream.HostDispatch

open Function (update)

variable {t t' t'' : T} {r : Nat}

/-! ## The counters of a host -/

/-- What a stream counts: unread, out of order, in flight and to retransmit. -/
def counts : Stream → Int × Int × Int × Int
  | .inStream q => (q.readyBytes, q.queuedBytes, 0, 0)
  | .outStream q => (0, 0, q.inflightBytes, q.retransmitBytes)
  | .noStream => 0

/-- What a host counts. -/
def T.queued (t : T) : Int × Int × Int × Int := (t.queuedUnread, t.queuedOutOfOrder, t.queuedInFlight, t.queuedToRetransmit)

/-- `t'` has the streams of `t`, and counts `x` more. -/
structure Adds (t t' : T) (x : Int × Int × Int × Int) : Prop where
  created : t'.created = t.created
  streams : ∀ r, (t'.records r).stream = (t.records r).stream
  services : ∀ r, (t'.records r).service = (t.records r).service
  queued : t'.queued = t.queued + x

theorem adds_same (hc : t'.created = t.created) (hr : t'.records = t.records) (hq : t'.queued = t.queued) : Adds t t' 0 :=
  ⟨hc, fun _ => by rw [hr], fun _ => by rw [hr], by rw [hq, add_zero]⟩

theorem adds_refl (t : T) : Adds t t 0 := adds_same rfl rfl rfl

theorem Adds.trans {x y : Int × Int × Int × Int} (h : Adds t t' x) (h' : Adds t' t'' y) : Adds t t'' (x + y) where
  created := h'.created.trans h.created
  streams r := (h'.streams r).trans (h.streams r)
  services r := (h'.services r).trans (h.services r)
  queued := by rw [h'.queued, h.queued, add_assoc]

theorem Adds.same {x : Int × Int × Int × Int} (h : Adds t t' x) (h' : Adds t' t'' 0) : Adds t t'' x := by
  have hxy := h.trans h'
  rwa [add_zero] at hxy

theorem adds_setRecord (t : T) (r : Nat) {record : Record} (h : record.stream = (t.records r).stream)
    (hs : record.service = (t.records r).service) : Adds t (t.setRecord r record) 0 := by
  refine ⟨rfl, fun r' => ?_, fun r' => ?_, (add_zero _).symm⟩
  · by_cases hr : r' = r
    · subst hr
      rw [setRecord_self]
      exact h
    · rw [setRecord_ne hr]
  · by_cases hr : r' = r
    · subst hr
      rw [setRecord_self]
      exact hs
    · rw [setRecord_ne hr]

theorem adds_tickSeq {i : Nat} {tick : Nat → Nat} (h : tickSeq t i tick = .ok t') : Adds t t' 0 := by
  unfold tickSeq at h
  split at h
  · cases h
    exact adds_same rfl rfl rfl
  · cases h

theorem adds_pushCooldown {id : Nat} (h : pushCooldown t id = .ok t') : Adds t t' 0 := by
  unfold pushCooldown at h
  split at h
  · cases h
    exact adds_same rfl rfl rfl
  · cases h

theorem adds_unassign {id : Nat} (h : unassign t id = .ok t') : Adds t t' 0 := by
  unfold unassign at h
  split at h
  · cases h
    exact adds_refl t
  · obtain ⟨t1, h1, h⟩ := bind_ok h
    cases h
    exact (adds_tickSeq h1).same (adds_same rfl rfl rfl)

theorem adds_hearRTS (t : T) (r : Nat) (prio : Real32) : Adds t (hearRTS t r prio) 0 := by
  unfold hearRTS
  split
  · exact adds_setRecord t r rfl rfl
  · exact adds_refl t

theorem adds_hearIn {o : InStreamQueue.Out} (h : hearIn t r o = .ok t') : Adds t t' (unread o, outOfOrder o, 0, 0) := by
  cases o with
  | reader cb s =>
    cases h
    exact adds_refl t
  | event e =>
    cases e with
    | rts prio =>
      cases h
      exact adds_hearRTS t r prio
    | becameUnassigned =>
      have hrecord : Adds t (t.setRecord r { t.records r with id := nill }) 0 := adds_setRecord t r rfl rfl
      exact hrecord.trans (adds_unassign h)
    | becameComplete =>
      have hrecord : Adds t (t.setRecord r { t.records r with id := nill, inHeap := false }) 0 := adds_setRecord t r rfl rfl
      exact hrecord.trans (adds_unassign h)
    | becameReset =>
      cases h
      exact adds_refl t
    | unreadBytes x =>
      cases h
      exact ⟨rfl, fun _ => rfl, fun _ => rfl, by simp [T.queued, unread, outOfOrder]⟩
    | outOfOrderBytes x =>
      cases h
      exact ⟨rfl, fun _ => rfl, fun _ => rfl, by simp [T.queued, unread, outOfOrder]⟩

theorem adds_hearOut {o : OutStreamQueue.Out} (h : hearOut t r o = .ok t') : Adds t t' (0, 0, inFlight o, toRetransmit o) := by
  cases o with
  | event e =>
    cases e with
    | rts prio =>
      cases h
      exact adds_hearRTS t r prio
    | becameComplete =>
      have hrecord : Adds t (t.setRecord r { t.records r with id := nill, inHeap := false }) 0 := adds_setRecord t r rfl rfl
      unfold hearOut outStreamCallback at h
      dsimp only at h
      split at h
      · cases h
        exact hrecord
      · obtain ⟨t1, h1, h⟩ := bind_ok h
        exact (hrecord.trans (adds_tickSeq h1)).trans (adds_pushCooldown h)
    | becameReset =>
      cases h
      exact adds_refl t
    | inflightBytes x =>
      cases h
      exact ⟨rfl, fun _ => rfl, fun _ => rfl, by simp [T.queued, inFlight, toRetransmit]⟩
    | retransmitBytes x =>
      cases h
      exact ⟨rfl, fun _ => rfl, fun _ => rfl, by simp [T.queued, inFlight, toRetransmit]⟩
  | _ =>
    cases h
    exact adds_refl t

/-- What a log announces is counted. -/
theorem adds_hearIns {l : List InStreamQueue.Out} (h : l.foldlM (hearIn · r) t = .ok t') :
    Adds t t' ((l.map unread).sum, (l.map outOfOrder).sum, 0, 0) := by
  induction l generalizing t with
  | nil =>
    cases h
    exact adds_refl _
  | cons o l ih =>
    rw [List.foldlM_cons] at h
    obtain ⟨t1, h1, h⟩ := bind_ok h
    have hsum := (adds_hearIn h1).trans (ih h)
    simpa using hsum

theorem adds_hearOuts {l : List OutStreamQueue.Out} (h : l.foldlM (hearOut · r) t = .ok t') :
    Adds t t' (0, 0, (l.map inFlight).sum, (l.map toRetransmit).sum) := by
  induction l generalizing t with
  | nil =>
    cases h
    exact adds_refl _
  | cons o l ih =>
    rw [List.foldlM_cons] at h
    obtain ⟨t1, h1, h⟩ := bind_ok h
    have hsum := (adds_hearOut h1).trans (ih h)
    simpa using hsum

theorem adds_ranIn {q q' : InStreamQueue.T} (h : ranIn t r q q' = .ok t') :
    ∃ x, Adds (t.setRecord r { t.records r with stream := .inStream q' }) t' x := ⟨_, adds_hearIns h⟩

theorem adds_ranOut {q q' : OutStreamQueue.T} (h : ranOut t r q q' = .ok t') :
    ∃ x, Adds (t.setRecord r { t.records r with stream := .outStream q' }) t' x := ⟨_, adds_hearOuts h⟩

theorem setRecord_services {stream : Stream} {x : Int × Int × Int × Int}
    (h : Adds (t.setRecord r { t.records r with stream := stream }) t' x) :
    t'.created = t.created ∧ ∀ r', (t'.records r').service = (t.records r').service := by
  refine ⟨h.created, fun r' => (h.services r').trans ?_⟩
  by_cases hr : r' = r
  · subst hr
    rw [setRecord_self]
  · rw [setRecord_ne hr]

theorem ranIn_services {q q' : InStreamQueue.T} (h : ranIn t r q q' = .ok t') :
    t'.created = t.created ∧ ∀ r', (t'.records r').service = (t.records r').service := by
  obtain ⟨x, ha⟩ := adds_ranIn h
  exact setRecord_services ha

theorem ranOut_services {q q' : OutStreamQueue.T} (h : ranOut t r q q' = .ok t') :
    t'.created = t.created ∧ ∀ r', (t'.records r').service = (t.records r').service := by
  obtain ⟨x, ha⟩ := adds_ranOut h
  exact setRecord_services ha

/-! ## What a host does to its streams -/

/-- What a sending queue does when it neither pulls nor hears of a segment it pulled. -/
inductive OutStep (q : OutStreamQueue.T) : OutStreamQueue.T → Prop
  | exec (op : OutStreamQueue.Op) : OutStep q (OutStreamQueue.exec q op)
  | recv {data : Slice} {msg : PacketFormat.Writer} {q' : OutStreamQueue.T} {n : Nat} :
    OutStreamQueue.recv q data msg = .ok (q', n) → OutStep q q'
  | named (id : Nat) : OutStep q { q with id := id }

theorem OutStep.books {q q' : OutStreamQueue.T} (h : OutStep q q') : OutStreamQueue.Books 0 q q' := by
  cases h with
  | exec op => exact OutStreamQueue.books_exec q op
  | recv hrecv => exact OutStreamQueue.books_recv hrecv
  | named id => exact (OutStreamQueue.books_refl q).congr rfl rfl rfl

/-- A stream as it is made. -/
def Made (stream : Stream) : Prop := stream = .outStream OutStreamQueue.new ∨ ∃ i, stream = .inStream (InStreamQueue.new i)

/-- `t0` becomes `t`, and nothing is pulled or acknowledged but by in-streams. -/
inductive Turns (t0 : T) : T → Prop
  | refl : Turns t0 t0
  | same {t t' : T} : Turns t0 t → Adds t t' 0 → Turns t0 t'
  | push {t : T} {stream : Stream} (id service : Nat) : Turns t0 t → Made stream → Turns t0 (t.push stream id service)
  | ranIn {t t' : T} {r : Nat} {q q' : InStreamQueue.T} : Turns t0 t → (t.records r).stream = .inStream q →
    Relation.ReflGen InStreamQueue.Step q q' → ranIn t r q q' = .ok t' → Turns t0 t'
  | ranOut {t t' : T} {r : Nat} {q q' : OutStreamQueue.T} : Turns t0 t → (t.records r).stream = .outStream q →
    OutStep q q' → ranOut t r q q' = .ok t' → Turns t0 t'

variable {t0 : T}

theorem adds_drain {fuel id tail : Nat} {p : T × Nat} (h : drain fuel t id tail = .ok p) : Adds t p.1 0 := by
  induction fuel generalizing t id tail with
  | zero =>
    unfold drain at h
    split at h
    · cases h
      exact adds_refl t
    · cases h
  | succ fuel ih =>
    unfold drain at h
    split at h
    · cases h
      exact adds_refl t
    · split at h
      · cases h
      · split at h
        · have hs : Adds t { t with outStreams := update t.outStreams id (.free tail) } 0 := adds_same rfl rfl rfl
          exact hs.same (ih h)
        · cases h

theorem adds_tickCooldown (h : tickCooldown t = .ok t') : Adds t t' 0 := by
  obtain ⟨p, hp, h⟩ := bind_ok h
  cases h
  exact (adds_drain hp).same (adds_same rfl rfl rfl)

theorem adds_allocId {id : Nat} (h : allocId t = .ok (t', id)) : Adds t t' 0 := by
  have hx : Adds t (if t.writeFree = nill then expand t (t.len * 2) else t) 0 := by
    split
    · exact adds_same rfl rfl rfl
    · exact adds_refl t
  unfold allocId at h
  dsimp only at h
  generalize (if t.writeFree = nill then expand t (t.len * 2) else t) = t1 at h hx
  split at h
  · cases h
  · split at h
    · cases h
      exact hx.same (adds_same rfl rfl rfl)
    · cases h

theorem Turns.assign {id : Nat} (h : Turns t0 t) (ha : assign t r = .ok (t', id)) : Turns t0 t' := by
  unfold HostDispatch.assign at ha
  dsimp only at ha
  split at ha
  · cases ha
    exact h
  · obtain ⟨⟨t1, id1⟩, h1, ha⟩ := bind_ok ha
    have hs := adds_allocId h1
    dsimp only at ha
    split at ha
    · rename_i q hq
      cases ha
      have hq1 : (t1.records r).stream = .outStream q := (hs.streams r).trans hq
      have hran : HostDispatch.ranOut t1 r q { q with id := id } =
          .ok (t1.setRecord r { t1.records r with stream := .outStream { q with id := id } }) := by
        unfold HostDispatch.ranOut
        rw [List.drop_length]
        rfl
      refine ((h.same hs).ranOut hq1 (.named id) hran).same ⟨rfl, fun r' => ?_, fun r' => ?_, (add_zero _).symm⟩
      · by_cases hr : r' = r
        · subst hr
          simp [T.setRecord]
        · simp [T.setRecord, hr]
      · by_cases hr : r' = r
        · subst hr
          simp [T.setRecord]
        · simp [T.setRecord, hr]
    · cases ha

theorem Turns.call {a : App} (h : Turns t0 t) (hc : call t a = .ok t') : Turns t0 t' := by
  cases a with
  | connect port =>
    cases hc
    exact h.push nill port (.inl rfl)
  | outStream r op =>
    unfold HostDispatch.call at hc
    dsimp only at hc
    split at hc
    · rename_i q hq
      exact h.ranOut hq (.exec op) hc
    · cases hc
      exact h
  | inStream r op =>
    unfold HostDispatch.call at hc
    dsimp only at hc
    split at hc
    · rename_i q hq
      exact h.ranIn hq (InStreamQueue.exec_step q op) hc
    · cases hc
      exact h
  | listen port =>
    cases hc
    exact h.same (adds_same rfl rfl rfl)
  | unlisten port =>
    cases hc
    exact h.same (adds_same rfl rfl rfl)

theorem Turns.calls {app : List App} (h : Turns t0 t) (hc : app.foldlM HostDispatch.call t = .ok t') : Turns t0 t' := by
  induction app generalizing t with
  | nil =>
    cases hc
    exact h
  | cons a app ih =>
    rw [List.foldlM_cons] at hc
    obtain ⟨t1, h1, hc⟩ := bind_ok hc
    exact ih (h.call h1) hc

theorem Turns.gotConnection {id service : Nat} (h : Turns t0 t) (hg : gotConnection t id service = .ok t') : Turns t0 t' := by
  have hp : Turns t0 (t.push (.inStream (InStreamQueue.new id)) id 0) :=
    h.push id 0 (.inr ⟨id, rfl⟩)
  unfold HostDispatch.gotConnection at hg
  dsimp only at hg
  split at hg
  · cases hg
  · have hi : Turns t0 { t.push (.inStream (InStreamQueue.new id)) id 0 with
        inStreams := update (t.push (.inStream (InStreamQueue.new id)) id 0).inStreams id (some t.created) } :=
      hp.same (adds_same rfl rfl rfl)
    split at hg
    · cases hg
      exact hi
    · refine hi.ranIn ?_ (.single (.reset _)) hg
      show (update t.records t.created _ t.created).stream = _
      rw [Function.update_self]

theorem Turns.expandSubReader {id : Nat} {o : Option Nat} (h : Turns t0 t) (he : expandSubReader t id = .ok (t', o)) : Turns t0 t' := by
  have hx : Turns t0 (if t.len ≤ id then expand t (contain id + 1) else t) := by
    split
    · exact h.same (adds_same rfl rfl rfl)
    · exact h
  unfold HostDispatch.expandSubReader at he
  dsimp only at he
  generalize (if t.len ≤ id then expand t (contain id + 1) else t) = t1 at he hx
  split at he
  · cases he
    exact hx
  · cases he

theorem parse_ofWord {data : Slice} {msg : PacketFormat.Segment} (h : PacketFormat.parse data = .ok msg) :
    msg = .corrupt ∨ ∃ command, msg = PacketFormat.ofWord command := by
  unfold PacketFormat.parse at h
  split at h
  · cases h
    exact .inl rfl
  · obtain ⟨command, -, h⟩ := bind_ok h
    cases h
    exact .inr ⟨command, rfl⟩

theorem Turns.recvSegment {data : Slice} {own : List InStreamQueue.Op} {n : Int} (h : Turns t0 t)
    (hr : recvSegment t data own = .ok (t', n)) : Turns t0 t' := by
  obtain ⟨msg, hmsg, hr⟩ := bind_ok hr
  split at hr
  · cases hr
    exact h
  · split at hr
    · cases hr
      exact h
    · split at hr
      · rename_i q hq
        obtain ⟨⟨q', n'⟩, hrecv, hr⟩ := bind_ok hr
        obtain ⟨t1, h1, hr⟩ := bind_ok hr
        cases hr
        obtain hc | ⟨command, hc⟩ := parse_ofWord hmsg
        · cases hc
        exact h.ranIn hq (.single (.recv hc.symm hrecv)) h1
      · cases hr
  · split at hr
    · cases hr
      exact h
    · split at hr
      · cases hr
        exact h
      · split at hr
        · rename_i q hq
          obtain ⟨⟨q', n'⟩, hrecv, hr⟩ := bind_ok hr
          obtain ⟨t1, h1, hr⟩ := bind_ok hr
          cases hr
          exact h.ranOut hq (.recv hrecv) h1
        · cases hr
  · obtain ⟨sub, -, hr⟩ := bind_ok hr
    obtain ⟨msg', -, hr⟩ := bind_ok hr
    split at hr
    · split at hr
      · cases hr
        exact h
      · obtain ⟨⟨t1, o⟩, he, hr⟩ := bind_ok hr
        have h1 := h.expandSubReader he
        cases o with
        | none =>
          obtain ⟨t2, h2, hr⟩ := bind_ok hr
          cases hr
          exact h1.gotConnection h2
        | some r =>
          cases hr
          exact h1
    · cases hr
      exact h

/-- Pulling: what comes before it, and the pull of an out-stream. -/
theorem pullRecord_turns {room : Nat} {own : List (List OutStreamQueue.Op)} {sent : Sent}
    (hp : pullRecord t r room own = .ok (t', sent)) : (Turns t t' ∧ sent.record = r ∧ ∃ a, sent.ack = .inStream a) ∨
      ∃ t1 q id room, Turns t t1 ∧ (t1.records r).stream = .outStream q ∧
        ranOut t1 r q (OutStreamQueue.pull q id room own).2 = .ok t' ∧ sent.record = r ∧
        sent.ack = .outStream (OutStreamQueue.pull q id room own).1.ack := by
  obtain ⟨⟨t1, id⟩, h1, hp⟩ := bind_ok hp
  have hs : Turns t t1 := Turns.refl.assign h1
  dsimp only at hp
  split at hp
  · cases hp
  · rename_i q hq
    obtain ⟨t2, h2, hp⟩ := bind_ok hp
    obtain ⟨b, -, hp⟩ := bind_ok hp
    cases hp
    exact .inr ⟨t1, q, id, _, hs, hq, h2, rfl, rfl⟩
  · rename_i q hq
    obtain ⟨⟨p, q'⟩, hpull, hp⟩ := bind_ok hp
    obtain ⟨t2, h2, hp⟩ := bind_ok hp
    obtain ⟨b, -, hp⟩ := bind_ok hp
    cases hp
    exact .inl ⟨hs.ranIn hq (.single (.pull hpull)) h2, rfl, _, rfl⟩

/-- The service is dropped if the segment was acknowledged. -/
def T.heard (t : T) (r : Nat) (ok : Bool) : T := if ok then t.setRecord r { t.records r with service := 0 } else t

theorem heard_streams (t : T) (r : Nat) (ok : Bool) (r' : Nat) : ((t.heard r ok).records r').stream = (t.records r').stream := by
  unfold T.heard
  split
  · by_cases hr : r' = r
    · subst hr
      rw [setRecord_self]
    · rw [setRecord_ne hr]
  · rfl

theorem heard_counts (t : T) (r : Nat) (ok : Bool) : (t.heard r ok).created = t.created ∧ (t.heard r ok).queued = t.queued := by
  unfold T.heard
  split
  · exact ⟨rfl, rfl⟩
  · exact ⟨rfl, rfl⟩

/-- A callback. -/
theorem ackSegment_turns {sent : Sent} {ok : Bool} (ha : ackSegment t sent ok = .ok t') :
    (∃ a, sent.ack = .inStream a) ∧ Turns (t.heard sent.record ok) t' ∨
      (∃ a, sent.ack = .outStream a) ∧ (∀ q, (t.records sent.record).stream ≠ .outStream q) ∧ t' = t.heard sent.record ok ∨
      ∃ a q, sent.ack = .outStream a ∧ (t.records sent.record).stream = .outStream q ∧
        ranOut (t.heard sent.record ok) sent.record q (OutStreamQueue.ack q a ok) = .ok t' := by
  obtain ⟨r, bytes, ack⟩ := sent
  have hstream := heard_streams t r ok r
  unfold HostDispatch.ackSegment at ha
  dsimp only at ha ⊢
  have hheard : (if ok then t.setRecord r { t.records r with service := 0 } else t) = t.heard r ok := rfl
  rw [hheard] at ha
  generalize t.heard r ok = t1 at hstream ha ⊢
  cases ack with
  | inStream a =>
    refine .inl ⟨⟨a, rfl⟩, ?_⟩
    split at ha
    · rename_i heq _
      cases heq
    · rename_i hq
      exact Turns.refl.ranIn hq (.single (.ack ..)) ha
    · cases ha
      exact .refl
  | outStream a =>
    cases hq : (t.records r).stream with
    | outStream q =>
      rw [hstream, hq] at ha
      exact .inr (.inr ⟨a, q, rfl, rfl, ha⟩)
    | inStream q =>
      rw [hstream, hq] at ha
      cases ha
      exact .inr (.inl ⟨⟨a, rfl⟩, fun q' hq' => Stream.noConfusion hq', rfl⟩)
    | noStream =>
      rw [hstream, hq] at ha
      cases ha
      exact .inr (.inl ⟨⟨a, rfl⟩, fun q' hq' => Stream.noConfusion hq', rfl⟩)

/-! ## Starting over -/

theorem Turns.wipeRecord {p : T × List Nat} (h : Turns t0 t) (hw : wipeRecord t r = .ok p) : Turns t0 p.1 := by
  unfold HostDispatch.wipeRecord at hw
  split at hw
  · rename_i q hq
    obtain ⟨t1, h1, hw⟩ := bind_ok hw
    cases hw
    exact h.ranIn hq (.single (.reset q)) h1
  · rename_i q hq
    split at hw
    · obtain ⟨t1, h1, hw⟩ := bind_ok hw
      cases hw
      exact h.ranOut hq (.exec .reset) h1
    · cases hw
      exact h
  · cases hw
    exact h

theorem Turns.destroyRecord {p : T × List Nat} (h : Turns t0 t) (hd : destroyRecord t r = .ok p) : Turns t0 p.1 := by
  unfold HostDispatch.destroyRecord at hd
  split at hd
  · rename_i q hq
    obtain ⟨t1, h1, hd⟩ := bind_ok hd
    cases hd
    exact h.ranIn hq (.single (.reset q)) h1
  · rename_i q hq
    obtain ⟨t1, h1, hd⟩ := bind_ok hd
    cases hd
    exact h.ranOut hq (.exec .reset) h1
  · cases hd
    exact h

theorem Turns.popAll {destroy : T → Nat → Except Exn (T × List Nat)}
    (hd : ∀ t r p, Turns t0 t → destroy t r = .ok p → Turns t0 p.1) {recover : List Nat} {pops : List Pop} {p : T × List Nat}
    (h : Turns t0 t) (hp : popAll destroy t recover pops = .ok p) : Turns t0 p.1 := by
  induction pops generalizing t recover with
  | nil =>
    cases hp
    exact h
  | cons pop pops ih =>
    unfold HostDispatch.popAll at hp
    split at hp
    · have h0 : Turns t0 (t.setRecord pop.record { t.records pop.record with id := nill, inHeap := false }) :=
        h.same (adds_setRecord t _ rfl rfl)
      obtain ⟨⟨t1, back⟩, h1, hp⟩ := bind_ok hp
      obtain ⟨t2, h2, hp⟩ := bind_ok hp
      exact ih ((hd _ _ _ h0 h1).calls h2) hp
    · exact ih h hp

theorem Turns.restore {recover : List Nat} (h : Turns t0 t) (hr : recover.foldlM HostDispatch.restore t = .ok t') : Turns t0 t' := by
  induction recover generalizing t with
  | nil =>
    cases hr
    exact h
  | cons r recover ih =>
    rw [List.foldlM_cons] at hr
    obtain ⟨t1, h1, hr⟩ := bind_ok hr
    refine ih ?_ hr
    unfold HostDispatch.restore at h1
    split at h1
    · split at h1
      · cases h1
        exact h.same (adds_setRecord t r rfl rfl)
      · cases h1
        exact h.same (adds_setRecord t r rfl rfl)
    · cases h1

theorem Turns.wipeState {pops : List Pop} (h : Turns t0 t) (hw : wipeState t pops = .ok t') : Turns t0 t' := by
  obtain ⟨⟨t1, recover⟩, h1, hw⟩ := bind_ok hw
  have hc := h.popAll (fun _ _ _ h hw => h.wipeRecord hw) h1
  dsimp only at hw
  split at hw
  · obtain ⟨t2, h2, hw⟩ := bind_ok hw
    cases hw
    exact (hc.restore h2).same (adds_same rfl rfl rfl)
  · cases hw
    exact h

theorem Turns.destroy {pops : List Pop} (h : Turns t0 t) (hd : destroy t pops = .ok t') : Turns t0 t' := by
  obtain ⟨⟨t1, recover⟩, h1, hd⟩ := bind_ok hd
  have hc := h.popAll (fun _ _ _ h hd => h.destroyRecord hd) h1
  dsimp only at hd
  split at hd
  · cases hd
    exact hc.same (adds_same rfl rfl rfl)
  · cases hd
    exact h

/-- Records stay, and what has no service has none later. -/
theorem Turns.silent (h : Turns t0 t) : t0.created ≤ t.created ∧ ∀ r < t0.created, (t0.records r).service = 0 → (t.records r).service = 0 := by
  induction h with
  | refl => exact ⟨Nat.le_refl _, fun _ _ hs => hs⟩
  | same _ ha ih => exact ⟨ha.created ▸ ih.1, fun r hr hs => (ha.services r).trans (ih.2 r hr hs)⟩
  | push id service _ _ ih =>
    refine ⟨Nat.le_succ_of_le ih.1, fun r hr hs => ?_⟩
    rw [push_ne (Nat.ne_of_lt (Nat.lt_of_lt_of_le hr ih.1))]
    exact ih.2 r hr hs
  | ranIn _ _ _ hran ih =>
    obtain ⟨hc, hservice⟩ := ranIn_services hran
    exact ⟨hc ▸ ih.1, fun r hr hs => (hservice r).trans (ih.2 r hr hs)⟩
  | ranOut _ _ _ hran ih =>
    obtain ⟨hc, hservice⟩ := ranOut_services hran
    exact ⟨hc ▸ ih.1, fun r hr hs => (hservice r).trans (ih.2 r hr hs)⟩

/-! ## Moves -/

/-- A move is a series of turns, a pull or a callback. -/
theorem move_cases {s s' : St} {m : Move} (hm : move s m = .ok s') : (Turns s.host s'.host ∧ s'.sent = s.sent) ∨
    (∃ r room own sent, m = .ev (.pull r room own) ∧ first s.host r ∧ pullRecord s.host r room own = .ok (s'.host, sent) ∧
      s'.sent = s.sent ++ [(sent, true)]) ∨
    ∃ i ok sent, m = .ev (.ack i ok) ∧ s.sent[i]? = some (sent, true) ∧ ackSegment s.host sent ok = .ok s'.host ∧
      s'.sent = s.sent.set i (sent, false) := by
  cases m with
  | wipeState pops =>
    obtain ⟨t1, h1, hm⟩ := bind_ok hm
    cases hm
    exact .inl ⟨Turns.refl.wipeState h1, rfl⟩
  | destroy pops =>
    obtain ⟨t1, h1, hm⟩ := bind_ok hm
    cases hm
    exact .inl ⟨Turns.refl.destroy h1, rfl⟩
  | ev e =>
    unfold move at hm
    cases e with
    | call a =>
      obtain ⟨t1, h1, hm⟩ := bind_ok hm
      cases hm
      exact .inl ⟨Turns.refl.call h1, rfl⟩
    | recv data own =>
      obtain ⟨⟨t1, n⟩, h1, hm⟩ := bind_ok hm
      cases hm
      exact .inl ⟨Turns.refl.recvSegment h1, rfl⟩
    | tick =>
      obtain ⟨t1, h1, hm⟩ := bind_ok hm
      cases hm
      exact .inl ⟨Turns.refl.same (adds_tickCooldown h1), rfl⟩
    | pull r room own =>
      unfold step at hm
      dsimp only at hm
      split at hm
      · rename_i hfirst
        obtain ⟨⟨t1, sent⟩, h1, hm⟩ := bind_ok hm
        cases hm
        exact .inr (.inl ⟨r, room, own, sent, rfl, hfirst.1, h1, rfl⟩)
      · cases hm
        exact .inl ⟨.refl, rfl⟩
    | ack i ok =>
      unfold step at hm
      dsimp only at hm
      split at hm
      · rename_i sent hi
        obtain ⟨t1, h1, hm⟩ := bind_ok hm
        cases hm
        exact .inr (.inr ⟨i, ok, sent, rfl, hi, h1, rfl⟩)
      · cases hm
        exact .inl ⟨.refl, rfl⟩

end BubbleStorm.Cusp.Stream.HostDispatch
