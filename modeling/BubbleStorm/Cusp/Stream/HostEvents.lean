/-
  BubbleStorm.Cusp.Stream.HostEvents — what the host does with the events of a queue.

  All a log does to its stream's record is `Record.hearIn` and `Record.hearOut`; to the
  rest of the host it gives the stream's id back, at most once, and adds up the bytes.
  So a call of a queue is one equation about the host (`ranIn_eq`, `ranOut_eq`).
-/

import BubbleStorm.Cusp.Stream.HostDispatch

namespace BubbleStorm.Cusp.Stream.HostDispatch

open Function (update)

/-! ## Records -/

def Record.hearRTS (record : Record) (prio : Real32) : Record :=
  if record.inHeap then { record with priority := prio } else record

def Record.hearIn (record : Record) : InStreamQueue.Out → Record
  | .event (.rts prio) => record.hearRTS prio
  | .event .becameUnassigned => { record with id := nill }
  | .event .becameComplete => { record with id := nill, inHeap := false }
  | _ => record

def Record.hearOut (record : Record) : OutStreamQueue.Out → Record
  | .event (.rts prio) => record.hearRTS prio
  | .event .becameComplete => { record with id := nill, inHeap := false }
  | _ => record

/-- The bytes an event adds to the counters of in-streams. -/
def unread : InStreamQueue.Out → Int
  | .event (.unreadBytes x) => x
  | _ => 0

def outOfOrder : InStreamQueue.Out → Int
  | .event (.outOfOrderBytes x) => x
  | _ => 0

/-- The bytes an event adds to the counters of out-streams. -/
def inFlight : OutStreamQueue.Out → Int
  | .event (.inflightBytes x) => x
  | _ => 0

def toRetransmit : OutStreamQueue.Out → Int
  | .event (.retransmitBytes x) => x
  | _ => 0

/-! ## The id is given back -/

def T.releaseIn (t : T) (id : Nat) : T :=
  { t with seqNums := update t.seqNums id (t.seqNums id / 16 * 16 + (t.seqNums id + 1) % 16),
           inStreams := update t.inStreams id none }

def T.releaseOut (t : T) (id : Nat) : T :=
  { t with seqNums := update t.seqNums id ((t.seqNums id + 0x10) % 256),
           outStreams := update t.outStreams id (.free (t.cooldowns t.cooldownIndex)),
           cooldowns := update t.cooldowns t.cooldownIndex id }

/-- An in-stream's record becomes `record`, and its bytes are counted. -/
def T.withIn (t : T) (r : Nat) (record : Record) (unread outOfOrder : Int) : T :=
  { t with records := update t.records r record, queuedUnread := t.queuedUnread + unread,
           queuedOutOfOrder := t.queuedOutOfOrder + outOfOrder }

def T.withOut (t : T) (r : Nat) (record : Record) (inFlight toRetransmit : Int) : T :=
  { t with records := update t.records r record, queuedInFlight := t.queuedInFlight + inFlight,
           queuedToRetransmit := t.queuedToRetransmit + toRetransmit }

/-- The log of a stream takes the id away. -/
def Releases (record record' : Record) : Prop := record.id ≠ nill ∧ record'.id = nill

instance (record record' : Record) : Decidable (Releases record record') := inferInstanceAs (Decidable (_ ∧ _))

/-- The host after an in-stream's log `l`. -/
def T.heardIn (t : T) (r : Nat) (l : List InStreamQueue.Out) : T :=
  let record := t.records r
  let record' := l.foldl Record.hearIn record
  (if Releases record record' then t.releaseIn record.id else t).withIn r record' (l.map unread).sum (l.map outOfOrder).sum

def T.heardOut (t : T) (r : Nat) (l : List OutStreamQueue.Out) : T :=
  let record := t.records r
  let record' := l.foldl Record.hearOut record
  (if Releases record record' then t.releaseOut record.id else t).withOut r record' (l.map inFlight).sum
    (l.map toRetransmit).sum

variable {t : T} {r : Nat}

/-- A record's id, if it has one, is in the tables. -/
def Placed (t : T) (r : Nat) : Prop := (t.records r).id = nill ∨ (t.records r).id < t.len

theorem hearIn_id (record : Record) (h : record.id = nill) (l : List InStreamQueue.Out) :
    (l.foldl Record.hearIn record).id = nill := by
  induction l generalizing record with
  | nil => exact h
  | cons o l ih =>
    apply ih
    unfold Record.hearIn
    split
    · unfold Record.hearRTS
      split
      · exact h
      · exact h
    · rfl
    · rfl
    · exact h

theorem hearOut_id (record : Record) (h : record.id = nill) (l : List OutStreamQueue.Out) :
    (l.foldl Record.hearOut record).id = nill := by
  induction l generalizing record with
  | nil => exact h
  | cons o l ih =>
    apply ih
    unfold Record.hearOut
    split
    · unfold Record.hearRTS
      split
      · exact h
      · exact h
    · rfl
    · exact h

theorem hearRTS_id (record : Record) (prio : Real32) : (record.hearRTS prio).id = record.id := by
  unfold Record.hearRTS
  split
  · rfl
  · rfl

theorem hearRTS_inHeap (record : Record) (prio : Real32) : (record.hearRTS prio).inHeap = record.inHeap := by
  unfold Record.hearRTS
  split
  · rfl
  · rfl

theorem hearIn_id_cases (record : Record) (o : InStreamQueue.Out) :
    (record.hearIn o).id = record.id ∨ (record.hearIn o).id = nill := by
  unfold Record.hearIn
  split
  · exact .inl (hearRTS_id _ _)
  · exact .inr rfl
  · exact .inr rfl
  · exact .inl rfl

theorem hearOut_id_cases (record : Record) (o : OutStreamQueue.Out) :
    (record.hearOut o).id = record.id ∨ (record.hearOut o).id = nill := by
  unfold Record.hearOut
  split
  · exact .inl (hearRTS_id _ _)
  · exact .inr rfl
  · exact .inl rfl

theorem hearIn_foldl_id (record : Record) (l : List InStreamQueue.Out) :
    (l.foldl Record.hearIn record).id = record.id ∨ (l.foldl Record.hearIn record).id = nill := by
  induction l generalizing record with
  | nil => exact .inl rfl
  | cons o l ih =>
    rcases ih (record.hearIn o) with h | h
    · rw [List.foldl_cons, h]
      exact hearIn_id_cases record o
    · exact .inr h

theorem hearOut_foldl_id (record : Record) (l : List OutStreamQueue.Out) :
    (l.foldl Record.hearOut record).id = record.id ∨ (l.foldl Record.hearOut record).id = nill := by
  induction l generalizing record with
  | nil => exact .inl rfl
  | cons o l ih =>
    rcases ih (record.hearOut o) with h | h
    · rw [List.foldl_cons, h]
      exact hearOut_id_cases record o
    · exact .inr h

theorem heardIn_keep {l : List InStreamQueue.Out} (h : ¬ Releases (t.records r) (l.foldl Record.hearIn (t.records r))) :
    t.heardIn r l =
      t.withIn r (l.foldl Record.hearIn (t.records r)) (l.map unread).sum (l.map outOfOrder).sum := by
  simp only [T.heardIn, if_neg h]

theorem heardIn_release {l : List InStreamQueue.Out} (h : Releases (t.records r) (l.foldl Record.hearIn (t.records r))) :
    t.heardIn r l = (t.releaseIn (t.records r).id).withIn r (l.foldl Record.hearIn (t.records r)) (l.map unread).sum
      (l.map outOfOrder).sum := by
  simp only [T.heardIn, if_pos h]

theorem heardOut_keep {l : List OutStreamQueue.Out} (h : ¬ Releases (t.records r) (l.foldl Record.hearOut (t.records r))) :
    t.heardOut r l =
      t.withOut r (l.foldl Record.hearOut (t.records r)) (l.map inFlight).sum (l.map toRetransmit).sum := by
  simp only [T.heardOut, if_neg h]

theorem heardOut_release {l : List OutStreamQueue.Out}
    (h : Releases (t.records r) (l.foldl Record.hearOut (t.records r))) :
    t.heardOut r l = (t.releaseOut (t.records r).id).withOut r (l.foldl Record.hearOut (t.records r))
      (l.map inFlight).sum (l.map toRetransmit).sum := by
  simp only [T.heardOut, if_pos h]

theorem heardIn_nil (t : T) (r : Nat) : t.heardIn r [] = t := by
  rw [heardIn_keep fun h => h.1 h.2]
  simp [T.withIn]

theorem heardOut_nil (t : T) (r : Nat) : t.heardOut r [] = t := by
  rw [heardOut_keep fun h => h.1 h.2]
  simp [T.withOut]

theorem heardIn_cons (t : T) (r : Nat) (o : InStreamQueue.Out) (l : List InStreamQueue.Out) :
    (t.heardIn r [o]).heardIn r l = t.heardIn r (o :: l) := by
  have hnil := hearIn_id ((t.records r).hearIn o)
  by_cases h0 : (t.records r).id = nill
  · have h1 := hearIn_id (t.records r) h0 [o]
    simp only [List.foldl_cons, List.foldl_nil] at h1
    simp [T.heardIn, T.withIn, Releases, h0, h1, Int.add_assoc]
  · rcases hearIn_id_cases (t.records r) o with h1 | h1
    · simp only [T.heardIn, T.withIn, Releases, List.foldl_cons, List.foldl_nil, h0, h1, Function.update_self, ne_eq,
        not_false_eq_true, true_and, if_false, List.map_cons, List.map_nil, List.sum_cons, List.sum_nil, Int.add_zero]
      split
      · simp [T.releaseIn, Int.add_assoc]
      · simp [Int.add_assoc]
    · have h2 := hnil h1 l
      simp [T.heardIn, T.withIn, T.releaseIn, Releases, h0, h1, h2, Int.add_assoc]

/-- An event that leaves the id. -/
theorem heardIn_same {o : InStreamQueue.Out} (h : ((t.records r).hearIn o).id = (t.records r).id) :
    t.heardIn r [o] = t.withIn r ((t.records r).hearIn o) (unread o) (outOfOrder o) := by
  rw [heardIn_keep fun hx => hx.1 (h ▸ hx.2)]
  simp

/-- An event that takes the id away. -/
theorem unassign_heardIn (h : Placed t r) {o : InStreamQueue.Out} (hr : ((t.records r).hearIn o).id = nill)
    (hu : unread o = 0) (ho : outOfOrder o = 0) :
    unassign (t.setRecord r ((t.records r).hearIn o)) (t.records r).id = .ok (t.heardIn r [o]) := by
  unfold unassign
  by_cases h0 : (t.records r).id = nill
  · rw [if_pos h0, heardIn_same (hr.trans h0.symm), hu, ho]
    simp [T.withIn, T.setRecord, pure, Except.pure]
  · have hlt : (t.records r).id < t.len := h.resolve_left h0
    have hrel : Releases (t.records r) ([o].foldl Record.hearIn (t.records r)) := ⟨h0, hr⟩
    rw [if_neg h0, heardIn_release hrel]
    simp [tickReaderSeq, tickSeq, T.setRecord, hlt, T.withIn, T.releaseIn, bind, Except.bind, pure, Except.pure, hu, ho]

theorem hearIn_eq (h : Placed t r) (o : InStreamQueue.Out) : hearIn t r o = .ok (t.heardIn r [o]) := by
  cases o with
  | reader cb s =>
    rw [heardIn_same rfl]
    simp [hearIn, Record.hearIn, unread, outOfOrder, T.withIn]
  | event e =>
    cases e with
    | rts prio =>
      have hid : ((t.records r).hearIn (.event (.rts prio))).id = (t.records r).id := hearRTS_id _ _
      rw [heardIn_same hid]
      simp only [hearIn, inStreamCallback, HostDispatch.hearRTS, Record.hearIn, Record.hearRTS]
      split
      · simp [unread, outOfOrder, T.withIn, T.setRecord]
      · simp [unread, outOfOrder, T.withIn]
    | becameUnassigned =>
      have hid : ((t.records r).hearIn (.event .becameUnassigned)).id = nill := rfl
      exact unassign_heardIn h hid rfl rfl
    | becameComplete =>
      have hid : ((t.records r).hearIn (.event .becameComplete)).id = nill := rfl
      exact unassign_heardIn h hid rfl rfl
    | becameReset =>
      rw [heardIn_same rfl]
      simp [hearIn, inStreamCallback, Record.hearIn, unread, outOfOrder, T.withIn]
    | unreadBytes x =>
      rw [heardIn_same rfl]
      simp [hearIn, inStreamCallback, Record.hearIn, unread, outOfOrder, T.withIn]
    | outOfOrderBytes x =>
      rw [heardIn_same rfl]
      simp [hearIn, inStreamCallback, Record.hearIn, unread, outOfOrder, T.withIn]

theorem heardIn_placed (h : Placed t r) (l : List InStreamQueue.Out) : Placed (t.heardIn r l) r := by
  have hid : ((t.heardIn r l).records r).id = (l.foldl Record.hearIn (t.records r)).id := by
    simp [T.heardIn, T.withIn]
  have hlen : (t.heardIn r l).len = t.len := by
    unfold T.heardIn
    dsimp only
    split
    · rfl
    · rfl
  unfold Placed
  rw [hid, hlen]
  exact hearIn_foldl_id (t.records r) l |>.elim (fun h1 => h1 ▸ h) .inl

theorem hearIn_all (h : Placed t r) (l : List InStreamQueue.Out) : l.foldlM (hearIn · r) t = .ok (t.heardIn r l) := by
  induction l generalizing t with
  | nil => rw [heardIn_nil]; rfl
  | cons o l ih =>
    rw [List.foldlM_cons, hearIn_eq h]
    show l.foldlM (hearIn · r) (t.heardIn r [o]) = _
    rw [ih (heardIn_placed h [o]), heardIn_cons]

/-! ## The events of an out-stream -/

theorem heardOut_cons (t : T) (r : Nat) (o : OutStreamQueue.Out) (l : List OutStreamQueue.Out) :
    (t.heardOut r [o]).heardOut r l = t.heardOut r (o :: l) := by
  have hnil := hearOut_id ((t.records r).hearOut o)
  by_cases h0 : (t.records r).id = nill
  · have h1 := hearOut_id (t.records r) h0 [o]
    simp only [List.foldl_cons, List.foldl_nil] at h1
    simp [T.heardOut, T.withOut, Releases, h0, h1, Int.add_assoc]
  · rcases hearOut_id_cases (t.records r) o with h1 | h1
    · simp only [T.heardOut, T.withOut, Releases, List.foldl_cons, List.foldl_nil, h0, h1, Function.update_self, ne_eq,
        not_false_eq_true, true_and, if_false, List.map_cons, List.map_nil, List.sum_cons, List.sum_nil, Int.add_zero]
      split
      · simp [T.releaseOut, Int.add_assoc]
      · simp [Int.add_assoc]
    · have h2 := hnil h1 l
      simp [T.heardOut, T.withOut, T.releaseOut, Releases, h0, h1, h2, Int.add_assoc]

theorem heardOut_same {o : OutStreamQueue.Out} (h : ((t.records r).hearOut o).id = (t.records r).id) :
    t.heardOut r [o] = t.withOut r ((t.records r).hearOut o) (inFlight o) (toRetransmit o) := by
  rw [heardOut_keep fun hx => hx.1 (h ▸ hx.2)]
  simp

theorem complete_heardOut (h : Placed t r) :
    outStreamCallback t r .becameComplete = .ok (t.heardOut r [.event .becameComplete]) := by
  have hid : ((t.records r).hearOut (.event .becameComplete)).id = nill := rfl
  unfold outStreamCallback
  dsimp only
  by_cases h0 : (t.records r).id = nill
  · rw [if_pos h0, heardOut_same (hid.trans h0.symm)]
    simp [T.withOut, T.setRecord, pure, Except.pure, Record.hearOut, inFlight, toRetransmit]
  · have hlt : (t.records r).id < t.len := h.resolve_left h0
    have hrel : Releases (t.records r) ([.event .becameComplete].foldl Record.hearOut (t.records r)) := ⟨h0, hid⟩
    rw [if_neg h0, heardOut_release hrel]
    simp [tickWriterSeq, tickSeq, pushCooldown, T.setRecord, hlt, T.withOut, T.releaseOut, bind, Except.bind,
      Record.hearOut, inFlight, toRetransmit]

theorem hearOut_eq (h : Placed t r) (o : OutStreamQueue.Out) : hearOut t r o = .ok (t.heardOut r [o]) := by
  cases o with
  | event e =>
    cases e with
    | rts prio =>
      have hid : ((t.records r).hearOut (.event (.rts prio))).id = (t.records r).id := hearRTS_id _ _
      rw [heardOut_same hid]
      simp only [hearOut, outStreamCallback, HostDispatch.hearRTS, Record.hearOut, Record.hearRTS]
      split
      · simp [inFlight, toRetransmit, T.withOut, T.setRecord]
      · simp [inFlight, toRetransmit, T.withOut]
    | becameComplete => exact complete_heardOut h
    | _ =>
      rw [heardOut_same rfl]
      simp [hearOut, outStreamCallback, Record.hearOut, inFlight, toRetransmit, T.withOut]
  | _ =>
    rw [heardOut_same rfl]
    simp [hearOut, Record.hearOut, inFlight, toRetransmit, T.withOut]

theorem heardOut_placed (h : Placed t r) (l : List OutStreamQueue.Out) : Placed (t.heardOut r l) r := by
  have hid : ((t.heardOut r l).records r).id = (l.foldl Record.hearOut (t.records r)).id := by
    simp [T.heardOut, T.withOut]
  have hlen : (t.heardOut r l).len = t.len := by
    unfold T.heardOut
    dsimp only
    split
    · rfl
    · rfl
  unfold Placed
  rw [hid, hlen]
  exact hearOut_foldl_id (t.records r) l |>.elim (fun h1 => h1 ▸ h) .inl

theorem hearOut_all (h : Placed t r) (l : List OutStreamQueue.Out) :
    l.foldlM (hearOut · r) t = .ok (t.heardOut r l) := by
  induction l generalizing t with
  | nil => rw [heardOut_nil]; rfl
  | cons o l ih =>
    rw [List.foldlM_cons, hearOut_eq h]
    show l.foldlM (hearOut · r) (t.heardOut r [o]) = _
    rw [ih (heardOut_placed h [o]), heardOut_cons]

/-! ## A call of a queue -/

/-- The host with an in-stream's queue in another state, before it hears the events. -/
def T.setIn (t : T) (r : Nat) (q : InStreamQueue.T) : T := t.setRecord r { t.records r with stream := .inStream q }

def T.setOut (t : T) (r : Nat) (q : OutStreamQueue.T) : T := t.setRecord r { t.records r with stream := .outStream q }

theorem ranIn_eq (h : Placed t r) (q q' : InStreamQueue.T) :
    ranIn t r q q' = .ok ((t.setIn r q').heardIn r (q'.log.drop q.log.length)) := by
  have hp : Placed (t.setIn r q') r := by
    simpa [Placed, T.setIn, T.setRecord] using h
  exact hearIn_all hp _

theorem ranOut_eq (h : Placed t r) (q q' : OutStreamQueue.T) :
    ranOut t r q q' = .ok ((t.setOut r q').heardOut r (q'.log.drop q.log.length)) := by
  have hp : Placed (t.setOut r q') r := by
    simpa [Placed, T.setOut, T.setRecord] using h
  exact hearOut_all hp _

end BubbleStorm.Cusp.Stream.HostDispatch
