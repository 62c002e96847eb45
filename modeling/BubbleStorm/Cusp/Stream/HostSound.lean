/-
  BubbleStorm.Cusp.Stream.HostSound — the tables of a host are sound.

  An id in `inStreams` is of an in-stream, an id in `outStreams` that is allocated is of
  an out-stream, and a stream's id is in the tables, while the stream is in the heap. So a call of a queue is never made
  of the wrong kind of stream, and its events are always heard (`Sound.ranIn`,
  `Sound.ranOut`): of what the host does, only the parsing can raise.
-/

import BubbleStorm.Cusp.Stream.HostEvents

namespace BubbleStorm.Cusp.Stream.HostDispatch

open Function (update)
open PacketFormat (Segment Reader Writer)

structure Sound (t : T) : Prop where
  placed : ∀ r, Placed t r
  seated : ∀ r, (t.records r).id ≠ nill → (t.records r).inHeap = true
  fresh : ∀ r, t.created ≤ r → (t.records r).id = nill
  ins : ∀ id r, t.inStreams id = some r → r < t.created ∧ ∃ q, (t.records r).stream = .inStream q
  outs : ∀ id r, t.outStreams id = .alloc r → r < t.created ∧ ∃ q, (t.records r).stream = .outStream q

theorem sound_new (global : Nat → Bool) : Sound (new global) where
  placed _ := .inl rfl
  seated _ h := absurd rfl h
  fresh _ _ := rfl
  ins _ _ h := by cases h
  outs _ _ h := by cases h

variable {t t' : T} {r : Nat}

/-- A stream of the same kind, at most with another queue. -/
def sameKind : Stream → Stream → Prop
  | .inStream _, .inStream _ => True
  | .outStream _, .outStream _ => True
  | .noStream, .noStream => True
  | _, _ => False

theorem sameKind_refl (s : Stream) : sameKind s s := by
  cases s with
  | inStream q => trivial
  | outStream q => trivial
  | noStream => trivial

/-- `t'` has no stream, and no id, that `t` has not. -/
structure Less (t t' : T) : Prop where
  len : t.len ≤ t'.len
  created : t'.created = t.created
  kinds : ∀ r, sameKind (t.records r).stream (t'.records r).stream
  ids : ∀ r, (t'.records r).id = (t.records r).id ∧ (t'.records r).inHeap = (t.records r).inHeap ∨ (t'.records r).id = nill
  ins : ∀ id r, t'.inStreams id = some r → t.inStreams id = some r
  outs : ∀ id r, t'.outStreams id = .alloc r → t.outStreams id = .alloc r

theorem Less.sound (h : Less t t') (hs : Sound t) : Sound t' where
  placed r := by
    rcases h.ids r with ⟨hr, -⟩ | hr
    · rcases hs.placed r with h0 | h0
      · exact .inl (hr.trans h0)
      · exact .inr (hr ▸ Nat.lt_of_lt_of_le h0 h.len)
    · exact .inl hr
  seated r hne := by
    rcases h.ids r with ⟨hr, hin⟩ | hr
    · rw [hin]
      exact hs.seated r (hr ▸ hne)
    · exact absurd hr hne
  fresh r hr := by
    rcases h.ids r with ⟨hid, -⟩ | hid
    · exact hid.trans (hs.fresh r (h.created ▸ hr))
    · exact hid
  ins id r hid := by
    obtain ⟨hlt, q, hq⟩ := hs.ins id r (h.ins id r hid)
    refine ⟨h.created ▸ hlt, ?_⟩
    have hk := h.kinds r
    rw [hq] at hk
    cases hx : (t'.records r).stream with
    | inStream q' => exact ⟨q', rfl⟩
    | outStream q' => exact (hx ▸ hk).elim
    | noStream => exact (hx ▸ hk).elim
  outs id r hid := by
    obtain ⟨hlt, q, hq⟩ := hs.outs id r (h.outs id r hid)
    refine ⟨h.created ▸ hlt, ?_⟩
    have hk := h.kinds r
    rw [hq] at hk
    cases hx : (t'.records r).stream with
    | inStream q' => exact (hx ▸ hk).elim
    | outStream q' => exact ⟨q', rfl⟩
    | noStream => exact (hx ▸ hk).elim

/-! ## What the queues fire -/

theorem hearIn_stream (record : Record) (l : List InStreamQueue.Out) :
    (l.foldl Record.hearIn record).stream = record.stream := by
  induction l generalizing record with
  | nil => rfl
  | cons o l ih =>
    rw [List.foldl_cons, ih]
    unfold Record.hearIn Record.hearRTS
    split
    · split
      · rfl
      · rfl
    · rfl
    · rfl
    · rfl

theorem hearOut_stream (record : Record) (l : List OutStreamQueue.Out) :
    (l.foldl Record.hearOut record).stream = record.stream := by
  induction l generalizing record with
  | nil => rfl
  | cons o l ih =>
    rw [List.foldl_cons, ih]
    unfold Record.hearOut Record.hearRTS
    split
    · split
      · rfl
      · rfl
    · rfl
    · rfl

theorem hearIn_heap (record : Record) (l : List InStreamQueue.Out) :
    (l.foldl Record.hearIn record).inHeap = record.inHeap ∨
      (l.foldl Record.hearIn record).id = nill ∧ (l.foldl Record.hearIn record).inHeap = false := by
  induction l generalizing record with
  | nil => exact .inl rfl
  | cons o l ih =>
    rw [List.foldl_cons]
    rcases ih (record.hearIn o) with hin | hout
    · rw [hin]
      unfold Record.hearIn
      split
      · exact .inl (hearRTS_inHeap _ _)
      · exact .inl rfl
      · exact .inr ⟨hearIn_id _ rfl l, rfl⟩
      · exact .inl rfl
    · exact .inr hout

theorem hearOut_heap (record : Record) (l : List OutStreamQueue.Out) :
    (l.foldl Record.hearOut record).id = record.id ∧ (l.foldl Record.hearOut record).inHeap = record.inHeap ∨
      (l.foldl Record.hearOut record).id = nill := by
  induction l generalizing record with
  | nil => exact .inl ⟨rfl, rfl⟩
  | cons o l ih =>
    rw [List.foldl_cons]
    rcases ih (record.hearOut o) with ⟨hid, hin⟩ | hid
    · rw [hid, hin]
      unfold Record.hearOut
      split
      · exact .inl ⟨hearRTS_id _ _, hearRTS_inHeap _ _⟩
      · exact .inr rfl
      · exact .inl ⟨rfl, rfl⟩
    · exact .inr hid

theorem hearIn_seat (record : Record) (l : List InStreamQueue.Out) :
    (l.foldl Record.hearIn record).id = record.id ∧ (l.foldl Record.hearIn record).inHeap = record.inHeap ∨
      (l.foldl Record.hearIn record).id = nill := by
  rcases hearIn_heap record l with hin | ⟨hid, -⟩
  · exact (hearIn_foldl_id record l).imp_left fun hid => ⟨hid, hin⟩
  · exact .inr hid

/-- One record changes: its stream keeps its kind, its id stays or is lost. -/
theorem less_setRecord (record : Record) (hk : sameKind (t.records r).stream record.stream)
    (hid : record.id = (t.records r).id ∧ record.inHeap = (t.records r).inHeap ∨ record.id = nill) : Less t (t.setRecord r record) where
  len := Nat.le_of_eq rfl
  created := rfl
  kinds r' := by
    by_cases h : r' = r
    · subst h
      simpa [T.setRecord] using hk
    · simpa [T.setRecord, h] using sameKind_refl _
  ids r' := by
    by_cases h : r' = r
    · subst h
      simpa [T.setRecord] using hid
    · simp [T.setRecord, h]
  ins _ _ h := h
  outs _ _ h := h

theorem Less.trans {t'' : T} (h : Less t t') (h' : Less t' t'') : Less t t'' where
  len := Nat.le_trans h.len h'.len
  created := h'.created.trans h.created
  kinds r := by
    have h1 := h.kinds r
    have h2 := h'.kinds r
    revert h1 h2
    cases (t.records r).stream <;> cases (t'.records r).stream <;> cases (t''.records r).stream <;> intro h1 h2 <;> trivial
  ids r := by
    rcases h'.ids r with ⟨h2, hin2⟩ | h2
    · rcases h.ids r with ⟨h1, hin1⟩ | h1
      · exact .inl ⟨h2.trans h1, hin2.trans hin1⟩
      · exact .inr (h2.trans h1)
    · exact .inr h2
  ins id r hid := h.ins id r (h'.ins id r hid)
  outs id r hid := h.outs id r (h'.outs id r hid)

theorem less_heardIn (t : T) (r : Nat) (l : List InStreamQueue.Out) : Less t (t.heardIn r l) := by
  have hrec : Less t (t.setRecord r (l.foldl Record.hearIn (t.records r))) :=
    less_setRecord _ (by rw [hearIn_stream]; exact sameKind_refl _) (hearIn_seat _ _)
  by_cases h : Releases (t.records r) (l.foldl Record.hearIn (t.records r))
  · rw [heardIn_release h]
    refine { hrec with ins := fun id r' hid => ?_ }
    by_cases hx : id = (t.records r).id
    · subst hx
      simp [T.withIn, T.releaseIn] at hid
    · simpa [T.withIn, T.releaseIn, hx] using hid
  · rw [heardIn_keep h]
    exact { hrec with }

theorem less_heardOut (t : T) (r : Nat) (l : List OutStreamQueue.Out) : Less t (t.heardOut r l) := by
  have hrec : Less t (t.setRecord r (l.foldl Record.hearOut (t.records r))) :=
    less_setRecord _ (by rw [hearOut_stream]; exact sameKind_refl _) (hearOut_heap _ _)
  by_cases h : Releases (t.records r) (l.foldl Record.hearOut (t.records r))
  · rw [heardOut_release h]
    refine { hrec with outs := fun id r' hid => ?_ }
    by_cases hx : id = (t.records r).id
    · subst hx
      simp [T.withOut, T.releaseOut] at hid
    · simpa [T.withOut, T.releaseOut, hx] using hid
  · rw [heardOut_keep h]
    exact { hrec with }

/-- What an in-stream fires is heard. -/
theorem Sound.ranIn (h : Sound t) {q : InStreamQueue.T} (hq : (t.records r).stream = .inStream q) (q' : InStreamQueue.T) :
    ∃ t', ranIn t r q q' = .ok t' ∧ Less t t' :=
  ⟨_, ranIn_eq (h.placed r) q q',
    (less_setRecord { t.records r with stream := .inStream q' } (by rw [hq]; trivial) (.inl ⟨rfl, rfl⟩)).trans (less_heardIn _ r _)⟩

theorem Sound.ranOut (h : Sound t) {q : OutStreamQueue.T} (hq : (t.records r).stream = .outStream q) (q' : OutStreamQueue.T) :
    ∃ t', ranOut t r q q' = .ok t' ∧ Less t t' :=
  ⟨_, ranOut_eq (h.placed r) q q',
    (less_setRecord { t.records r with stream := .outStream q' } (by rw [hq]; trivial) (.inl ⟨rfl, rfl⟩)).trans (less_heardOut _ r _)⟩

/-! ## Making ids and streams -/

theorem less_expand {newLen : Nat} (h : t.len ≤ newLen) : Less t (expand t newLen) where
  len := h
  created := rfl
  kinds _ := sameKind_refl _
  ids _ := .inl ⟨rfl, rfl⟩
  ins id r hid := by
    by_cases hlt : id < t.len
    · simpa [expand, hlt] using hid
    · simp [expand, hlt] at hid
  outs id r hid := by
    by_cases hlt : id < t.len
    · simpa [expand, hlt] using hid
    · simp [expand, hlt] at hid

theorem sound_push (h : Sound t) (stream : Stream) {id : Nat} (hid : id = nill ∨ id < t.len) (service : Nat) :
    Sound (t.push stream id service) where
  placed r := by
    by_cases hr : r = t.created
    · subst hr
      simpa [Placed, T.push] using hid
    · simpa [Placed, T.push, hr] using h.placed r
  seated r := by
    by_cases hr : r = t.created
    · subst hr
      simp [T.push]
    · simpa [T.push, hr] using h.seated r
  fresh r hr := by
    have hlt : t.created < r := hr
    simpa [T.push, Nat.ne_of_gt hlt] using h.fresh r (Nat.le_of_lt hlt)
  ins id' r hr := by
    obtain ⟨hlt, q, hq⟩ := h.ins id' r hr
    exact ⟨Nat.lt_succ_of_lt hlt, q, by simpa [T.push, Nat.ne_of_lt hlt] using hq⟩
  outs id' r hr := by
    obtain ⟨hlt, q, hq⟩ := h.outs id' r hr
    exact ⟨Nat.lt_succ_of_lt hlt, q, by simpa [T.push, Nat.ne_of_lt hlt] using hq⟩

theorem gotConnection_sound (h : Sound t) {id : Nat} (hid : id < t.len) (service : Nat) :
    ∃ t', gotConnection t id service = .ok t' ∧ Sound t' := by
  have hp := sound_push h (.inStream (InStreamQueue.new id)) (.inr hid) 0
  have hs : Sound { t.push (.inStream (InStreamQueue.new id)) id 0 with
      inStreams := update (t.push (.inStream (InStreamQueue.new id)) id 0).inStreams id (some t.created) } := by
    refine { hp with ins := fun id' r hr => ?_ }
    by_cases hx : id' = id
    · subst hx
      have hr' : t.created = r := by simpa using hr
      subst hr'
      exact ⟨Nat.lt_succ_self _, InStreamQueue.new id', by simp [T.push]⟩
    · exact hp.ins id' r (by simpa [hx] using hr)
  unfold gotConnection
  dsimp only
  rw [if_neg (Nat.not_le.mpr (show id < (t.push (.inStream (InStreamQueue.new id)) id 0).len from hid))]
  split
  · exact ⟨_, rfl, hs⟩
  · obtain ⟨t', ht', hless⟩ := hs.ranIn (r := t.created) (q := InStreamQueue.new id) (by simp [T.push])
      (InStreamQueue.reset (InStreamQueue.new id))
    exact ⟨t', ht', hless.sound hs⟩

/-! ## The application -/

/-- A call of the application returns. -/
theorem call_sound (h : Sound t) (a : App) : ∃ t', call t a = .ok t' ∧ Sound t' := by
  cases a with
  | connect port => exact ⟨_, rfl, sound_push h _ (.inl rfl) port⟩
  | outStream r op =>
    unfold call
    dsimp only
    split
    · rename_i q hq
      obtain ⟨t', ht', hless⟩ := h.ranOut hq (OutStreamQueue.exec q op)
      exact ⟨t', ht', hless.sound h⟩
    · exact ⟨t, rfl, h⟩
  | inStream r op =>
    unfold call
    dsimp only
    split
    · rename_i q hq
      obtain ⟨t', ht', hless⟩ := h.ranIn hq (InStreamQueue.exec q op)
      exact ⟨t', ht', hless.sound h⟩
    · exact ⟨t, rfl, h⟩
  | listen port => exact ⟨_, rfl, h.placed, h.seated, h.fresh, h.ins, h.outs⟩
  | unlisten port => exact ⟨_, rfl, h.placed, h.seated, h.fresh, h.ins, h.outs⟩

theorem calls_sound (h : Sound t) (app : List App) : ∃ t', app.foldlM call t = .ok t' ∧ Sound t' := by
  induction app generalizing t with
  | nil => exact ⟨t, rfl, h⟩
  | cons a app ih =>
    obtain ⟨t1, ht1, h1⟩ := call_sound h a
    obtain ⟨t2, ht2, h2⟩ := ih h1
    exact ⟨t2, by rw [List.foldlM_cons, ht1]; exact ht2, h2⟩

/-! ## Making ids and pulling -/

theorem drain_sound {fuel : Nat} {id tail : Nat} {p : T × Nat} (h : Sound t) (hd : drain fuel t id tail = .ok p) : Sound p.1 := by
  induction fuel generalizing t id tail with
  | zero =>
    unfold drain at hd
    split at hd
    · cases hd
      exact h
    · cases hd
  | succ fuel ih =>
    unfold drain at hd
    split at hd
    · cases hd
      exact h
    · split at hd
      · cases hd
      · split at hd
        · rename_i next _
          have hs : Sound { t with outStreams := update t.outStreams id (.free tail) } := by
            refine { h with outs := fun id' r hr => ?_ }
            by_cases hx : id' = id
            · subst hx
              simp at hr
            · exact h.outs id' r (by simpa [hx] using hr)
          exact ih hs hd
        · cases hd

theorem tickCooldown_sound (h : Sound t) (ht : tickCooldown t = .ok t') : Sound t' := by
  obtain ⟨p, hp, ht⟩ := bind_ok ht
  cases ht
  have hs := drain_sound h hp
  exact ⟨hs.placed, hs.seated, hs.fresh, hs.ins, hs.outs⟩

theorem allocId_sound {id : Nat} (h : Sound t) (ha : allocId t = .ok (t', id)) :
    Sound t' ∧ id < t'.len ∧ t'.created = t.created ∧ t'.records = t.records := by
  have hx : Sound (if t.writeFree = nill then expand t (t.len * 2) else t) ∧
      (if t.writeFree = nill then expand t (t.len * 2) else t).created = t.created ∧
      (if t.writeFree = nill then expand t (t.len * 2) else t).records = t.records := by
    split
    · exact ⟨(less_expand (Nat.le_mul_of_pos_right _ (by decide))).sound h, rfl, rfl⟩
    · exact ⟨h, rfl, rfl⟩
  unfold allocId at ha
  dsimp only at ha
  generalize (if t.writeFree = nill then expand t (t.len * 2) else t) = t1 at ha hx
  obtain ⟨h1, hc, hr⟩ := hx
  split at ha
  · cases ha
  · rename_i hlt
    split at ha
    · cases ha
      exact ⟨⟨h1.placed, h1.seated, h1.fresh, h1.ins, h1.outs⟩, Nat.not_le.mp hlt, hc, hr⟩
    · cases ha

theorem assign_sound {id : Nat} (h : Sound t) (hr : r < t.created) (hin : (t.records r).inHeap = true) (ha : assign t r = .ok (t', id)) :
    Sound t' ∧ (id = nill ∨ id < t'.len) ∧ t'.created = t.created := by
  unfold assign at ha
  dsimp only at ha
  split at ha
  · cases ha
    exact ⟨h, h.placed r, rfl⟩
  · obtain ⟨⟨t1, id1⟩, h1, ha⟩ := bind_ok ha
    obtain ⟨hs, hlt, hc, hrec⟩ := allocId_sound h h1
    dsimp only at ha
    split at ha
    · rename_i q hq
      cases ha
      refine ⟨?_, .inr hlt, hc⟩
      have hless : Less t1 (t1.setRecord r { t1.records r with stream := .outStream { q with id := id } }) :=
        less_setRecord _ (by rw [hrec, hq]; trivial) (.inl ⟨rfl, rfl⟩)
      have hk := hless.sound hs
      refine { placed := fun r' => ?_, seated := fun r' => ?_, fresh := fun r' hr' => ?_, ins := fun id' r' hr' => ?_,
               outs := fun id' r' hr' => ?_ }
      · by_cases hx : r' = r
        · subst hx
          simpa [Placed, T.setRecord] using Or.inr hlt
        · simpa [Placed, T.setRecord, hx] using hk.placed r'
      · by_cases hx : r' = r
        · subst hx
          simp [T.setRecord, hrec, hin]
        · simpa [T.setRecord, hx] using hk.seated r'
      · have hlt' : r < r' := Nat.lt_of_lt_of_le (hc ▸ hr) hr'
        simpa [T.setRecord, Nat.ne_of_gt hlt'] using hk.fresh r' hr'
      · obtain ⟨hl, q', hq'⟩ := hk.ins id' r' hr'
        refine ⟨hl, q', ?_⟩
        by_cases hx : r' = r
        · subst hx
          simp [T.setRecord] at hq'
        · simpa [T.setRecord, hx] using hq'
      · by_cases hx : id' = id
        · subst hx
          have hr'' : r = r' := by simpa using hr'
          subst hr''
          exact ⟨hc ▸ hr, { q with id := id' }, by simp [T.setRecord]⟩
        · obtain ⟨hl, q', hq'⟩ := hk.outs id' r' (by simpa [hx, T.setRecord] using hr')
          refine ⟨hl, ?_⟩
          by_cases hy : r' = r
          · subst hy
            exact ⟨_, by simp [T.setRecord]; rfl⟩
          · exact ⟨q', by simpa [T.setRecord, hy] using hq'⟩
    · cases ha

theorem ranIn_sound {q : InStreamQueue.T} (h : Sound t) (hq : (t.records r).stream = .inStream q) {q' : InStreamQueue.T}
    (ht : ranIn t r q q' = .ok t') : Sound t' := by
  obtain ⟨t1, h1, hless⟩ := h.ranIn hq q'
  cases h1.symm.trans ht
  exact hless.sound h

theorem ranOut_sound {q : OutStreamQueue.T} (h : Sound t) (hq : (t.records r).stream = .outStream q) {q' : OutStreamQueue.T}
    (ht : ranOut t r q q' = .ok t') : Sound t' := by
  obtain ⟨t1, h1, hless⟩ := h.ranOut hq q'
  cases h1.symm.trans ht
  exact hless.sound h

theorem pullRecord_sound {room : Nat} {own : List (List OutStreamQueue.Op)} {sent : Sent} (h : Sound t) (hr : r < t.created)
    (hin : (t.records r).inHeap = true) (hp : pullRecord t r room own = .ok (t', sent)) : Sound t' := by
  obtain ⟨⟨t1, id⟩, h1, hp⟩ := bind_ok hp
  obtain ⟨hs, -, -⟩ := assign_sound h hr hin h1
  dsimp only at hp
  split at hp
  · cases hp
  · rename_i q hq
    obtain ⟨t2, h2, hp⟩ := bind_ok hp
    obtain ⟨b, -, hp⟩ := bind_ok hp
    cases hp
    exact ranOut_sound hs hq h2
  · rename_i q hq
    obtain ⟨⟨p, q'⟩, -, hp⟩ := bind_ok hp
    obtain ⟨t2, h2, hp⟩ := bind_ok hp
    obtain ⟨b, -, hp⟩ := bind_ok hp
    cases hp
    exact ranIn_sound hs hq h2

theorem ackSegment_sound {sent : Sent} {ok : Bool} (h : Sound t) (ha : ackSegment t sent ok = .ok t') : Sound t' := by
  have hs : Sound (if ok then t.setRecord sent.record { t.records sent.record with service := 0 } else t) := by
    split
    · exact (less_setRecord { t.records sent.record with service := 0 } (sameKind_refl _) (.inl ⟨rfl, rfl⟩)).sound h
    · exact h
  unfold ackSegment at ha
  dsimp only at ha
  split at ha
  · rename_i hq
    exact ranOut_sound hs hq ha
  · rename_i hq
    exact ranIn_sound hs hq ha
  · cases ha
    exact hs

/-! ## Receiving -/

theorem le_contain (w : Nat) : w ≤ contain w := by
  unfold contain
  dsimp only
  exact Nat.le_trans (Nat.le_trans (Nat.le_trans Nat.left_le_or Nat.left_le_or) Nat.left_le_or) Nat.left_le_or

/-- The tables grow to have the id. -/
theorem expandSubReader_ok (h : Sound t) (id : Nat) :
    ∃ t', expandSubReader t id = .ok (t', t'.inStreams id) ∧ Sound t' ∧ id < t'.len := by
  unfold expandSubReader
  dsimp only
  by_cases hid : t.len ≤ id
  · have hlt : id < contain id + 1 := Nat.lt_succ_of_le (le_contain id)
    rw [if_pos hid, if_pos (show id < (expand t (contain id + 1)).len from hlt)]
    exact ⟨_, rfl, (less_expand (Nat.le_of_lt (Nat.lt_of_le_of_lt hid hlt))).sound h, hlt⟩
  · rw [if_neg hid, if_pos (Nat.not_le.mp hid)]
    exact ⟨t, rfl, h, Nat.not_le.mp hid⟩

theorem noExpandSubReader_some (h : Sound t) {id : Nat} (hr : noExpandSubReader t id = some r) :
    ∃ q, (t.records r).stream = .inStream q := by
  unfold noExpandSubReader at hr
  split at hr
  · cases hr
  · exact (h.ins id r hr).2

theorem noExpandSubWriter_alloc (h : Sound t) {id : Nat} (hr : noExpandSubWriter t id = .alloc r) :
    ∃ q, (t.records r).stream = .outStream q := by
  unfold noExpandSubWriter at hr
  split at hr
  · cases hr
  · exact (h.outs id r hr).2

/-- A segment leaves the tables sound. -/
theorem recvSegment_sound {data : Slice} {own : List InStreamQueue.Op} {n : Int} (h : Sound t)
    (hr : recvSegment t data own = .ok (t', n)) : Sound t' := by
  obtain ⟨msg, -, hr⟩ := bind_ok hr
  split at hr
  · cases hr
    exact h
  · split at hr
    · cases hr
      exact h
    · split at hr
      · rename_i q hq
        obtain ⟨⟨q', n'⟩, -, hr⟩ := bind_ok hr
        obtain ⟨t1, h1, hr⟩ := bind_ok hr
        cases hr
        exact ranIn_sound h hq h1
      · cases hr
  · split at hr
    · cases hr
      exact h
    · split at hr
      · cases hr
        exact h
      · split at hr
        · rename_i q hq
          obtain ⟨⟨q', n'⟩, -, hr⟩ := bind_ok hr
          obtain ⟨t1, h1, hr⟩ := bind_ok hr
          cases hr
          exact ranOut_sound h hq h1
        · cases hr
  · rename_i service seq
    obtain ⟨sub, -, hr⟩ := bind_ok hr
    obtain ⟨msg', -, hr⟩ := bind_ok hr
    split at hr
    · rename_i id
      split at hr
      · cases hr
        exact h
      · obtain ⟨t1, h1, hs, hlt⟩ := expandSubReader_ok h id
        obtain ⟨p, hp, hr⟩ := bind_ok hr
        cases h1.symm.trans hp
        cases hin : t1.inStreams id with
        | none =>
          rw [hin] at hr
          obtain ⟨t2, h2, hr⟩ := bind_ok hr
          cases hr
          obtain ⟨t3, h3, hs3⟩ := gotConnection_sound hs hlt service
          cases h2.symm.trans h3
          exact hs3
        | some r =>
          rw [hin] at hr
          cases hr
          exact hs
    · cases hr
      exact h

/-! ## Starting over -/

/-- In an empty heap no stream has an id. -/
theorem Sound.noIds (h : Sound t) (he : heapIsEmpty t) (r : Nat) : (t.records r).id = nill := by
  by_contra hne
  by_cases hr : r < t.created
  · exact Bool.false_ne_true ((he r hr).symm.trans (h.seated r hne))
  · exact hne (h.fresh r (Nat.not_lt.mp hr))

theorem sound_clear (h : Sound t) (hid : ∀ r, (t.records r).id = nill) : Sound t.clear where
  placed r := .inl (hid r)
  seated := h.seated
  fresh := h.fresh
  ins _ _ ha := by cases ha
  outs _ _ ha := by cases ha

theorem wipeRecord_sound {back : List Nat} (h : Sound t) (hw : wipeRecord t r = .ok (t', back)) : Sound t' := by
  unfold wipeRecord at hw
  split at hw
  · rename_i q hq
    obtain ⟨t1, h1, hw⟩ := bind_ok hw
    cases hw
    exact ranIn_sound h hq h1
  · rename_i q hq
    split at hw
    · obtain ⟨t1, h1, hw⟩ := bind_ok hw
      cases hw
      exact ranOut_sound h hq h1
    · cases hw
      exact h
  · cases hw
    exact h

theorem destroyRecord_sound {back : List Nat} (h : Sound t) (hd : destroyRecord t r = .ok (t', back)) : Sound t' := by
  unfold destroyRecord at hd
  split at hd
  · rename_i q hq
    obtain ⟨t1, h1, hd⟩ := bind_ok hd
    cases hd
    exact ranIn_sound h hq h1
  · rename_i q hq
    obtain ⟨t1, h1, hd⟩ := bind_ok hd
    cases hd
    exact ranOut_sound h hq h1
  · cases hd
    exact h

theorem popAll_sound {destroy : T → Nat → Except Exn (T × List Nat)}
    (hd : ∀ {t t' : T} {r : Nat} {back : List Nat}, Sound t → destroy t r = .ok (t', back) → Sound t') {recover recover' : List Nat}
    {pops : List Pop} (h : Sound t) (hp : popAll destroy t recover pops = .ok (t', recover')) : Sound t' := by
  induction pops generalizing t recover with
  | nil =>
    cases hp
    exact h
  | cons p pops ih =>
    unfold popAll at hp
    split at hp
    · obtain ⟨⟨t1, back⟩, h1, hp⟩ := bind_ok hp
      obtain ⟨t2, h2, hp⟩ := bind_ok hp
      have hpopped := (less_setRecord { t.records p.record with id := nill, inHeap := false } (sameKind_refl _) (.inr rfl)).sound h
      obtain ⟨t3, h3, hcalled⟩ := calls_sound (hd hpopped h1) p.app
      cases h2.symm.trans h3
      exact ih hcalled hp
    · exact ih h hp

theorem restore_sound {recover : List Nat} (h : Sound t) (hid : ∀ r, (t.records r).id = nill)
    (hr : recover.foldlM restore t = .ok t') : Sound t' ∧ ∀ r, (t'.records r).id = nill := by
  induction recover generalizing t with
  | nil =>
    cases hr
    exact ⟨h, hid⟩
  | cons r recover ih =>
    have back : ∀ {record : Record}, record.stream = (t.records r).stream → record.id = nill →
        Sound (t.setRecord r record) ∧ ∀ r', ((t.setRecord r record).records r').id = nill := by
      intro record hstream hrec
      refine ⟨(less_setRecord record (by rw [hstream]; exact sameKind_refl _) (.inr hrec)).sound h, fun r' => ?_⟩
      by_cases hr' : r' = r
      · subst hr'
        simpa [T.setRecord] using hrec
      · simpa [T.setRecord, hr'] using hid r'
    rw [List.foldlM_cons] at hr
    obtain ⟨t1, h1, hr⟩ := bind_ok hr
    unfold restore at h1
    split at h1
    · split at h1
      · cases h1
        obtain ⟨hs, hid1⟩ := @back { t.records r with id := nill } rfl rfl
        exact ih hs hid1 hr
      · cases h1
        obtain ⟨hs, hid1⟩ := @back { t.records r with id := nill, inHeap := true, priority := maxFinite } rfl rfl
        exact ih hs hid1 hr
    · cases h1

theorem wipeState_sound {pops : List Pop} (h : Sound t) (hw : wipeState t pops = .ok t') : Sound t' := by
  unfold wipeState at hw
  obtain ⟨⟨t1, recover⟩, h1, hw⟩ := bind_ok hw
  have hs := popAll_sound wipeRecord_sound h h1
  dsimp only at hw
  split at hw
  · rename_i he
    obtain ⟨t2, h2, hw⟩ := bind_ok hw
    cases hw
    obtain ⟨hs2, hid⟩ := restore_sound hs (hs.noIds he) h2
    exact sound_clear hs2 hid
  · cases hw
    exact h

theorem destroy_sound {pops : List Pop} (h : Sound t) (hd : destroy t pops = .ok t') : Sound t' := by
  unfold destroy at hd
  obtain ⟨⟨t1, recover⟩, h1, hd⟩ := bind_ok hd
  have hs := popAll_sound destroyRecord_sound h h1
  dsimp only at hd
  split at hd
  · rename_i he
    cases hd
    exact { sound_clear hs (hs.noIds he) with }
  · cases hd
    exact h

/-! ## Runs -/

theorem step_sound {s s' : St} {e : Ev} (h : Sound s.host) (hs : step s e = .ok s') : Sound s'.host := by
  cases e with
  | call a =>
    obtain ⟨t1, h1, hs⟩ := bind_ok hs
    cases hs
    obtain ⟨t2, h2, hs2⟩ := call_sound h a
    cases h1.symm.trans h2
    exact hs2
  | recv data own =>
    obtain ⟨⟨t1, n⟩, h1, hs⟩ := bind_ok hs
    cases hs
    exact recvSegment_sound h h1
  | tick =>
    obtain ⟨t1, h1, hs⟩ := bind_ok hs
    cases hs
    exact tickCooldown_sound h h1
  | pull r room own =>
    unfold step at hs
    dsimp only at hs
    split at hs
    · rename_i hfirst
      obtain ⟨⟨t1, sent⟩, h1, hs⟩ := bind_ok hs
      cases hs
      exact pullRecord_sound h hfirst.1.1 hfirst.1.2.1 h1
    · cases hs
      exact h
  | ack i ok =>
    unfold step at hs
    dsimp only at hs
    split at hs
    · obtain ⟨t1, h1, hs⟩ := bind_ok hs
      cases hs
      exact ackSegment_sound h h1
    · cases hs
      exact h

theorem move_sound {s s' : St} {m : Move} (h : Sound s.host) (hs : move s m = .ok s') : Sound s'.host := by
  cases m with
  | ev e => exact step_sound h hs
  | wipeState pops =>
    obtain ⟨t1, h1, hs⟩ := bind_ok hs
    cases hs
    exact wipeState_sound h h1
  | destroy pops =>
    obtain ⟨t1, h1, hs⟩ := bind_ok hs
    cases hs
    exact destroy_sound h h1

theorem runs_sound {global : Nat → Bool} {P : St → Move → Prop} {s : St} (h : Runs global P s) : Sound s.host := by
  induction h with
  | start => exact sound_new global
  | step m _ _ hs ih => exact move_sound ih hs

end BubbleStorm.Cusp.Stream.HostDispatch
