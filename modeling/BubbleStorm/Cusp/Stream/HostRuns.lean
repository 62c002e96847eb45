/-
  BubbleStorm.Cusp.Stream.HostRuns — the ids of a host over its runs.

  `Safe` is the invariant of a run: the host is `Sane`, and an in-stream whose RESET is on
  its way is reset. As long as every step is `Roomy` none of the branches that are
  declared impossible is taken, and as long as the tables stay short of the whole id
  space (`Small`) every id is either allocated or in one of the lists (`Kept`).
-/

import BubbleStorm.Cusp.Stream.HostFails

namespace BubbleStorm.Cusp.Stream.HostDispatch

open BubbleStorm.Lib (Chain)
open Function (update update_of_ne update_self)
open PacketFormat (Segment Reader Writer)

variable {t t' : T} {L : Nat → List Nat} {down : Nat → Bool} {r id B : Nat}

/-! ## Pulling -/

theorem toWord_noFail {s : Segment} (h : s ≠ .corrupt) : NoFail (PacketFormat.write s) := by
  have hword : NoFail (PacketFormat.toWord s) := by
    intro msg heq
    unfold PacketFormat.toWord at heq
    split at heq
    · dsimp only at heq
      split at heq
      · cases heq
      · cases heq
    · cases heq
    · split at heq
      · cases heq
      · cases heq
    · split at heq
      · cases heq
      · cases heq
    · split at heq
      · cases heq
      · cases heq
    · exact h rfl
  exact hword.bind fun _ _ => noFail_ok _

theorem writeSegment_noFail {service seq : Nat} {msg : Segment} (h : msg ≠ .corrupt) (body : Bytes) :
    NoFail (writeSegment (if service = 0 then none else some (.connect service seq)) msg body) := by
  by_cases h0 : service = 0
  · rw [if_pos h0]
    exact (toWord_noFail h).bind fun _ _ => noFail_ok _
  · rw [if_neg h0]
    exact (toWord_noFail Segment.noConfusion).bind fun _ _ => (toWord_noFail h).bind fun _ _ => noFail_ok _

theorem pullOut_msg (q : OutStreamQueue.T) (id room : Nat) (own : List (List OutStreamQueue.Op)) :
    (OutStreamQueue.pull q id room own).1.msg ≠ .corrupt := by
  unfold OutStreamQueue.pull
  split
  · exact Segment.noConfusion
  · exact Segment.noConfusion

/-- An in-stream that may be pulled has an id, and what it pulls is no surprise. -/
theorem Records.pullIn (h : Records t down) (hf : first t r) {q : InStreamQueue.T} (hq : (t.records r).stream = .inStream q)
    (seq : Nat) : (t.records r).id ≠ nill ∧ ∃ p q', InStreamQueue.pull q (t.records r).id seq = .ok (p, q') ∧ p.msg ≠ .corrupt ∧
      (p.ack = .reset → InStreamQueue.isReset q' = true) := by
  obtain ⟨-, hin, hprio, -⟩ := hf
  obtain ⟨i, hi, hc, hid, hheap, hp⟩ := h.calm r q hq hin
  have hsettled := hc.settled (hheap.symm.trans hin)
  cases hs : q.state with
  | amConnected =>
    rw [hs] at hsettled
    refine ⟨fun hnill => hi (by rw [← hsettled, ← hid, hnill]), ?_⟩
    unfold InStreamQueue.pull
    rw [hs]
    exact ⟨_, _, rfl, Segment.noConfusion, fun h => by cases h⟩
  | amShutdown eof =>
    rw [hs] at hsettled
    exact absurd (hp.trans hsettled) hprio
  | amReset =>
    rw [hs] at hsettled
    refine ⟨fun hnill => hi (by rw [← hsettled, ← hid, hnill]), ?_⟩
    unfold InStreamQueue.pull
    rw [hs]
    refine ⟨_, _, rfl, Segment.noConfusion, fun _ => ?_⟩
    show (decide (q.state = .amReset) || decide (q.state = .amResetDown)) = true
    rw [hs]
    rfl
  | amResetDown =>
    rw [hs] at hsettled
    exact hsettled.elim

/-- A RESET is on its way. -/
theorem Records.mark (h : Records t down) (hr : r < t.created)
    (hreset : ∀ q, (t.records r).stream = .inStream q → InStreamQueue.isReset q = true) : Records t (update down r true) := by
  refine { h with calm := fun r' q hq hin => ?_, unborn := fun r' hr' => ?_ }
  · obtain ⟨i, hi, hc, hhears⟩ := h.calm r' q hq hin
    by_cases hr' : r' = r
    · subst hr'
      rw [update_self]
      exact ⟨i, hi, ⟨hc.settled, fun _ => hreset q hq, hc.grew⟩, hhears⟩
    · rw [update_of_ne hr']
      exact ⟨i, hi, hc, hhears⟩
  · rw [update_of_ne (by omega)]
    exact h.unborn r' hr'

theorem Sane.pullRecord (h : Sane B t L down) (hf : first t r)
    (hroom : (t.records r).id = nill → t.writeFree = nill → t.len * 2 ≤ B) (room : Nat) (own : List (List OutStreamQueue.Op)) :
    NoFail (pullRecord t r room own) ∧ ∀ t' sent, pullRecord t r room own = .ok (t', sent) →
      ∃ L' down', Sane B t' L' down' ∧ (∀ r, down r = true → down' r = true) ∧ (sent.ack = .inStream .reset → down' sent.record = true) := by
  obtain ⟨t1, id, L1, hassign, h1, hcr, hkind⟩ := h.assign hf.1 hf.2.1 (fun q hq => (h.pullIn hf hq 0).1) hroom
  have hr1 : r < t1.created := hcr ▸ hf.1
  unfold HostDispatch.pullRecord
  rw [hassign]
  dsimp only [Bind.bind, Except.bind]
  cases hq : (t1.records r).stream with
  | noStream => exact absurd hq (h1.streams r hr1)
  | outStream q =>
    obtain ⟨t2, L2, ht2, h2, -⟩ := h1.ranOut hq (OutStreamQueue.pull q id (if (if (t1.records r).service = 0 then none else
      some (Segment.connect (t1.records r).service (getWriterSeq t1 id))).isSome then room - 4 else room) own).2
    dsimp only
    rw [ht2]
    refine ⟨(writeSegment_noFail (pullOut_msg q id _ own) _).bind fun _ _ => noFail_ok _, fun t' sent heq => ?_⟩
    obtain ⟨w, -, heq⟩ := bind_ok heq
    cases heq
    exact ⟨L2, down, h2, fun _ hd => hd, fun hack => by cases hack⟩
  | inStream q =>
    obtain ⟨rfl, rfl⟩ : t1 = t ∧ id = (t.records r).id := by
      rcases hkind with hsame | ⟨x, hx⟩
      · exact hsame
      · rw [hq] at hx
        cases hx
    obtain ⟨-, p, q', hpull, hmsg, hreset⟩ := h.pullIn hf hq (getReaderSeq t1 (t1.records r).id)
    obtain ⟨t2, ht2, h2, hself, hcr2⟩ := h1.ranIn hq fun _ hc => hc.pull hpull
    dsimp only
    rw [hpull]
    dsimp only
    rw [ht2]
    refine ⟨(writeSegment_noFail hmsg _).bind fun _ _ => noFail_ok _, fun t' sent heq => ?_⟩
    obtain ⟨w, -, heq⟩ := bind_ok heq
    cases heq
    by_cases hack : p.ack = .reset
    · refine ⟨L1, update down r true, { h2.mark (hcr2 ▸ hr1) (fun x hx => ?_), h2.toTable with }, fun r' hd => ?_, fun _ => update_self ..⟩
      · rw [hself] at hx
        cases hx
        exact hreset hack
      · by_cases hr' : r' = r
        · subst hr'
          exact update_self ..
        · rwa [update_of_ne hr']
    · exact ⟨L1, down, h2, fun _ hd => hd, fun heq => absurd (Ack.inStream.inj heq) hack⟩

theorem Sane.clearPrefix (h : Sane B t L down) (r : Nat) : Sane B (t.setRecord r { t.records r with service := 0 }) L down := by
  have hother : ∀ r', r' ≠ r → (t.setRecord r { t.records r with service := 0 }).records r' = t.records r' := fun r' hr' =>
    setRecord_ne hr' ..
  have hrec : Records (t.setRecord r { t.records r with service := 0 }) down := by
    refine h.toRecords.alter (less_setRecord { t.records r with service := 0 } (sameKind_refl _) (.inl ⟨rfl, rfl⟩)) hother ?_ ?_
    · rw [setRecord_self]
      exact h.streams r
    · rw [setRecord_self]
      exact h.calm r
  have htable : Table B (t.setRecord r { t.records r with service := 0 }) L := by
    refine h.toTable.keep ?_ ?_ ?_ hother rfl rfl rfl rfl rfl
    · rw [setRecord_self]
    · rw [setRecord_self]
      exact fun _ => rfl
    · rw [setRecord_self]
      exact fun x hx => ⟨x, hx⟩
  exact { hrec, htable with }

/-- The acknowledgement of a pulled segment. -/
theorem Sane.ackSegment (h : Sane B t L down) {sent : Sent} (hdown : sent.ack = .inStream .reset → down sent.record = true) (ok : Bool) :
    ∃ t' L', ackSegment t sent ok = .ok t' ∧ Sane B t' L' down := by
  obtain ⟨r, bytes, ack⟩ := sent
  have hclear : Sane B (if ok then t.setRecord r { t.records r with service := 0 } else t) L down := by
    split
    · exact h.clearPrefix r
    · exact h
  unfold HostDispatch.ackSegment
  dsimp only
  generalize (if ok then t.setRecord r { t.records r with service := 0 } else t) = t1 at hclear ⊢
  split
  · rename_i hq
    obtain ⟨t2, L2, ht2, h2, -⟩ := hclear.ranOut hq _
    exact ⟨t2, L2, ht2, h2⟩
  · rename_i a q hq
    have hreset : a = .reset → down r = true := fun ha => hdown (ha ▸ rfl)
    obtain ⟨t2, ht2, h2, -⟩ := hclear.ranIn hq fun i hc => hc.ack (fun ha => hc.reset (hreset ha)) ok
    exact ⟨t2, L, ht2, h2⟩
  · exact ⟨t1, L, rfl, hclear⟩

/-! ## Starting over -/

/-- The records that the loop wants back are of out-streams. -/
def Outs (t : T) (recover : List Nat) : Prop := ∀ r ∈ recover, r < t.created ∧ ∃ q, (t.records r).stream = .outStream q

theorem outs_nil (t : T) : Outs t [] := fun _ hr => by cases hr

theorem Outs.grows {recover : List Nat} (h : Outs t recover) (hg : Grows t t') : Outs t' recover := by
  intro r hr
  obtain ⟨hlt, q, hq⟩ := h r hr
  refine ⟨Nat.lt_of_lt_of_le hlt hg.created, ?_⟩
  have hk := hg.kinds r hlt
  rw [hq] at hk
  cases hx : (t'.records r).stream with
  | inStream x => exact (hx ▸ hk).elim
  | outStream x => exact ⟨x, rfl⟩
  | noStream => exact (hx ▸ hk).elim

/-- A record leaves the heap, without its id, or comes back. -/
theorem Records.heap (h : Records t down) {inHeap : Bool} {priority : Real32}
    (hin : inHeap = true → ∃ q, (t.records r).stream = .outStream q) :
    Records (t.setRecord r { t.records r with id := nill, inHeap := inHeap, priority := priority }) down ∧
      Grows t (t.setRecord r { t.records r with id := nill, inHeap := inHeap, priority := priority }) := by
  have hless : Less t (t.setRecord r { t.records r with id := nill, inHeap := inHeap, priority := priority }) :=
    less_setRecord _ (sameKind_refl _) (.inr rfl)
  refine ⟨h.alter hless (fun r' hr' => setRecord_ne hr' ..) ?_ ?_, hless.grows⟩
  · rw [setRecord_self]
    exact h.streams r
  · rw [setRecord_self]
    intro q hq hin'
    obtain ⟨x, hx⟩ := hin hin'
    exact absurd (hq.symm.trans hx) Stream.noConfusion

/-- What the loop does to a record that is popped. -/
def Destroys (down : Nat → Bool) (destroy : T → Nat → Except Exn (T × List Nat)) : Prop :=
  ∀ t r, Records t down → r < t.created → ∃ t' back, destroy t r = .ok (t', back) ∧ Records t' down ∧ Grows t t' ∧ Outs t' back

theorem resetIn (h : Records t down) {q : InStreamQueue.T} (hq : (t.records r).stream = .inStream q) :
    ∃ t', ranIn t r q (InStreamQueue.reset q) = .ok t' ∧ Records t' down ∧ Grows t t' := by
  obtain ⟨t', ht', hrec, -, hless, -⟩ := h.ranIn hq fun _ hc => calm_reset (.inr hc) hc.grew
  exact ⟨t', ht', hrec, hless.grows⟩

theorem resetOut (h : Records t down) {q : OutStreamQueue.T} (hq : (t.records r).stream = .outStream q) :
    ∃ t', ranOut t r q (OutStreamQueue.reset q) = .ok t' ∧ Records t' down ∧ Grows t t' := by
  obtain ⟨t', ht', hrec, hless, -⟩ := h.ranOut hq (OutStreamQueue.reset q)
  exact ⟨t', ht', hrec, hless.grows⟩

/-- The in-streams are reset; of the out-streams it is enough to know. -/
theorem destroys_of {destroy : T → Nat → Except Exn (T × List Nat)}
    (hin : ∀ {t r q t'}, (t.records r).stream = .inStream q → ranIn t r q (InStreamQueue.reset q) = .ok t' →
      destroy t r = .ok (t', []))
    (hno : ∀ {t r}, (t.records r).stream = .noStream → destroy t r = .ok (t, []))
    (hout : ∀ {t r q}, Records t down → r < t.created → (t.records r).stream = .outStream q →
      ∃ t' back, destroy t r = .ok (t', back) ∧ Records t' down ∧ Grows t t' ∧ Outs t' back) : Destroys down destroy := by
  intro t r h hr
  cases hq : (t.records r).stream with
  | inStream q =>
    obtain ⟨t', ht', hrec, hg⟩ := resetIn h hq
    exact ⟨t', [], hin hq ht', hrec, hg, outs_nil t'⟩
  | outStream q => exact hout h hr hq
  | noStream => exact ⟨t, [], hno hq, h, grows_refl t, outs_nil t⟩

theorem wipeRecord_destroys : Destroys down wipeRecord := by
  refine destroys_of (fun hq ht' => ?_) (fun hq => ?_) fun {t r q} h hr hq => ?_
  · unfold wipeRecord
    simp only [hq, ht', bind, Except.bind]
    rfl
  · unfold wipeRecord
    rw [hq]
    rfl
  · unfold wipeRecord
    rw [hq]
    dsimp only
    split
    · obtain ⟨t', ht', hrec, hg⟩ := resetOut h hq
      refine ⟨t', [], ?_, hrec, hg, outs_nil t'⟩
      simp only [ht', bind, Except.bind]
      rfl
    · refine ⟨t, [r], rfl, h, grows_refl t, fun r' hr' => ?_⟩
      cases List.mem_singleton.mp hr'
      exact ⟨hr, q, hq⟩

theorem destroyRecord_destroys : Destroys down destroyRecord := by
  refine destroys_of (fun hq ht' => ?_) (fun hq => ?_) fun {t r q} h hr hq => ?_
  · unfold destroyRecord
    simp only [hq, ht', bind, Except.bind]
    rfl
  · unfold destroyRecord
    rw [hq]
    rfl
  · obtain ⟨t', ht', hrec, hg⟩ := resetOut h hq
    refine ⟨t', [], ?_, hrec, hg, outs_nil t'⟩
    unfold destroyRecord
    simp only [hq, ht', bind, Except.bind]
    rfl

theorem popAll_records {destroy : T → Nat → Except Exn (T × List Nat)} (hd : Destroys down destroy) (h : Records t down)
    {recover : List Nat} (hr : Outs t recover) (pops : List Pop) :
    ∃ t' recover', popAll destroy t recover pops = .ok (t', recover') ∧ Records t' down ∧ Grows t t' ∧ Outs t' recover' := by
  induction pops generalizing t recover with
  | nil => exact ⟨t, recover, rfl, h, grows_refl t, hr⟩
  | cons p pops ih =>
    unfold popAll
    split
    · rename_i htop
      obtain ⟨h1, hg1⟩ : Records (t.setRecord p.record { t.records p.record with id := nill, inHeap := false }) down ∧
          Grows t (t.setRecord p.record { t.records p.record with id := nill, inHeap := false }) :=
        h.heap fun hf => absurd hf Bool.false_ne_true
      obtain ⟨t2, back, ht2, h2, hg2, hback⟩ := hd _ p.record h1 (Nat.lt_of_lt_of_le htop.1 hg1.created)
      obtain ⟨t3, ht3, h3, hg3⟩ := h2.calls p.app
      have hg13 := hg1.trans (hg2.trans hg3)
      have hr3 : Outs t3 (back ++ recover) := by
        intro r hmem
        rcases List.mem_append.mp hmem with hmem | hmem
        · exact hback.grows hg3 r hmem
        · exact hr.grows hg13 r hmem
      obtain ⟨t4, recover', ht4, h4, hg4, hr4⟩ := ih h3 hr3
      refine ⟨t4, recover', ?_, h4, hg13.trans hg4, hr4⟩
      simp only [ht2, ht3, bind, Except.bind]
      exact ht4
    · exact ih h hr

/-- A host whose records have no ids, and whose tables are new. -/
theorem Records.clear (h : Records t down) (hid : ∀ r, (t.records r).id = nill) (hB : 0 < B ∧ B ≤ 2 ^ 16) :
    Sane B t.clear (update (fun _ => []) 0 [0]) down where
  placed r := .inl (hid r)
  seated := h.seated
  fresh := h.fresh
  ins _ _ ha := by cases ha
  outs _ _ ha := by cases ha
  streams := h.streams
  calm := h.calm
  unborn := h.unborn
  lists := (lists_new t.global).congr rfl rfl rfl rfl
  room := ⟨Nat.one_pos, hB⟩
  index := Nat.succ_pos 15
  owns r _ _ hne := absurd (hid r) hne
  live _ _ ha := by cases ha
  covers _ id hlt := by
    have h0 : id = 0 := Nat.lt_one_iff.mp hlt
    subst h0
    exact .inl ⟨0, Nat.zero_le _, .head _⟩

theorem Table.bound (h : Table B t L) : 0 < B ∧ B ≤ 2 ^ 16 := ⟨Nat.lt_of_lt_of_le h.room.1 h.room.2.1, h.room.2.2⟩

theorem restore_records {recover : List Nat} (h : Records t down) (hr : Outs t recover) (hid : ∀ r, (t.records r).id = nill) :
    ∃ t', recover.foldlM restore t = .ok t' ∧ Records t' down ∧ ∀ r, (t'.records r).id = nill := by
  induction recover generalizing t with
  | nil => exact ⟨t, rfl, h, hid⟩
  | cons r recover ih =>
    obtain ⟨-, q, hq⟩ := hr r (.head _)
    obtain ⟨t1, ht1, h1, hg1, hid1⟩ : ∃ t1, restore t r = .ok t1 ∧ Records t1 down ∧ Grows t t1 ∧ ∀ r, (t1.records r).id = nill := by
      have hids : ∀ {record : Record}, record.id = nill → ∀ r', ((t.setRecord r record).records r').id = nill := by
        intro record hrec r'
        by_cases hr' : r' = r
        · subst hr'
          rw [setRecord_self]
          exact hrec
        · rw [setRecord_ne hr']
          exact hid r'
      unfold restore
      rw [hq]
      dsimp only
      split
      · obtain ⟨h1, hg1⟩ := h.heap (r := r) fun _ => ⟨q, hq⟩
        exact ⟨_, rfl, h1, hg1, hids rfl⟩
      · obtain ⟨h1, hg1⟩ := h.heap (r := r) fun _ => ⟨q, hq⟩
        exact ⟨_, rfl, h1, hg1, hids rfl⟩
    obtain ⟨t2, ht2, h2, hid2⟩ := ih h1 (fun r' hr' => hr.grows hg1 r' (.tail _ hr')) hid1
    exact ⟨t2, by rw [List.foldlM_cons, ht1]; exact ht2, h2, hid2⟩

theorem Sane.wipeState (h : Sane B t L down) (pops : List Pop) : ∃ t' L', wipeState t pops = .ok t' ∧ Sane B t' L' down := by
  obtain ⟨t1, recover, ht1, h1, -, hr⟩ := popAll_records wipeRecord_destroys h.toRecords (outs_nil t) pops
  unfold HostDispatch.wipeState
  rw [ht1]
  dsimp only [Bind.bind, Except.bind]
  split
  · rename_i he
    obtain ⟨t2, ht2, h2, hid⟩ := restore_records h1 hr (h1.noIds he)
    rw [ht2]
    exact ⟨_, _, rfl, h2.clear hid h.bound⟩
  · exact ⟨t, L, rfl, h⟩

theorem Sane.destroy (h : Sane B t L down) (pops : List Pop) : ∃ t' L', destroy t pops = .ok t' ∧ Sane B t' L' down := by
  obtain ⟨t1, recover, ht1, h1, -, -⟩ := popAll_records destroyRecord_destroys h.toRecords (outs_nil t) pops
  unfold HostDispatch.destroy
  rw [ht1]
  dsimp only [Bind.bind, Except.bind]
  split
  · rename_i he
    have hs := h1.clear (h1.noIds he) h.bound
    have hlisten := hs.toRecords.listen []
    obtain ⟨L', ht⟩ := hlisten.2.2 B _ hs.toTable
    exact ⟨_, L', rfl, { hlisten.1, ht with }⟩
  · exact ⟨t, L, rfl, h⟩

/-! ## Runs -/

/-- A step leaves the tables within `B` entries, and makes no in-stream under 0xffff. -/
def Fits (B : Nat) (s : St) : Move → Prop
  | .ev (.recv data _) => ∀ id, makes s.host data = some id → id ≠ nill ∧ (s.host.len ≤ id → contain id < B)
  | .ev (.pull r room _) => first s.host r → 32 ≤ room → (s.host.records r).id = nill → s.host.writeFree = nill → s.host.len * 2 ≤ B
  | _ => True

/-- The invariant of a run. -/
def Safe (B : Nat) (s : St) : Prop :=
  ∃ L down, Sane B s.host L down ∧ ∀ sent, (sent, true) ∈ s.sent → sent.ack = .inStream .reset → down sent.record = true

theorem start_safe (global : Nat → Bool) (hB : 0 < B ∧ B ≤ 2 ^ 16) : Safe B (start global) := by
  refine ⟨update (fun _ => []) 0 [0], fun _ => false, ⟨⟨sound_new global, ?_, ?_, ?_⟩, ⟨lists_new global, ?_, ?_, ?_, ?_, ?_⟩⟩, ?_⟩
  · intro r hr
    cases hr
  · intro r q hq
    cases hq
  · exact fun r _ => rfl
  · exact ⟨Nat.one_pos, hB⟩
  · exact Nat.succ_pos 15
  · intro r q hq
    cases hq
  · intro id r ha
    cases ha
  · intro _ id hlt
    have h0 : id = 0 := Nat.lt_one_iff.mp hlt
    subst h0
    exact .inl ⟨0, Nat.zero_le _, .head _⟩
  · intro sent hsent
    cases hsent

theorem move_safe {s : St} {m : Move} (h : Safe B s) (hm : Fits B s m) :
    NoFail (move s m) ∧ ∀ s', move s m = .ok s' → Safe B s' := by
  obtain ⟨L, down, hs, hsent⟩ := h
  -- a host that stays sane, and the segments that are on their way
  have stays : ∀ {t' : T} {L' : Nat → List Nat}, Sane B t' L' down → Safe B { s with host := t' } := fun h' => ⟨_, down, h', hsent⟩
  have done : ∀ {s1 : St}, Safe B s1 → NoFail (.ok s1 : Except Exn St) ∧ ∀ s', (.ok s1 : Except Exn St) = .ok s' → Safe B s' := by
    refine fun h1 => ⟨noFail_ok _, fun s' heq => ?_⟩
    cases heq
    exact h1
  cases m with
  | wipeState pops =>
    obtain ⟨t', L', ht', h'⟩ := hs.wipeState pops
    unfold move
    simp only [ht', bind, Except.bind]
    exact done (stays h')
  | destroy pops =>
    obtain ⟨t', L', ht', h'⟩ := hs.destroy pops
    unfold move
    simp only [ht', bind, Except.bind]
    exact done (stays h')
  | ev e =>
    unfold move
    cases e with
    | call a =>
      obtain ⟨t', ht', hrec, -, htable⟩ := hs.toRecords.call a
      obtain ⟨L', ht⟩ := htable B L hs.toTable
      unfold step
      simp only [ht', bind, Except.bind]
      exact done (stays { hrec, ht with })
    | recv data own =>
      obtain ⟨hno, hok⟩ := hs.recvSegment hm own
      refine ⟨hno.bind fun _ _ => noFail_ok _, fun s' heq => ?_⟩
      obtain ⟨⟨t', n⟩, ht', heq⟩ := bind_ok heq
      cases heq
      obtain ⟨L', h'⟩ := hok t' n ht'
      exact stays h'
    | tick =>
      obtain ⟨t', L', ht', h'⟩ := hs.tick
      unfold step
      simp only [ht', bind, Except.bind]
      exact done (stays h')
    | pull r room own =>
      unfold step
      dsimp only
      split
      · rename_i hf
        obtain ⟨hno, hok⟩ := hs.pullRecord hf.1 (hm hf.1 hf.2) room own
        refine ⟨hno.bind fun _ _ => noFail_ok _, fun s' heq => ?_⟩
        obtain ⟨⟨t', sent⟩, ht', heq⟩ := bind_ok heq
        cases heq
        obtain ⟨L', down', h', hmono, hnew⟩ := hok t' sent ht'
        refine ⟨L', down', h', fun x hx hack => ?_⟩
        rcases List.mem_append.mp hx with hx | hx
        · exact hmono _ (hsent x hx hack)
        · cases List.mem_singleton.mp hx
          exact hnew hack
      · exact done ⟨L, down, hs, hsent⟩
    | ack i ok =>
      unfold step
      dsimp only
      split
      · rename_i sent hi
        obtain ⟨t', L', ht', h'⟩ := hs.ackSegment (hsent sent (List.mem_of_getElem? hi)) ok
        simp only [ht', bind, Except.bind]
        refine done ⟨L', down, h', fun x hx => hsent x ?_⟩
        rcases List.mem_or_eq_of_mem_set hx with hx | hx
        · exact hx
        · cases hx
      · exact done ⟨L, down, hs, hsent⟩

theorem runs_safe {global : Nat → Bool} {P : St → Move → Prop} (hB : 0 < B ∧ B ≤ 2 ^ 16)
    (hP : ∀ s m, Safe B s → P s m → Fits B s m) {s : St} (h : Runs global P s) : Safe B s := by
  induction h with
  | start => exact start_safe global hB
  | step m _ hm hs ih => exact (move_safe ih (hP _ m ih hm)).2 _ hs

theorem ofWord_id {command id : Nat} {msg : Reader} (h : PacketFormat.ofWord command = .reader msg id) : id < 2 ^ 16 := by
  have hlt : command % 2 ^ 16 < 2 ^ 16 := Nat.mod_lt _ (Nat.two_pow_pos 16)
  unfold PacketFormat.ofWord at h
  dsimp only at h
  split at h <;> cases h <;> exact hlt

theorem parse_id {data : Slice} {msg : Reader} (h : PacketFormat.parse data = .ok (.reader msg id)) : id < 2 ^ 16 := by
  unfold PacketFormat.parse at h
  split at h
  · cases h
  · obtain ⟨w, -, h⟩ := bind_ok h
    exact ofWord_id (Except.ok.inj h)

/-! ## What is impossible -/

/-- The room of the id space: no in-stream is made under 0xffff, and an id is allocated
    from an empty free list only while the tables can double. -/
def Roomy (s : St) : Move → Prop
  | .ev (.recv data _) => makes s.host data ≠ some nill
  | .ev (.pull r room _) => first s.host r → 32 ≤ room → (s.host.records r).id = nill → s.host.writeFree = nill →
      s.host.len * 2 ≤ 2 ^ 16
  | _ => True

theorem makes_lt {data : Slice} (h : makes t data = some id) : id < 2 ^ 16 := by
  unfold makes at h
  split at h
  · split at h
    · rename_i hsub
      split at h
      · cases h
        exact parse_id hsub
      · cases h
    · cases h
  · cases h

theorem Roomy.fits {s : St} {m : Move} (h : Roomy s m) : Fits (2 ^ 16) s m := by
  cases m with
  | ev e =>
    cases e with
    | recv data own => exact fun id hid => ⟨fun hnill => h (hnill ▸ hid), fun _ => contain_lt (makes_lt hid)⟩
    | pull r room own => exact h
    | call a => trivial
    | tick => trivial
    | ack i ok => trivial
  | wipeState pops => trivial
  | destroy pops => trivial

/-- In a run whose steps are `Roomy` no `Fail` is raised. -/
theorem never_fails {global : Nat → Bool} {s : St} (h : Runs global Roomy s) {m : Move} (hm : Roomy s m) (msg : String) :
    move s m ≠ .error (.fail msg) :=
  (move_safe (runs_safe ⟨Nat.two_pow_pos 16, Nat.le_refl _⟩ (fun _ _ _ hm => hm.fits) h) hm.fits).1 msg

/-- A stream is made, and pulled. -/
theorem never_fails_example :
    move ⟨connect (new fun _ => true) 80, []⟩ (.ev (.pull 0 32 [])) ≠ .error (.fail "allocating ID to non outstream") := by
  have hruns : Runs (fun _ => true) Roomy ⟨connect (new fun _ => true) 80, []⟩ := .step (.ev (.call (.connect 80))) .start trivial rfl
  have hroomy : Roomy ⟨connect (new fun _ => true) 80, []⟩ (.ev (.pull 0 32 [])) := fun _ _ _ hfree =>
    absurd hfree (by decide)
  exact never_fails hruns hroomy _

/-- A CONNECT of service 80 in front of a DATA of the id 0xffff. -/
def connectNill : Slice := ⟨0, [0x70, 0, 0, 80, 0, 0, 0xff, 0xff]⟩

/-- The in-stream under 0xffff has no id when it is pulled, and no out-stream was made. -/
theorem nill_fails : ∃ s, Runs (fun _ => false) (fun _ _ => True) s ∧ (∀ id, ∃ next, s.host.outStreams id = .free next) ∧
    (∀ k, s.host.cooldowns k = nill) ∧ move s (.ev (.pull 0 32 [])) = .error (.fail "allocating ID to non outstream") := by
  refine ⟨_, .step (.ev (.recv connectNill [])) .start trivial rfl, fun id => ?_, fun k => ?_, ?_⟩
  · show ∃ next, (expand (new fun _ => false) 65536).outStreams id = .free next
    unfold expand
    dsimp only
    split
    · exact ⟨_, rfl⟩
    · exact ⟨_, rfl⟩
  · rfl
  · rfl

/-! ## Every id is kept -/

/-- The tables stay short of the whole id space. -/
def Small (s : St) : Move → Prop
  | .ev (.recv data _) => ∀ id, makes s.host data = some id → s.host.len ≤ id → id < 2 ^ 15
  | .ev (.pull r room _) => first s.host r → 32 ≤ room → (s.host.records r).id = nill → s.host.writeFree = nill →
      s.host.len * 2 < 2 ^ 16
  | _ => True

/-- The id is allocated, and the stream it is allocated to has it. -/
def Allocated (t : T) (id : Nat) : Prop :=
  ∃ r < t.created, t.outStreams id = .alloc r ∧ (∃ q, (t.records r).stream = .outStream q) ∧ (t.records r).id = id ∧
    (t.records r).inHeap = true

/-- The free list and the sixteen lists of ids that cool down are disjoint and end, and
    an id is in exactly one of them or allocated; no two streams have one id. -/
structure Kept (t : T) : Prop where
  lists : ∃ L : Nat → List Nat, (∀ k, Chain nill (nextOf t.outStreams) (head t k) (L k)) ∧ (∀ k, (L k).Nodup) ∧
    (∀ j k id, id ∈ L j → id ∈ L k → j = k) ∧ (∀ k, ∀ id ∈ L k, id < t.len) ∧
    ∀ id < t.len, (∃ k ≤ 16, id ∈ L k) ∧ ¬ Allocated t id ∨ (∀ k, id ∉ L k) ∧ Allocated t id
  once : ∀ r r' q q', (t.records r).stream = .outStream q → (t.records r').stream = .outStream q' →
    (t.records r).id ≠ nill → (t.records r).id = (t.records r').id → r = r'

theorem Sane.kept (h : Sane B t L down) (hlen : t.len < 2 ^ 16) : Kept t where
  lists := by
    refine ⟨L, h.lists.chain, h.lists.once, h.lists.apart, h.lists.small, fun id hid => ?_⟩
    rcases h.covers hlen id hid with hmem | ⟨r, ha⟩
    · refine .inl ⟨hmem, fun ⟨r, _, ha, _⟩ => ?_⟩
      obtain ⟨k, -, hk⟩ := hmem
      exact h.lists.allocated ha k hk
    · obtain ⟨-, hlive⟩ := h.live id r ha
      obtain ⟨hr, hq⟩ := h.outs id r ha
      exact .inr ⟨h.lists.allocated ha, r, hr, ha, hq, hlive⟩
  once r r' q q' hq hq' hid heq := by
    have ha := h.owns r q hq hid
    have ha' := h.owns r' q' hq' (heq ▸ hid)
    rw [← heq, ha] at ha'
    exact Alloc.alloc.inj ha'

/-- In a run whose tables stay short of the whole id space no id is lost. -/
theorem ids_kept {global : Nat → Bool} {s : St} (h : Runs global Small s) : Kept s.host := by
  have hsafe : Safe (2 ^ 16 - 1) s := by
    refine runs_safe ⟨by decide, by decide⟩ (fun s m hs hm => ?_) h
    obtain ⟨L, down, hs, -⟩ := hs
    have hlen := hs.room.2.1
    cases m with
    | ev e =>
      cases e with
      | recv data own =>
        refine fun id hid => ⟨?_, fun hle => ?_⟩
        · intro same
          subst same
          exact absurd (hm nill hid hlen) (by decide)
        · exact Nat.lt_of_lt_of_le (contain_lt (hm id hid hle)) (by decide)
      | pull r room own => exact fun hf hr hid hfree => Nat.le_pred_of_lt (hm hf hr hid hfree)
      | call a => trivial
      | tick => trivial
      | ack i ok => trivial
    | wipeState pops => trivial
    | destroy pops => trivial
  obtain ⟨L, down, hs, -⟩ := hsafe
  exact hs.kept (Nat.lt_of_le_of_lt hs.room.2.1 (by decide))

/-- A stream is made, shut down and pulled: the id 0 is allocated. -/
theorem ids_kept_example : ∃ s : St, Allocated s.host 0 ∧ Kept s.host := by
  have h1 : Runs (fun _ => true) Small _ := .step (.ev (.call (.connect 80))) .start trivial rfl
  have h2 : Runs (fun _ => true) Small _ := .step (.ev (.call (.outStream 0 (.shutdown 0)))) h1 trivial rfl
  have h3 : Runs (fun _ => true) Small _ := .step (.ev (.pull 0 32 [])) h2 (fun _ _ _ hfree => absurd hfree (by decide)) rfl
  exact ⟨_, ⟨0, Nat.one_pos, rfl, ⟨_, rfl⟩, rfl, rfl⟩, ids_kept h3⟩

/-- A CONNECT of service 80 in front of a DATA of the id 0x8000. -/
def connectHigh : Slice := ⟨0, [0x70, 0, 0, 80, 0, 0, 0x80, 0]⟩

/-- The tables grow to the whole id space, and the id 0 is lost. -/
theorem id_lost : ∃ s : St, Runs (fun _ => true) (fun _ _ => True) s ∧ ¬ Kept s.host := by
  refine ⟨_, .step (.ev (.recv connectHigh [])) .start trivial rfl, fun hkept => ?_⟩
  obtain ⟨L, hchain, -, -, -, hall⟩ := hkept.lists
  have hgrown : ∀ x y, 0 < x ∧ x < 2 ^ 16 → x ≠ nill → nextOf (expand (new fun _ => true) 65536).outStreams x = some y →
      0 < y ∧ y < 2 ^ 16 := by
    intro x y hx hne hy
    have hfree := nextOf_some hy
    unfold expand new at hfree
    dsimp only at hfree
    rw [if_neg (show ¬ x < 1 by omega), if_neg (show ¬ x = 65536 - 1 from hne)] at hfree
    cases hfree
    have hnill : nill = 2 ^ 16 - 1 := rfl
    omega
  rcases hall 0 (Nat.succ_pos _) with ⟨⟨k, -, hk⟩, -⟩ | ⟨-, r, -, ha, -⟩
  · cases k with
    | zero => exact Nat.lt_irrefl 0 ((hchain 0).all (P := fun x => 0 < x ∧ x < 2 ^ 16) ⟨Nat.one_pos, by decide⟩ hgrown 0 hk).1
    | succ k =>
      have hempty : Chain nill _ nill (L (k + 1)) := hchain (k + 1)
      rw [hempty.empty] at hk
      cases hk
  · cases ha

end BubbleStorm.Cusp.Stream.HostDispatch
