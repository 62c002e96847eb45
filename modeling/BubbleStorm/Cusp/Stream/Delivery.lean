/-
  BubbleStorm.Cusp.Stream.Delivery — what the readers get is what was written.

  `Inv` links the two queues of a stream: the sender's records and the copies in the
  network are pieces of the written stream `w`, the receiver holds a prefix of `w` and
  pieces ahead of it, and a position the sender has no record of was accepted.
-/

import BubbleStorm.Cusp.Stream.InStreamProofs
import BubbleStorm.Cusp.Stream.OutStreamProofs
import BubbleStorm.Cusp.Stream.Pair

namespace BubbleStorm.Cusp.Stream.Pair

open Span
open OutStreamQueue (written payload lens Sends Seg)
open InStreamQueue (delivered Receives takes)

/-! ## The network -/

/-- The records whose acknowledgement is outstanding. -/
def held (copies : List Copy) : List Seg := (copies.map fun c => if c.pending then c.segments else []).flatten

/-- The positions the receiver accepted. -/
def taken (copies : List Copy) (p : Int) : Prop := ∃ c ∈ copies, c.accepted = true ∧ c.offset ≤ p ∧ p < c.stop

theorem map_set_same {α β : Type} (f : α → β) {l : List α} {i : Nat} {x y : α} (h : l[i]? = some x) (hf : f y = f x) :
    (l.set i y).map f = l.map f := by
  rw [List.map_set, hf]
  refine List.ext_getElem? fun j => ?_
  rw [List.getElem?_set]
  split
  · rename_i e
    subst e
    split
    · rw [List.getElem?_map, h]; rfl
    · rename_i hlt
      rw [List.getElem?_eq_none (by omega)]
  · rfl

theorem flatten_set_perm {α : Type} {l : List (List α)} {i : Nat} {x : List α} (h : l[i]? = some x) :
    l.flatten.Perm (x ++ (l.set i []).flatten) := by
  induction l generalizing i with
  | nil => cases h
  | cons y l ih =>
    cases i with
    | zero => cases h; exact .refl _
    | succ i =>
      have := ih (i := i) h
      rw [List.set_cons_succ, List.flatten_cons, List.flatten_cons]
      exact (this.append_left y).trans (List.perm_append_comm_assoc _ _ _)

theorem mem_set_cases {α : Type} {l : List α} {i : Nat} {x y : α} (h : x ∈ l.set i y) : x = y ∨ x ∈ l :=
  (List.mem_or_eq_of_mem_set h).symm

variable {s : St} {copies : List Copy} {c c' : Copy} {i : Nat}

theorem held_snoc (copies : List Copy) (hc : c.pending = true) : held (copies ++ [c]) = held copies ++ c.segments := by
  simp [held, hc]

theorem held_settle (h : copies[i]? = some c) (hc : c.pending = true) :
    (held copies).Perm (c.segments ++ held (copies.set i { c with pending := false })) := by
  have := flatten_set_perm (l := copies.map fun c => if c.pending then c.segments else []) (i := i) (x := c.segments)
    (by rw [List.getElem?_map, h]; simp [hc])
  unfold held
  rw [List.map_set]
  exact this

theorem high_snoc (snd : OutStreamQueue.T) (rcv : InStreamQueue.T) (copies : List Copy) (updates : List Update) (c : Copy) :
    high ⟨snd, rcv, copies ++ [c], updates⟩ = max (high ⟨snd, rcv, copies, updates⟩) c.stop := by
  simp [high, List.foldl_append]

theorem foldl_max_le {l : List Int} {a x : Int} (h : x ∈ a :: l) : x ≤ l.foldl max a := by
  induction l generalizing a x with
  | nil => rw [List.mem_singleton.mp h]; exact Int.le_refl _
  | cons y l ih =>
    rcases List.mem_cons.mp h with rfl | h
    · exact Int.le_trans (Int.le_max_left x y) (ih (.head _))
    · rcases List.mem_cons.mp h with rfl | h
      · exact Int.le_trans (Int.le_max_right a x) (ih (.head _))
      · exact ih (.tail _ h)

theorem stop_le_high (h : c ∈ s.copies) : c.stop ≤ high s := foldl_max_le (.tail _ (List.mem_map_of_mem h))

theorem taken_lt_high {p : Int} (h : taken s.copies p) : p < high s := by
  obtain ⟨c, hc, -, -, hp⟩ := h
  have := stop_le_high hc
  omega

/-! ## The invariant -/

/-- A copy is a piece of what was written; one that carries the end of the stream ends
    where it does. -/
structure CopyOk (snd : OutStreamQueue.T) (c : Copy) : Prop where
  pulled : c.pulled = OutStreamQueue.dataSegment streamId c.eof c.offset c.segments
  lies : At (written snd.log) c.offset (payload c.segments)
  short : lens c.segments ≤ 4092
  inside : ∀ r ∈ c.segments, ∀ p, r.Covers p → c.offset ≤ p ∧ p < c.stop
  above : ∀ r ∈ c.segments, c.offset ≤ r.offset
  ends : c.eof = true → (∃ p, snd.state = .amShutdown p) ∧ c.stop = (written snd.log).length

structure Inv (s : St) : Prop where
  sends : Sends s.snd (held s.copies) (high s) (taken s.copies)
  inflight : s.snd.inflight.Perm (held s.copies)
  copies : ∀ c ∈ s.copies, CopyOk s.snd c
  updates : ∀ u ∈ s.updates, ∃ o b l, u.pulled = barrierSegment o b l
  receives : Receives (written s.snd.log) s.rcv (taken s.copies)
  shut : ∀ eof, s.rcv.state = .amShutdown eof → ∃ p, s.snd.state = .amShutdown p
  told : ∀ cb, OutStreamQueue.Out.shutdowner cb true ∈ s.snd.log →
    (∃ p, s.snd.state = .amShutdown p) ∧ s.rcv.offset = (written s.snd.log).length

/-- The sending queue goes on: the stream grows, but not after a shutdown. -/
structure Grows (q q' : OutStreamQueue.T) : Prop where
  more : written q.log <+: written q'.log
  shut : ∀ p, q.state = .amShutdown p → (∃ p', q'.state = .amShutdown p') ∧ written q'.log = written q.log

variable {snd snd' : OutStreamQueue.T}

theorem CopyOk.grow (h : CopyOk snd c) (g : Grows snd snd') : CopyOk snd' c :=
  { h with
    lies := h.lies.mono g.more
    ends := fun he => by
      obtain ⟨⟨p, hp⟩, hs⟩ := h.ends he
      obtain ⟨hp', e⟩ := g.shut p hp
      exact ⟨hp', by rw [e]; exact hs⟩ }

theorem receives_grow {w w' : Bytes} {q : InStreamQueue.T} {t : Int → Prop} (h : Receives w q t) (hw : w <+: w')
    (hs : ∀ eof, q.state ≠ .amShutdown eof) : Receives w' q t where
  live := h.live
  nonneg := h.nonneg
  le := Int.le_trans h.le (by have := hw.length_le; omega)
  handed := by
    obtain ⟨v, rfl⟩ := hw
    have := h.le
    rw [h.handed, List.take_append_of_le_length (by omega)]
  readyBytes := h.readyBytes
  idle := h.idle
  ahead r hr := by
    have := h.ahead r hr
    exact ⟨this.lies.mono hw, this.after, this.within, this.short⟩
  ordered := h.ordered
  complete := h.complete
  ends eof e := absurd e (hs eof)
  closed pre cb post e := by
    obtain ⟨-, eof, he⟩ := h.closed pre cb post e
    exact absurd he (hs eof)

/-- The receiver's side, when the sending queue goes on. -/
theorem Inv.receives_grow (h : Inv s) (g : Grows s.snd snd') : Receives (written snd'.log) s.rcv (taken s.copies) := by
  by_cases hs : ∃ p, s.snd.state = .amShutdown p
  · obtain ⟨p, hp⟩ := hs
    rw [(g.shut p hp).2]
    exact h.receives
  · exact Pair.receives_grow h.receives g.more fun eof e => hs (h.shut eof e)

theorem Inv.shut_grow (h : Inv s) (g : Grows s.snd snd') (eof : Int) (he : s.rcv.state = .amShutdown eof) :
    ∃ p, snd'.state = .amShutdown p := by
  obtain ⟨p, hp⟩ := h.shut eof he
  exact (g.shut p hp).1

theorem Inv.told_grow (h : Inv s) (g : Grows s.snd snd') {cb : Nat}
    (hm : OutStreamQueue.Out.shutdowner cb true ∈ s.snd.log) :
    (∃ p, snd'.state = .amShutdown p) ∧ s.rcv.offset = (written snd'.log).length := by
  obtain ⟨⟨p, hp⟩, ho⟩ := h.told cb hm
  obtain ⟨hp', e⟩ := g.shut p hp
  exact ⟨hp', by rw [e]; exact ho⟩

theorem inv_start : Inv start where
  sends := OutStreamQueue.sends_new.weaken_done (fun _ h => h.elim) fun p hp => by
    obtain ⟨c, hc, -⟩ := hp
    cases hc
  inflight := .refl _
  copies _ hc := absurd hc List.not_mem_nil
  updates _ hu := absurd hu List.not_mem_nil
  receives := (InStreamQueue.receives_new streamId).weaken fun p hp => by
    obtain ⟨c, hc, -⟩ := hp
    cases hc
  shut _ h := by cases h
  told _ h := absurd h List.not_mem_nil

/-! ## Every step keeps it -/

theorem frame_grows (f : OutStreamQueue.Frame snd snd') : Grows snd snd' where
  more := f.written
  shut p e := ⟨⟨p, f.shut e⟩, f.frozen (by rw [e]; exact OutStreamQueue.State.noConfusion)⟩

/-- The sending queue goes on and the network stays. -/
theorem Inv.sender (h : Inv s) (g : Grows s.snd snd') (hs : Sends snd' (held s.copies) (high s) (taken s.copies))
    (hi : snd'.inflight = s.snd.inflight)
    (hl : ∀ cb, OutStreamQueue.Out.shutdowner cb true ∈ snd'.log → OutStreamQueue.Out.shutdowner cb true ∈ s.snd.log) :
    Inv { s with snd := snd' } where
  sends := hs
  inflight := by rw [hi]; exact h.inflight
  copies c hc := (h.copies c hc).grow g
  updates := h.updates
  receives := h.receives_grow g
  shut := h.shut_grow g
  told cb hm := h.told_grow g (hl cb hm)

/-- The receiving queue goes on. -/
theorem Inv.receiver (h : Inv s) {rcv : InStreamQueue.T} (hr : Receives (written s.snd.log) rcv (taken s.copies))
    (hs : rcv.state = s.rcv.state) (ho : rcv.offset = s.rcv.offset) : Inv { s with rcv := rcv } :=
  { h with
    receives := hr
    shut := fun eof e => h.shut eof (hs ▸ e)
    told := fun cb hm => by
      show _ ∧ rcv.offset = _
      rw [ho]; exact h.told cb hm }

theorem Inv.write (h : Inv s) {op : OutStreamQueue.Op} (hop : op ≠ .reset) : Inv (step s (.write op)) := by
  have f := OutStreamQueue.exec_extends h.sends.live hop
  exact h.sender (frame_grows f.toFrame) (h.sends.exec hop) f.inflight fun cb hm => f.toFrame.shutdowner hm

theorem Inv.pull (h : Inv s) (room : Nat) {react : List (List OutStreamQueue.Op)}
    (hr : ∀ ops ∈ react, OutStreamQueue.Op.reset ∉ ops) : Inv (step s (.pull room react)) := by
  obtain ⟨segments, eof, hp⟩ := h.sends.pull streamId room hr
  simp only [step]
  generalize OutStreamQueue.pull s.snd streamId room react = r at hp ⊢
  obtain ⟨pulled, snd⟩ := r
  obtain rfl := hp.segment
  have hsd := hp.sends
  have g : Grows s.snd snd := by
    refine ⟨hp.written, fun p e => ⟨hp.shut p e, hp.frozen ?_⟩⟩
    rw [e]; exact OutStreamQueue.State.noConfusion
  have hhigh := high_snoc snd s.rcv s.copies s.updates
    ⟨OutStreamQueue.dataSegment streamId eof (OutStreamQueue.pullOffset s.snd) segments, OutStreamQueue.pullOffset s.snd,
      true, false⟩
  have htaken : ∀ p, taken (s.copies ++ [⟨OutStreamQueue.dataSegment streamId eof (OutStreamQueue.pullOffset s.snd) segments,
      OutStreamQueue.pullOffset s.snd, true, false⟩]) p ↔ taken s.copies p := by
    intro p
    simp [taken]
  refine ⟨?_, ?_, ?_, h.updates, ?_, h.shut_grow g, fun cb hm => h.told_grow g (hp.shutdowner cb hm)⟩
  · rw [hhigh, held_snoc _ rfl]
    refine (hsd.perm List.perm_append_comm).weaken_done (fun p => (htaken p).mpr) fun p hp' => ?_
    have := taken_lt_high ((htaken p).mp hp')
    exact Int.lt_of_lt_of_le this (Int.le_max_left _ _)
  · rw [held_snoc _ rfl]
    exact hp.inflight.trans ((h.inflight.append_left _).trans List.perm_append_comm)
  · intro c hc
    rcases List.mem_append.mp hc with hc | hc
    · exact (h.copies c hc).grow g
    · rw [List.mem_singleton.mp hc]
      refine ⟨rfl, hp.lies, Int.le_trans hp.fits ?_, hp.inside, hp.above, fun he => ?_⟩
      · have := OutStreamQueue.pullLimit_le s.snd room
        omega
      · obtain ⟨⟨p, hs⟩, hend⟩ := hp.ends he
        exact ⟨⟨p, hs⟩, hend.trans (hsd.length_shut hs).symm⟩
  · exact (h.receives_grow g).weaken fun p hp' => .inl ((htaken p).mp hp')

theorem high_set {snd : OutStreamQueue.T} {rcv : InStreamQueue.T} {updates : List Update} (hc : s.copies[i]? = some c)
    (c' : Copy) (hs : c'.stop = c.stop) : high ⟨snd, rcv, s.copies.set i c', updates⟩ = high s :=
  congrArg (List.foldl max 0) (map_set_same Copy.stop hc hs)

theorem held_set (hc : copies[i]? = some c) (c' : Copy) (hp : c'.pending = c.pending) (hs : c'.segments = c.segments) :
    held (copies.set i c') = held copies :=
  congrArg List.flatten (map_set_same _ hc (by simp only [hp, hs]))

theorem mem_set_of_mem {d : Copy} (hc : copies[i]? = some c) (c' : Copy) (hd : d ∈ copies) : d = c ∨ d ∈ copies.set i c' := by
  obtain ⟨j, hj⟩ := List.getElem?_of_mem hd
  by_cases e : j = i
  · subst e
    rw [hc] at hj; cases hj
    exact .inl rfl
  · exact .inr (List.mem_of_getElem? (i := j) (by rw [List.getElem?_set_ne (Ne.symm e)]; exact hj))

/-- What a change of one copy's flags does to the accepted positions. -/
theorem taken_set (hc : copies[i]? = some c) (c' : Copy) (ho : c'.offset = c.offset) (hs : c'.stop = c.stop) (p : Int) :
    (taken (copies.set i c') p → taken copies p ∨ c'.accepted = true ∧ c.offset ≤ p ∧ p < c.stop) ∧
    ((c.accepted = true → c'.accepted = true) → taken copies p → taken (copies.set i c') p) := by
  constructor
  · intro ⟨d, hd, h1, h2, h3⟩
    rcases mem_set_cases hd with rfl | hd
    · exact .inr ⟨h1, by omega, by omega⟩
    · exact .inl ⟨d, hd, h1, h2, h3⟩
  · intro ha ⟨d, hd, h1, h2, h3⟩
    rcases mem_set_of_mem hc c' hd with rfl | hd
    · exact ⟨c', List.mem_set (List.getElem?_eq_some_iff.mp hc).1 c', ha h1, by omega, by omega⟩
    · exact ⟨d, hd, h1, h2, h3⟩

theorem copies_set (hc : s.copies[i]? = some c) (hp : c'.pulled = c.pulled) (ho : c'.offset = c.offset)
    (hs : ∀ c ∈ s.copies, CopyOk snd c) : ∀ d ∈ s.copies.set i c', CopyOk snd d := by
  intro d hd
  rcases mem_set_cases hd with rfl | hd
  · have := hs c (List.mem_of_getElem? hc)
    have e1 : d.segments = c.segments := by simp only [Copy.segments, hp]
    have e2 : d.eof = c.eof := by simp only [Copy.eof, hp]
    have e3 : d.stop = c.stop := by simp only [Copy.stop, ho, e1]
    exact ⟨by rw [hp, e1, e2, ho]; exact this.pulled, by rw [ho, e1]; exact this.lies, by rw [e1]; exact this.short,
      by rw [e1, ho, e3]; exact this.inside, by rw [e1, ho]; exact this.above, by rw [e2, e3]; exact this.ends⟩
  · exact hs d hd

/-- When nothing is left to send, the receiver has it all. -/
theorem Inv.all_sent (h : Inv s) {q : OutStreamQueue.T} {hi : Int} (hs : Sends q [] hi (taken s.copies))
    (hw : written q.log = written s.snd.log) (hr : q.retransmit = []) {p : OutStreamQueue.Progress}
    (hst : q.state = .amShutdown p) : s.rcv.offset = (written q.log).length := by
  rw [hw]
  refine h.receives.all_taken fun x h0 hx => ?_
  have hlen := hs.length_shut hst
  rw [hw] at hlen
  rcases hs.covered x h0 (by omega) with ⟨r, hr', -⟩ | ht
  · rw [hr] at hr'; cases hr'
  · exact ht

theorem Inv.ack (h : Inv s) {i : Nat} {ok : Bool} (hok : ∀ c, s.copies[i]? = some c → ok = true → c.accepted = true)
    (hw : ∀ c, s.copies[i]? = some c → ok = false → high s < c.offset + 2 ^ 31) : Inv (step s (.ack i ok)) := by
  simp only [step]
  split
  · rename_i c hc
    split
    · rename_i hpend
      have hco := h.copies c (List.mem_of_getElem? hc)
      have hperm := held_settle hc hpend
      have hack : c.pulled.ack = .data c.segments c.eof := by rw [hco.pulled]; rfl
      have hts := taken_set hc { c with pending := false } rfl rfl
      have htaken : ∀ p, taken (s.copies.set i { c with pending := false }) p → taken s.copies p := by
        intro p hp
        rcases (hts p).1 hp with hp | ⟨h1, h2, h3⟩
        · exact hp
        · exact ⟨c, List.mem_of_getElem? hc, h1, h2, h3⟩
      have hacked : OutStreamQueue.Acked s.snd (held (s.copies.set i { c with pending := false })) (high s)
          (taken s.copies) (OutStreamQueue.ack s.snd c.pulled.ack ok) := by
        rw [hack]
        have hs := h.sends.perm hperm
        have hi := h.inflight.trans hperm
        cases ok with
        | true =>
          have ha := hs.acknowledge hi c.eof
          refine { ha with sends := ha.sends.weaken_done (fun p hp => ?_) fun p => taken_lt_high }
          rcases hp with hp | ⟨r, hr, hcov⟩
          · exact hp
          · obtain ⟨h1, h2⟩ := hco.inside r hr p hcov
            exact ⟨c, List.mem_of_getElem? hc, hok c hc rfl, h1, h2⟩
        | false =>
          refine hs.requeue hi c.eof fun r hr => ?_
          have := hw c hc rfl
          have := hco.above r hr
          omega
      have g : Grows s.snd (OutStreamQueue.ack s.snd c.pulled.ack ok) :=
        ⟨⟨[], by rw [List.append_nil, hacked.written]⟩, fun p e => ⟨hacked.shut p e, hacked.written⟩⟩
      refine ⟨?_, hacked.inflight, copies_set hc rfl rfl fun d hd => (h.copies d hd).grow g, h.updates, ?_,
        h.shut_grow g, fun cb hm => ?_⟩
      · rw [high_set hc { c with pending := false } rfl]
        exact hacked.sends.weaken_done (fun p => (hts p).2 id) fun p hp => taken_lt_high (htaken p hp)
      · exact (h.receives_grow g).weaken fun p hp => .inl (htaken p hp)
      · rcases hacked.shutdowner cb hm with hm | ⟨hrest, hret, p, hst⟩
        · exact h.told_grow g hm
        · have hs := hacked.sends
          rw [hrest] at hs
          exact ⟨⟨p, hst⟩, h.all_sent hs hacked.written hret hst⟩
    · exact h
  · exact h

theorem Inv.deliver (h : Inv s) {i : Nat} {react : List InStreamQueue.Op} (hr : InStreamQueue.Op.reset ∉ react)
    (hn : Near s (.deliver i react)) : Inv (step s (.deliver i react)) := by
  simp only [step]
  split
  · rename_i c hc
    have hco := h.copies c (List.mem_of_getElem? hc)
    obtain ⟨hn1, hn2⟩ := hn c hc
    have hlen := OutStreamQueue.length_payload c.segments
    have hshort := hco.short
    have e := deliver_eq (s := s) (show streamId < 2 ^ 16 by decide) (by omega) hco.pulled react
    have hd := h.receives.recvDATA hco.lies (o := word32 c.offset) (by unfold word32; omega) hn1 hn2 (by omega)
      (fun he : c.eof = true => by have := (hco.ends he).2; simp only [Copy.stop] at this; omega) hr
    rw [← e] at hd
    generalize Pair.deliver s c react = r at hd ⊢
    obtain ⟨rcv, ok⟩ := r
    obtain ⟨hd1, hd2, hd3⟩ := hd
    have hts := taken_set hc { c with accepted := c.accepted || ok } rfl rfl
    have hlt : ∀ p, taken (s.copies.set i { c with accepted := c.accepted || ok }) p → p < high s := by
      intro p hp
      rcases (hts p).1 hp with hp | ⟨-, -, h3⟩
      · exact taken_lt_high hp
      · have := stop_le_high (List.mem_of_getElem? hc)
        omega
    refine ⟨?_, ?_, copies_set hc rfl rfl h.copies, h.updates, ?_, fun eof he => ?_, fun cb hm => ?_⟩
    · rw [high_set hc { c with accepted := c.accepted || ok } rfl,
        held_set hc { c with accepted := c.accepted || ok } rfl rfl]
      exact h.sends.weaken_done (fun p => (hts p).2 fun ha => by simp [ha]) hlt
    · rw [held_set hc { c with accepted := c.accepted || ok } rfl rfl]; exact h.inflight
    · refine hd1.weaken fun p hp => .inl ?_
      rcases (hts p).1 hp with hp | ⟨h1, h2, h3⟩
      · exact .inl hp
      · simp only [Bool.or_eq_true] at h1
        rcases h1 with h1 | h1
        · exact .inl ⟨c, List.mem_of_getElem? hc, h1, h2, h3⟩
        · exact .inr ⟨h1, h2, by rw [hlen]; exact h3⟩
    · rcases hd3 with e' | e'
      · exact h.shut eof (e'.symm.trans he)
      · exact (hco.ends e').1
    · obtain ⟨hs, ho⟩ := h.told cb hm
      have hle := hd1.le
      exact ⟨hs, Int.le_antisymm hle (ho ▸ hd2)⟩
  · exact h

theorem Inv.read (h : Inv s) {op : InStreamQueue.Op} (hop : op ≠ .reset) : Inv (step s (.read op)) := by
  obtain ⟨ho, hs⟩ := InStreamQueue.exec_frame s.rcv hop
  exact h.receiver (h.receives.exec hop) hs ho

theorem Inv.announce (h : Inv s) : Inv (step s .announce) := by
  simp only [step]
  split
  · rename_i p rcv hp
    obtain ⟨hr, hs, ho, e⟩ := h.receives.pull hp
    refine { h.receiver hr hs ho with updates := fun u hu => ?_ }
    rcases List.mem_append.mp hu with hu | hu
    · exact h.updates u hu
    · rw [List.mem_singleton.mp hu]
      exact ⟨_, _, _, e⟩
  · exact h

theorem updates_set {updates : List Update} {j : Nat} {u u' : Update} (hu : updates[j]? = some u)
    (hp : u'.pulled = u.pulled) (h : ∀ u ∈ updates, ∃ o b l, u.pulled = barrierSegment o b l) :
    ∀ v ∈ updates.set j u', ∃ o b l, v.pulled = barrierSegment o b l := by
  intro v hv
  rcases mem_set_cases hv with rfl | hv
  · rw [hp]; exact h u (List.mem_of_getElem? hu)
  · exact h v hv

theorem Inv.announced (h : Inv s) (j : Nat) (ok : Bool) : Inv (step s (.announced j ok)) := by
  simp only [step]
  split
  · rename_i u hu
    split
    · obtain ⟨o, b, l, e⟩ := h.updates u (List.mem_of_getElem? hu)
      have ha : u.pulled.ack = .barrier o b l := by rw [e]; rfl
      obtain ⟨hr, hs, ho⟩ := h.receives.ack o b l ok
      rw [ha]
      exact { h.receiver hr hs ho with updates := updates_set hu rfl h.updates }
    · exact h
  · exact h

theorem Inv.update (h : Inv s) (j : Nat) : Inv (step s (.update j)) := by
  simp only [step]
  split
  · rename_i u hu
    obtain ⟨o, b, l, e⟩ := h.updates u (List.mem_of_getElem? hu)
    have f := OutStreamQueue.makeProgress_extends { s.snd with barrier := word32 b }
    have hs : Sends { s.snd with barrier := word32 b } (held s.copies) (high s) (taken s.copies) := { h.sends with }
    have g := frame_grows f.toFrame
    rw [update_eq e]
    have hi : Inv { s with snd := OutStreamQueue.makeProgress { s.snd with barrier := word32 b } } :=
      h.sender ⟨g.more, g.shut⟩ hs.makeProgress f.inflight fun cb hm => f.toFrame.shutdowner hm
    exact { hi with updates := updates_set hu rfl h.updates }
  · exact h

theorem inv_step (h : Inv s) (e : Ev) (he : Timely s e) : Inv (step s e) := by
  obtain ⟨hc, hn, hp⟩ := he
  cases e with
  | write op => exact h.write hc
  | pull room react => exact h.pull room hc.2.2
  | ack i ok =>
    refine h.ack hc fun c hci hok => ?_
    subst hok
    exact hp c hci
  | deliver i react => exact h.deliver hc hn
  | read op => exact h.read hc
  | announce => exact h.announce
  | announced j ok => exact h.announced j ok
  | update j => exact h.update j

theorem reach_inv (h : Reach Timely s) : Inv s := by
  induction h with
  | start => exact inv_start
  | step e _ he ih => exact inv_step ih e he

/-- In every state of a run in which losses are reported promptly, the readers have been
    handed a prefix of what was written, the reader is only told of the end behind all
    of it, and the writer is only told of success when the receiver holds all of it. -/
theorem reliable_delivery (h : Reach Timely s) :
    delivered s.rcv.log <+: written s.snd.log ∧
    (∀ pre cb post, s.rcv.log = pre ++ .reader cb .shutdown :: post → delivered pre = written s.snd.log) ∧
    (∀ cb, OutStreamQueue.Out.shutdowner cb true ∈ s.snd.log →
      delivered s.rcv.log ++ s.rcv.ready.flatten = written s.snd.log) := by
  have hi := reach_inv h
  have hh := hi.receives.handed
  refine ⟨?_, fun pre cb post e => (hi.receives.closed pre cb post e).1, fun cb hm => ?_⟩
  · exact (hh ▸ List.prefix_append _ _ : delivered s.rcv.log <+: _).trans (List.take_prefix _ _)
  · rw [hh, (hi.told cb hm).2]
    simp

/-- Such a run: the second segment overtakes the first one, which is lost, requeued and
    pulled again with the end of the stream behind it. -/
def exampleRun : List Ev :=
  [.write (.write ⟨[7, 8, 9, 10, 11], by decide⟩ 0), .write (.shutdown 1), .pull 8 [], .pull 16 [], .deliver 1 [],
    .ack 0 false, .pull 16 [], .deliver 2 [], .deliver 0 [], .read (.read (-1) 2), .read (.read (-1) 3),
    .read (.read (-1) 4), .ack 1 true, .ack 2 true]

theorem reliable_delivery_example :
    delivered (run start exampleRun).rcv.log <+: written (run start exampleRun).snd.log :=
  (reliable_delivery (s := run start exampleRun) (Reach.start.run (by decide))).1

/-! ## A loss reported late -/

/-- What a run may do when nothing bounds how late a loss is reported. -/
def Untimely (s : St) (e : Ev) : Prop := Calls s e ∧ Near s e

instance (s : St) (e : Ev) : Decidable (Untimely s e) := inferInstanceAs (Decidable (_ ∧ _))

end BubbleStorm.Cusp.Stream.Pair

namespace BubbleStorm.Cusp.Stream.OutStreamQueue

/-- A connected queue with nothing queued takes a buffer straight into the heap. -/
theorem write_idle {q : T} (hs : q.state = .amConnected) (hr : q.retransmit = []) (hb : q.buffer = none)
    (b : Word8Vector) (cb : Nat) :
    ∃ l, Plain l ∧ exec q (.write b cb) =
      (T.moved { q with buffer := some b, writer := some cb, log := q.log ++ [.wrote b] } b).ran l := by
  have e : exec q (.write b cb) =
      makeProgress { q with buffer := some b, writer := some cb, log := q.log ++ [.wrote b] } := by
    simp [exec, write, hb, hs, attempt, emit]
  rcases makeProgress_cases { q with buffer := some b, writer := some cb, log := q.log ++ [.wrote b] } with
    ⟨h, -⟩ | ⟨-, b', l, hb', hl, e'⟩
  · rcases h with h | h
    · exact absurd hr h
    · cases h
  · cases hb'
    exact ⟨l, hl, e.trans e'⟩

theorem makeProgress_idle {q : T} (hr : q.retransmit = []) (hb : q.buffer = none) : makeProgress q = q := by
  simp [makeProgress, hr, hb]

/-- One record that fits is pulled whole. -/
theorem pullSegments_single {q : T} {r : Seg} (hr : q.retransmit = [r]) (hb : q.buffer = none) {room : Nat}
    (hlen : r.data.length < room) : pullSegments q room [] = ([r], { q with retransmit := [] }) := by
  have hk : Key.le r.offset r.offset = true := by simp [Key.le, Key.lt_def]
  have hpop : BinHeap.popIf Seg.less (fun t => Key.le t.offset r.offset) [r] = some (r, []) := by
    simp [BinHeap.popIf, BinHeap.pop, hk]
  have hthen : makeProgressThen { q with retransmit := [] } [] = ({ q with retransmit := [] }, []) := by
    unfold makeProgressThen
    rw [if_neg (by simp [progresses, hb]), makeProgress_idle (q := { q with retransmit := [] }) rfl hb]
  simp only [pullSegments, hr, List.head?_cons, List.length_singleton, List.length_nil, Nat.add_zero]
  rw [show room + 1 + 2 = (room + 1 + 1) + 1 from rfl, pullContiguousSegments, hr, hpop]
  simp only [if_pos (Nat.le_of_lt hlen), if_neg (Nat.ne_of_lt hlen), hthen, pullContiguousSegments, BinHeap.popIf,
    List.head?_nil]

/-- All of `w` was sent and acknowledged, save `stale`. -/
structure Idle (stale : Seg) (w : Bytes) (q : T) : Prop where
  state : q.state = .amConnected
  retransmit : q.retransmit = []
  inflight : q.inflight = [stale]
  buffer : q.buffer = none
  sendOffset : q.sendOffset = w.length
  written : written q.log = w
  fresh : stale.ref < q.fresh

theorem Idle.write {stale : Seg} {w : Bytes} {q : T} (h : Idle stale w q) (d : Word8Vector) (cb : Nat) :
    let q1 := exec q (.write d cb)
    q1.state = .amConnected ∧ q1.retransmit = [⟨q.fresh, w.length, d.val⟩] ∧ q1.inflight = [stale] ∧ q1.buffer = none ∧
      q1.sendOffset = w.length + d.val.length ∧ OutStreamQueue.written q1.log = w ++ d.val ∧ q1.fresh = q.fresh + 1 := by
  obtain ⟨l, hl, e⟩ := write_idle h.state h.retransmit h.buffer d cb
  rw [e]
  refine ⟨h.state, ?_, h.inflight, rfl, ?_, ?_, rfl⟩
  · simp only [T.ran_retransmit, T.moved, h.sendOffset]
  · simp only [T.ran_sendOffset, T.moved, h.sendOffset]
  · simp only [T.ran_log, T.moved, written_append, written_wrote, hl.quiet.written, h.written, List.append_nil]

/-- A pull of the one record there is. -/
theorem pull_single {q : T} {r : Seg} (hs : q.state = .amConnected) (hr : q.retransmit = [r]) (hb : q.buffer = none)
    (id : Nat) {room : Nat} (hlen : r.data.length < pullLimit q room) :
    pull q id room [] = (dataSegment id false r.offset [r], T.sent { q with retransmit := [] } .amConnected [r]) := by
  have hlive : q.state ≠ .amReset := by rw [hs]; exact State.noConfusion
  have ho : pullOffset q = r.offset := by simp only [pullOffset, hr, List.head?_cons]
  rw [pull_eq hlive, pullSegments_single hr hb hlen]
  simp only [hs, attachEOF, ho]

/-- The one record is acknowledged: the queue is as it was before it. -/
theorem ack_single {stale r : Seg} {q : T} (hi : q.inflight = [stale])
    (hb : q.buffer = none) (hne : r.ref ≠ stale.ref) :
    ∃ l, Quiet l ∧ ack (T.sent { q with retransmit := [] } .amConnected [r]) (.data [r] false) true =
      { q with retransmit := [], state := .amConnected, bytesSent := q.bytesSent + r.len,
               inflightBytes := q.inflightBytes + r.len - r.len,
               retransmitBytes := q.retransmitBytes - r.len + 0, log := q.log ++ l } := by
  obtain ⟨l, hl, e⟩ := T.sent_log { q with retransmit := [] } .amConnected [r]
  have hperm : (T.sent { q with retransmit := [] } .amConnected [r]).inflight.Perm ([r] ++ [stale]) := by
    rw [← hi]; exact foldl_push_perm [r] q.inflight
  have hrest : ([r].foldl heapRemove (T.sent { q with retransmit := [] } .amConnected [r]).inflight).Perm [stale] := by
    refine foldl_heapRemove_perm hperm ?_
    rw [(hperm.map Seg.ref).nodup_iff]
    simpa using hne
  have hin := (List.perm_singleton.mp hrest).trans hi.symm
  rw [ack_true_eq, makeProgress_idle (by rfl) (by exact hb)]
  have hnd : amDone (T.landed (T.sent { q with retransmit := [] } .amConnected [r]) [r] false true
      (T.sent { q with retransmit := [] } .amConnected [r]).retransmit) = false := rfl
  rw [checkDone, hnd]
  refine ⟨l ++ [.event (.inflightBytes (-lens [r]))], fun b hm => ?_, ?_⟩
  · rcases List.mem_append.mp hm with hm | hm
    · exact hl.quiet b hm
    · simp at hm
  · simp only [Bool.false_eq_true, if_false, T.landed, hin, e, List.append_assoc]
    simp [T.sent, updateRTS, callback, emit, T.ran, ackState]

theorem Idle.send {stale : Seg} {w : Bytes} {q : T} (h : Idle stale w q) {d : Word8Vector} (cb id : Nat) {room : Nat}
    (hlen : d.val.length < pullLimit (exec q (.write d cb)) room) :
    let p := pull (exec q (.write d cb)) id room []
    p.1 = dataSegment id false w.length [⟨q.fresh, w.length, d.val⟩] ∧
      Idle stale (w ++ d.val) (ack p.2 (.data [⟨q.fresh, w.length, d.val⟩] false) true) := by
  obtain ⟨hs, hr, hi, hb, ho, hw, hf⟩ := h.write d cb
  generalize exec q (.write d cb) = q1 at *
  have hp := pull_single hs hr hb id hlen
  obtain ⟨l, hl, e⟩ := ack_single (r := ⟨q.fresh, w.length, d.val⟩) hi hb (by have := h.fresh; simp only; omega)
  simp only [hp, e]
  refine ⟨trivial, rfl, rfl, hi, hb, ?_, ?_, ?_⟩
  · simp only [ho, List.length_append]; omega
  · simp only [written_append, hl.written, List.append_nil, hw]
  · simp only [hf]
    have := h.fresh
    omega

/-- Two records the order of words takes for one text are pulled together. -/
theorem pullSegments_pair {q : T} {r s : Seg} (hr : q.retransmit = [r, s]) (hb : q.buffer = none) {room : Nat}
    (hle : Key.le s.offset (r.offset + r.data.length) = true) (hlen : r.data.length + s.data.length < room) :
    ∃ l, Plain l ∧ pullSegments q room [] = ([r, s], T.ran { q with retransmit := [] } l) := by
  have hk : Key.le r.offset r.offset = true := by simp [Key.le, Key.lt_def]
  have hpop : BinHeap.popIf Seg.less (fun t => Key.le t.offset r.offset) [r, s] = some (r, [s]) := by
    simp [BinHeap.popIf, BinHeap.pop, hk, BinHeap.fixTooBig]
  have hpop' : BinHeap.popIf Seg.less (fun t => Key.le t.offset (r.offset + r.data.length)) [s] = some (s, []) := by
    simp [BinHeap.popIf, BinHeap.pop, hle]
  have h1 : makeProgressThen { q with retransmit := [s] } [] = (updateRTS { q with retransmit := [s] }, []) := by
    simp [makeProgressThen, progresses, makeProgress]
  have h2 (l : List Out) : makeProgressThen (T.ran { q with retransmit := [] } l) [] =
      (T.ran { q with retransmit := [] } l, []) := by
    unfold makeProgressThen
    rw [if_neg (by simp [progresses, hb]), makeProgress_idle (by rfl) (by exact hb)]
  refine ⟨[.event (.rts (if amRTS { q with retransmit := [s] } then q.priority else .negInf))],
    fun o ho => .inl ⟨_, List.mem_singleton.mp ho⟩, ?_⟩
  simp only [pullSegments, hr, List.head?_cons]
  rw [show room + [r, s].length + [].length + 2 = (room + 1 + 1 + 1) + 1 by simp, pullContiguousSegments, hr, hpop]
  simp only [if_pos (show r.data.length ≤ room by omega), if_neg (show r.data.length ≠ room by omega), h1]
  rw [pullContiguousSegments]
  simp only [updateRTS_eq, T.ran_retransmit, hpop', if_pos (show s.data.length ≤ room - r.data.length by omega),
    if_neg (show s.data.length ≠ room - r.data.length by omega)]
  simp only [T.ran] at h2 ⊢
  rw [h2, pullContiguousSegments]
  rfl

/-- The stale copy comes back behind a record that ends where the words wrap. -/
theorem Idle.merge {stale : Seg} {w : Bytes} {q : T} (h : Idle stale w q) {d : Word8Vector} (cb id room : Nat)
    (ho : stale.offset = 0) (hw : (w.length : Int) + d.val.length = 2 ^ 32) (hd : 0 < d.val.length)
    (hroom : d.val.length + stale.data.length + 8 < room) (hmax : room ≤ 4092) :
    let q2 := ack (exec q (.write d cb)) (.data [stale] false) false
    let p := pull q2 id room []
    pullOffset q2 = w.length ∧ p.1 = dataSegment id false w.length [⟨q.fresh, w.length, d.val⟩, stale] ∧
      OutStreamQueue.written p.2.log = w ++ d.val := by
  obtain ⟨hs, hr, hi, hb, -, hw', -⟩ := h.write d cb
  generalize exec q (.write d cb) = q1 at *
  have hlive : q1.state ≠ .amReset := by rw [hs]; exact State.noConfusion
  have hpush : [stale].foldl (BinHeap.push Seg.less) q1.retransmit = [⟨q.fresh, w.length, d.val⟩, stale] := by
    have hlt : Key.lt (w.length : Int) stale.offset = true := by
      have := d.property
      rw [ho, Key.lt_def, decide_eq_true_eq]; omega
    simp [hr, BinHeap.push, BinHeap.fixTooSmall, Seg.less, hlt]
  rw [ack_false_eq hlive, hpush, updateRTS_eq]
  generalize hq2 : (T.ran (T.ran (q1.landed [stale] false false [⟨q.fresh, w.length, d.val⟩, stale]) _) _) = q2
  have hs2 : q2.state = .amConnected := by rw [← hq2]; exact congrArg (ackState · false false) hs
  have hr2 : q2.retransmit = [⟨q.fresh, w.length, d.val⟩, stale] := by rw [← hq2]; rfl
  have hb2 : q2.buffer = none := by rw [← hq2]; exact hb
  have hlive2 : q2.state ≠ .amReset := by rw [hs2]; exact State.noConfusion
  have hw2 : OutStreamQueue.written q2.log = w ++ d.val := by
    rw [← hq2, T.ran_log, T.ran_log, written_append, written_append, landed_written, hw']
    simp [OutStreamQueue.written]
  have hoff : pullOffset q2 = w.length := by simp only [pullOffset, hr2, List.head?_cons]
  have hle : Key.le stale.offset ((w.length : Int) + d.val.length) = true := by
    rw [hw, ho]; decide
  have hlen : d.val.length + stale.data.length < pullLimit q2 room := by
    have : headerLen (pullOffset q2) ≤ 8 := by unfold headerLen; split <;> omega
    unfold pullLimit
    omega
  obtain ⟨l, hl, e⟩ := pullSegments_pair hr2 hb2 hle hlen
  generalize hq3 : T.ran _ l = q3 at e
  have hs3 : q3.state = .amConnected := by rw [← hq3]; exact hs2
  have hw3 : OutStreamQueue.written q3.log = w ++ d.val := by
    rw [← hq3]
    show OutStreamQueue.written (q2.log ++ l) = _
    rw [written_append, hw2, hl.quiet.written, List.append_nil]
  obtain ⟨l', hl', e'⟩ := T.sent_log q3 .amConnected [⟨q.fresh, w.length, d.val⟩, stale]
  show pullOffset q2 = _ ∧ (pull q2 id room []).1 = _ ∧ OutStreamQueue.written (pull q2 id room []).2.log = _
  rw [pull_eq hlive2, e, hoff]
  refine ⟨rfl, by simp only [hs3, attachEOF], ?_⟩
  simp only [hs3, attachEOF, e', written_append, hw3, hl'.quiet.written, List.append_nil]

end BubbleStorm.Cusp.Stream.OutStreamQueue

namespace BubbleStorm.Cusp.Stream.InStreamQueue

/-- All of `w` was received and handed out. -/
structure Idle (w : Bytes) (q : T) : Prop where
  state : q.state = .amConnected
  offset : q.offset = w.length
  ready : q.ready = []
  readyBytes : q.readyBytes = 0
  queue : q.queue = []
  bufferSize : q.bufferSize = noBuffer
  window : q.window = minimumWindow
  barrier : q.barrier = w.length + minimumWindow
  delivered : delivered q.log = w

theorem Idle.take {w : Bytes} {q : T} (h : Idle w q) {d : Bytes} (h0 : d ≠ []) (hd : d.length < 4096) (cb : Nat) :
    let r := recvDATA q false (word32 w.length) d []
    r.2 = true ∧ Idle (w ++ d) (exec r.1 (.read (-1) cb)) := by
  have hlen : 0 < d.length := List.length_pos_iff.mpr h0
  have hc : classify q (word32 w.length) d = .feed d := by
    have hdelta : word32 (q.offset - word32 w.length) = 0 := by rw [h.offset]; unfold word32; omega
    have hb : Key.lt q.barrier (word32 w.length + d.length) = false := by
      rw [h.barrier, Key.lt_def, decide_eq_false_iff_not]; unfold word32 minimumWindow; omega
    simp only [classify, hb, hdelta, Bool.false_eq_true, if_false]
    rw [if_neg (by omega), if_pos (by decide), if_neg (by omega)]
    rfl
  have hmax : Key.max q.barrier (w.length + minimumWindow) = w.length + minimumWindow := by
    rw [h.barrier]; rcases Key.max_cases (w.length + minimumWindow) (w.length + minimumWindow) with e | e <;> exact e
  have hmax' : Key.max (w.length + minimumWindow) (w.length + d.length + minimumWindow) =
      w.length + d.length + minimumWindow := by
    rw [Key.max_eq (by omega) (by omega)]; omega
  have hf : feeds q (word32 w.length) d = false := by simp [feeds, hc, h.bufferSize]
  have hq : recvDATA q false (word32 w.length) d [] = (transferQueue q (some d) 0 none, true) := by
    simp only [recvDATA, recvData, hc, hf, feedReader, h.bufferSize, if_true, if_false, Bool.false_eq_true]
  have hlive : isReset q = false := by simp [isReset, h.state]
  rw [hq]
  refine ⟨rfl, ?_⟩
  obtain ⟨l, hl, e⟩ := transferQueue_cases hlive (some d) 0 none
  have hp : process q.queue.length (q.offset + 0 + ((some d).getD []).length) 0 (q.ready ++ (some d).toList) q.queue =
      ((w.length + d.length : Int), (0 : Int), [d], ([] : List Seg)) := by
    rw [h.queue, h.ready, h.offset, Int.add_zero]; rfl
  rw [hp] at e
  replace e : transferQueue q (some d) 0 none = (q.transferred 0 (w.length + d.length, 0, [d], [])).ran l :=
    e.trans (T.ran_nil _)
  generalize hq1 : transferQueue q (some d) 0 none = q1 at e
  have hbar : q1.barrier = w.length + minimumWindow := by
    rw [e, T.ran_barrier]
    simp only [T.transferred]
    rw [h.readyBytes, h.offset, h.window, show (w.length + d.length : Int) - (0 + (w.length + d.length -
      (w.length + 0))) = w.length by omega]
    exact hmax
  have hread : exec q1 (.read (-1) cb) =
      runReader (finishRead q1 [] noBuffer none d.length) (some cb) (.data d) := by
    have h1 : q1.ready = [d] := by rw [e]; rfl
    have h2 : isReset q1 = false := by rw [e]; exact hlive
    have h3 : q1.bufferSize = noBuffer := by rw [e]; rfl
    simp [exec, read, h1, h2, h3]
  obtain ⟨l', hl', e'⟩ := finishRead_cases q1 [] noBuffer none d.length
  rw [hread, e', runReader_eq]
  have hrb : q1.readyBytes = d.length := by
    rw [e]
    show q.readyBytes + (w.length + d.length - (q.offset + 0)) = _
    rw [h.readyBytes, h.offset]; omega
  refine ⟨?_, ?_, rfl, ?_, ?_, rfl, ?_, ?_, ?_⟩
  · rw [← h.state]; show q1.state = q.state; rw [e]; rfl
  · show q1.offset = _
    rw [e, List.length_append]; rfl
  · show q1.readyBytes - d.length = 0
    omega
  · show q1.queue = []
    rw [e]; rfl
  · rw [← h.window]; show q1.window = q.window; rw [e]; rfl
  · show Key.max q1.barrier (q1.offset - (q1.readyBytes - d.length) + q1.window) = _
    have ho : q1.offset = w.length + d.length := by rw [e]; rfl
    have hw : q1.window = minimumWindow := by rw [e]; exact h.window
    rw [hbar, ho, hrb, hw, List.length_append, Int.sub_self, Int.sub_zero]
    exact hmax'
  · have hlog : InStreamQueue.delivered q1.log = w := by
      rw [e]
      show InStreamQueue.delivered (q.log ++ l) = w
      rw [delivered_append, hl.delivered, h.delivered, List.append_nil]
    show InStreamQueue.delivered ((q1.log ++ l') ++ [.reader cb (.data d)]) = w ++ d
    rw [delivered_append, delivered_append, hlog, hl'.delivered, delivered_data, List.append_nil]

end BubbleStorm.Cusp.Stream.InStreamQueue

namespace BubbleStorm.Cusp.Stream.Pair

open OutStreamQueue (written Word8Vector)
open InStreamQueue (delivered)

/-- `w` was sent, received, handed out and acknowledged, save for the first copy, whose
    acknowledgement has not run. -/
structure Waits (stale : OutStreamQueue.Seg) (w : Bytes) (s : St) : Prop where
  reach : Reach Untimely s
  snd : OutStreamQueue.Idle stale w s.snd
  rcv : InStreamQueue.Idle w s.rcv
  first : ∃ c, s.copies[0]? = some c ∧ c.pending = true ∧ c.pulled.ack = .data [stale] false

theorem getElem?_snoc {α : Type} (l : List α) (x : α) : (l ++ [x])[l.length]? = some x := by simp

theorem set_snoc {α : Type} (l : List α) (x y : α) : (l ++ [x]).set l.length y = l ++ [y] := by simp

theorem Reach.next {P : St → Ev → Prop} {s s' : St} (h : Reach P s) (e : Ev) (he : P s e)
    (hs : Pair.step s e = s') : Reach P s' := hs ▸ .step e h he

theorem Waits.send {stale : OutStreamQueue.Seg} {w : Bytes} {s : St} (h : Waits stale w s) (d : Word8Vector)
    (h0 : d.val ≠ []) (hd : d.val.length < 8) : ∃ s', Waits stale (w ++ d.val) s' := by
  obtain ⟨snd, rcv, copies, updates⟩ := s
  have hidle : OutStreamQueue.Idle stale w snd := h.snd
  have hlen : d.val.length < OutStreamQueue.pullLimit (OutStreamQueue.exec snd (.write d 0)) 16 := by
    have : OutStreamQueue.headerLen (OutStreamQueue.pullOffset (OutStreamQueue.exec snd (.write d 0))) ≤ 8 := by
      unfold OutStreamQueue.headerLen; split <;> omega
    unfold OutStreamQueue.pullLimit
    omega
  have hoff : OutStreamQueue.pullOffset (OutStreamQueue.exec snd (.write d 0)) = w.length := by
    simp only [OutStreamQueue.pullOffset, (hidle.write d 0).2.1, List.head?_cons]
  have hsend := hidle.send 0 streamId hlen
  generalize hq : OutStreamQueue.exec snd (.write d 0) = q at hsend hoff
  generalize hr : OutStreamQueue.pull q streamId 16 [] = r at hsend
  obtain ⟨pulled, q'⟩ := r
  obtain ⟨hpulled, hsnd⟩ := hsend
  obtain ⟨c, hc, hpend, hack⟩ := h.first
  replace hc : copies[0]? = some c := hc
  have hpay : OutStreamQueue.payload [⟨snd.fresh, w.length, d.val⟩] = d.val := by simp [OutStreamQueue.payload]
  have hdel := deliver_eq (s := ⟨q', rcv, copies ++ [⟨pulled, w.length, true, false⟩], updates⟩)
    (c := ⟨pulled, w.length, true, false⟩) (show streamId < 2 ^ 16 by decide) (by rw [hpay]; omega) hpulled []
  obtain ⟨htake, hrcv⟩ := h.rcv.take h0 (by omega) 0
  rw [hpay] at hdel
  change (InStreamQueue.recvDATA rcv false _ _ _).2 = true at htake
  change InStreamQueue.Idle _ (InStreamQueue.exec (InStreamQueue.recvDATA rcv false _ _ _).1 _) at hrcv
  generalize InStreamQueue.recvDATA rcv false (word32 w.length) d.val [] = v at hdel htake hrcv
  have h1 : Reach Untimely ⟨q, rcv, copies, updates⟩ :=
    h.reach.next (.write (.write d 0)) ⟨OutStreamQueue.Op.noConfusion, trivial⟩ (by simp only [step, hq])
  have h2 : Reach Untimely ⟨q', rcv, copies ++ [⟨pulled, w.length, true, false⟩], updates⟩ :=
    h1.next (.pull 16 []) ⟨⟨by decide, by decide, fun _ h => by cases h⟩, trivial⟩ (by simp only [step, hr, hoff])
  have h3 : Reach Untimely ⟨q', v.1, copies ++ [⟨pulled, w.length, true, true⟩], updates⟩ := by
    refine h2.next (.deliver copies.length []) ⟨fun h => (by cases h), fun c hc => ?_⟩ ?_
    · rw [getElem?_snoc] at hc
      cases hc
      have : rcv.offset = w.length := h.rcv.offset
      show (w.length : Int) ≤ rcv.offset + 2 ^ 31 ∧ rcv.offset < w.length + 2 ^ 31
      omega
    · simp only [step, getElem?_snoc, hdel, set_snoc, htake, Bool.false_or]
  have h4 : Reach Untimely ⟨q', InStreamQueue.exec v.1 (.read (-1) 0), copies ++ [⟨pulled, w.length, true, true⟩], updates⟩ :=
    h3.next (.read (.read (-1) 0)) ⟨InStreamQueue.Op.noConfusion, trivial⟩ rfl
  have h5 : Reach Untimely ⟨OutStreamQueue.ack q' pulled.ack true, InStreamQueue.exec v.1 (.read (-1) 0),
      copies ++ [⟨pulled, w.length, false, true⟩], updates⟩ := by
    refine h4.next (.ack copies.length true) ⟨fun c hc _ => ?_, trivial⟩ ?_
    · rw [getElem?_snoc] at hc
      cases hc
      rfl
    · simp only [step, getElem?_snoc, set_snoc, if_true]
  refine ⟨_, h5, ?_, hrcv, c, ?_, hpend, hack⟩
  · rw [show pulled.ack = _ from congrArg (·.ack) hpulled]; exact hsnd
  · have hne : copies ≠ [] := by rintro rfl; cases hc
    show (copies ++ _)[0]? = _
    rw [List.getElem?_append_left (List.length_pos_iff.mpr hne)]; exact hc

theorem Waits.send_many {stale : OutStreamQueue.Seg} {w : Bytes} {s : St} (h : Waits stale w s) (n : Nat) :
    ∃ s', Waits stale (w ++ List.replicate (2 * n) 0) s' := by
  induction n with
  | zero => exact ⟨s, by simpa using h⟩
  | succ n ih =>
    obtain ⟨s', h'⟩ := ih
    obtain ⟨s'', h''⟩ := h'.send ⟨[0, 0], by decide⟩ (by simp) (by decide)
    refine ⟨s'', ?_⟩
    rw [show 2 * (n + 1) = 2 * n + 2 from rfl, ← List.replicate_append_replicate, ← List.append_assoc]
    exact h''

/-- The first copy is reported lost once the words wrap: its record goes out behind the
    last one. -/
theorem Waits.merge {stale : OutStreamQueue.Seg} {w : Bytes} {s : St} (h : Waits stale w s) (h0 : stale.offset = 0)
    (hs : stale.data ≠ []) (hs' : stale.data.length < 4) (hw : w.length + 1 = 2 ^ 32) :
    ∃ s', Reach Untimely s' ∧ ¬ delivered s'.rcv.log <+: written s'.snd.log := by
  obtain ⟨snd, rcv, copies, updates⟩ := s
  have hidle : OutStreamQueue.Idle stale w snd := h.snd
  let d : Word8Vector := ⟨[5], by decide⟩
  obtain ⟨hoff, hpulled, hwr⟩ := hidle.merge (d := d) 0 streamId 16 h0
    (show (w.length : Int) + 1 = 2 ^ 32 by omega) (show 0 < 1 by decide) (show 1 + stale.data.length + 8 < 16 by omega)
    (by decide)
  generalize hq : OutStreamQueue.exec snd (.write d 0) = q at hoff hpulled hwr
  generalize hq2 : OutStreamQueue.ack q (.data [stale] false) false = q2 at hoff hpulled hwr
  generalize hr : OutStreamQueue.pull q2 streamId 16 [] = r at hpulled hwr
  obtain ⟨pulled, q3⟩ := r
  obtain ⟨c, hc, hpend, hack⟩ := h.first
  replace hc : copies[0]? = some c := hc
  have hpay : OutStreamQueue.payload [⟨snd.fresh, w.length, d.val⟩, stale] = 5 :: stale.data := by
    simp [OutStreamQueue.payload, d]
  generalize hcs : copies.set 0 { c with pending := false } = copies'
  have hdel := deliver_eq (s := ⟨q3, rcv, copies' ++ [⟨pulled, w.length, true, false⟩], updates⟩)
    (c := ⟨pulled, w.length, true, false⟩) (show streamId < 2 ^ 16 by decide)
    (by rw [hpay, List.length_cons]; omega) hpulled []
  obtain ⟨htake, hrcv⟩ := h.rcv.take (d := 5 :: stale.data) (by simp) (by rw [List.length_cons]; omega) 0
  rw [hpay] at hdel
  change (InStreamQueue.recvDATA rcv false _ _ _).2 = true at htake
  change InStreamQueue.Idle _ (InStreamQueue.exec (InStreamQueue.recvDATA rcv false _ _ _).1 _) at hrcv
  generalize InStreamQueue.recvDATA rcv false (word32 w.length) (5 :: stale.data) [] = v at hdel htake hrcv
  have h1 : Reach Untimely ⟨q, rcv, copies, updates⟩ :=
    h.reach.next (.write (.write d 0)) ⟨OutStreamQueue.Op.noConfusion, trivial⟩ (by simp only [step, hq])
  have h2 : Reach Untimely ⟨q2, rcv, copies', updates⟩ :=
    h1.next (.ack 0 false) ⟨fun c _ hok => Bool.noConfusion hok, trivial⟩
      (by simp only [step, hc, hpend, hack, hq2, hcs, if_true])
  have h3 : Reach Untimely ⟨q3, rcv, copies' ++ [⟨pulled, w.length, true, false⟩], updates⟩ :=
    h2.next (.pull 16 []) ⟨⟨by decide, by decide, fun _ h => by cases h⟩, trivial⟩ (by simp only [step, hr, hoff])
  have h4 : Reach Untimely ⟨q3, v.1, copies' ++ [⟨pulled, w.length, true, true⟩], updates⟩ := by
    refine h3.next (.deliver copies'.length []) ⟨fun h => (by cases h), fun c hc => ?_⟩ ?_
    · rw [getElem?_snoc] at hc
      cases hc
      have : rcv.offset = w.length := h.rcv.offset
      show (w.length : Int) ≤ rcv.offset + 2 ^ 31 ∧ rcv.offset < w.length + 2 ^ 31
      omega
    · simp only [step, getElem?_snoc, hdel, set_snoc, htake, Bool.false_or]
  refine ⟨_, h4.next (.read (.read (-1) 0)) ⟨InStreamQueue.Op.noConfusion, trivial⟩ rfl, fun hpre => ?_⟩
  replace hpre : delivered (InStreamQueue.exec v.1 (.read (-1) 0)).log <+: written q3.log := hpre
  rw [hrcv.delivered, hwr] at hpre
  have hlen := hpre.length_le
  have := List.length_pos_iff.mpr hs
  simp only [List.length_append, List.length_cons] at hlen
  change w.length + (stale.data.length + 1) ≤ w.length + 1 at hlen
  omega

theorem waits_first : ∃ s, Waits ⟨0, 0, [170]⟩ [170] s := by
  have hreach : Reach Untimely (run start [.write (.write ⟨[170], by decide⟩ 0), .pull 16 [], .deliver 0 [],
      .read (.read (-1) 0)]) := Reach.start.run (by decide)
  exact ⟨_, hreach, ⟨by decide, by decide, by decide, by decide, by decide, by decide, by decide⟩,
    ⟨by decide, by decide, by decide, by decide, by decide, by decide, by decide, by decide, by decide⟩,
    _, rfl, by decide, by decide⟩

/-- With no bound on how late a loss is reported, the readers are handed bytes that were
    never written. -/
theorem late_loss : ∃ s, Reach Untimely s ∧ ¬ delivered s.rcv.log <+: written s.snd.log := by
  obtain ⟨s, hs⟩ := waits_first
  obtain ⟨n, hn⟩ : ∃ n, 2 * n + 2 = 2 ^ 32 := ⟨2 ^ 31 - 1, by decide⟩
  obtain ⟨s', hs'⟩ := hs.send_many n
  refine hs'.merge rfl (by simp) (by simp) ?_
  rw [List.length_append, List.length_replicate, List.length_singleton]
  omega

end BubbleStorm.Cusp.Stream.Pair
