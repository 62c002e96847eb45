/-
  BubbleStorm.Cusp.Stream.HostIds — the ids of out-streams, and the branches that are
  declared impossible.

  The free list and the sixteen lists of ids that cool down are threaded through
  `outStreams` (`Lists`); what is in none of them is allocated. `Sane` adds to it that
  an out-stream owns the entry of its id and that in-streams are `Calm`.
-/

import BubbleStorm.Lib.Chain
import BubbleStorm.Cusp.Stream.HostSound
import BubbleStorm.Cusp.Stream.HostCalm

namespace BubbleStorm.Cusp.Stream.HostDispatch

open BubbleStorm.Lib (Chain)
open Function (update update_of_ne update_self)

/-! ## Lists of ids -/

def nextOf (f : Nat → Alloc) (id : Nat) : Option Nat :=
  match f id with
  | .free next => some next
  | .alloc _ => none

theorem nextOf_self (f : Nat → Alloc) (id tail : Nat) : nextOf (update f id (.free tail)) id = some tail := by
  unfold nextOf
  rw [update_self]

theorem nextOf_ne {x id : Nat} (h : x ≠ id) (f : Nat → Alloc) (a : Alloc) : nextOf (update f id a) x = nextOf f x := by
  unfold nextOf
  rw [update_of_ne h]

theorem nextOf_some {f : Nat → Alloc} {id next : Nat} (h : nextOf f id = some next) : f id = .free next := by
  unfold nextOf at h
  cases hf : f id with
  | free y =>
    rw [hf] at h
    cases h
    rfl
  | alloc y =>
    rw [hf] at h
    cases h

/-- Where a list begins: the free list is the first, then those that cool down. -/
def head (t : T) : Nat → Nat
  | 0 => t.writeFree
  | k + 1 => t.cooldowns k

structure Lists (t : T) (L : Nat → List Nat) : Prop where
  chain : ∀ k, Chain nill (nextOf t.outStreams) (head t k) (L k)
  once : ∀ k, (L k).Nodup
  apart : ∀ j k x, x ∈ L j → x ∈ L k → j = k
  small : ∀ k, ∀ x ∈ L k, x < t.len

variable {t t' : T} {L : Nat → List Nat} {r id B : Nat}

theorem Lists.congr (h : Lists t L) (ho : t'.outStreams = t.outStreams) (hw : t'.writeFree = t.writeFree)
    (hc : t'.cooldowns = t.cooldowns) (hl : t'.len = t.len) : Lists t' L where
  chain k := by
    have hh : head t' k = head t k := by
      cases k with
      | zero => exact hw
      | succ k => exact congrFun hc k
    rw [ho, hh]
    exact h.chain k
  once := h.once
  apart := h.apart
  small k x hx := hl ▸ h.small k x hx

theorem lists_new (global : Nat → Bool) : Lists (new global) (update (fun _ => []) 0 [0]) where
  chain k := by
    cases k with
    | zero => exact ⟨rfl, by decide, nill, rfl, rfl⟩
    | succ k => exact rfl
  once k := by
    cases k with
    | zero => exact List.nodup_cons.mpr ⟨fun h => (by cases h), List.nodup_nil⟩
    | succ k => exact List.nodup_nil
  apart j k x hj hk := by
    cases j with
    | zero =>
      cases k with
      | zero => rfl
      | succ k => cases hk
    | succ j => cases hj
  small k x hx := by
    cases k with
    | zero =>
      cases hx with
      | head => exact Nat.one_pos
      | tail _ hx => cases hx
    | succ k => cases hx

/-- An id that is allocated is in no list. -/
theorem Lists.allocated (h : Lists t L) (ha : t.outStreams id = .alloc r) (k : Nat) : id ∉ L k := by
  intro hx
  obtain ⟨-, y, hy⟩ := (h.chain k).entry hx
  unfold nextOf at hy
  rw [ha] at hy
  cases hy

/-- An entry that is in no list is written. -/
theorem Lists.write (h : Lists t L) (hid : ∀ k, id ∉ L k) (a : Alloc) :
    Lists { t with outStreams := update t.outStreams id a } L where
  chain k := (h.chain k).congr fun x hx => by
    have hne : x ≠ id := fun heq => hid k (heq ▸ hx)
    exact nextOf_ne hne ..
  once := h.once
  apart := h.apart
  small := h.small

/-- An id that is allocated begins to cool down. -/
theorem Lists.cool (h : Lists t L) (ha : t.outStreams id = .alloc r) (hid : id < t.len) (hn : id ≠ nill) :
    Lists { t with outStreams := update t.outStreams id (.free (t.cooldowns t.cooldownIndex)),
                   cooldowns := update t.cooldowns t.cooldownIndex id }
      (update L (t.cooldownIndex + 1) (id :: L (t.cooldownIndex + 1))) := by
  have hw := h.write (h.allocated ha) (.free (t.cooldowns t.cooldownIndex))
  refine ⟨fun k => ?_, fun k => ?_, fun j k x hj hk => ?_, fun k x hx => ?_⟩
  · by_cases hk : k = t.cooldownIndex + 1
    · subst hk
      rw [update_self]
      exact ⟨update_self .., hn, t.cooldowns t.cooldownIndex, nextOf_self .., hw.chain (t.cooldownIndex + 1)⟩
    · rw [update_of_ne hk]
      cases k with
      | zero => exact hw.chain 0
      | succ k =>
        have hne : k ≠ t.cooldownIndex := fun heq => hk (congrArg Nat.succ heq)
        have hc := hw.chain (k + 1)
        show Chain nill _ (update t.cooldowns t.cooldownIndex id k) _
        rw [update_of_ne hne]
        exact hc
  · by_cases hk : k = t.cooldownIndex + 1
    · subst hk
      rw [update_self]
      exact List.nodup_cons.mpr ⟨h.allocated ha _, h.once _⟩
    · rw [update_of_ne hk]
      exact h.once k
  · have old : ∀ k, x ∈ update L (t.cooldownIndex + 1) (id :: L (t.cooldownIndex + 1)) k →
        x = id ∧ k = t.cooldownIndex + 1 ∨ x ∈ L k := by
      intro k hk
      by_cases hki : k = t.cooldownIndex + 1
      · subst hki
        rw [update_self] at hk
        rcases List.mem_cons.mp hk with hx | hx
        · exact .inl ⟨hx, rfl⟩
        · exact .inr hx
      · rw [update_of_ne hki] at hk
        exact .inr hk
    rcases old j hj with ⟨rfl, rfl⟩ | hj1
    · rcases old k hk with ⟨-, rfl⟩ | hk1
      · rfl
      · exact absurd hk1 (h.allocated ha k)
    · rcases old k hk with ⟨rfl, rfl⟩ | hk1
      · exact absurd hj1 (h.allocated ha j)
      · exact h.apart j k x hj1 hk1
  · by_cases hk : k = t.cooldownIndex + 1
    · subst hk
      rw [update_self] at hx
      rcases List.mem_cons.mp hx with rfl | hx
      · exact hid
      · exact h.small _ x hx
    · rw [update_of_ne hk] at hx
      exact h.small k x hx

/-- A list is moved to the front of another. -/
theorem drain_chain {fuel : Nat} {tail : Nat} {l m : List Nat} (hl : Chain nill (nextOf t.outStreams) id l)
    (hm : Chain nill (nextOf t.outStreams) tail m) (hd : (l ++ m).Nodup) (hsmall : ∀ x ∈ l, x < t.len) (hf : l.length ≤ fuel) :
    ∃ f new, drain fuel t id tail = .ok ({ t with outStreams := f }, new) ∧ Chain nill (nextOf f) new (l.reverse ++ m) ∧
      ∀ x ∉ l, f x = t.outStreams x := by
  induction l generalizing t id tail m fuel with
  | nil =>
    cases hl
    refine ⟨t.outStreams, tail, ?_, hm, fun _ _ => rfl⟩
    cases fuel with
    | zero => exact if_pos rfl
    | succ fuel => exact if_pos rfl
  | cons x l ih =>
    obtain ⟨rfl, hne, next, hnext, hl⟩ := hl
    cases fuel with
    | zero => exact absurd hf (Nat.not_succ_le_zero _)
    | succ fuel =>
      obtain ⟨hx, hd'⟩ := List.nodup_cons.mp hd
      have hfree : t.outStreams id = .free next := nextOf_some hnext
      have hl1 : Chain nill (nextOf (update t.outStreams id (.free tail))) next l :=
        hl.congr fun y hy => nextOf_ne (fun heq => hx (by rw [← heq]; exact List.mem_append_left _ hy)) ..
      have hm1 : Chain nill (nextOf (update t.outStreams id (.free tail))) id (id :: m) := by
        refine ⟨rfl, hne, tail, nextOf_self .., hm.congr fun y hy => nextOf_ne (fun heq => hx ?_) ..⟩
        rw [← heq]
        exact List.mem_append_right _ hy
      have hd1 : (l ++ id :: m).Nodup := by
        have hperm : (id :: (l ++ m)).Perm (l ++ id :: m) := List.perm_middle.symm
        exact hperm.nodup_iff.mp hd
      obtain ⟨f, new, hdrain, hchain, hsame⟩ := ih (t := { t with outStreams := update t.outStreams id (.free tail) }) hl1 hm1 hd1
        (fun y hy => hsmall y (.tail _ hy)) (Nat.le_of_succ_le_succ hf)
      refine ⟨f, new, ?_, ?_, fun y hy => ?_⟩
      · unfold drain
        rw [if_neg hne, if_neg (Nat.not_le.mpr (hsmall id (.head _)))]
        rw [hfree]
        exact hdrain
      · rw [List.reverse_cons, List.append_assoc]
        exact hchain
      · have hne : y ≠ id := fun heq => hy (by rw [heq]; exact .head _)
        rw [hsame y fun hmem => hy (.tail _ hmem)]
        exact update_of_ne hne ..

/-! ## The host -/

/-- A record is as the log of its queue has it. -/
def Hears (record heard : Record) : Prop :=
  record.id = heard.id ∧ record.inHeap = heard.inHeap ∧ record.priority = heard.priority

theorem hears_foldl {record heard : Record} (h : Hears record heard) (l : List InStreamQueue.Out) :
    Hears (l.foldl Record.hearIn record) (l.foldl Record.hearIn heard) := by
  induction l generalizing record heard with
  | nil => exact h
  | cons o l ih =>
    apply ih
    obtain ⟨hid, hin, hprio⟩ := h
    unfold Record.hearIn
    split
    · unfold Record.hearRTS
      rw [hin]
      split
      · exact ⟨hid, rfl, rfl⟩
      · exact ⟨hid, hin, hprio⟩
    · exact ⟨rfl, hin, hprio⟩
    · exact ⟨rfl, rfl, hprio⟩
    · exact ⟨hid, hin, hprio⟩

/-- The lists and the records of out-streams have the ids of the tables between them,
    as long as the tables have not grown to the whole id space. `B` bounds the tables. -/
structure Table (B : Nat) (t : T) (L : Nat → List Nat) : Prop where
  lists : Lists t L
  room : 0 < t.len ∧ t.len ≤ B ∧ B ≤ 2 ^ 16
  index : t.cooldownIndex < 16
  owns : ∀ r q, (t.records r).stream = .outStream q → (t.records r).id ≠ nill → t.outStreams (t.records r).id = .alloc r
  live : ∀ id r, t.outStreams id = .alloc r → id ≠ nill ∧ (t.records r).id = id ∧ (t.records r).inHeap = true
  covers : t.len < 2 ^ 16 → ∀ id < t.len, (∃ k ≤ 16, id ∈ L k) ∨ ∃ r, t.outStreams id = .alloc r

/-- The stream of an id is complete: the id cools down. -/
theorem Table.release (h : Table B t L) (ha : t.outStreams id = .alloc r) (hlt : id < t.len) (hself : (t'.records r).id = nill)
    (hother : ∀ r', r' ≠ r → t'.records r' = t.records r')
    (ho : t'.outStreams = update t.outStreams id (.free (t.cooldowns t.cooldownIndex)))
    (hc : t'.cooldowns = update t.cooldowns t.cooldownIndex id) (hw : t'.writeFree = t.writeFree) (hl : t'.len = t.len)
    (hx : t'.cooldownIndex = t.cooldownIndex) :
    Table B t' (update L (t.cooldownIndex + 1) (id :: L (t.cooldownIndex + 1))) where
  lists := (h.lists.cool ha hlt (h.live id r ha).1).congr ho hw hc hl
  room := hl ▸ h.room
  index := hx ▸ h.index
  owns r' x hq hid := by
    have hr : r' ≠ r := by
      intro same
      subst same
      exact hid hself
    rw [hother r' hr] at hq hid ⊢
    have howns := h.owns r' x hq hid
    have hne : (t.records r').id ≠ id := by
      intro heq
      rw [heq, ha] at howns
      cases howns
      exact hr rfl
    rw [ho, update_of_ne hne]
    exact howns
  live id' r' ha' := by
    rw [ho] at ha'
    by_cases hid : id' = id
    · subst hid
      rw [update_self] at ha'
      cases ha'
    · rw [update_of_ne hid] at ha'
      have hlive := h.live id' r' ha'
      have hr : r' ≠ r := by
        intro same
        subst same
        exact hid (hlive.2.1.symm.trans (h.live id r' ha).2.1)
      rw [hother r' hr]
      exact hlive
  covers hsmall id' hid' := by
    rw [hl] at hsmall hid'
    by_cases hid : id' = id
    · subst hid
      refine .inl ⟨t.cooldownIndex + 1, h.index, ?_⟩
      rw [update_self]
      exact .head _
    · rcases h.covers hsmall id' hid' with ⟨k, hk, hmem⟩ | ⟨r', ha'⟩
      · refine .inl ⟨k, hk, ?_⟩
        by_cases heq : k = t.cooldownIndex + 1
        · subst heq
          rw [update_self]
          exact .tail _ hmem
        · rwa [update_of_ne heq]
      · refine .inr ⟨r', ?_⟩
        rwa [ho, update_of_ne hid]

/-- A stream keeps its id, and has its record in the heap as before. -/
theorem Table.keep (h : Table B t L) (hid : (t'.records r).id = (t.records r).id) (hin : (t.records r).id ≠ nill →
    (t'.records r).inHeap = (t.records r).inHeap) (hkind : ∀ x, (t'.records r).stream = .outStream x →
    ∃ y, (t.records r).stream = .outStream y) (hother : ∀ r', r' ≠ r → t'.records r' = t.records r')
    (ho : t'.outStreams = t.outStreams) (hc : t'.cooldowns = t.cooldowns) (hw : t'.writeFree = t.writeFree)
    (hl : t'.len = t.len) (hx : t'.cooldownIndex = t.cooldownIndex) : Table B t' L where
  lists := h.lists.congr ho hw hc hl
  room := hl ▸ h.room
  index := hx ▸ h.index
  owns r' x hq hne := by
    rw [ho]
    by_cases hr : r' = r
    · subst hr
      obtain ⟨y, hy⟩ := hkind x hq
      rw [hid] at hne ⊢
      exact h.owns r' y hy hne
    · rw [hother r' hr] at hq hne ⊢
      exact h.owns r' x hq hne
  live id' r' ha := by
    rw [ho] at ha
    obtain ⟨hne, heq, hheap⟩ := h.live id' r' ha
    by_cases hr : r' = r
    · subst hr
      exact ⟨hne, hid.trans heq, (hin (heq.symm ▸ hne)).trans hheap⟩
    · rw [hother r' hr]
      exact ⟨hne, heq, hheap⟩
  covers hsmall id' hid' := by
    rw [hl] at hsmall hid'
    rw [ho]
    exact h.covers hsmall id' hid'

/-- What is known of the records. `down` are the in-streams that were pulled as RESET. -/
structure Records (t : T) (down : Nat → Bool) : Prop extends Sound t where
  streams : ∀ r < t.created, (t.records r).stream ≠ .noStream
  calm : ∀ r q, (t.records r).stream = .inStream q → (t.records r).inHeap = true →
    ∃ i, i ≠ nill ∧ Calm i (down r) q.log q ∧ Hears (t.records r) (mood i q)
  unborn : ∀ r, t.created ≤ r → down r = false

structure Sane (B : Nat) (t : T) (L : Nat → List Nat) (down : Nat → Bool) : Prop extends Records t down, Table B t L

variable {down : Nat → Bool}

theorem heardIn_records (t : T) (r : Nat) (l : List InStreamQueue.Out) :
    (t.heardIn r l).records = update t.records r (l.foldl Record.hearIn (t.records r)) := by
  unfold T.heardIn
  dsimp only
  split
  · rfl
  · rfl

theorem heardIn_frame (t : T) (r : Nat) (l : List InStreamQueue.Out) :
    (t.heardIn r l).outStreams = t.outStreams ∧ (t.heardIn r l).writeFree = t.writeFree ∧
      (t.heardIn r l).cooldowns = t.cooldowns ∧ (t.heardIn r l).len = t.len ∧ (t.heardIn r l).created = t.created ∧
      (t.heardIn r l).cooldownIndex = t.cooldownIndex := by
  unfold T.heardIn
  dsimp only
  split
  · exact ⟨rfl, rfl, rfl, rfl, rfl, rfl⟩
  · exact ⟨rfl, rfl, rfl, rfl, rfl, rfl⟩

theorem heardOut_records (t : T) (r : Nat) (l : List OutStreamQueue.Out) :
    (t.heardOut r l).records = update t.records r (l.foldl Record.hearOut (t.records r)) := by
  unfold T.heardOut
  dsimp only
  split
  · rfl
  · rfl

theorem Calm.rebase {i : Nat} {d : Bool} {base : List InStreamQueue.Out} {q : InStreamQueue.T} (h : Calm i d base q) :
    Calm i d q.log q := ⟨h.settled, h.reset, List.prefix_refl _⟩

/-- One record changes, and it stays as it has to be. -/
theorem Records.alter (h : Records t down) (hless : Less t t')
    (hother : ∀ r', r' ≠ r → t'.records r' = t.records r') (hstream : r < t.created → (t'.records r).stream ≠ .noStream)
    (hcalm : ∀ q, (t'.records r).stream = .inStream q → (t'.records r).inHeap = true →
      ∃ i, i ≠ nill ∧ Calm i (down r) q.log q ∧ Hears (t'.records r) (mood i q)) : Records t' down where
  toSound := hless.sound h.toSound
  streams r' hr' := by
    by_cases hr : r' = r
    · subst hr
      exact hstream (hless.created ▸ hr')
    · rw [hother r' hr]
      exact h.streams r' (hless.created ▸ hr')
  calm r' q hq hin := by
    by_cases hr : r' = r
    · subst hr
      exact hcalm q hq hin
    · rw [hother r' hr] at hq hin ⊢
      exact h.calm r' q hq hin
  unborn r' hr' := h.unborn r' (hless.created ▸ hr')

/-- An in-stream's queue is called. -/
theorem Records.ranIn (h : Records t down) {q q' : InStreamQueue.T} (hq : (t.records r).stream = .inStream q)
    (hcalm : ∀ i, Calm i (down r) q.log q → Calm i (down r) q.log q') :
    ∃ t', ranIn t r q q' = .ok t' ∧ Records t' down ∧ (t'.records r).stream = .inStream q' ∧ Less t t' ∧
      (∀ B L, Table B t L → Table B t' L) := by
  obtain ⟨t', ht', hless⟩ := h.toSound.ranIn hq q'
  have heq := (ranIn_eq (h.placed r) q q').symm.trans ht'
  cases heq
  obtain ⟨ho, hw, hc, hl, hcr, hix⟩ := heardIn_frame (t.setIn r q') r (q'.log.drop q.log.length)
  have hrec := heardIn_records (t.setIn r q') r (q'.log.drop q.log.length)
  have hrec0 : (t.setIn r q').records r = { t.records r with stream := .inStream q' } := update_self ..
  have hself : (((t.setIn r q').heardIn r (q'.log.drop q.log.length)).records r).stream = .inStream q' := by
    rw [hrec, update_self, hearIn_stream, hrec0]
  have hother : ∀ r', r' ≠ r → ((t.setIn r q').heardIn r (q'.log.drop q.log.length)).records r' = t.records r' := by
    intro r' hne
    rw [hrec, update_of_ne hne]
    exact update_of_ne hne ..
  refine ⟨_, ht', h.alter hless hother ?_ ?_, hself, hless, fun B L htable => ?_⟩
  · intro _
    rw [hself]
    exact Stream.noConfusion
  · intro x hx hin
    rw [hself] at hx
    cases hx
    rw [hrec, update_self, hrec0] at hin ⊢
    have hin0 : (t.records r).inHeap = true := by
      rcases hearIn_heap { t.records r with stream := .inStream q' } (q'.log.drop q.log.length) with hsame | ⟨-, hout⟩
      · exact hsame.symm.trans hin
      · exact absurd (hout.symm.trans hin) Bool.false_ne_true
    obtain ⟨i, hi, hci, hhears⟩ := h.calm r q hq hin0
    have hci' := hcalm i hci
    refine ⟨i, hi, hci'.rebase, ?_⟩
    have hmood : mood i q' = (q'.log.drop q.log.length).foldl Record.hearIn (mood i q) := by
      obtain ⟨rest, hrest⟩ := hci'.grew
      unfold mood
      rw [← hrest, List.drop_left, List.foldl_append]
    rw [hmood]
    have hhears' : Hears { t.records r with stream := .inStream q' } (mood i q) := hhears
    exact hears_foldl hhears' _
  · -- the ids are those of out-streams
    have hne : ∀ id r', t.outStreams id = .alloc r' → r' ≠ r := by
      intro id r' ha same
      subst same
      obtain ⟨-, x, hx⟩ := h.outs id r' ha
      rw [hq] at hx
      cases hx
    refine ⟨htable.lists.congr ho hw hc hl, hl ▸ htable.room, hix ▸ htable.index, fun r' x hx hid => ?_, fun id r' ha => ?_,
      fun hlt id hid => ?_⟩
    · by_cases hr : r' = r
      · subst hr
        rw [hself] at hx
        cases hx
      · rw [hother r' hr] at hx hid ⊢
        rw [ho]
        exact htable.owns r' x hx hid
    · rw [ho] at ha
      rw [hother r' (hne id r' ha)]
      exact htable.live id r' ha
    · rw [hl] at hlt hid
      rw [ho]
      exact htable.covers hlt id hid

/-- An out-stream's queue is called; the id of one that is complete cools down. -/
theorem Records.ranOut (h : Records t down) {q : OutStreamQueue.T} (hq : (t.records r).stream = .outStream q) (q' : OutStreamQueue.T) :
    ∃ t', ranOut t r q q' = .ok t' ∧ Records t' down ∧ Less t t' ∧ ∀ B L, Table B t L → ∃ L', Table B t' L' := by
  obtain ⟨t', ht', hless⟩ := h.toSound.ranOut hq q'
  have heq := (ranOut_eq (h.placed r) q q').symm.trans ht'
  cases heq
  have hrec := heardOut_records (t.setOut r q') r (q'.log.drop q.log.length)
  have hrec0 : (t.setOut r q').records r = { t.records r with stream := .outStream q' } := update_self ..
  have hself : (((t.setOut r q').heardOut r (q'.log.drop q.log.length)).records r).stream = .outStream q' := by
    rw [hrec, update_self, hearOut_stream, hrec0]
  have hother : ∀ r', r' ≠ r → ((t.setOut r q').heardOut r (q'.log.drop q.log.length)).records r' = t.records r' := by
    intro r' hne
    rw [hrec, update_of_ne hne]
    exact update_of_ne hne ..
  refine ⟨_, ht', h.alter hless hother ?_ ?_, hless, fun B L htable => ?_⟩
  · intro _
    rw [hself]
    exact Stream.noConfusion
  · intro x hx
    rw [hself] at hx
    cases hx
  by_cases hrel : Releases ((t.setOut r q').records r) ((q'.log.drop q.log.length).foldl Record.hearOut ((t.setOut r q').records r))
  · have hids : ((t.setOut r q').records r).id = (t.records r).id := by rw [hrec0]
    have hid0 : (t.records r).id ≠ nill := hids ▸ hrel.1
    have hform := heardOut_release hrel
    rw [hids] at hform
    refine ⟨_, htable.release (htable.owns r q hq hid0) ((h.placed r).resolve_left hid0) ?_ hother ?_ ?_ ?_ ?_ ?_⟩
    · rw [hrec, update_self]
      exact hrel.2
    all_goals
      rw [hform]
      rfl
  · have hform := heardOut_keep hrel
    have hold : ((q'.log.drop q.log.length).foldl Record.hearOut ((t.setOut r q').records r)).id = (t.records r).id ∧
        ((t.records r).id ≠ nill → ((q'.log.drop q.log.length).foldl Record.hearOut ((t.setOut r q').records r)).inHeap =
          (t.records r).inHeap) := by
      rcases hearOut_heap ((t.setOut r q').records r) (q'.log.drop q.log.length) with ⟨h1, h2⟩ | hlost
      · rw [h1, h2, hrec0]
        exact ⟨rfl, fun _ => rfl⟩
      · have hid0 : (t.records r).id = nill := by
          by_contra hne
          exact hrel ⟨by rw [hrec0]; exact hne, hlost⟩
        exact ⟨hlost.trans hid0.symm, fun hne => absurd hid0 hne⟩
    refine ⟨_, htable.keep ?_ ?_ (fun _ _ => ⟨q, hq⟩) hother ?_ ?_ ?_ ?_ ?_⟩
    · rw [hrec, update_self]
      exact hold.1
    · rw [hrec, update_self]
      exact hold.2
    all_goals
      rw [hform]
      rfl

theorem Sane.ranIn (h : Sane B t L down) {q q' : InStreamQueue.T} (hq : (t.records r).stream = .inStream q)
    (hcalm : ∀ i, Calm i (down r) q.log q → Calm i (down r) q.log q') :
    ∃ t', ranIn t r q q' = .ok t' ∧ Sane B t' L down ∧ (t'.records r).stream = .inStream q' ∧ t'.created = t.created := by
  obtain ⟨t', ht', hrec, hself, hless, htable⟩ := h.toRecords.ranIn hq hcalm
  exact ⟨t', ht', { hrec, htable B L h.toTable with }, hself, hless.created⟩

theorem Sane.ranOut (h : Sane B t L down) {q : OutStreamQueue.T} (hq : (t.records r).stream = .outStream q) (q' : OutStreamQueue.T) :
    ∃ t' L', ranOut t r q q' = .ok t' ∧ Sane B t' L' down ∧ t'.created = t.created := by
  obtain ⟨t', ht', hrec, hless, htable⟩ := h.toRecords.ranOut hq q'
  obtain ⟨L', htable'⟩ := htable B L h.toTable
  exact ⟨t', L', ht', { hrec, htable' with }, hless.created⟩

end BubbleStorm.Cusp.Stream.HostDispatch
