/-
  BubbleStorm.Kademlia.BucketsProofs — the routing table never raises for want of an entry.

  A contact is in the entries or in the replacement cache of its bucket, once, and there
  is a cache only where the entries are full (`Bucket.Sound`). So what is removed is
  there, and what is added is not.
-/

import BubbleStorm.Kademlia.Buckets

namespace BubbleStorm.Kademlia

open BubbleStorm.Cusp (Exn)
open BubbleStorm.Lib

variable {Address : Type}

/-! ## Ring maps -/

namespace RingMap

def ids (r : List (Contact Address)) : List Id := r.map (·.id)

@[simp] theorem ids_cons (c : Contact Address) (r : List (Contact Address)) : ids (c :: r) = c.id :: ids r := rfl

@[simp] theorem ids_append (r r' : List (Contact Address)) : ids (r ++ r') = ids r ++ ids r' := by simp [ids]

theorem get_none {r : List (Contact Address)} {id : Id} (h : get r id = none) : id ∉ ids r := by
  intro hmem
  obtain ⟨c, hc, rfl⟩ := List.mem_map.mp hmem
  have := List.find?_eq_none.mp h c hc
  simp at this

theorem get_some {r : List (Contact Address)} {id : Id} {c : Contact Address} (h : get r id = some c) : c ∈ r ∧ c.id = id := by
  refine ⟨List.mem_of_find?_eq_some h, ?_⟩
  have := List.find?_some h
  simpa using this

theorem contains_iff {r : List (Contact Address)} {id : Id} : contains r id = true ↔ id ∈ ids r := by
  unfold contains
  constructor
  · intro h
    obtain ⟨c, hc⟩ := Option.isSome_iff_exists.mp h
    obtain ⟨hmem, rfl⟩ := get_some hc
    exact List.mem_map.mpr ⟨c, hmem, rfl⟩
  · intro h
    by_contra hn
    exact get_none (Option.not_isSome_iff_eq_none.mp hn) h

theorem ids_without (r : List (Contact Address)) (id : Id) : ids (without r id) = (ids r).filter (· != id) := by
  simp [ids, without, List.filter_map, Function.comp_def]

theorem not_mem_without (r : List (Contact Address)) (id : Id) : id ∉ ids (without r id) := by
  rw [ids_without]
  simp

theorem mem_without {r : List (Contact Address)} {id x : Id} (h : x ∈ ids (without r id)) : x ∈ ids r := by
  rw [ids_without] at h
  exact List.mem_of_mem_filter h

theorem nodup_without {r : List (Contact Address)} (id : Id) (h : (ids r).Nodup) : (ids (without r id)).Nodup := by
  rw [ids_without]
  exact h.filter _

/-- One contact less. -/
theorem length_without {r : List (Contact Address)} {id : Id} (h : (ids r).Nodup) (hid : id ∈ ids r) :
    (without r id).length + 1 = r.length := by
  have he : (ids (without r id)).length = (ids r).length - 1 := by
    rw [ids_without, ← h.erase_eq_filter, List.length_erase_of_mem hid]
  simp only [ids, List.length_map] at he
  have hpos : 0 < r.length := by
    have := List.length_pos_of_mem hid
    simpa [ids] using this
  omega

theorem remove_ok {r : List (Contact Address)} {id : Id} (h : id ∈ ids r) : remove r id = .ok (without r id) :=
  if_pos (contains_iff.mpr h)

theorem addHead_ok {r : List (Contact Address)} {c : Contact Address} (h : c.id ∉ ids r) : addHead r c = .ok (c :: r) :=
  if_neg fun hc => h (contains_iff.mp hc)

theorem addTail_ok {r : List (Contact Address)} {c : Contact Address} (h : c.id ∉ ids r) : addTail r c = .ok (r ++ [c]) :=
  if_neg fun hc => h (contains_iff.mp hc)

theorem nodup_concat {r : List (Contact Address)} {c : Contact Address} (h : (ids r).Nodup) (hc : c.id ∉ ids r) :
    (ids (r ++ [c])).Nodup := by
  rw [ids_append, List.nodup_append]
  refine ⟨h, by simp [ids], ?_⟩
  intro x hx y hy
  cases List.mem_singleton.mp hy
  intro same
  subst same
  exact hc hx

end RingMap

open RingMap (ids)

/-! ## Buckets -/

structure Bucket.Sound (b : Bucket Address) : Prop where
  room : 0 < b.maxSize
  entries : (ids b.entries).Nodup
  cache : (ids b.replacementCache).Nodup
  once : ∀ x ∈ ids b.entries, x ∉ ids b.replacementCache
  full : b.replacementCache ≠ [] → b.maxSize ≤ b.entries.length

namespace Bucket

theorem new_sound {n : Nat} (h : 0 < n) : Sound (new n : Bucket Address) where
  room := h
  entries := List.nodup_nil
  cache := List.nodup_nil
  once := by
    intro x hx
    cases hx
  full := fun hne => absurd rfl hne

variable {b : Bucket Address}

/-- The entries change their order, or data that is no id. -/
theorem Sound.reorder (h : Sound b) {entries : List (Contact Address)} (hp : (ids entries).Perm (ids b.entries)) :
    Sound { b with entries := entries } where
  room := h.room
  entries := hp.nodup_iff.mpr h.entries
  cache := h.cache
  once := fun x hx => h.once x (hp.mem_iff.mp hx)
  full := by
    intro hne
    have := hp.length_eq
    simp only [ids, List.length_map] at this
    exact this ▸ h.full hne

theorem moveTail_perm {r : List (Contact Address)} (h : (ids r).Nodup) {c : Contact Address} (hc : c.id ∈ ids r) :
    (ids (RingMap.moveTail r c)).Perm (ids r) := by
  unfold RingMap.moveTail
  rw [RingMap.ids_append, RingMap.ids_without, ← h.erase_eq_filter]
  exact (List.perm_append_singleton _ _).trans (List.perm_cons_erase hc).symm

theorem replace_sound (h : Sound b) (hfull : b.maxSize ≤ b.entries.length) {c old : Contact Address} (hc : c.id ∉ ids b.entries)
    (hold : old ∈ b.entries) : ∃ b', replace b c old = .ok b' ∧ Sound b' := by
  have hmem : old.id ∈ ids b.entries := List.mem_map.mpr ⟨old, hold, rfl⟩
  have hc' : c.id ∉ ids (RingMap.without b.entries old.id) := fun hx => hc (RingMap.mem_without hx)
  have hlen := RingMap.length_without h.entries hmem
  -- the cache without the contact
  have hcache : ∃ cache, (if RingMap.contains b.replacementCache c.id then RingMap.remove b.replacementCache c.id
      else .ok b.replacementCache) = .ok cache ∧ (ids cache).Nodup ∧ c.id ∉ ids cache ∧ ∀ x ∈ ids cache, x ∈ ids b.replacementCache := by
    by_cases hin : RingMap.contains b.replacementCache c.id = true
    · refine ⟨RingMap.without b.replacementCache c.id, ?_, RingMap.nodup_without _ h.cache, RingMap.not_mem_without _ _,
        fun x hx => RingMap.mem_without hx⟩
      rw [if_pos hin, RingMap.remove_ok (RingMap.contains_iff.mp hin)]
    · refine ⟨b.replacementCache, if_neg hin, h.cache, ?_, fun x hx => hx⟩
      intro hx
      exact hin (RingMap.contains_iff.mpr hx)
  obtain ⟨cache, he, hn, hnot, hsub⟩ := hcache
  refine ⟨{ b with entries := c :: RingMap.without b.entries old.id, replacementCache := cache }, ?_, ?_⟩
  · unfold replace
    rw [RingMap.remove_ok hmem]
    refine bind_eq_ok.mpr ⟨_, rfl, ?_⟩
    split at he
    · next hin =>
      rw [if_pos hin]
      exact bind_eq_ok.mpr ⟨_, he, bind_eq_ok.mpr ⟨_, RingMap.addHead_ok hc', rfl⟩⟩
    · next hin =>
      rw [if_neg hin]
      exact bind_eq_ok.mpr ⟨_, he, bind_eq_ok.mpr ⟨_, RingMap.addHead_ok hc', rfl⟩⟩
  · refine ⟨h.room, ?_, hn, ?_, ?_⟩
    · exact List.nodup_cons.mpr ⟨hc', RingMap.nodup_without _ h.entries⟩
    · intro x hx hxc
      rcases List.mem_cons.mp hx with rfl | hx
      · exact hnot hxc
      · exact h.once x (RingMap.mem_without hx) (hsub x hxc)
    · intro _
      show b.maxSize ≤ (RingMap.without b.entries old.id).length + 1
      omega

theorem makeRoom_ok (h : Sound b) : ∃ cache, makeRoom b = .ok cache ∧ (ids cache).Nodup ∧ ∀ x ∈ ids cache, x ∈ ids b.replacementCache := by
  unfold makeRoom
  split
  next hfull =>
    have hne : b.replacementCache ≠ [] := by
      intro hnil
      rw [hnil] at hfull
      have := h.room
      simp at hfull
      omega
    rw [List.getLast?_eq_some_getLast hne]
    refine ⟨RingMap.without b.replacementCache (b.replacementCache.getLast hne).id, ?_, RingMap.nodup_without _ h.cache,
      fun x hx => RingMap.mem_without hx⟩
    exact RingMap.remove_ok (List.mem_map.mpr ⟨_, List.getLast_mem hne, rfl⟩)
  next => exact ⟨b.replacementCache, rfl, h.cache, fun x hx => hx⟩

theorem addToCache_sound (h : Sound b) (hfull : b.maxSize ≤ b.entries.length) {c : Contact Address} (hc : c.id ∉ ids b.entries) :
    ∃ b', addToCache b c = .ok b' ∧ Sound b' := by
  unfold addToCache
  cases hg : RingMap.get b.replacementCache c.id with
  | some el =>
    obtain ⟨hel, hid⟩ := RingMap.get_some hg
    refine ⟨{ b with replacementCache := RingMap.moveHead b.replacementCache el }, rfl, h.room, h.entries, ?_, ?_, fun _ => hfull⟩
    · exact List.nodup_cons.mpr ⟨RingMap.not_mem_without _ _, RingMap.nodup_without _ h.cache⟩
    · intro x hx hxc
      rcases List.mem_cons.mp hxc with rfl | hxc
      · exact hc (hid ▸ hx)
      · exact h.once x hx (RingMap.mem_without hxc)
  | none =>
    obtain ⟨cache, he, hn, hsub⟩ := makeRoom_ok h
    have hnot : c.id ∉ ids cache := fun hx => RingMap.get_none hg (hsub _ hx)
    refine ⟨{ b with replacementCache := c :: cache }, ?_, h.room, h.entries, ?_, ?_, fun _ => hfull⟩
    · exact bind_eq_ok.mpr ⟨cache, he, bind_eq_ok.mpr ⟨_, RingMap.addHead_ok hnot, rfl⟩⟩
    · exact List.nodup_cons.mpr ⟨hnot, hn⟩
    · intro x hx hxc
      rcases List.mem_cons.mp hxc with rfl | hxc
      · exact hc hx
      · exact h.once x hx (hsub x hxc)

theorem updateNode_sound (h : Sound b) (nodeId : Id) (nodeAddr : Address) :
    ∃ b' added, updateNode b nodeId nodeAddr = .ok (b', added) ∧ Sound b' := by
  unfold updateNode
  cases hg : RingMap.get b.entries nodeId with
  | some e =>
    obtain ⟨he, hid⟩ := RingMap.get_some hg
    refine ⟨_, false, rfl, h.reorder ?_⟩
    exact moveTail_perm h.entries (List.mem_map.mpr ⟨e, he, rfl⟩)
  | none =>
    have hnot := RingMap.get_none hg
    dsimp only
    split
    next hlt =>
      have hempty : b.replacementCache = [] := by
        by_contra hne
        have := h.full hne
        simp only [size] at hlt
        omega
      refine ⟨_, true, bind_eq_ok.mpr ⟨_, RingMap.addTail_ok hnot, rfl⟩, h.room, RingMap.nodup_concat h.entries hnot, h.cache, ?_, ?_⟩
      · intro x _ hxc
        rw [hempty] at hxc
        cases hxc
      · intro hne
        exact absurd hempty hne
    next hge =>
      have hfull : b.maxSize ≤ b.entries.length := Nat.le_of_not_lt hge
      have hcheck : ∃ b', checkReplace b ⟨nodeId, nodeAddr, 0⟩ = .ok b' ∧ Sound b' := by
        unfold checkReplace
        cases hs : b.entries.find? isStale with
        | some e => exact replace_sound h hfull hnot (List.mem_of_find?_eq_some hs)
        | none => exact addToCache_sound h hfull hnot
      obtain ⟨b', hb', hsound⟩ := hcheck
      exact ⟨b', false, bind_eq_ok.mpr ⟨b', hb', rfl⟩, hsound⟩

theorem replaceFromCache_sound (h : Sound b) {old : Contact Address} (hold : old.id ∈ ids b.entries) :
    ∃ b', replaceFromCache b old = .ok b' ∧ Sound b' := by
  unfold replaceFromCache
  rw [RingMap.remove_ok hold]
  have hlen := RingMap.length_without h.entries hold
  cases hc : b.replacementCache with
  | nil =>
    refine ⟨{ b with entries := RingMap.without b.entries old.id }, ?_, h.room, RingMap.nodup_without _ h.entries, h.cache, ?_, ?_⟩
    · rw [hc]
      rfl
    · intro x hx
      exact h.once x (RingMap.mem_without hx)
    · intro hne
      exact absurd hc hne
  | cons c rest =>
    have hmem : c.id ∈ ids b.replacementCache := hc ▸ List.mem_cons_self
    have hnot : c.id ∉ ids (RingMap.without b.entries old.id) := fun hx => h.once _ (RingMap.mem_without hx) hmem
    refine ⟨_, bind_eq_ok.mpr ⟨_, rfl, bind_eq_ok.mpr ⟨_, hc ▸ RingMap.remove_ok hmem, bind_eq_ok.mpr
      ⟨_, RingMap.addTail_ok hnot, rfl⟩⟩⟩, h.room, ?_, ?_, ?_, ?_⟩
    · exact RingMap.nodup_concat (RingMap.nodup_without _ h.entries) hnot
    · exact RingMap.nodup_without _ (hc ▸ h.cache)
    · intro x hx hxc
      rw [RingMap.ids_append, List.mem_append] at hx
      rcases hx with hx | hx
      · exact h.once x (RingMap.mem_without hx) (hc ▸ RingMap.mem_without hxc)
      · cases List.mem_singleton.mp hx
        exact RingMap.not_mem_without _ _ hxc
    · intro _
      have := h.full (by rw [hc]; exact List.cons_ne_nil _ _)
      show b.maxSize ≤ (RingMap.without b.entries old.id ++ [c]).length
      rw [List.length_append]
      simp only [List.length_singleton]
      omega

/-- Its count goes up, and the ids stay. -/
theorem ids_counted (r : List (Contact Address)) {e : Contact Address} {nodeId : Id} (hid : e.id = nodeId) :
    ids (r.map fun c => if c.id = nodeId then { e with timeouts := e.timeouts + 1 } else c) = ids r := by
  simp only [ids, List.map_map]
  apply List.map_congr_left
  intro c _
  show (if c.id = nodeId then (⟨e.id, e.addr, e.timeouts + 1⟩ : Contact Address) else c).id = c.id
  split
  next hc => exact hid.trans hc.symm
  next => rfl

theorem nodeTimeout_sound (h : Sound b) (nodeId : Id) : ∃ b', nodeTimeout b nodeId = .ok b' ∧ Sound b' := by
  unfold nodeTimeout
  cases hg : RingMap.get b.entries nodeId with
  | none => exact ⟨b, rfl, h⟩
  | some e =>
    obtain ⟨he, hid⟩ := RingMap.get_some hg
    dsimp only
    have hids := ids_counted b.entries hid
    have h' : Sound { b with entries := b.entries.map fun c => if c.id = nodeId then { e with timeouts := e.timeouts + 1 } else c } :=
      h.reorder (by rw [hids])
    split
    next => exact replaceFromCache_sound h' (hids ▸ List.mem_map.mpr ⟨e, he, rfl⟩)
    next => exact ⟨_, rfl, h'⟩

end Bucket

/-! ## The table -/

structure Buckets.Sound (t : Buckets Address) : Prop where
  size : t.buckets.length = Id.numberOfBits
  bucket : ∀ b ∈ t.buckets, b.Sound

namespace Id

theorem highestOneBit_lt (x : Id) : highestOneBit x < numberOfBits := by
  unfold highestOneBit
  split
  next bit h =>
    have := List.mem_of_find?_eq_some h
    simp only [List.mem_reverse, List.mem_range] at this
    omega
  next => decide

/-- Only zero has no bit. -/
theorem highestOneBit_nonneg {x : Id} : 0 ≤ highestOneBit x ↔ x ≠ 0 := by
  unfold highestOneBit
  constructor
  · intro h same
    subst same
    split at h
    next bit hbit =>
      have := List.find?_some hbit
      simp [getBit] at this
    next => omega
  · intro hx
    split
    next bit _ => omega
    next hnone =>
      refine absurd ?_ hx
      apply BitVec.eq_of_getLsbD_eq
      intro i hi
      have := List.find?_eq_none.mp hnone i (by simpa [numberOfBits] using hi)
      simpa [getBit] using this

end Id

namespace Buckets

theorem new_sound (myId : Id) {n : Nat} (h : 0 < n) : Sound (new myId n : Buckets Address) where
  size := by simp [new]
  bucket := by
    intro b hb
    rw [List.eq_of_mem_replicate hb]
    exact Bucket.new_sound h

variable {t : Buckets Address}

theorem bucketId_lt (t : Buckets Address) (id : Id) : bucketId t id < Id.numberOfBits := Id.highestOneBit_lt _

theorem bucketId_nonneg {id : Id} : 0 ≤ bucketId t id ↔ id ≠ t.myId := by
  unfold bucketId
  rw [Id.highestOneBit_nonneg]
  show ¬ t.myId ^^^ id = 0#160 ↔ ¬ id = t.myId
  rw [BitVec.xor_eq_zero_iff]
  exact not_congr eq_comm

theorem sub_ok (h : Sound t) {bid : Int} (h0 : 0 ≤ bid) (hlt : bid < Id.numberOfBits) : ∃ b, sub t bid = .ok b ∧ b ∈ t.buckets := by
  have hlt' : bid.toNat < t.buckets.length := by
    rw [h.size]
    omega
  refine ⟨t.buckets[bid.toNat], ?_, List.getElem_mem hlt'⟩
  unfold sub
  rw [if_neg (by omega), List.getElem?_eq_getElem hlt']

theorem sub_neg {bid : Int} (h : bid < 0) : sub t bid = .error .subscript := if_pos h

theorem set_sound (h : Sound t) (bid : Int) {b : Bucket Address} (hb : b.Sound) : Sound (set t bid b) where
  size := by simpa [set] using h.size
  bucket := by
    intro b' hb'
    rcases List.mem_or_eq_of_mem_set hb' with hb' | rfl
    · exact h.bucket b' hb'
    · exact hb

theorem updateNode_sound (h : Sound t) (id : Id) (addr : Address) :
    ∃ t' added, updateNode t id addr = .ok (t', added) ∧ Sound t' ∧ t'.myId = t.myId ∧ (added = true → id ≠ t.myId) := by
  unfold updateNode
  dsimp only
  split
  next h0 =>
    obtain ⟨b, hb, hmem⟩ := sub_ok h h0 (bucketId_lt t id)
    obtain ⟨b', added, hb', hsound⟩ := Bucket.updateNode_sound (h.bucket b hmem) id addr
    exact ⟨_, added, bind_eq_ok.mpr ⟨b, hb, bind_eq_ok.mpr ⟨_, hb', rfl⟩⟩, set_sound h _ hsound, rfl, fun _ => bucketId_nonneg.mp h0⟩
  next => exact ⟨t, false, rfl, h, rfl, fun hf => absurd hf (by decide)⟩

theorem nodeTimeout_sound (h : Sound t) (id : Id) : ∃ t', nodeTimeout t id = .ok t' ∧ Sound t' ∧ t'.myId = t.myId := by
  unfold nodeTimeout
  dsimp only
  split
  next h0 =>
    obtain ⟨b, hb, hmem⟩ := sub_ok h h0 (bucketId_lt t id)
    obtain ⟨b', hb', hsound⟩ := Bucket.nodeTimeout_sound (h.bucket b hmem) id
    exact ⟨_, bind_eq_ok.mpr ⟨b, hb, bind_eq_ok.mpr ⟨_, hb', rfl⟩⟩, set_sound h _ hsound, rfl⟩
  next => exact ⟨t, rfl, h, rfl⟩

/-! ## Queries -/

/-- At most `count` contacts come out, and none is asked for below zero. -/
theorem collect_ok (h : Sound t) (requestorId : Id) {next : Int → Except Exn (List (Contact Address))}
    (hnext : ∀ count, 0 ≤ count → ∃ l, next count = .ok l ∧ l.length ≤ count) (bids : List Nat)
    (hbids : ∀ bid ∈ bids, bid < Id.numberOfBits) (count : Int) (hcount : 0 ≤ count) :
    ∃ l, collect t requestorId next bids count = .ok l ∧ l.length ≤ count := by
  induction bids generalizing count with
  | nil => exact hnext count hcount
  | cons bid bids ih =>
    obtain ⟨b, hb, -⟩ := sub_ok h (Int.natCast_nonneg bid) (by have := hbids bid (.head _); omega)
    unfold collect
    by_cases hle : count ≤ (b.entries.filter fun e => e.id != requestorId).length
    · refine ⟨(b.entries.filter fun e => e.id != requestorId).take count.toNat, ?_, ?_⟩
      · refine bind_eq_ok.mpr ⟨b, hb, ?_⟩
        rw [if_pos hle]
        exact if_pos ⟨hcount, hle⟩
      · rw [List.length_take]
        omega
    · obtain ⟨l, hl, hlen⟩ := ih (fun x hx => hbids x (.tail _ hx)) (count - (b.entries.filter fun e => e.id != requestorId).length)
        (by omega)
      refine ⟨(b.entries.filter fun e => e.id != requestorId) ++ l, ?_, ?_⟩
      · refine bind_eq_ok.mpr ⟨b, hb, ?_⟩
        rw [if_neg hle]
        exact bind_eq_ok.mpr ⟨l, hl, rfl⟩
      · rw [List.length_append]
        push_cast
        omega

theorem getCloseNodes_ok (h : Sound t) (targetId requestorId : Id) {count : Int} (hcount : 0 ≤ count) :
    ∃ l, getCloseNodes t targetId requestorId count = .ok l ∧ l.length ≤ count := by
  unfold getCloseNodes
  apply collect_ok h requestorId _ _ _ _ hcount
  · intro n hn
    apply collect_ok h requestorId _ _ _ _ hn
    · intro m hm
      exact ⟨[], rfl, hm⟩
    · intro bid hbid
      exact List.mem_range.mp (List.mem_of_mem_filter hbid)
  · intro bid hbid
    have hmem := List.mem_range.mp (List.mem_reverse.mp (List.mem_of_mem_filter hbid))
    have := Id.highestOneBit_lt (t.myId ^^^ targetId)
    omega

theorem countAll_ok (h : Sound t) {n : Nat} (hn : n ≤ Id.numberOfBits) : ∃ c, countAll t n = .ok c := by
  induction n with
  | zero => exact ⟨0, rfl⟩
  | succ n ih =>
    obtain ⟨b, hb, -⟩ := sub_ok h (Int.natCast_nonneg n) (by omega)
    obtain ⟨c, hc⟩ := ih (by omega)
    exact ⟨_, bind_eq_ok.mpr ⟨b, hb, bind_eq_ok.mpr ⟨c, hc, rfl⟩⟩⟩

theorem checkBucket_ok (h : Sound t) {n : Nat} (hn : n ≤ Id.numberOfBits) : ∃ r, checkBucket t n = .ok r := by
  induction n with
  | zero => exact ⟨false, rfl⟩
  | succ n ih =>
    obtain ⟨b, hb, -⟩ := sub_ok h (Int.natCast_nonneg n) (by omega)
    obtain ⟨r, hr⟩ := ih (by omega)
    by_cases he : b.isEmpty = true
    · exact ⟨r, bind_eq_ok.mpr ⟨b, hb, by rw [if_pos he]; exact hr⟩⟩
    · exact ⟨true, bind_eq_ok.mpr ⟨b, hb, by rw [if_neg he]; rfl⟩⟩

theorem knowNodesCloserTo_ok (h : Sound t) (id : Id) : Ok (knowNodesCloserTo t id) := by
  apply checkBucket_ok h
  have := bucketId_lt t id
  omega

theorem countCloserNodesFor_ok (h : Sound t) (target : Id) {id : Id} (hid : id ≠ t.myId) : Ok (countCloserNodesFor t target id) := by
  have h0 := bucketId_nonneg.mpr hid
  have hlt := bucketId_lt t id
  have hlt' := bucketId_lt t target
  unfold countCloserNodesFor
  dsimp only
  split
  next heq =>
    have h0' : 0 ≤ bucketId t target := by omega
    obtain ⟨b, hb, -⟩ := sub_ok h h0' hlt'
    exact ⟨_, bind_eq_ok.mpr ⟨b, hb, rfl⟩⟩
  next =>
    split
    next hgt =>
      have h0' : 0 ≤ bucketId t target := by omega
      obtain ⟨b, hb, -⟩ := sub_ok h h0' hlt'
      exact ⟨_, bind_eq_ok.mpr ⟨b, hb, rfl⟩⟩
    next => exact countAll_ok h (by omega)

/-- The node's own id has no bucket. -/
theorem countCloserNodes_iff (h : Sound t) (id : Id) : Ok (countCloserNodes t id) ↔ id ≠ t.myId := by
  unfold countCloserNodes
  constructor
  · intro ⟨c, hc⟩
    obtain ⟨b, hb, -⟩ := bind_eq_ok.mp hc
    by_contra heq
    have hneg : bucketId t id < 0 := by
      by_contra hnn
      exact bucketId_nonneg.mp (by omega) heq
    rw [sub_neg hneg] at hb
    cases hb
  · intro hne
    have hlt := bucketId_lt t id
    obtain ⟨b, hb, -⟩ := sub_ok h (bucketId_nonneg.mpr hne) hlt
    obtain ⟨c, hc⟩ := countAll_ok h (n := (bucketId t id).toNat) (by omega)
    exact ⟨_, bind_eq_ok.mpr ⟨b, hb, bind_eq_ok.mpr ⟨c, hc, rfl⟩⟩⟩

end Buckets

end BubbleStorm.Kademlia
