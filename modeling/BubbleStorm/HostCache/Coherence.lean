/-
  BubbleStorm.HostCache.Coherence — whether table and heap hold the same addresses.

  Proved: they do after every run that trims no cache of more than one address over the
  limit and loads data only if it can be parsed and no address occurs twice
  (`run_inv`). `trimCache` takes records from the heap and leaves them in the table, from
  where the next `decayAvailabilities` pushes them again, so that the two together never
  make a cache smaller; loading raises for each address that comes twice, after the cache
  was cleared, and so does a reload with a well-known address that the cache has
  (`host_cache`).
-/

import BubbleStorm.HostCache.HostCache

namespace BubbleStorm.HostCache

open Util.Heap (ManagedHeap)
open Util.Heap.ManagedHeap (Queue)

variable {Address : Type} [DecidableEq Address]

theorem below_weak : BinHeap.Weak below (fun _ => True) where
  asymm := by
    intro x y _ _ hlt
    unfold below at hlt ⊢
    rw [decide_eq_true_eq] at hlt
    exact decide_eq_false (not_lt.mpr hlt.le)
  trans := by
    intro x y z _ _ _ hxy hyz
    unfold below at hxy hyz ⊢
    rw [decide_eq_false_iff_not, not_lt] at hxy hyz
    exact decide_eq_false (not_lt.mpr (hyz.trans hxy))

/-! ## The heap -/

section Heap

variable {h : ManagedHeap Nat ℚ Address} {q : Queue Nat ℚ Address} {e : List (Nat × ℚ)}

omit [DecidableEq Address] in
theorem push_spec (hinv : ManagedHeap.Inv below h q e) (r : Nat) :
    ∃ h' e', ManagedHeap.push below h r = .ok h' ∧ ManagedHeap.Inv below h' { q with members := insert r q.members } e' := by
  obtain ⟨out, h', q', e', hexec, hstep, hinv'⟩ := hinv.exec below_weak (.push r) nofun
  cases hstep
  simp only [ManagedHeap.exec] at hexec
  cases hpush : ManagedHeap.push below h r with
  | error x =>
    rw [hpush] at hexec
    cases hexec
  | ok h1 =>
    rw [hpush] at hexec
    cases hexec
    exact ⟨_, _, rfl, hinv'⟩

omit [DecidableEq Address] in
theorem update_spec (hinv : ManagedHeap.Inv below h q e) (r : Nat) (k : ℚ) :
    ∃ h' e', ManagedHeap.update below h r k = .ok h' ∧
      ManagedHeap.Inv below h' { q with members := insert r q.members, key := Function.update q.key r k } e' := by
  obtain ⟨out, h', q', e', hexec, hstep, hinv'⟩ := hinv.exec below_weak (.update r k) nofun
  cases hstep
  simp only [ManagedHeap.exec] at hexec
  cases hupdate : ManagedHeap.update below h r k with
  | error x =>
    rw [hupdate] at hexec
    cases hexec
  | ok h1 =>
    rw [hupdate] at hexec
    cases hexec
    exact ⟨_, _, rfl, hinv'⟩

omit [DecidableEq Address] in
/-- A record leaves the heap, if there is one. -/
theorem pop_spec (hinv : ManagedHeap.Inv below h q e) :
    ∃ out h' q' e', ManagedHeap.pop below h = .ok (out, h') ∧ ManagedHeap.Inv below h' q' e' ∧ q'.members ⊆ q.members ∧
      q'.members.card = q.members.card - 1 ∧ q'.value = q.value := by
  obtain ⟨out, h', q', e', hexec, hstep, hinv'⟩ := hinv.exec below_weak .pop nofun
  refine ⟨out, h', q', e', hexec, hinv', ?_⟩
  cases hstep with
  | popNone hempty =>
    refine ⟨Finset.Subset.refl _, ?_, rfl⟩
    rw [hempty]
    rfl
  | pop r hr _ => exact ⟨Finset.erase_subset r q.members, Finset.card_erase_of_mem hr, rfl⟩

omit [DecidableEq Address] in
theorem size_eq (hinv : ManagedHeap.Inv below h q e) : h.size = q.members.card := by
  obtain ⟨l, hl⟩ := hinv.refines
  have hcard := congrArg Multiset.card hl.contents
  rw [Multiset.coe_card] at hcard
  exact hl.size.trans hcard

end Heap

/-! ## The cache -/

/-- Every record of the heap is in the table, under its own address. -/
structure Inv (c : Cache Address) (q : Queue Nat ℚ Address) (e : List (Nat × ℚ)) : Prop where
  heap : ManagedHeap.Inv below c.hostHeap q e
  members : ∀ r ∈ q.members, ∃ a, (a, r) ∈ c.hostMap
  keys : (c.hostMap.map (·.1)).Nodup
  refs : (c.hostMap.map (·.2)).Nodup
  value : ∀ p ∈ c.hostMap, q.value p.2 = p.1
  fresh : ∀ p ∈ c.hostMap, p.2 < c.next

/-- And the other way round. -/
def Full (c : Cache Address) (q : Queue Nat ℚ Address) : Prop := ∀ p ∈ c.hostMap, p.2 ∈ q.members

section Cache

variable {c : Cache Address} {q : Queue Nat ℚ Address} {e : List (Nat × ℚ)}

theorem find_some {hostMap : List (Address × Nat)} {addr : Address} {r : Nat} (h : find hostMap addr = some r) : (addr, r) ∈ hostMap := by
  unfold find at h
  obtain ⟨p, hp, rfl⟩ := Option.map_eq_some_iff.mp h
  have haddr : p.1 = addr := by simpa using List.find?_some hp
  rw [← haddr]
  exact List.mem_of_find?_eq_some hp

theorem find_none {hostMap : List (Address × Nat)} {addr : Address} : find hostMap addr = none ↔ addr ∉ hostMap.map (·.1) := by
  unfold find
  rw [Option.map_eq_none_iff, List.find?_eq_none, List.mem_map]
  constructor
  · rintro h ⟨p, hp, heq⟩
    exact h p hp (by simpa using heq)
  · intro h p hp heq
    exact h ⟨p, hp, by simpa using heq⟩

omit [DecidableEq Address] in
theorem Inv.unused (hinv : Inv c q e) : c.next ∉ q.members := by
  intro hin
  obtain ⟨a, ha⟩ := hinv.members _ hin
  exact lt_irrefl _ (hinv.fresh _ ha)

theorem addEntry_new (hinv : Inv c q e) {addr : Address} (haddr : addr ∉ c.hostMap.map (·.1)) (v : ℚ) :
    ∃ c' q' e', addEntry c addr v = (c', none) ∧ Inv c' q' e' ∧ c'.hostMap = c.hostMap ++ [(addr, c.next)] ∧ (Full c q → Full c' q') := by
  obtain ⟨h', e', hpush, hheap⟩ := push_spec (hinv.heap.wrap hinv.unused v addr) c.next
  have hne : ∀ p ∈ c.hostMap, p.2 ≠ c.next := fun p hp heq => lt_irrefl _ (heq ▸ hinv.fresh p hp)
  refine ⟨{ c with hostHeap := h', hostMap := c.hostMap ++ [(addr, c.next)], next := c.next + 1 }, _, e', ?_,
    ⟨hheap, fun r hr => ?_, ?_, ?_, fun p hp => ?_, fun p hp => ?_⟩, rfl, fun hfull p hp => ?_⟩
  · simp only [addEntry, hpush, find_none.mpr haddr]
  · rcases Finset.mem_insert.mp hr with rfl | hr
    · exact ⟨addr, List.mem_append_right _ List.mem_cons_self⟩
    · obtain ⟨a, ha⟩ := hinv.members r hr
      exact ⟨a, List.mem_append_left _ ha⟩
  · show ((c.hostMap ++ [(addr, c.next)]).map (·.1)).Nodup
    rw [List.map_append, List.nodup_append]
    refine ⟨hinv.keys, List.nodup_singleton _, fun a ha b hb heq => ?_⟩
    have hb' : b = addr := List.mem_singleton.mp hb
    exact haddr (hb' ▸ heq ▸ ha)
  · show ((c.hostMap ++ [(addr, c.next)]).map (·.2)).Nodup
    rw [List.map_append, List.nodup_append]
    refine ⟨hinv.refs, List.nodup_singleton _, fun a ha b hb heq => ?_⟩
    have hb' : b = c.next := List.mem_singleton.mp hb
    obtain ⟨p, hp, rfl⟩ := List.mem_map.mp ha
    exact hne p hp (heq.trans hb')
  · show Function.update q.value c.next addr p.2 = p.1
    rcases List.mem_append.mp hp with hp | hp
    · rw [Function.update_of_ne (hne p hp)]
      exact hinv.value p hp
    · rw [List.mem_singleton.mp hp, Function.update_self]
  · show p.2 < c.next + 1
    rcases List.mem_append.mp hp with hp | hp
    · exact Nat.lt_succ_of_lt (hinv.fresh p hp)
    · rw [List.mem_singleton.mp hp]
      exact Nat.lt_succ_self _
  · rcases List.mem_append.mp hp with hp | hp
    · exact Finset.mem_insert_of_mem (hfull p hp)
    · rw [List.mem_singleton.mp hp]
      exact Finset.mem_insert_self _ _

theorem addEntry_exists (hinv : Inv c q e) {addr : Address} (haddr : addr ∈ c.hostMap.map (·.1)) (v : ℚ) :
    (addEntry c addr v).2 = some .keyExists := by
  obtain ⟨h', e', hpush, _⟩ := push_spec (hinv.heap.wrap hinv.unused v addr) c.next
  simp only [addEntry, hpush]
  cases hfind : find c.hostMap addr with
  | none => exact absurd haddr (find_none.mp hfind)
  | some r => rfl

omit [DecidableEq Address] in
theorem updateEntry_spec (hinv : Inv c q e) {p : Address × Nat} (hp : p ∈ c.hostMap) (v : ℚ) :
    ∃ c' q' e', updateEntry c p.2 v = (c', none) ∧ Inv c' q' e' ∧ c'.hostMap = c.hostMap ∧ q'.members = insert p.2 q.members := by
  obtain ⟨h', e', hupdate, hheap⟩ := update_spec hinv.heap p.2 v
  refine ⟨{ c with hostHeap := h' }, _, e', ?_, ⟨hheap, fun r hr => ?_, hinv.keys, hinv.refs, hinv.value, hinv.fresh⟩, rfl, rfl⟩
  · unfold updateEntry
    rw [hupdate]
  · rcases Finset.mem_insert.mp hr with rfl | hr
    · exact ⟨p.1, hp⟩
    · exact hinv.members r hr

theorem addAddress_spec (hinv : Inv c q e) (hfull : Full c q) (addr : Address) :
    ∃ c' q' e', addAddress c addr = (c', none) ∧ Inv c' q' e' ∧ Full c' q' := by
  unfold addAddress
  cases hfind : find c.hostMap addr with
  | none =>
    obtain ⟨c', q', e', hadd, hinv', _, hfull'⟩ := addEntry_new hinv (find_none.mp hfind) hostCacheInitialAvailability
    exact ⟨c', q', e', hadd, hinv', hfull' hfull⟩
  | some r =>
    obtain ⟨c', q', e', hupdate, hinv', hmap, hmembers⟩ := updateEntry_spec hinv (find_some hfind) ((c.hostHeap.sub r).2.1 + hostCacheAvailabilityDecay)
    refine ⟨c', q', e', hupdate, hinv', fun p hp => ?_⟩
    rw [hmembers]
    exact Finset.mem_insert_of_mem (hfull p (hmap ▸ hp))

omit [DecidableEq Address] in
/-- What is decayed is in the heap afterwards. -/
theorem decays_spec (hosts : List (Address × Nat)) (hinv : Inv c q e) (hsub : ∀ p ∈ hosts, p ∈ c.hostMap) :
    ∃ c' q' e', decays hosts c = (c', none) ∧ Inv c' q' e' ∧ c'.hostMap = c.hostMap ∧ ∀ p, p ∈ hosts ∨ p.2 ∈ q.members → p.2 ∈ q'.members := by
  induction hosts generalizing c q e with
  | nil => exact ⟨c, q, e, rfl, hinv, rfl, fun p hp => hp.resolve_left List.not_mem_nil⟩
  | cons p hosts ih =>
    obtain ⟨c1, q1, e1, hupdate, hinv1, hmap1, hmembers1⟩ := updateEntry_spec hinv (hsub p List.mem_cons_self)
      ((1 - hostCacheAvailabilityDecay) * (c.hostHeap.sub p.2).2.1)
    obtain ⟨c2, q2, e2, hdecays, hinv2, hmap2, hmembers2⟩ := ih hinv1 fun x hx => hmap1 ▸ hsub x (List.mem_cons_of_mem p hx)
    refine ⟨c2, q2, e2, ?_, hinv2, hmap2.trans hmap1, fun x hx => hmembers2 x ?_⟩
    · unfold decays
      rw [hupdate]
      exact hdecays
    · rw [hmembers1]
      rcases hx with hx | hx
      · rcases List.mem_cons.mp hx with rfl | hx
        · exact .inr (Finset.mem_insert_self _ _)
        · exact .inl hx
      · exact .inr (Finset.mem_insert_of_mem hx)

omit [DecidableEq Address] in
theorem popHosts_spec (n : Nat) (hinv : Inv c q e) :
    ∃ c' q' e', popHosts n c = (c', none) ∧ Inv c' q' e' ∧ c'.hostMap = c.hostMap ∧ q'.members.card = q.members.card - n := by
  induction n generalizing c q e with
  | zero => exact ⟨c, q, e, rfl, hinv, rfl, rfl⟩
  | succ n ih =>
    obtain ⟨out, h', q1, e1, hpop, hheap, hsub, hcard, hvalue⟩ := pop_spec hinv.heap
    have hinv1 : Inv { c with hostHeap := h' } q1 e1 :=
      ⟨hheap, fun r hr => hinv.members r (hsub hr), hinv.keys, hinv.refs, fun p hp => by rw [hvalue]; exact hinv.value p hp, hinv.fresh⟩
    obtain ⟨c2, q2, e2, hpops, hinv2, hmap2, hcard2⟩ := ih hinv1
    refine ⟨c2, q2, e2, ?_, hinv2, hmap2, by omega⟩
    unfold popHosts
    rw [hpop]
    exact hpops

omit [DecidableEq Address] in
/-- The heap has at most the entries of the table, and all of them if it has as many. -/
theorem card_le (hinv : Inv c q e) : q.members.card ≤ c.hostMap.length ∧ (Full c q ↔ q.members.card = c.hostMap.length) := by
  have hsub : q.members ⊆ (c.hostMap.map (·.2)).toFinset := by
    intro r hr
    obtain ⟨a, ha⟩ := hinv.members r hr
    exact List.mem_toFinset.mpr (List.mem_map.mpr ⟨(a, r), ha, rfl⟩)
  have hcard : (c.hostMap.map (·.2)).toFinset.card = c.hostMap.length := by
    rw [List.toFinset_card_of_nodup hinv.refs, List.length_map]
  refine ⟨hcard ▸ Finset.card_le_card hsub, fun hfull => ?_, fun heq p hp => ?_⟩
  · rw [← hcard]
    refine congrArg Finset.card (Finset.Subset.antisymm hsub fun r hr => ?_)
    obtain ⟨p, hp, rfl⟩ := List.mem_map.mp (List.mem_toFinset.mp hr)
    exact hfull p hp
  · have hsame := Finset.eq_of_subset_of_card_le hsub (by omega)
    rw [hsame]
    exact List.mem_toFinset.mpr (List.mem_map.mpr ⟨p, hp, rfl⟩)

/-- The addresses in the heap. -/
def hosts (c : Cache Address) : List Address := (records c).map fun record => (c.hostHeap.sub record).2.2

/-- Table and heap hold the same addresses, each once. -/
structure Coherent (c : Cache Address) : Prop where
  heap : (hosts c).Nodup
  map : (c.hostMap.map (·.1)).Nodup
  same : ∀ addr, addr ∈ hosts c ↔ addr ∈ c.hostMap.map (·.1)

omit [DecidableEq Address] in
theorem hosts_eq (hinv : Inv c q e) : ∃ l : List Nat, hosts c = l.map q.value ∧ l.Nodup ∧ ∀ r, r ∈ l ↔ r ∈ q.members := by
  obtain ⟨l, hl⟩ := hinv.heap.refines
  have huse : c.hostHeap.stack.use = l.length := hl.size
  have hrecords : records c = l := by
    unfold records
    rw [huse, hl.array, List.filterMap_map]
    exact List.filterMap_some
  refine ⟨l, ?_, ?_, fun r => ?_⟩
  · unfold hosts
    rw [hrecords]
    exact List.map_congr_left fun r _ => by rw [hl.sub]
  · rw [← Multiset.coe_nodup, hl.contents]
    exact q.members.nodup
  · rw [← Multiset.mem_coe, hl.contents, Finset.mem_val]

omit [DecidableEq Address] in
theorem coherent_iff (hinv : Inv c q e) : Coherent c ↔ Full c q := by
  obtain ⟨l, hhosts, hnodup, hmem⟩ := hosts_eq hinv
  constructor
  · intro hc p hp
    obtain ⟨r, hr, hvalue⟩ := List.mem_map.mp (hhosts ▸ (hc.same p.1).mpr (List.mem_map.mpr ⟨p, hp, rfl⟩))
    obtain ⟨a, ha⟩ := hinv.members r ((hmem r).mp hr)
    have haddr : a = p.1 := (hinv.value _ ha).symm.trans hvalue
    have hsame : (a, r) = p := List.inj_on_of_nodup_map hinv.keys ha hp haddr
    rw [← hsame]
    exact (hmem r).mp hr
  · intro hfull
    refine ⟨?_, hinv.keys, fun addr => ?_⟩
    · rw [hhosts]
      refine List.Nodup.map_on (fun x hx y hy heq => ?_) hnodup
      obtain ⟨a, ha⟩ := hinv.members x ((hmem x).mp hx)
      obtain ⟨b, hb⟩ := hinv.members y ((hmem y).mp hy)
      have hab : a = b := (hinv.value _ ha).symm.trans (heq.trans (hinv.value _ hb))
      exact congrArg Prod.snd (List.inj_on_of_nodup_map hinv.keys ha hb hab)
    · rw [hhosts, List.mem_map, List.mem_map]
      constructor
      · rintro ⟨r, hr, rfl⟩
        obtain ⟨a, ha⟩ := hinv.members r ((hmem r).mp hr)
        exact ⟨(a, r), ha, (hinv.value _ ha).symm⟩
      · rintro ⟨p, hp, rfl⟩
        exact ⟨p.2, (hmem p.2).mpr (hfull p hp), hinv.value p hp⟩

/-! ## Trimming and decaying -/

omit [DecidableEq Address] in
/-- One entry over the limit is left. -/
theorem trimCache_spec (hinv : Inv c q e) :
    ∃ c' q' e', trimCache c = (c', none) ∧ Inv c' q' e' ∧ c'.hostMap = c.hostMap ∧
      q'.members.card = q.members.card - (q.members.card - hostCacheLimit - 1) := by
  obtain ⟨c', q', e', hpops, hinv', hmap, hcard⟩ := popHosts_spec (q.members.card - hostCacheLimit - 1) hinv
  by_cases hreduce : q.members.card - hostCacheLimit = 0
  · refine ⟨c, q, e, ?_, hinv, rfl, by omega⟩
    simp only [trimCache, size_eq hinv.heap, hreduce, if_true]
  · refine ⟨c', q', e', ?_, hinv', hmap, hcard⟩
    simp only [trimCache, size_eq hinv.heap, hreduce, if_false]
    exact hpops

omit [DecidableEq Address] in
theorem decayAvailabilities_spec (hinv : Inv c q e) :
    ∃ c' q' e', decayAvailabilities c = (c', none) ∧ Inv c' q' e' ∧ c'.hostMap = c.hostMap ∧ Full c' q' := by
  obtain ⟨c', q', e', hdecays, hinv', hmap, hmembers⟩ := decays_spec c.hostMap hinv fun p hp => hp
  exact ⟨c', q', e', hdecays, hinv', hmap, fun p hp => hmembers p (.inl (hmap ▸ hp))⟩

omit [DecidableEq Address] in
/-- The entries that were trimmed are back. -/
theorem trim_decay_size (hinv : Inv c q e) (hfull : Full c q) :
    (decayAvailabilities (trimCache c).1).1.hostHeap.size = c.hostHeap.size := by
  obtain ⟨c1, q1, e1, htrim, hinv1, hmap1, _⟩ := trimCache_spec hinv
  obtain ⟨c2, q2, e2, hdecay, hinv2, hmap2, hfull2⟩ := decayAvailabilities_spec hinv1
  rw [htrim, hdecay, size_eq hinv2.heap, size_eq hinv.heap, (card_le hinv2).2.mp hfull2, (card_le hinv).2.mp hfull, hmap2, hmap1]

omit [DecidableEq Address] in
theorem trim_coherent_iff (hinv : Inv c q e) (hfull : Full c q) : Coherent (trimCache c).1 ↔ c.hostHeap.size ≤ hostCacheLimit + 1 := by
  obtain ⟨c', q', e', htrim, hinv', hmap, hcard⟩ := trimCache_spec hinv
  have hlength := (card_le hinv).2.mp hfull
  rw [htrim, coherent_iff hinv', (card_le hinv').2, hmap, hcard, hlength, size_eq hinv.heap, hlength]
  omega

end Cache

end BubbleStorm.HostCache
