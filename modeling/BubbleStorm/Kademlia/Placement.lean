/-
  BubbleStorm.Kademlia.Placement — which contacts a routing table can hold.

  A contact is only ever put into the bucket of its id (`Placed`), and a bucket's cache
  moves into the same bucket. With `Sound` this holds in every table that is reached by
  the node's updates and timeouts (`Reachable.placed`). So every contact is in the table
  once, and a bucket's number is the highest bit its contacts differ in from the node.
-/

import BubbleStorm.Kademlia.BucketsProofs
import BubbleStorm.Lib.TopBit

namespace BubbleStorm.Kademlia

open BubbleStorm.Cusp (Exn)
open BubbleStorm.Lib
open RingMap (ids)

variable {Address : Type}

/-! ## The ids of a bucket -/

namespace RingMap

theorem remove_eq {r r' : List (Contact Address)} {id : Id} (h : remove r id = .ok r') : r' = without r id := by
  unfold remove at h
  split at h
  · cases h
    rfl
  · cases h

theorem addHead_eq {r r' : List (Contact Address)} {c : Contact Address} (h : addHead r c = .ok r') : r' = c :: r := by
  unfold addHead at h
  split at h
  · cases h
  · cases h
    rfl

theorem addTail_eq {r r' : List (Contact Address)} {c : Contact Address} (h : addTail r c = .ok r') : r' = r ++ [c] := by
  unfold addTail at h
  split at h
  · cases h
  · cases h
    rfl

end RingMap

namespace Bucket

variable {b b' : Bucket Address}

/-- The entries and the cache hold ids of the set only. -/
structure Within (p : Id → Prop) (b : Bucket Address) : Prop where
  entries : ∀ x ∈ ids b.entries, p x
  cache : ∀ x ∈ ids b.replacementCache, p x

variable {p : Id → Prop}

theorem within_new (n : Nat) : Within p (new n : Bucket Address) := by
  constructor
  · intro x hx
    cases hx
  · intro x hx
    cases hx

theorem mem_moveTail {r : List (Contact Address)} {c : Contact Address} {x : Id} (h : x ∈ ids (RingMap.moveTail r c)) :
    x = c.id ∨ x ∈ ids r := by
  unfold RingMap.moveTail at h
  rw [RingMap.ids_append, List.mem_append] at h
  rcases h with h | h
  · exact .inr (RingMap.mem_without h)
  · exact .inl (List.mem_singleton.mp h)

theorem replace_within (h : Within p b) {c old : Contact Address} (hc : p c.id) (hb : replace b c old = .ok b') : Within p b' := by
  unfold replace at hb
  obtain ⟨entries, he, hb⟩ := bind_eq_ok.mp hb
  rw [RingMap.remove_eq he] at hb
  have hentries : ∀ x ∈ ids (c :: RingMap.without b.entries old.id), p x := by
    intro x hx
    rcases List.mem_cons.mp hx with rfl | hx
    · exact hc
    · exact h.entries x (RingMap.mem_without hx)
  split at hb
  · obtain ⟨cache, hcache, hb⟩ := bind_eq_ok.mp hb
    obtain ⟨entries', he', hb⟩ := bind_eq_ok.mp hb
    rw [RingMap.addHead_eq he'] at hb
    cases hb
    rw [RingMap.remove_eq hcache]
    exact ⟨hentries, fun x hx => h.cache x (RingMap.mem_without hx)⟩
  · obtain ⟨cache, hcache, hb⟩ := bind_eq_ok.mp hb
    obtain ⟨entries', he', hb⟩ := bind_eq_ok.mp hb
    rw [RingMap.addHead_eq he'] at hb
    cases hb
    cases hcache
    exact ⟨hentries, h.cache⟩

theorem makeRoom_within (h : Within p b) {cache : List (Contact Address)} (hb : makeRoom b = .ok cache) : ∀ x ∈ ids cache, p x := by
  unfold makeRoom at hb
  split at hb
  · split at hb
    · cases hb
    · rw [RingMap.remove_eq hb]
      exact fun x hx => h.cache x (RingMap.mem_without hx)
  · cases hb
    exact h.cache

theorem addToCache_within (h : Within p b) {c : Contact Address} (hc : p c.id) (hb : addToCache b c = .ok b') : Within p b' := by
  unfold addToCache at hb
  split at hb
  next el hel =>
    obtain ⟨-, hid⟩ := RingMap.get_some hel
    cases hb
    refine ⟨h.entries, ?_⟩
    intro x hx
    rcases List.mem_cons.mp hx with rfl | hx
    · show p el.id
      rw [hid]
      exact hc
    · exact h.cache x (RingMap.mem_without hx)
  next =>
    obtain ⟨cache, hcache, hb⟩ := bind_eq_ok.mp hb
    obtain ⟨cache', hcache', hb⟩ := bind_eq_ok.mp hb
    rw [RingMap.addHead_eq hcache'] at hb
    cases hb
    refine ⟨h.entries, ?_⟩
    intro x hx
    rcases List.mem_cons.mp hx with rfl | hx
    · exact hc
    · exact makeRoom_within h hcache x hx

theorem updateNode_within (h : Within p b) {nodeId : Id} (hid : p nodeId) {nodeAddr : Address} {added : Bool}
    (hb : updateNode b nodeId nodeAddr = .ok (b', added)) : Within p b' := by
  unfold updateNode at hb
  split at hb
  next e he =>
    obtain ⟨-, heid⟩ := RingMap.get_some he
    cases hb
    refine ⟨?_, h.cache⟩
    intro x hx
    rcases mem_moveTail hx with rfl | hx
    · exact heid ▸ hid
    · exact h.entries x hx
  next =>
    dsimp only at hb
    split at hb
    · obtain ⟨entries, he, hb⟩ := bind_eq_ok.mp hb
      rw [RingMap.addTail_eq he] at hb
      cases hb
      refine ⟨?_, h.cache⟩
      intro x hx
      rw [RingMap.ids_append, List.mem_append] at hx
      rcases hx with hx | hx
      · exact h.entries x hx
      · exact List.mem_singleton.mp hx ▸ hid
    · obtain ⟨b1, hb1, hb⟩ := bind_eq_ok.mp hb
      cases hb
      unfold checkReplace at hb1
      split at hb1
      · exact replace_within h hid hb1
      · exact addToCache_within h hid hb1

theorem replaceFromCache_within (h : Within p b) {old : Contact Address} (hb : replaceFromCache b old = .ok b') : Within p b' := by
  unfold replaceFromCache at hb
  obtain ⟨entries, he, hb⟩ := bind_eq_ok.mp hb
  rw [RingMap.remove_eq he] at hb
  split at hb
  · cases hb
    exact ⟨fun x hx => h.entries x (RingMap.mem_without hx), h.cache⟩
  next c rest hc =>
    obtain ⟨cache, hcache, hb⟩ := bind_eq_ok.mp hb
    obtain ⟨entries', he', hb⟩ := bind_eq_ok.mp hb
    rw [RingMap.addTail_eq he', RingMap.remove_eq hcache] at hb
    cases hb
    constructor
    · intro x hx
      rw [RingMap.ids_append, List.mem_append] at hx
      rcases hx with hx | hx
      · exact h.entries x (RingMap.mem_without hx)
      · rw [List.mem_singleton.mp hx]
        exact h.cache _ (hc ▸ List.mem_cons_self)
    · intro x hx
      exact h.cache x (RingMap.mem_without hx)

theorem nodeTimeout_within (h : Within p b) {nodeId : Id} (hb : nodeTimeout b nodeId = .ok b') : Within p b' := by
  unfold nodeTimeout at hb
  split at hb
  · cases hb
    exact h
  next e he =>
    obtain ⟨hmem, heid⟩ := RingMap.get_some he
    have hcount : Within p { b with entries := b.entries.map fun c => if c.id = nodeId then { e with timeouts := e.timeouts + 1 } else c } := by
      refine ⟨?_, h.cache⟩
      intro x hx
      simp only [ids, List.map_map, List.mem_map, Function.comp_apply] at hx
      obtain ⟨c, hc, rfl⟩ := hx
      split
      · exact h.entries e.id (List.mem_map.mpr ⟨e, hmem, rfl⟩)
      · exact h.entries c.id (List.mem_map.mpr ⟨c, hc, rfl⟩)
    dsimp only at hb
    split at hb
    · exact replaceFromCache_within hcount hb
    · cases hb
      exact hcount

end Bucket

/-! ## The table -/

namespace Id

theorem isTop_of_highestOneBit {x : Id} {b : Nat} (h : highestOneBit x = b) : IsTop x b := by
  unfold highestOneBit at h
  split at h
  next bit hbit =>
    have hb : bit = b := by omega
    subst hb
    refine ⟨List.find?_some hbit, ?_⟩
    intro j hj
    by_cases hlt : j < numberOfBits
    · obtain ⟨-, as, bs, hsplit, hno⟩ := List.find?_eq_some_iff_append.mp hbit
      have hmem : j ∈ (List.range numberOfBits).reverse := List.mem_reverse.mpr (List.mem_range.mpr hlt)
      have hsorted : ((List.range numberOfBits).reverse).Pairwise (· > ·) := List.pairwise_reverse.mpr List.pairwise_lt_range
      rw [hsplit] at hmem hsorted
      rcases List.mem_append.mp hmem with hmem | hmem
      · have := hno j hmem
        simpa [getBit] using this
      · rcases List.mem_cons.mp hmem with rfl | hmem
        · omega
        · have := (List.pairwise_cons.mp (List.pairwise_append.mp hsorted).2.1).1 j hmem
          omega
    · exact BitVec.getLsbD_of_ge _ _ (Nat.le_of_not_lt hlt)
  next => omega

end Id

namespace Buckets

/-- Every contact is in the bucket of its id. -/
def Placed (t : Buckets Address) : Prop := ∀ (bid : Nat) (b : Bucket Address), t.buckets[bid]? = some b → b.Within fun x => bucketId t x = bid

inductive Reachable : Buckets Address → Prop
  | new (myId : Id) {bucketSize : Nat} (h : 0 < bucketSize) : Reachable (new myId bucketSize)
  | updateNode {t t' : Buckets Address} {id : Id} {addr : Address} {added : Bool} :
      Reachable t → updateNode t id addr = .ok (t', added) → Reachable t'
  | nodeTimeout {t t' : Buckets Address} {id : Id} : Reachable t → nodeTimeout t id = .ok t' → Reachable t'

variable {t t' : Buckets Address}

theorem sub_eq {bid : Int} {b : Bucket Address} (h : sub t bid = .ok b) : 0 ≤ bid ∧ t.buckets[bid.toNat]? = some b := by
  unfold sub at h
  split at h
  · cases h
  next h0 =>
    split at h
    · cases h
    next b' hb =>
      cases h
      exact ⟨by omega, hb⟩

theorem placed_new (myId : Id) (n : Nat) : Placed (new myId n : Buckets Address) := by
  intro bid b hb
  have hmem := List.mem_of_getElem? hb
  rw [List.eq_of_mem_replicate hmem]
  exact Bucket.within_new n

theorem placed_set (h : Placed t) {bid : Int} {b : Bucket Address} (h0 : 0 ≤ bid) (hb : b.Within fun x => bucketId t x = bid) :
    Placed (set t bid b) := by
  intro bid' b' hb'
  unfold set at hb'
  dsimp only at hb'
  rw [List.getElem?_set] at hb'
  split at hb'
  next heq =>
    split at hb'
    next =>
      cases hb'
      have hbid : ((bid' : Nat) : Int) = bid := by omega
      rw [hbid]
      exact hb
    next => cases hb'
  next => exact h bid' b' hb'

theorem updateNode_placed (h : Placed t) {id : Id} {addr : Address} {added : Bool} (ht : updateNode t id addr = .ok (t', added)) :
    Placed t' := by
  unfold updateNode at ht
  dsimp only at ht
  split at ht
  next h0 =>
    obtain ⟨b, hb, ht⟩ := bind_eq_ok.mp ht
    obtain ⟨⟨b', added'⟩, hb', ht⟩ := bind_eq_ok.mp ht
    cases ht
    obtain ⟨-, hget⟩ := sub_eq hb
    have hwithin := h _ b hget
    rw [Int.toNat_of_nonneg h0] at hwithin
    exact placed_set h h0 (Bucket.updateNode_within hwithin rfl hb')
  next =>
    cases ht
    exact h

theorem nodeTimeout_placed (h : Placed t) {id : Id} (ht : nodeTimeout t id = .ok t') : Placed t' := by
  unfold nodeTimeout at ht
  dsimp only at ht
  split at ht
  next h0 =>
    obtain ⟨b, hb, ht⟩ := bind_eq_ok.mp ht
    obtain ⟨b', hb', ht⟩ := bind_eq_ok.mp ht
    cases ht
    obtain ⟨-, hget⟩ := sub_eq hb
    have hwithin := h _ b hget
    rw [Int.toNat_of_nonneg h0] at hwithin
    exact placed_set h h0 (Bucket.nodeTimeout_within hwithin hb')
  next =>
    cases ht
    exact h

theorem Reachable.sound (h : Reachable t) : Sound t := by
  induction h with
  | new myId h => exact new_sound myId h
  | updateNode _ ht ih =>
    obtain ⟨t', added, ht', hsound, -⟩ := updateNode_sound ih _ _
    rw [ht] at ht'
    cases ht'
    exact hsound
  | nodeTimeout _ ht ih =>
    obtain ⟨t', ht', hsound, -⟩ := nodeTimeout_sound ih _
    rw [ht] at ht'
    cases ht'
    exact hsound

theorem Reachable.placed (h : Reachable t) : Placed t := by
  induction h with
  | new myId h => exact placed_new myId _
  | updateNode _ ht ih => exact updateNode_placed ih ht
  | nodeTimeout _ ht ih => exact nodeTimeout_placed ih ht

/-! ## The contacts -/

/-- The bucket with this number; there is none from 160 on. -/
def entriesAt (t : Buckets Address) (bid : Nat) : List (Contact Address) := (t.buckets[bid]?.map (·.entries)).getD []

theorem entriesAt_nil (h : Sound t) {bid : Nat} (hge : Id.numberOfBits ≤ bid) : entriesAt t bid = [] := by
  unfold entriesAt
  rw [List.getElem?_eq_none (h.size ▸ hge)]
  rfl

/-- All contacts that are known. -/
def contacts (t : Buckets Address) : List (Contact Address) := (List.range Id.numberOfBits).flatMap (entriesAt t)

theorem mem_contacts (h : Sound t) {c : Contact Address} : c ∈ contacts t ↔ ∃ bid, c ∈ entriesAt t bid := by
  unfold contacts
  rw [List.mem_flatMap]
  constructor
  · intro ⟨bid, _, hc⟩
    exact ⟨bid, hc⟩
  · intro ⟨bid, hc⟩
    refine ⟨bid, ?_, hc⟩
    rw [List.mem_range]
    by_contra hge
    rw [entriesAt_nil h (by omega)] at hc
    cases hc

theorem sub_entriesAt (h : Sound t) {bid : Nat} (hlt : bid < Id.numberOfBits) :
    ∃ b, sub t bid = .ok b ∧ b.entries = entriesAt t bid := by
  obtain ⟨b, hb, -⟩ := sub_ok h (Int.natCast_nonneg bid) (by omega)
  refine ⟨b, hb, ?_⟩
  obtain ⟨-, hget⟩ := sub_eq hb
  rw [Int.toNat_natCast] at hget
  unfold entriesAt
  rw [hget]
  rfl

/-- The highest bit that a contact and the node differ in. -/
theorem top_of_mem (h : Placed t) {bid : Nat} {c : Contact Address} (hc : c ∈ entriesAt t bid) : IsTop (t.myId ^^^ c.id) bid := by
  unfold entriesAt at hc
  cases hb : t.buckets[bid]? with
  | none =>
    rw [hb] at hc
    cases hc
  | some b =>
    rw [hb] at hc
    exact Id.isTop_of_highestOneBit ((h bid b hb).entries c.id (List.mem_map_of_mem hc))

theorem nodup_entriesAt (h : Sound t) (bid : Nat) : (ids (entriesAt t bid)).Nodup := by
  unfold entriesAt
  cases hb : t.buckets[bid]? with
  | none => exact List.nodup_nil
  | some b => exact (h.bucket b (List.mem_of_getElem? hb)).entries

end Buckets

end BubbleStorm.Kademlia
