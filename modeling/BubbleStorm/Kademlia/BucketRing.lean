/-
  BubbleStorm.Kademlia.BucketRing — a bucket as it is kept: each of its ring maps is a ring
  and a hash table, and both hold references (`src/kademlia/bucket.fun`,
  `src/kademlia/ring-map.fun`, `src/util/container/ring.sml`).

  A reference is the element of a ring with its contact, which changes in place. A ring is
  the list of its elements from the head; what is added leaves its old place in it.

  Proved: ring and table hold the same elements under the ids of their contacts, so every
  operation is the one of `Buckets` on the contacts in the order of the ring
  (`updateNode_refines`, `nodeTimeout_refines`); and after any updates and timeouts no
  exception was raised, entries and cache hold `k` contacts each at most, none twice, the
  cache some only if the entries are full, and no entry is stale (`bucket_invariant`).
-/

import BubbleStorm.Kademlia.Placement
import Mathlib.Data.List.Nodup
import Mathlib.Logic.Function.Basic

namespace BubbleStorm.Kademlia.BucketRing

open Function (update_of_ne update_self)
open BubbleStorm.Cusp (Exn)
open BubbleStorm.Lib
open Kademlia.RingMap (ids)

variable {Address : Type}

/-! ## Ring maps -/

structure RingMap where
  ring : List Nat
  map : List (Id × Nat)

namespace RingMap

def new : RingMap := ⟨[], []⟩

def get (r : RingMap) (key : Id) : Option Nat := (r.map.find? fun e => e.1 == key).map (·.2)

def contains (r : RingMap) (key : Id) : Bool := (r.get key).isSome

/-- `Map.add`. -/
def add (r : RingMap) (key : Id) (el : Nat) : Except Exn (List (Id × Nat)) :=
  if r.contains key then .error (.fail "KeyExists") else .ok ((key, el) :: r.map)

def addHead (r : RingMap) (key : Id) (el : Nat) : Except Exn RingMap := do
  return ⟨el :: r.ring, ← r.add key el⟩

def addTail (r : RingMap) (key : Id) (el : Nat) : Except Exn RingMap := do
  return ⟨r.ring ++ [el], ← r.add key el⟩

/-- `Ring.remove` of an element. -/
def unlink (r : RingMap) (el : Nat) : List Nat := r.ring.filter (· != el)

def moveHead (r : RingMap) (el : Nat) : RingMap := ⟨el :: r.unlink el, r.map⟩

def moveTail (r : RingMap) (el : Nat) : RingMap := ⟨r.unlink el ++ [el], r.map⟩

def remove (r : RingMap) (key : Id) : Except Exn RingMap :=
  match r.get key with
  | some el => .ok ⟨r.unlink el, r.map.filter fun e => e.1 != key⟩
  | none => .error (.fail "KeyDoesNotExist")

def size (r : RingMap) : Nat := r.map.length

end RingMap

/-! ## The bucket -/

structure Cells (Address : Type) where
  maxSize : Nat
  entries : RingMap
  replacementCache : RingMap
  contact : Nat → Contact Address
  /-- The reference of the next contact. -/
  next : Nat

namespace Cells

def new (bucketSize : Nat) (nothing : Contact Address) : Cells Address := ⟨bucketSize, .new, .new, fun _ => nothing, 0⟩

variable (b : Cells Address)

def replace (contact oldContact : Nat) : Except Exn (Cells Address) := do
  let contactId := (b.contact contact).id
  let entries ← b.entries.remove (b.contact oldContact).id
  let replacementCache ← if b.replacementCache.contains contactId then b.replacementCache.remove contactId else .ok b.replacementCache
  return { b with entries := ← entries.addHead contactId contact, replacementCache }

def makeRoom : Except Exn RingMap :=
  if b.maxSize ≤ b.replacementCache.size then
    match b.replacementCache.ring.getLast? with
    | none => .error (.fail "Option")
    | some el => b.replacementCache.remove (b.contact el).id
  else .ok b.replacementCache

def addToCache (contact : Nat) : Except Exn (Cells Address) := do
  let contactId := (b.contact contact).id
  match b.replacementCache.get contactId with
  | some el => return { b with replacementCache := b.replacementCache.moveHead el }
  | none => return { b with replacementCache := ← (← b.makeRoom).addHead contactId contact }

def checkReplace (contact : Nat) : Except Exn (Cells Address) :=
  match b.entries.ring.find? fun el => Bucket.isStale (b.contact el) with
  | some e => b.replace contact e
  | none => b.addToCache contact

def replaceFromCache (entry : Nat) : Except Exn (Cells Address) := do
  let entries ← b.entries.remove (b.contact entry).id
  match b.replacementCache.ring.head? with
  | some el =>
    let contactId := (b.contact el).id
    let replacementCache ← b.replacementCache.remove contactId
    return { b with entries := ← entries.addTail contactId el, replacementCache }
  | none => return { b with entries }

/-- A contact changes in place. -/
def change (el : Nat) (c : Contact Address) : Cells Address := { b with contact := Function.update b.contact el c }

/-- `Contact.new`. -/
def wrap (c : Contact Address) : Cells Address := { b.change b.next c with next := b.next + 1 }

def updateNode (nodeId : Id) (nodeAddr : Address) : Except Exn (Cells Address × Bool) := do
  match b.entries.get nodeId with
  | some e =>
    let b := b.change e { b.contact e with addr := nodeAddr, timeouts := 0 }
    return ({ b with entries := b.entries.moveTail e }, false)
  | none =>
    let contact := b.next
    let b := b.wrap ⟨nodeId, nodeAddr, 0⟩
    if b.entries.size < b.maxSize then return ({ b with entries := ← b.entries.addTail nodeId contact }, true)
    else return (← b.checkReplace contact, false)

def nodeTimeout (nodeId : Id) : Except Exn (Cells Address) :=
  match b.entries.get nodeId with
  | none => .ok b
  | some e =>
    let b := b.change e { b.contact e with timeouts := (b.contact e).timeouts + 1 }
    if Bucket.isStale (b.contact e) then b.replaceFromCache e else .ok b

end Cells

/-! ## The ring and the table -/

/-- The contacts in the order of the ring. -/
def view (contact : Nat → Contact Address) (r : RingMap) : List (Contact Address) := r.ring.map contact

/-- Ring and table hold the same elements, under the ids of their contacts, each once. -/
structure Agree (contact : Nat → Contact Address) (r : RingMap) : Prop where
  same : r.map.Perm (r.ring.map fun el => ((contact el).id, el))
  nodup : (ids (view contact r)).Nodup

namespace Agree

variable {contact : Nat → Contact Address} {r r' : RingMap}

theorem empty (contact : Nat → Contact Address) : Agree contact .new := ⟨List.Perm.nil, List.nodup_nil⟩

theorem mem_map (h : Agree contact r) {key : Id} {el : Nat} : (key, el) ∈ r.map ↔ el ∈ r.ring ∧ (contact el).id = key := by
  rw [h.same.mem_iff, List.mem_map]
  constructor
  · rintro ⟨el', hel, heq⟩
    cases heq
    exact ⟨hel, rfl⟩
  · rintro ⟨hel, rfl⟩
    exact ⟨el, hel, rfl⟩

theorem inj (h : Agree contact r) {el el' : Nat} (hel : el ∈ r.ring) (hel' : el' ∈ r.ring) (hid : (contact el).id = (contact el').id) :
    el = el' := by
  have hnodup := h.nodup
  unfold view ids at hnodup
  rw [List.map_map] at hnodup
  exact List.inj_on_of_nodup_map hnodup hel hel' hid

theorem ring_nodup (h : Agree contact r) : r.ring.Nodup := by
  have hnodup := h.nodup
  unfold view ids at hnodup
  rw [List.map_map] at hnodup
  exact List.Nodup.of_map _ hnodup

theorem get_some (h : Agree contact r) {key : Id} {el : Nat} : r.get key = some el ↔ el ∈ r.ring ∧ (contact el).id = key := by
  unfold RingMap.get
  constructor
  · intro hget
    obtain ⟨⟨key', el'⟩, hfind, rfl⟩ := Option.map_eq_some_iff.mp hget
    have hkey := List.find?_some hfind
    have hmem := List.mem_of_find?_eq_some hfind
    simp only [beq_iff_eq] at hkey
    exact h.mem_map.mp (hkey ▸ hmem)
  · intro hel
    have hmem := h.mem_map.mpr hel
    cases hfind : r.map.find? fun e => e.1 == key with
    | none =>
      have := List.find?_eq_none.mp hfind _ hmem
      simp at this
    | some e =>
      obtain ⟨key', el'⟩ := e
      have hkey := List.find?_some hfind
      simp only [beq_iff_eq] at hkey
      obtain ⟨hel', hid'⟩ := h.mem_map.mp (List.mem_of_find?_eq_some hfind)
      have hsame := h.inj hel' hel.1 (by rw [hid', hel.2, hkey])
      rw [hsame]
      rfl

/-- The table finds what a search of the ring would. -/
theorem get_view (h : Agree contact r) (key : Id) : Kademlia.RingMap.get (view contact r) key = (r.get key).map contact := by
  cases hget : r.get key with
  | some el =>
    obtain ⟨hel, hid⟩ := h.get_some.mp hget
    cases hfind : Kademlia.RingMap.get (view contact r) key with
    | none =>
      have hnot := Kademlia.RingMap.get_none hfind
      exact absurd (List.mem_map.mpr ⟨contact el, List.mem_map_of_mem hel, hid⟩) hnot
    | some c =>
      obtain ⟨hc, hcid⟩ := Kademlia.RingMap.get_some hfind
      obtain ⟨el', hel', rfl⟩ := List.mem_map.mp hc
      rw [h.inj hel' hel (hcid.trans hid.symm)]
      rfl
  | none =>
    cases hfind : Kademlia.RingMap.get (view contact r) key with
    | none => rfl
    | some c =>
      obtain ⟨hc, hcid⟩ := Kademlia.RingMap.get_some hfind
      obtain ⟨el, hel, rfl⟩ := List.mem_map.mp hc
      rw [h.get_some.mpr ⟨hel, hcid⟩] at hget
      cases hget

theorem contains_view (h : Agree contact r) (key : Id) : Kademlia.RingMap.contains (view contact r) key = r.contains key := by
  unfold Kademlia.RingMap.contains RingMap.contains
  rw [h.get_view]
  exact Option.isSome_map

theorem size_view (h : Agree contact r) : r.size = (view contact r).length := by
  unfold RingMap.size view
  rw [h.same.length_eq, List.length_map, List.length_map]

/-- The elements left are those of another id. -/
theorem unlink_eq (h : Agree contact r) {el : Nat} (hel : el ∈ r.ring) :
    r.unlink el = r.ring.filter fun x => (contact x).id != (contact el).id := by
  apply List.filter_congr
  intro x hx
  rw [Bool.eq_iff_iff, bne_iff_ne, bne_iff_ne]
  exact not_congr ⟨fun heq => by rw [heq], h.inj hx hel⟩

theorem unlink_view (h : Agree contact r) {el : Nat} (hel : el ∈ r.ring) :
    (r.unlink el).map contact = Kademlia.RingMap.without (view contact r) (contact el).id := by
  unfold Kademlia.RingMap.without view
  rw [h.unlink_eq hel, List.filter_map]
  rfl

theorem remove_ok (h : Agree contact r) {el : Nat} (hel : el ∈ r.ring) : ∃ r', r.remove (contact el).id = .ok r' ∧
    view contact r' = Kademlia.RingMap.without (view contact r) (contact el).id ∧ Agree contact r' ∧ r'.ring = r.unlink el := by
  refine ⟨⟨r.unlink el, r.map.filter fun e => e.1 != (contact el).id⟩, ?_, h.unlink_view hel, ⟨?_, ?_⟩, rfl⟩
  · unfold RingMap.remove
    rw [h.get_some.mpr ⟨hel, rfl⟩]
  · show (r.map.filter fun e => e.1 != (contact el).id).Perm ((r.unlink el).map fun x => ((contact x).id, x))
    have hring : (r.unlink el).map (fun x => ((contact x).id, x)) =
        (r.ring.map fun x => ((contact x).id, x)).filter fun e => e.1 != (contact el).id := by
      rw [h.unlink_eq hel, List.filter_map]
      rfl
    rw [hring]
    exact h.same.filter _
  · show (ids ((r.unlink el).map contact)).Nodup
    rw [h.unlink_view hel]
    exact Kademlia.RingMap.nodup_without _ h.nodup

theorem add_ok (h : Agree contact r) {el : Nat} (hel : (contact el).id ∉ ids (view contact r)) :
    r.add (contact el).id el = .ok (((contact el).id, el) :: r.map) := by
  refine if_neg fun hc => ?_
  rw [← h.contains_view] at hc
  exact hel (Kademlia.RingMap.contains_iff.mp hc)

theorem addHead_ok (h : Agree contact r) {el : Nat} (hel : (contact el).id ∉ ids (view contact r)) :
    ∃ r', r.addHead (contact el).id el = .ok r' ∧ view contact r' = contact el :: view contact r ∧ Agree contact r' ∧
      r'.ring = el :: r.ring :=
  ⟨⟨el :: r.ring, ((contact el).id, el) :: r.map⟩, bind_eq_ok.mpr ⟨_, h.add_ok hel, rfl⟩, rfl,
    ⟨h.same.cons _, List.nodup_cons.mpr ⟨hel, h.nodup⟩⟩, rfl⟩

theorem addTail_ok (h : Agree contact r) {el : Nat} (hel : (contact el).id ∉ ids (view contact r)) :
    ∃ r', r.addTail (contact el).id el = .ok r' ∧ view contact r' = view contact r ++ [contact el] ∧ Agree contact r' ∧
      r'.ring = r.ring ++ [el] := by
  have hview : view contact ⟨r.ring ++ [el], ((contact el).id, el) :: r.map⟩ = view contact r ++ [contact el] := List.map_append
  refine ⟨⟨r.ring ++ [el], ((contact el).id, el) :: r.map⟩, bind_eq_ok.mpr ⟨_, h.add_ok hel, rfl⟩, hview, ⟨?_, ?_⟩, rfl⟩
  · show (((contact el).id, el) :: r.map).Perm ((r.ring ++ [el]).map fun x => ((contact x).id, x))
    rw [List.map_append]
    exact (h.same.cons _).trans (List.perm_append_singleton _ _).symm
  · rw [hview]
    exact Kademlia.RingMap.nodup_concat h.nodup hel

theorem unlink_perm (h : Agree contact r) {el : Nat} (hel : el ∈ r.ring) : (el :: r.unlink el).Perm r.ring := by
  unfold RingMap.unlink
  rw [← h.ring_nodup.erase_eq_filter]
  exact (List.perm_cons_erase hel).symm

/-- The ring changes its order. -/
theorem reorder (h : Agree contact r) {ring : List Nat} (hp : ring.Perm r.ring) : Agree contact ⟨ring, r.map⟩ where
  same := h.same.trans (hp.map _).symm
  nodup := by
    have hids : (ids (view contact ⟨ring, r.map⟩)).Perm (ids (view contact r)) := (hp.map contact).map _
    exact hids.nodup_iff.mpr h.nodup

theorem moveHead_view (h : Agree contact r) {el : Nat} (hel : el ∈ r.ring) :
    view contact (r.moveHead el) = Kademlia.RingMap.moveHead (view contact r) (contact el) := by
  show contact el :: (r.unlink el).map contact = _
  rw [h.unlink_view hel]
  rfl

theorem moveHead_agree (h : Agree contact r) {el : Nat} (hel : el ∈ r.ring) : Agree contact (r.moveHead el) :=
  h.reorder (h.unlink_perm hel)

theorem moveTail_agree (h : Agree contact r) {el : Nat} (hel : el ∈ r.ring) : Agree contact (r.moveTail el) :=
  h.reorder ((List.perm_append_singleton _ _).trans (h.unlink_perm hel))

/-- Contacts change, but not their ids. -/
theorem change {contact' : Nat → Contact Address} (h : Agree contact r) (hids : ∀ el ∈ r.ring, (contact' el).id = (contact el).id) :
    Agree contact' r where
  same := by
    have hmap : (r.ring.map fun el => ((contact' el).id, el)) = r.ring.map fun el => ((contact el).id, el) :=
      List.map_congr_left fun el hel => by rw [hids el hel]
    rw [hmap]
    exact h.same
  nodup := by
    have hview : ids (view contact' r) = ids (view contact r) := by
      unfold ids view
      rw [List.map_map, List.map_map]
      exact List.map_congr_left fun el hel => hids el hel
    rw [hview]
    exact h.nodup

end Agree

/-! ## The bucket refines the one over lists -/

namespace Cells

/-- The contacts of the bucket. -/
def bucket (b : Cells Address) : Bucket Address := ⟨b.maxSize, view b.contact b.entries, view b.contact b.replacementCache⟩

structure Linked (b : Cells Address) : Prop where
  entries : Agree b.contact b.entries
  cache : Agree b.contact b.replacementCache
  entriesOld : ∀ el ∈ b.entries.ring, el < b.next
  cacheOld : ∀ el ∈ b.replacementCache.ring, el < b.next

/-- The operation does on the contacts what the other does, and keeps rings and tables together. -/
def Refines (x : Except Exn (Cells Address)) (y : Except Exn (Bucket Address)) : Prop := ∃ b', x = .ok b' ∧ y = .ok b'.bucket ∧ b'.Linked

variable {b : Cells Address}

theorem mem_ids {contact : Nat → Contact Address} {r : RingMap} {el : Nat} (h : el ∈ r.ring) : (contact el).id ∈ ids (view contact r) :=
  List.mem_map_of_mem (List.mem_map_of_mem h)

theorem mem_unlink {r : RingMap} {el x : Nat} (h : x ∈ r.unlink el) : x ∈ r.ring := List.mem_of_mem_filter h

theorem replace_refines (h : Linked b) {new old : Nat} (hnew : new < b.next) (hid : (b.contact new).id ∉ ids (view b.contact b.entries))
    (hold : old ∈ b.entries.ring) : Refines (b.replace new old) (Bucket.replace b.bucket (b.contact new) (b.contact old)) := by
  obtain ⟨entries, hentries, hview, hagree, hring⟩ := h.entries.remove_ok hold
  have hid' : (b.contact new).id ∉ ids (view b.contact entries) := by
    rw [hview]
    exact fun hmem => hid (Kademlia.RingMap.mem_without hmem)
  obtain ⟨entries', hentries', hview', hagree', hring'⟩ := hagree.addHead_ok hid'
  have hremove : Kademlia.RingMap.remove b.bucket.entries (b.contact old).id = .ok (view b.contact entries) := by
    rw [hview]
    exact Kademlia.RingMap.remove_ok (mem_ids hold)
  have hadd : Kademlia.RingMap.addHead (view b.contact entries) (b.contact new) = .ok (view b.contact entries') := by
    rw [hview']
    exact Kademlia.RingMap.addHead_ok hid'
  have hlt : ∀ el ∈ entries'.ring, el < b.next := by
    intro el hel
    rw [hring', hring] at hel
    rcases List.mem_cons.mp hel with rfl | hel
    · exact hnew
    · exact h.entriesOld el (mem_unlink hel)
  unfold replace Bucket.replace
  dsimp only
  rw [show b.bucket.replacementCache = view b.contact b.replacementCache from rfl, h.cache.contains_view]
  by_cases hin : b.replacementCache.contains (b.contact new).id = true
  · obtain ⟨el, hel⟩ := Option.isSome_iff_exists.mp hin
    obtain ⟨helring, helid⟩ := h.cache.get_some.mp hel
    obtain ⟨cache, hcache, hcview, hcagree, hcring⟩ := h.cache.remove_ok helring
    have hcache' : Kademlia.RingMap.remove (view b.contact b.replacementCache) (b.contact el).id = .ok (view b.contact cache) := by
      rw [hcview]
      exact Kademlia.RingMap.remove_ok (mem_ids helring)
    rw [helid] at hcache hcache'
    simp only [if_pos hin]
    refine ⟨{ b with entries := entries', replacementCache := cache }, ?_, ?_, hagree', hcagree, hlt, ?_⟩
    · exact bind_eq_ok.mpr ⟨entries, hentries, bind_eq_ok.mpr ⟨cache, hcache, bind_eq_ok.mpr ⟨entries', hentries', rfl⟩⟩⟩
    · exact bind_eq_ok.mpr ⟨_, hremove, bind_eq_ok.mpr ⟨view b.contact cache, hcache', bind_eq_ok.mpr ⟨_, hadd, rfl⟩⟩⟩
    · intro x hx
      exact h.cacheOld x (mem_unlink (hcring ▸ hx))
  · simp only [if_neg hin]
    refine ⟨{ b with entries := entries' }, ?_, ?_, hagree', h.cache, hlt, h.cacheOld⟩
    · exact bind_eq_ok.mpr ⟨entries, hentries, bind_eq_ok.mpr ⟨_, rfl, bind_eq_ok.mpr ⟨entries', hentries', rfl⟩⟩⟩
    · exact bind_eq_ok.mpr ⟨_, hremove, bind_eq_ok.mpr ⟨_, rfl, bind_eq_ok.mpr ⟨_, hadd, rfl⟩⟩⟩

theorem makeRoom_refines (h : Linked b) (hroom : 0 < b.maxSize) : ∃ cache, b.makeRoom = .ok cache ∧
    Bucket.makeRoom b.bucket = .ok (view b.contact cache) ∧ Agree b.contact cache ∧ ∀ el ∈ cache.ring, el ∈ b.replacementCache.ring := by
  unfold makeRoom Bucket.makeRoom
  rw [h.cache.size_view]
  show ∃ cache, (if b.maxSize ≤ (view b.contact b.replacementCache).length then _ else _) = _ ∧
    (if b.maxSize ≤ (view b.contact b.replacementCache).length then _ else _) = _ ∧ _
  by_cases hfull : b.maxSize ≤ (view b.contact b.replacementCache).length
  · rw [if_pos hfull, if_pos hfull]
    have hne : b.replacementCache.ring ≠ [] := by
      intro hnil
      unfold view at hfull
      rw [hnil] at hfull
      simp only [List.map_nil, List.length_nil] at hfull
      omega
    have hlast : b.replacementCache.ring.getLast hne ∈ b.replacementCache.ring := List.getLast_mem hne
    have hview : (view b.contact b.replacementCache).getLast? = some (b.contact (b.replacementCache.ring.getLast hne)) := by
      unfold view
      rw [List.getLast?_map, List.getLast?_eq_some_getLast hne]
      rfl
    rw [List.getLast?_eq_some_getLast hne]
    rw [show b.bucket.replacementCache = view b.contact b.replacementCache from rfl, hview]
    obtain ⟨cache, hcache, hcview, hcagree, hcring⟩ := h.cache.remove_ok hlast
    refine ⟨cache, hcache, ?_, hcagree, ?_⟩
    · rw [hcview]
      exact Kademlia.RingMap.remove_ok (mem_ids hlast)
    · intro el hel
      exact mem_unlink (hcring ▸ hel)
  · rw [if_neg hfull, if_neg hfull]
    exact ⟨b.replacementCache, rfl, rfl, h.cache, fun _ hel => hel⟩

theorem addToCache_refines (h : Linked b) (hroom : 0 < b.maxSize) {new : Nat} (hnew : new < b.next) :
    Refines (b.addToCache new) (Bucket.addToCache b.bucket (b.contact new)) := by
  have hget := h.cache.get_view (b.contact new).id
  unfold addToCache Bucket.addToCache
  dsimp only
  rw [show b.bucket.replacementCache = view b.contact b.replacementCache from rfl, hget]
  cases hcached : b.replacementCache.get (b.contact new).id with
  | some el =>
    obtain ⟨hel, -⟩ := h.cache.get_some.mp hcached
    refine ⟨_, rfl, ?_, h.entries, h.cache.moveHead_agree hel, h.entriesOld, ?_⟩
    · unfold bucket
      dsimp only
      rw [h.cache.moveHead_view hel]
      rfl
    · intro x hx
      exact h.cacheOld x ((h.cache.unlink_perm hel).mem_iff.mp hx)
  | none =>
    obtain ⟨cache, hcache, hcache', hagree, hsub⟩ := makeRoom_refines h hroom
    have hnot : (b.contact new).id ∉ ids (view b.contact cache) := by
      intro hmem
      obtain ⟨c, hc, hid⟩ := List.mem_map.mp hmem
      obtain ⟨el, hel, rfl⟩ := List.mem_map.mp hc
      rw [h.cache.get_some.mpr ⟨hsub el hel, hid⟩] at hcached
      cases hcached
    obtain ⟨cache', hadd, hview, hagree', hring⟩ := hagree.addHead_ok hnot
    refine ⟨{ b with replacementCache := cache' }, ?_, ?_, h.entries, hagree', h.entriesOld, ?_⟩
    · exact bind_eq_ok.mpr ⟨cache, hcache, bind_eq_ok.mpr ⟨cache', hadd, rfl⟩⟩
    · refine bind_eq_ok.mpr ⟨_, hcache', bind_eq_ok.mpr ⟨view b.contact cache', ?_, rfl⟩⟩
      rw [hview]
      exact Kademlia.RingMap.addHead_ok hnot
    · intro el hel
      rw [hring] at hel
      rcases List.mem_cons.mp hel with rfl | hel
      · exact hnew
      · exact h.cacheOld el (hsub el hel)

theorem checkReplace_refines (h : Linked b) (hroom : 0 < b.maxSize) {new : Nat} (hnew : new < b.next)
    (hid : (b.contact new).id ∉ ids (view b.contact b.entries)) :
    Refines (b.checkReplace new) (Bucket.checkReplace b.bucket (b.contact new)) := by
  unfold checkReplace Bucket.checkReplace
  have hfind : b.bucket.entries.find? Bucket.isStale = (b.entries.ring.find? fun el => Bucket.isStale (b.contact el)).map b.contact :=
    List.find?_map ..
  rw [hfind]
  cases hstale : b.entries.ring.find? fun el => Bucket.isStale (b.contact el) with
  | some e => exact replace_refines h hnew hid (List.mem_of_find?_eq_some hstale)
  | none => exact addToCache_refines h hroom hnew

theorem replaceFromCache_refines (h : Linked b) (hsound : b.bucket.Sound) {entry : Nat} (hentry : entry ∈ b.entries.ring) :
    Refines (b.replaceFromCache entry) (Bucket.replaceFromCache b.bucket (b.contact entry)) := by
  obtain ⟨entries, hentries, hview, hagree, hring⟩ := h.entries.remove_ok hentry
  have hremove : Kademlia.RingMap.remove b.bucket.entries (b.contact entry).id = .ok (view b.contact entries) := by
    rw [hview]
    exact Kademlia.RingMap.remove_ok (mem_ids hentry)
  have hold : ∀ el ∈ entries.ring, el < b.next := by
    intro el hel
    rw [hring] at hel
    exact h.entriesOld el (mem_unlink hel)
  unfold replaceFromCache Bucket.replaceFromCache
  cases hc : b.replacementCache.ring with
  | nil =>
    have hnil : b.bucket.replacementCache = [] := by
      show b.replacementCache.ring.map b.contact = []
      rw [hc]
      rfl
    refine ⟨{ b with entries := entries }, ?_, ?_, hagree, h.cache, hold, ?_⟩
    · exact bind_eq_ok.mpr ⟨entries, hentries, rfl⟩
    · refine bind_eq_ok.mpr ⟨_, hremove, ?_⟩
      rw [hnil]
      show Except.ok (⟨b.maxSize, view b.contact entries, []⟩ : Bucket Address) = .ok ⟨b.maxSize, view b.contact entries, b.bucket.replacementCache⟩
      rw [hnil]
    · intro el hel
      exact h.cacheOld el hel
  | cons el rest =>
    have hel : el ∈ b.replacementCache.ring := hc ▸ List.mem_cons_self
    have hcons : b.bucket.replacementCache = b.contact el :: rest.map b.contact := by
      show b.replacementCache.ring.map b.contact = _
      rw [hc]
      rfl
    obtain ⟨cache, hcache, hcview, hcagree, hcring⟩ := h.cache.remove_ok hel
    have hnot : (b.contact el).id ∉ ids (view b.contact entries) := by
      rw [hview]
      intro hmem
      exact hsound.once _ (Kademlia.RingMap.mem_without hmem) (mem_ids hel)
    obtain ⟨entries', hentries', hview', hagree', hring'⟩ := hagree.addTail_ok hnot
    refine ⟨{ b with entries := entries', replacementCache := cache }, ?_, ?_, hagree', hcagree, ?_, ?_⟩
    · exact bind_eq_ok.mpr ⟨entries, hentries, bind_eq_ok.mpr ⟨cache, hcache, bind_eq_ok.mpr ⟨entries', hentries', rfl⟩⟩⟩
    · refine bind_eq_ok.mpr ⟨_, hremove, ?_⟩
      rw [hcons]
      dsimp only
      rw [← hcons]
      refine bind_eq_ok.mpr ⟨view b.contact cache, ?_, bind_eq_ok.mpr ⟨view b.contact entries', ?_, rfl⟩⟩
      · rw [hcview]
        exact Kademlia.RingMap.remove_ok (mem_ids hel)
      · rw [hview']
        exact Kademlia.RingMap.addTail_ok hnot
    · intro x hx
      rw [hring'] at hx
      rcases List.mem_append.mp hx with hx | hx
      · exact hold x hx
      · cases List.mem_singleton.mp hx
        exact h.cacheOld el hel
    · intro x hx
      rw [hcring] at hx
      exact h.cacheOld x (mem_unlink hx)

/-- A contact changes, but not its id. -/
theorem change_linked (h : Linked b) {e : Nat} {c : Contact Address} (hid : c.id = (b.contact e).id) : Linked (b.change e c) := by
  have hids : ∀ x, ((b.change e c).contact x).id = (b.contact x).id := by
    intro x
    unfold change
    dsimp only
    by_cases hx : x = e
    · rw [hx, update_self, hid]
    · rw [update_of_ne hx]
  exact ⟨h.entries.change fun x _ => hids x, h.cache.change fun x _ => hids x, h.entriesOld, h.cacheOld⟩

/-- It is not in the cache, so the cache has not changed. -/
theorem change_cache (hsound : b.bucket.Sound) {el : Nat} (hel : el ∈ b.entries.ring) (c : Contact Address) :
    view (b.change el c).contact b.replacementCache = view b.contact b.replacementCache := by
  unfold view
  apply List.map_congr_left
  intro x hx
  refine update_of_ne ?_ _ _
  intro heq
  subst heq
  exact hsound.once _ (mem_ids hel) (mem_ids hx)

/-- At the end of the ring it is the changed contact that stands. -/
theorem change_moveTail (h : Linked b) {el : Nat} (hel : el ∈ b.entries.ring) (c : Contact Address) (hid : c.id = (b.contact el).id) :
    view (b.change el c).contact (b.entries.moveTail el) = Kademlia.RingMap.moveTail b.bucket.entries c := by
  have hself : (b.change el c).contact el = c := update_self _ _ _
  have hothers : (b.entries.unlink el).map (b.change el c).contact = (b.entries.unlink el).map b.contact := by
    apply List.map_congr_left
    intro x hx
    exact update_of_ne (bne_iff_ne.mp (List.mem_filter.mp hx).2) _ _
  show (b.entries.unlink el ++ [el]).map _ = Kademlia.RingMap.without _ c.id ++ [c]
  rw [List.map_append, hothers, h.entries.unlink_view hel, List.map_singleton, hself, hid]
  rfl

/-- In its place it is the one entry of its id that has changed. -/
theorem change_bucket (h : Linked b) (hsound : b.bucket.Sound) {el : Nat} (hel : el ∈ b.entries.ring) (c : Contact Address) :
    (b.change el c).bucket =
      { b.bucket with entries := b.bucket.entries.map fun x => if x.id = (b.contact el).id then c else x } := by
  have hentries : view (b.change el c).contact b.entries =
      (view b.contact b.entries).map fun x => if x.id = (b.contact el).id then c else x := by
    unfold view
    rw [List.map_map]
    apply List.map_congr_left
    intro x hx
    show (b.change el c).contact x = if (b.contact x).id = (b.contact el).id then c else b.contact x
    by_cases hxel : x = el
    · rw [hxel, if_pos rfl]
      exact update_self _ _ _
    · rw [if_neg fun heq => hxel (h.entries.inj hx hel heq)]
      exact update_of_ne hxel _ _
  unfold bucket
  rw [show (b.change el c).entries = b.entries from rfl, show (b.change el c).replacementCache = b.replacementCache from rfl,
    change_cache hsound hel, hentries]
  rfl

theorem wrap_contact (b : Cells Address) (c : Contact Address) {el : Nat} (hel : el < b.next) : (b.wrap c).contact el = b.contact el :=
  update_of_ne (Nat.ne_of_lt hel) _ _

theorem wrap_view {r : RingMap} (c : Contact Address) (hold : ∀ el ∈ r.ring, el < b.next) : view (b.wrap c).contact r = view b.contact r :=
  List.map_congr_left fun el hel => wrap_contact b c (hold el hel)

theorem wrap_linked (h : Linked b) (c : Contact Address) : Linked (b.wrap c) where
  entries := h.entries.change fun el hel => by rw [wrap_contact b c (h.entriesOld el hel)]
  cache := h.cache.change fun el hel => by rw [wrap_contact b c (h.cacheOld el hel)]
  entriesOld := fun el hel => Nat.lt_succ_of_lt (h.entriesOld el hel)
  cacheOld := fun el hel => Nat.lt_succ_of_lt (h.cacheOld el hel)

theorem wrap_bucket (h : Linked b) (c : Contact Address) : (b.wrap c).bucket = b.bucket := by
  show (⟨b.maxSize, view (b.wrap c).contact b.entries, view (b.wrap c).contact b.replacementCache⟩ : Bucket Address) = b.bucket
  rw [wrap_view c h.entriesOld, wrap_view c h.cacheOld]
  rfl

theorem updateNode_refines (h : Linked b) (hsound : b.bucket.Sound) (nodeId : Id) (nodeAddr : Address) :
    ∃ b' added, b.updateNode nodeId nodeAddr = .ok (b', added) ∧ Bucket.updateNode b.bucket nodeId nodeAddr = .ok (b'.bucket, added) ∧
      b'.Linked := by
  have hget : Kademlia.RingMap.get b.bucket.entries nodeId = (b.entries.get nodeId).map b.contact := h.entries.get_view nodeId
  unfold updateNode Bucket.updateNode
  rw [hget]
  cases hg : b.entries.get nodeId with
  | some e =>
    obtain ⟨he, hid⟩ := h.entries.get_some.mp hg
    have hchanged := change_linked h (e := e) (c := { b.contact e with addr := nodeAddr, timeouts := 0 }) rfl
    refine ⟨_, false, rfl, ?_, ⟨hchanged.entries.moveTail_agree he, hchanged.cache, ?_, h.cacheOld⟩⟩
    · have hbucket : Cells.bucket { b.change e { b.contact e with addr := nodeAddr, timeouts := 0 } with
          entries := b.entries.moveTail e } =
          { b.bucket with entries := Kademlia.RingMap.moveTail b.bucket.entries { b.contact e with addr := nodeAddr, timeouts := 0 } } := by
        unfold bucket
        dsimp only
        rw [show (b.change e { b.contact e with addr := nodeAddr, timeouts := 0 }).replacementCache = b.replacementCache from rfl,
          change_cache hsound he, change_moveTail h he { b.contact e with addr := nodeAddr, timeouts := 0 } rfl]
        rfl
      exact congrArg (fun x => Except.ok (x, false)) hbucket.symm
    · intro x hx
      exact h.entriesOld x ((h.entries.unlink_perm he).mem_iff.mp ((List.perm_append_singleton _ _).mem_iff.mp hx))
  | none =>
    have hwrapped := wrap_linked h (⟨nodeId, nodeAddr, 0⟩ : Contact Address)
    have hbucket := wrap_bucket h (⟨nodeId, nodeAddr, 0⟩ : Contact Address)
    have hself : (b.wrap ⟨nodeId, nodeAddr, 0⟩).contact b.next = ⟨nodeId, nodeAddr, 0⟩ := update_self _ _ _
    have hnot : ((b.wrap ⟨nodeId, nodeAddr, 0⟩).contact b.next).id ∉ ids (view (b.wrap ⟨nodeId, nodeAddr, 0⟩).contact b.entries) := by
      rw [hself, wrap_view _ h.entriesOld]
      exact Kademlia.RingMap.get_none (hget.trans (by rw [hg]; rfl))
    have hnew : b.next < (b.wrap ⟨nodeId, nodeAddr, 0⟩).next := Nat.lt_succ_self _
    dsimp only [Option.map_none]
    have hsize : b.entries.size = b.bucket.size := h.entries.size_view
    by_cases hlt : b.bucket.size < b.maxSize
    · obtain ⟨entries, hadd, hview, hagree, hring⟩ := hwrapped.entries.addTail_ok hnot
      rw [hself] at hadd hview
      have hlist : Kademlia.RingMap.addTail b.bucket.entries ⟨nodeId, nodeAddr, 0⟩ = .ok (view (b.wrap ⟨nodeId, nodeAddr, 0⟩).contact entries) := by
        rw [hview, show (b.wrap ⟨nodeId, nodeAddr, 0⟩).entries = b.entries from rfl, wrap_view _ h.entriesOld]
        rw [hself, wrap_view _ h.entriesOld] at hnot
        exact Kademlia.RingMap.addTail_ok hnot
      rw [if_pos (show (b.wrap ⟨nodeId, nodeAddr, 0⟩).entries.size < (b.wrap ⟨nodeId, nodeAddr, 0⟩).maxSize from hsize ▸ hlt),
        if_pos (show b.bucket.size < b.bucket.maxSize from hlt)]
      refine ⟨{ b.wrap ⟨nodeId, nodeAddr, 0⟩ with entries := entries }, true, bind_eq_ok.mpr ⟨entries, hadd, rfl⟩, ?_, ⟨hagree, hwrapped.cache, ?_,
        hwrapped.cacheOld⟩⟩
      · refine bind_eq_ok.mpr ⟨_, hlist, ?_⟩
        rw [← hbucket]
        rfl
      · intro x hx
        rw [hring] at hx
        rcases List.mem_append.mp hx with hx | hx
        · exact hwrapped.entriesOld x hx
        · cases List.mem_singleton.mp hx
          exact hnew
    · rw [if_neg (show ¬ (b.wrap ⟨nodeId, nodeAddr, 0⟩).entries.size < (b.wrap ⟨nodeId, nodeAddr, 0⟩).maxSize from hsize ▸ hlt),
        if_neg (show ¬ b.bucket.size < b.bucket.maxSize from hlt)]
      obtain ⟨b', hb', hlist, hlinked⟩ := checkReplace_refines hwrapped hsound.room hnew hnot
      rw [hself, hbucket] at hlist
      exact ⟨b', false, bind_eq_ok.mpr ⟨b', hb', rfl⟩, bind_eq_ok.mpr ⟨_, hlist, rfl⟩, hlinked⟩

theorem nodeTimeout_refines (h : Linked b) (hsound : b.bucket.Sound) (nodeId : Id) :
    Refines (b.nodeTimeout nodeId) (Bucket.nodeTimeout b.bucket nodeId) := by
  have hget : Kademlia.RingMap.get b.bucket.entries nodeId = (b.entries.get nodeId).map b.contact := h.entries.get_view nodeId
  unfold nodeTimeout Bucket.nodeTimeout
  rw [hget]
  cases hg : b.entries.get nodeId with
  | none => exact ⟨b, rfl, rfl, h⟩
  | some e =>
    obtain ⟨he, hid⟩ := h.entries.get_some.mp hg
    have hself : (b.change e { b.contact e with timeouts := (b.contact e).timeouts + 1 }).contact e =
        { b.contact e with timeouts := (b.contact e).timeouts + 1 } := update_self _ _ _
    have hchanged := change_linked h (e := e) (c := { b.contact e with timeouts := (b.contact e).timeouts + 1 }) rfl
    have hbucket := change_bucket h hsound he { b.contact e with timeouts := (b.contact e).timeouts + 1 }
    rw [hid] at hbucket
    have hsound' : (b.change e { b.contact e with timeouts := (b.contact e).timeouts + 1 }).bucket.Sound := by
      rw [hbucket]
      exact hsound.reorder (List.Perm.of_eq (Bucket.ids_counted b.bucket.entries hid))
    have hrest := replaceFromCache_refines hchanged hsound' he
    dsimp only [Option.map_some]
    rw [hself]
    rw [hself, hbucket] at hrest
    split
    · exact hrest
    · exact ⟨_, rfl, congrArg Except.ok hbucket.symm, hchanged⟩

end Cells

/-! ## Sizes, and what is stale -/

/-- Entries and cache have their size, and nothing in them is stale. -/
structure Live (b : Bucket Address) : Prop where
  entries : b.entries.length ≤ b.maxSize
  cache : b.replacementCache.length ≤ b.maxSize
  entriesLive : ∀ c ∈ b.entries, Bucket.isStale c = false
  cacheLive : ∀ c ∈ b.replacementCache, Bucket.isStale c = false

namespace Live

variable {b b' : Bucket Address}

theorem empty (n : Nat) : Live (Bucket.new n : Bucket Address) where
  entries := Nat.zero_le n
  cache := Nat.zero_le n
  entriesLive := by
    intro c hc
    cases hc
  cacheLive := by
    intro c hc
    cases hc

theorem mem_without {r : List (Contact Address)} {key : Id} {c : Contact Address} (hc : c ∈ Kademlia.RingMap.without r key) : c ∈ r :=
  (List.mem_filter.mp hc).1

/-- `Contact.new` and `Contact.updateLastSeen`. -/
theorem fresh (key : Id) (addr : Address) : Bucket.isStale (⟨key, addr, 0⟩ : Contact Address) = false := rfl

theorem makeRoom_size (h : Live b) (hsound : b.Sound) {cache : List (Contact Address)} (hb : Bucket.makeRoom b = .ok cache) :
    cache.length < b.maxSize ∧ ∀ c ∈ cache, c ∈ b.replacementCache := by
  unfold Bucket.makeRoom at hb
  split at hb
  next hfull =>
    have hlen := h.cache
    cases hlast : b.replacementCache.getLast? with
    | none =>
      rw [hlast] at hb
      cases hb
    | some c =>
      rw [hlast] at hb
      have hmem : c ∈ b.replacementCache := List.mem_of_getLast? hlast
      have hshorter := Kademlia.RingMap.length_without hsound.cache (List.mem_map_of_mem hmem)
      rw [Kademlia.RingMap.remove_eq hb]
      exact ⟨by omega, fun x hx => mem_without hx⟩
  next hnot =>
    cases hb
    exact ⟨Nat.lt_of_not_le hnot, fun _ hc => hc⟩

/-- Nothing is stale, so what does not fit goes to the cache. -/
theorem addToCache (h : Live b) (hsound : b.Sound) {c : Contact Address} (hc : Bucket.isStale c = false)
    (hb : Bucket.addToCache b c = .ok b') : Live b' ∧ b'.maxSize = b.maxSize := by
  unfold Bucket.addToCache at hb
  cases hg : Kademlia.RingMap.get b.replacementCache c.id with
  | some el =>
    rw [hg] at hb
    cases hb
    obtain ⟨hel, -⟩ := Kademlia.RingMap.get_some hg
    have hshorter := Kademlia.RingMap.length_without hsound.cache (List.mem_map_of_mem hel)
    have hlen := h.cache
    refine ⟨⟨h.entries, ?_, h.entriesLive, ?_⟩, rfl⟩
    · show (Kademlia.RingMap.without b.replacementCache el.id).length + 1 ≤ b.maxSize
      omega
    · intro x hx
      rcases List.mem_cons.mp hx with rfl | hx
      · exact h.cacheLive _ hel
      · exact h.cacheLive x (mem_without hx)
  | none =>
    rw [hg] at hb
    obtain ⟨cache, hcache, hb⟩ := bind_eq_ok.mp hb
    obtain ⟨cache', hcache', hb⟩ := bind_eq_ok.mp hb
    rw [Kademlia.RingMap.addHead_eq hcache'] at hb
    cases hb
    obtain ⟨hlen, hsub⟩ := makeRoom_size h hsound hcache
    refine ⟨⟨h.entries, hlen, h.entriesLive, ?_⟩, rfl⟩
    intro x hx
    rcases List.mem_cons.mp hx with rfl | hx
    · exact hc
    · exact h.cacheLive x (hsub x hx)

theorem updateNode (h : Live b) (hsound : b.Sound) {nodeId : Id} {nodeAddr : Address} {added : Bool}
    (hb : Bucket.updateNode b nodeId nodeAddr = .ok (b', added)) : Live b' ∧ b'.maxSize = b.maxSize := by
  unfold Bucket.updateNode at hb
  cases hg : Kademlia.RingMap.get b.entries nodeId with
  | some e =>
    rw [hg] at hb
    cases hb
    obtain ⟨he, -⟩ := Kademlia.RingMap.get_some hg
    have hshorter := Kademlia.RingMap.length_without hsound.entries (List.mem_map_of_mem he)
    have hlen := h.entries
    refine ⟨⟨?_, h.cache, ?_, h.cacheLive⟩, rfl⟩
    · show (Kademlia.RingMap.without b.entries e.id ++ [_]).length ≤ b.maxSize
      rw [List.length_append, List.length_singleton]
      omega
    · intro x hx
      rcases List.mem_append.mp hx with hx | hx
      · exact h.entriesLive x (mem_without hx)
      · cases List.mem_singleton.mp hx
        exact fresh _ _
  | none =>
    rw [hg] at hb
    dsimp only at hb
    by_cases hlt : b.size < b.maxSize
    · rw [if_pos hlt] at hb
      obtain ⟨entries, hentries, hb⟩ := bind_eq_ok.mp hb
      rw [Kademlia.RingMap.addTail_eq hentries] at hb
      cases hb
      refine ⟨⟨?_, h.cache, ?_, h.cacheLive⟩, rfl⟩
      · show (b.entries ++ [_]).length ≤ b.maxSize
        rw [List.length_append, List.length_singleton]
        exact hlt
      · intro x hx
        rcases List.mem_append.mp hx with hx | hx
        · exact h.entriesLive x hx
        · cases List.mem_singleton.mp hx
          exact fresh _ _
    · rw [if_neg hlt] at hb
      obtain ⟨b₁, hcheck, hb⟩ := bind_eq_ok.mp hb
      cases hb
      have hnone : b.entries.find? Bucket.isStale = none := by
        rw [List.find?_eq_none]
        intro c hc
        rw [h.entriesLive c hc]
        exact Bool.false_ne_true
      unfold Bucket.checkReplace at hcheck
      rw [hnone] at hcheck
      exact h.addToCache hsound (fresh _ _) hcheck

/-- The stale entry goes, and what comes for it from the cache is not stale. -/
theorem replaceFromCache {e : Contact Address} (hsize : b.entries.length ≤ b.maxSize) (hnodup : (ids b.entries).Nodup)
    (he : e.id ∈ ids b.entries) (hothers : ∀ c ∈ b.entries, c.id ≠ e.id → Bucket.isStale c = false)
    (hcacheSize : b.replacementCache.length ≤ b.maxSize) (hcacheLive : ∀ c ∈ b.replacementCache, Bucket.isStale c = false)
    (hb : Bucket.replaceFromCache b e = .ok b') : Live b' ∧ b'.maxSize = b.maxSize := by
  unfold Bucket.replaceFromCache at hb
  obtain ⟨entries, hentries, hb⟩ := bind_eq_ok.mp hb
  have hwithout := Kademlia.RingMap.remove_eq hentries
  have hlive : ∀ c ∈ entries, Bucket.isStale c = false := by
    intro c hc
    rw [hwithout] at hc
    exact hothers c (mem_without hc) (bne_iff_ne.mp (List.mem_filter.mp hc).2)
  have hlen : entries.length < b.maxSize := by
    have hshorter := Kademlia.RingMap.length_without hnodup he
    rw [← hwithout] at hshorter
    omega
  cases hcache : b.replacementCache with
  | nil =>
    rw [hcache] at hb hcacheSize hcacheLive
    cases hb
    exact ⟨⟨Nat.le_of_lt hlen, hcacheSize, hlive, hcacheLive⟩, rfl⟩
  | cons c rest =>
    rw [hcache] at hb hcacheSize hcacheLive
    dsimp only at hb
    obtain ⟨cache, hcache', hb⟩ := bind_eq_ok.mp hb
    obtain ⟨entries', hentries', hb⟩ := bind_eq_ok.mp hb
    rw [Kademlia.RingMap.addTail_eq hentries', Kademlia.RingMap.remove_eq hcache'] at hb
    cases hb
    refine ⟨⟨?_, ?_, ?_, ?_⟩, rfl⟩
    · show (entries ++ [c]).length ≤ b.maxSize
      rw [List.length_append, List.length_singleton]
      exact hlen
    · show (Kademlia.RingMap.without (c :: rest) c.id).length ≤ b.maxSize
      exact le_trans (List.length_filter_le _ _) hcacheSize
    · intro x hx
      rcases List.mem_append.mp hx with hx | hx
      · exact hlive x hx
      · cases List.mem_singleton.mp hx
        exact hcacheLive c List.mem_cons_self
    · intro x hx
      exact hcacheLive x (mem_without hx)

theorem nodeTimeout (h : Live b) (hsound : b.Sound) {nodeId : Id} (hb : Bucket.nodeTimeout b nodeId = .ok b') :
    Live b' ∧ b'.maxSize = b.maxSize := by
  unfold Bucket.nodeTimeout at hb
  cases hg : Kademlia.RingMap.get b.entries nodeId with
  | none =>
    rw [hg] at hb
    cases hb
    exact ⟨h, rfl⟩
  | some e =>
    rw [hg] at hb
    dsimp only at hb
    obtain ⟨he, hid⟩ := Kademlia.RingMap.get_some hg
    have hids := Bucket.ids_counted b.entries hid
    have hlen : (b.entries.map fun c => if c.id = nodeId then { e with timeouts := e.timeouts + 1 } else c).length ≤ b.maxSize := by
      rw [List.length_map]
      exact h.entries
    by_cases hstale : Bucket.isStale { e with timeouts := e.timeouts + 1 } = true
    · rw [if_pos hstale] at hb
      refine replaceFromCache (b := { b with entries := b.entries.map fun c =>
        if c.id = nodeId then { e with timeouts := e.timeouts + 1 } else c }) hlen (hids ▸ hsound.entries) ?_ ?_ h.cache h.cacheLive hb
      · dsimp only
        rw [hids]
        exact List.mem_map_of_mem he
      · -- the other entries are as they were
        intro c hc hne
        obtain ⟨c', hc', rfl⟩ := List.mem_map.mp hc
        split at hne
        next => exact absurd rfl hne
        next heq =>
          rw [if_neg heq]
          exact h.entriesLive c' hc'
    · rw [if_neg hstale] at hb
      cases hb
      refine ⟨⟨hlen, h.cache, ?_, h.cacheLive⟩, rfl⟩
      intro c hc
      obtain ⟨c', hc', rfl⟩ := List.mem_map.mp hc
      split
      · exact Bool.eq_false_iff.mpr hstale
      · exact h.entriesLive c' hc'

end Live

/-! ## Runs -/

/-- A contact is heard of, or a request or ping to it times out; it may be in the bucket or not. -/
inductive Event (Address : Type) where
  | update (nodeId : Id) (nodeAddr : Address)
  | timeout (nodeId : Id)

namespace Cells

def step (b : Cells Address) : Event Address → Except Exn (Cells Address)
  | .update nodeId nodeAddr => do return (← b.updateNode nodeId nodeAddr).1
  | .timeout nodeId => b.nodeTimeout nodeId

def run : List (Event Address) → Cells Address → Except Exn (Cells Address)
  | [], b => .ok b
  | e :: es, b => do run es (← b.step e)

structure Invariant (k : Nat) (b : Cells Address) : Prop where
  linked : b.Linked
  sound : b.bucket.Sound
  live : Live b.bucket
  size : b.maxSize = k

theorem new_invariant {k : Nat} (hk : 0 < k) (nothing : Contact Address) : Invariant k (new k nothing) where
  linked := ⟨Agree.empty _, Agree.empty _, fun _ hel => (List.not_mem_nil hel).elim, fun _ hel => (List.not_mem_nil hel).elim⟩
  sound := Bucket.new_sound hk
  live := Live.empty k
  size := rfl

theorem step_invariant {k : Nat} {b : Cells Address} (h : Invariant k b) (e : Event Address) :
    ∃ b', b.step e = .ok b' ∧ Invariant k b' := by
  cases e with
  | update nodeId nodeAddr =>
    obtain ⟨b', added, hb', hlist, hlinked⟩ := updateNode_refines h.linked h.sound nodeId nodeAddr
    obtain ⟨c, added', hc, hsound⟩ := Bucket.updateNode_sound h.sound nodeId nodeAddr
    rw [hlist] at hc
    cases hc
    obtain ⟨hlive, hsize⟩ := h.live.updateNode h.sound hlist
    exact ⟨b', bind_eq_ok.mpr ⟨_, hb', rfl⟩, hlinked, hsound, hlive, hsize.trans h.size⟩
  | timeout nodeId =>
    obtain ⟨b', hb', hlist, hlinked⟩ := nodeTimeout_refines h.linked h.sound nodeId
    obtain ⟨c, hc, hsound⟩ := Bucket.nodeTimeout_sound h.sound nodeId
    rw [hlist] at hc
    cases hc
    obtain ⟨hlive, hsize⟩ := h.live.nodeTimeout h.sound hlist
    exact ⟨b', hb', hlinked, hsound, hlive, hsize.trans h.size⟩

theorem run_invariant {k : Nat} (es : List (Event Address)) {b : Cells Address} (h : Invariant k b) :
    ∃ b', run es b = .ok b' ∧ Invariant k b' := by
  induction es generalizing b with
  | nil => exact ⟨b, rfl, h⟩
  | cons e es ih =>
    obtain ⟨b₁, hstep, h₁⟩ := step_invariant h e
    obtain ⟨b', hrun, h'⟩ := ih h₁
    exact ⟨b', bind_eq_ok.mpr ⟨b₁, hstep, hrun⟩, h'⟩

end Cells

/-- Nothing is raised, ring and table agree in both ring maps, and the rest is the invariant
    of the bucket. -/
theorem bucket_invariant {k : Nat} (hk : 0 < k) (nothing : Contact Address) (es : List (Event Address)) :
    ∃ b, Cells.run es (Cells.new k nothing) = .ok b ∧ Agree b.contact b.entries ∧ Agree b.contact b.replacementCache ∧
      b.entries.size ≤ k ∧ b.replacementCache.size ≤ k ∧
      (∀ key, b.entries.contains key = true → b.replacementCache.contains key = false) ∧
      (0 < b.replacementCache.size → b.entries.size = k) ∧
      ∀ el ∈ b.entries.ring, Bucket.isStale (b.contact el) = false := by
  obtain ⟨b, hrun, h⟩ := Cells.run_invariant es (Cells.new_invariant hk nothing)
  have hentries : b.entries.size = b.bucket.entries.length := h.linked.entries.size_view
  have hcache : b.replacementCache.size = b.bucket.replacementCache.length := h.linked.cache.size_view
  have hlen : b.bucket.entries.length ≤ k := h.size ▸ h.live.entries
  refine ⟨b, hrun, h.linked.entries, h.linked.cache, hentries ▸ hlen, ?_, ?_, ?_, ?_⟩
  · rw [hcache]
    exact h.size ▸ h.live.cache
  · intro key hkey
    rw [← h.linked.entries.contains_view] at hkey
    rw [← h.linked.cache.contains_view, Bool.eq_false_iff]
    intro hkey'
    exact h.sound.once key (Kademlia.RingMap.contains_iff.mp hkey) (Kademlia.RingMap.contains_iff.mp hkey')
  · intro hpos
    rw [hcache] at hpos
    rw [hentries]
    have hfull : b.maxSize ≤ b.bucket.entries.length := h.sound.full (List.length_pos_iff.mp hpos)
    rw [h.size] at hfull
    exact Nat.le_antisymm hlen hfull
  · intro el hel
    exact h.live.entriesLive _ (List.mem_map_of_mem hel)

/-- In a bucket of one: the second contact waits in the cache and takes the place of the
    first when that is stale; a fourth timeout of the first comes too late. -/
theorem bucket_invariant_replaced : ∃ b : Cells Nat,
    Cells.run [.update 1 10, .update 2 20, .timeout 1, .timeout 1, .timeout 1, .timeout 1] (Cells.new 1 ⟨0, 0, 0⟩) = .ok b ∧
      b.entries.ring = [1] ∧ b.entries.size ≤ 1 := by
  obtain ⟨b, hrun, -, -, hsize, -⟩ := bucket_invariant (by decide : 0 < 1) (⟨0, 0, 0⟩ : Contact Nat)
    [.update 1 10, .update 2 20, .timeout 1, .timeout 1, .timeout 1, .timeout 1]
  refine ⟨b, hrun, ?_, hsize⟩
  have hring : (Cells.run [.update 1 10, .update 2 20, .timeout 1, .timeout 1, .timeout 1, .timeout 1]
      (Cells.new 1 (⟨0, 0, 0⟩ : Contact Nat))).toOption.map (·.entries.ring) = some [1] := by decide
  rw [hrun] at hring
  exact Option.some.inj hring

end BubbleStorm.Kademlia.BucketRing
