/-
  BubbleStorm.Kademlia.CloseNodes — the nodes close to a target (`getCloseNodes` of
  `src/kademlia/buckets.fun`).

  The buckets are visited in the order of their distance: a contact of one is nearer to
  the target than every contact of a later one (`order_nearer`). What comes out is the
  first `count` of the contacts in that order, the bucket in which the count ends in the
  order of its ring; so these are the closest exactly where that bucket is cut between
  nearer and farther contacts (`getCloseNodes_iff`).
-/

import BubbleStorm.Kademlia.Placement

namespace BubbleStorm.Kademlia

open BubbleStorm.Cusp (Exn)
open BubbleStorm.Lib
open RingMap (ids)

variable {Address : Type}

namespace Buckets

variable {t : Buckets Address} {targetId requestorId : Id}

/-! ## What is visited -/

/-- The buckets in the order of the visit. -/
def order (idX : Id) : List Nat :=
  (List.range (Id.highestOneBit idX + 1).toNat).reverse.filter (Id.getBit idX) ++
    (List.range Id.numberOfBits).filter fun bid => !Id.getBit idX bid

def eligible (t : Buckets Address) (requestorId : Id) (bid : Nat) : List (Contact Address) :=
  (entriesAt t bid).filter fun e => e.id != requestorId

/-- The contacts one may answer with, as they are visited. -/
def visited (t : Buckets Address) (targetId requestorId : Id) : List (Contact Address) :=
  (order (t.myId ^^^ targetId)).flatMap (eligible t requestorId)

theorem collect_append (next : Int → Except Exn (List (Contact Address))) (l l' : List Nat) :
    collect t requestorId (collect t requestorId next l') l = collect t requestorId next (l ++ l') := by
  induction l with
  | nil => rfl
  | cons bid l ih =>
    funext count
    unfold collect
    rw [ih]
    rfl

theorem collect_eq (h : Sound t) {bids : List Nat} (hbids : ∀ bid ∈ bids, bid < Id.numberOfBits) (count : Nat) :
    collect t requestorId (fun _ => .ok []) bids count = .ok ((bids.flatMap (eligible t requestorId)).take count) := by
  induction bids generalizing count with
  | nil => exact congrArg Except.ok List.take_nil.symm
  | cons bid bids ih =>
    obtain ⟨b, hb, hentries⟩ := sub_entriesAt h (hbids bid List.mem_cons_self)
    have heligible : (b.entries.filter fun e => e.id != requestorId) = eligible t requestorId bid := by
      unfold eligible
      rw [hentries]
    unfold collect
    refine bind_eq_ok.mpr ⟨b, hb, ?_⟩
    dsimp only
    rw [heligible, List.flatMap_cons]
    split
    next hle =>
      have hle : count ≤ (eligible t requestorId bid).length := by omega
      rw [List.take_append_of_le_length hle]
      exact if_pos ⟨Int.natCast_nonneg _, by omega⟩
    next hgt =>
      have hsub : (count : Int) - (eligible t requestorId bid).length = ((count - (eligible t requestorId bid).length : Nat) : Int) := by
        omega
      have hfull : (eligible t requestorId bid).take count = eligible t requestorId bid := List.take_of_length_le (by omega)
      rw [hsub, List.take_append, hfull]
      exact bind_eq_ok.mpr ⟨_, ih (fun x hx => hbids x (.tail _ hx)) _, rfl⟩

theorem mem_order {idX : Id} {bid : Nat} : bid ∈ order idX ↔ bid < Id.numberOfBits := by
  have htop := Id.highestOneBit_lt idX
  unfold order
  rw [List.mem_append, List.mem_filter, List.mem_filter, List.mem_reverse, List.mem_range, List.mem_range]
  constructor
  · rintro (⟨hlt, -⟩ | ⟨hlt, -⟩)
    · omega
    · exact hlt
  · intro hlt
    cases hbit : Id.getBit idX bid with
    | false => exact .inr ⟨hlt, rfl⟩
    | true =>
      refine .inl ⟨?_, rfl⟩
      by_contra hge
      -- the bit would be above the highest
      cases hh : Id.highestOneBit idX with
      | ofNat b =>
        have := (Id.isTop_of_highestOneBit hh).above bid (by rw [hh] at hge; simp only [Int.ofNat_eq_natCast] at hge; omega)
        unfold Id.getBit at hbit
        rw [this] at hbit
        cases hbit
      | negSucc n =>
        have hzero : idX = 0 := by
          by_contra hne
          have := Id.highestOneBit_nonneg.mpr hne
          omega
        rw [hzero] at hbit
        simp [Id.getBit] at hbit

theorem getCloseNodes_eq (h : Sound t) (targetId requestorId : Id) (count : Nat) :
    getCloseNodes t targetId requestorId count = .ok ((visited t targetId requestorId).take count) := by
  unfold getCloseNodes
  dsimp only
  rw [collect_append]
  exact collect_eq h (fun bid hbid => mem_order.mp hbid) count

/-! ## The order is the one of the distance -/

def nearer (targetId : Id) (c c' : Contact Address) : Prop := targetId ^^^ c.id < targetId ^^^ c'.id

/-- A bucket before another in the order. -/
def Before (idX : Id) (bid bid' : Nat) : Prop :=
  (Id.getBit idX bid = true ∧ (bid' < bid ∨ Id.getBit idX bid' = false)) ∨
    (Id.getBit idX bid = false ∧ Id.getBit idX bid' = false ∧ bid < bid')

theorem order_pairwise (idX : Id) : (order idX).Pairwise (Before idX) := by
  unfold order
  rw [List.pairwise_append]
  refine ⟨?_, ?_, ?_⟩
  · have hsorted : ((List.range (Id.highestOneBit idX + 1).toNat).reverse).Pairwise (· > ·) :=
      List.pairwise_reverse.mpr List.pairwise_lt_range
    have hfilter := hsorted.filter (Id.getBit idX)
    refine hfilter.imp_of_mem ?_
    intro a b ha hb hlt
    exact .inl ⟨(List.mem_filter.mp ha).2, .inl hlt⟩
  · have hfilter := (List.pairwise_lt_range (n := Id.numberOfBits)).filter fun bid => !Id.getBit idX bid
    refine hfilter.imp_of_mem ?_
    intro a b ha hb hlt
    have ha' := (List.mem_filter.mp ha).2
    have hb' := (List.mem_filter.mp hb).2
    rw [Bool.not_eq_true'] at ha' hb'
    exact .inr ⟨ha', hb', hlt⟩
  · intro a ha b hb
    have hb' := (List.mem_filter.mp hb).2
    rw [Bool.not_eq_true'] at hb'
    exact .inl ⟨(List.mem_filter.mp ha).2, .inr hb'⟩

/-- A contact of an earlier bucket is nearer. -/
theorem order_nearer (h : Placed t) {bid bid' : Nat} (hb : Before (t.myId ^^^ targetId) bid bid') {c c' : Contact Address}
    (hc : c ∈ entriesAt t bid) (hc' : c' ∈ entriesAt t bid') : nearer targetId c c' := by
  have htop := top_of_mem h hc
  have htop' := top_of_mem h hc'
  unfold nearer
  rw [xor_through t.myId targetId c.id, xor_through t.myId targetId c'.id]
  unfold Before Id.getBit at hb
  rcases Nat.lt_trichotomy bid bid' with hlt | heq | hgt
  · rcases hb with ⟨hone, hlt' | hzero⟩ | ⟨-, hzero, -⟩
    · omega
    · exact (htop'.not_nearer (htop.under hlt)).mpr hzero
    · exact (htop'.not_nearer (htop.under hlt)).mpr hzero
  · subst heq
    rcases hb with ⟨hone, hlt' | hzero⟩ | ⟨-, -, hlt'⟩
    · omega
    · rw [hone] at hzero
      cases hzero
    · omega
  · rcases hb with ⟨hone, -⟩ | ⟨-, -, hlt'⟩
    · exact (htop.nearer_iff (htop'.under hgt)).mpr hone
    · omega

/-! ## The result -/

/-- The `count` contacts closest to the target, but for the requestor. -/
structure Closest (t : Buckets Address) (targetId requestorId : Id) (count : Nat) (l : List (Contact Address)) : Prop where
  length : l.length = min count ((contacts t).filter fun e => e.id != requestorId).length
  distinct : (ids l).Nodup
  known : ∀ c ∈ l, c ∈ contacts t ∧ c.id ≠ requestorId
  closest : ∀ c ∈ l, ∀ c' ∈ contacts t, c'.id ≠ requestorId → c' ∉ l → nearer targetId c c'

/-- Where the count ends in a bucket, what is taken of its ring is nearer than the rest. -/
def Cut (t : Buckets Address) (targetId requestorId : Id) (count : Nat) : Prop :=
  ∀ before bid after, order (t.myId ^^^ targetId) = before ++ bid :: after →
    let left := count - (before.flatMap (eligible t requestorId)).length
    ∀ c ∈ (eligible t requestorId bid).take left, ∀ c' ∈ (eligible t requestorId bid).drop left, nearer targetId c c'

theorem mem_eligible {bid : Nat} {c : Contact Address} : c ∈ eligible t requestorId bid ↔ c ∈ entriesAt t bid ∧ c.id ≠ requestorId := by
  unfold eligible
  rw [List.mem_filter]
  simp

theorem mem_visited (h : Sound t) {c : Contact Address} :
    c ∈ visited t targetId requestorId ↔ c ∈ contacts t ∧ c.id ≠ requestorId := by
  unfold visited
  rw [List.mem_flatMap, mem_contacts h]
  constructor
  · intro ⟨bid, _, hc⟩
    rw [mem_eligible] at hc
    exact ⟨⟨bid, hc.1⟩, hc.2⟩
  · intro ⟨⟨bid, hc⟩, hne⟩
    refine ⟨bid, ?_, mem_eligible.mpr ⟨hc, hne⟩⟩
    rw [mem_order]
    by_contra hge
    rw [entriesAt_nil h (by omega)] at hc
    cases hc

theorem eligible_nodup (h : Sound t) (bid : Nat) : (ids (eligible t requestorId bid)).Nodup := by
  unfold eligible
  exact (nodup_entriesAt h bid).sublist (List.Sublist.map _ List.filter_sublist)

/-- Contacts of two buckets have two ids. -/
theorem bid_unique (h : Placed t) {bid bid' : Nat} {c c' : Contact Address} (hc : c ∈ entriesAt t bid) (hc' : c' ∈ entriesAt t bid')
    (hid : c.id = c'.id) : bid = bid' := by
  have htop := top_of_mem h hc
  rw [hid] at htop
  exact htop.unique (top_of_mem h hc')

theorem Before.ne {idX : Id} {bid bid' : Nat} (h : Before idX bid bid') : bid ≠ bid' := by
  intro heq
  subst heq
  rcases h with ⟨hone, hlt | hzero⟩ | ⟨-, -, hlt⟩
  · omega
  · rw [hone] at hzero
    cases hzero
  · omega

/-- Buckets one after the other hold every id once. -/
theorem flatMap_nodup (h : Sound t) (hp : Placed t) {bids : List Nat} (hnodup : bids.Nodup) :
    (ids (bids.flatMap (eligible t requestorId))).Nodup := by
  induction bids with
  | nil => exact List.nodup_nil
  | cons bid bids ih =>
    obtain ⟨hnot, hrest⟩ := List.nodup_cons.mp hnodup
    rw [List.flatMap_cons, RingMap.ids_append, List.nodup_append]
    refine ⟨eligible_nodup h bid, ih hrest, ?_⟩
    intro x hx y hy heq
    subst heq
    obtain ⟨c, hc, rfl⟩ := List.mem_map.mp hx
    obtain ⟨c', hc', hid⟩ := List.mem_map.mp hy
    obtain ⟨bid', hbid', hc'⟩ := List.mem_flatMap.mp hc'
    have hsame := bid_unique hp (mem_eligible.mp hc').1 (mem_eligible.mp hc).1 hid
    exact hnot (hsame ▸ hbid')

theorem order_nodup (idX : Id) : (order idX).Nodup := (order_pairwise idX).imp fun h => h.ne

theorem visited_nodup (targetId requestorId : Id) (h : Sound t) (hp : Placed t) : (ids (visited t targetId requestorId)).Nodup :=
  flatMap_nodup h hp (order_nodup _)

theorem visited_perm (t : Buckets Address) (targetId requestorId : Id) :
    (visited t targetId requestorId).Perm ((contacts t).filter fun e => e.id != requestorId) := by
  have hperm : (order (t.myId ^^^ targetId)).Perm (List.range Id.numberOfBits) :=
    (List.perm_ext_iff_of_nodup (order_nodup _) List.nodup_range).mpr fun bid => mem_order.trans List.mem_range.symm
  have hfilter : (contacts t).filter (fun e => e.id != requestorId) = (List.range Id.numberOfBits).flatMap (eligible t requestorId) :=
    List.filter_flatMap
  rw [hfilter]
  exact hperm.flatMap_right _

/-- Nearer, or of one bucket. -/
theorem visited_pairwise (targetId requestorId : Id) (hp : Placed t) : (visited t targetId requestorId).Pairwise fun c c' =>
    nearer targetId c c' ∨ ∃ bid, c ∈ eligible t requestorId bid ∧ c' ∈ eligible t requestorId bid := by
  unfold visited
  rw [List.pairwise_flatMap]
  constructor
  · intro bid _
    exact List.pairwise_of_forall_mem_list fun c hc c' hc' => .inr ⟨bid, hc, hc'⟩
  · refine (order_pairwise (t.myId ^^^ targetId)).imp ?_
    intro bid bid' hbefore c hc c' hc'
    exact .inl (order_nearer hp hbefore (mem_eligible.mp hc).1 (mem_eligible.mp hc').1)

section Split

variable {before after : List Nat} {bid count : Nat}

theorem visited_split (hsplit : order (t.myId ^^^ targetId) = before ++ bid :: after) :
    visited t targetId requestorId =
      before.flatMap (eligible t requestorId) ++ (eligible t requestorId bid ++ after.flatMap (eligible t requestorId)) := by
  unfold visited
  rw [hsplit, List.flatMap_append, List.flatMap_cons]

/-- A contact of the bucket is in neither of the other parts. -/
theorem not_mem_others (hp : Placed t) (hsplit : order (t.myId ^^^ targetId) = before ++ bid :: after) {c : Contact Address}
    (hc : c ∈ eligible t requestorId bid) :
    c ∉ before.flatMap (eligible t requestorId) ∧ c ∉ after.flatMap (eligible t requestorId) := by
  have hnodup := order_nodup (t.myId ^^^ targetId)
  rw [hsplit, List.perm_middle.nodup_iff, List.nodup_cons, List.mem_append, not_or] at hnodup
  obtain ⟨⟨hbefore, hafter⟩, -⟩ := hnodup
  constructor
  · intro hmem
    obtain ⟨bid', hbid', hc'⟩ := List.mem_flatMap.mp hmem
    exact hbefore (bid_unique hp (mem_eligible.mp hc').1 (mem_eligible.mp hc).1 rfl ▸ hbid')
  · intro hmem
    obtain ⟨bid', hbid', hc'⟩ := List.mem_flatMap.mp hmem
    exact hafter (bid_unique hp (mem_eligible.mp hc').1 (mem_eligible.mp hc).1 rfl ▸ hbid')

theorem mem_take_iff (hp : Placed t) (hsplit : order (t.myId ^^^ targetId) = before ++ bid :: after) {c : Contact Address}
    (hc : c ∈ eligible t requestorId bid) : c ∈ (visited t targetId requestorId).take count ↔
      c ∈ (eligible t requestorId bid).take (count - (before.flatMap (eligible t requestorId)).length) := by
  obtain ⟨hbefore, hafter⟩ := not_mem_others hp hsplit hc
  rw [visited_split hsplit, List.take_append, List.mem_append, List.take_append, List.mem_append]
  constructor
  · rintro (hmem | hmem | hmem)
    · exact absurd (List.mem_of_mem_take hmem) hbefore
    · exact hmem
    · exact absurd (List.mem_of_mem_take hmem) hafter
  · intro hmem
    exact .inr (.inl hmem)

theorem mem_drop_iff (count : Nat) (hp : Placed t) (hsplit : order (t.myId ^^^ targetId) = before ++ bid :: after) {c : Contact Address}
    (hc : c ∈ eligible t requestorId bid) : c ∈ (visited t targetId requestorId).drop count ↔
      c ∈ (eligible t requestorId bid).drop (count - (before.flatMap (eligible t requestorId)).length) := by
  obtain ⟨hbefore, hafter⟩ := not_mem_others hp hsplit hc
  rw [visited_split hsplit, List.drop_append, List.mem_append, List.drop_append, List.mem_append]
  constructor
  · rintro (hmem | hmem | hmem)
    · exact absurd (List.mem_of_mem_drop hmem) hbefore
    · exact hmem
    · exact absurd (List.mem_of_mem_drop hmem) hafter
  · intro hmem
    exact .inr (.inl hmem)

end Split

/-- What is cut off is not taken. -/
theorem not_mem_take_of_mem_drop (h : Sound t) (hp : Placed t) {count : Nat} {c : Contact Address}
    (hc : c ∈ (visited t targetId requestorId).drop count) : c ∉ (visited t targetId requestorId).take count := by
  intro hmem
  have hnodup := visited_nodup targetId requestorId h hp
  rw [← List.take_append_drop count (visited t targetId requestorId), RingMap.ids_append, List.nodup_append] at hnodup
  exact hnodup.2.2 _ (List.mem_map_of_mem hmem) _ (List.mem_map_of_mem hc) rfl

theorem closest_of_cut (h : Sound t) (hp : Placed t) {count : Nat} (hcut : Cut t targetId requestorId count) :
    Closest t targetId requestorId count ((visited t targetId requestorId).take count) where
  length := by rw [List.length_take, (visited_perm t targetId requestorId).length_eq]
  distinct := (visited_nodup _ _ h hp).sublist (List.Sublist.map _ (List.take_sublist _ _))
  known := fun c hc => (mem_visited h).mp (List.mem_of_mem_take hc)
  closest := by
    intro c hc c' hc' hne hnot
    have hdrop : c' ∈ (visited t targetId requestorId).drop count := by
      have hmem : c' ∈ visited t targetId requestorId := (mem_visited h).mpr ⟨hc', hne⟩
      rw [← List.take_append_drop count (visited t targetId requestorId), List.mem_append] at hmem
      exact hmem.resolve_left hnot
    have hpair := visited_pairwise targetId requestorId hp
    rw [← List.take_append_drop count (visited t targetId requestorId), List.pairwise_append] at hpair
    rcases hpair.2.2 c hc c' hdrop with hnear | ⟨bid, hbid, hbid'⟩
    · exact hnear
    · have hlt : bid < Id.numberOfBits := by
        by_contra hge
        have hmem := (mem_eligible.mp hbid).1
        rw [entriesAt_nil h (by omega)] at hmem
        cases hmem
      have horder : bid ∈ order (t.myId ^^^ targetId) := mem_order.mpr hlt
      obtain ⟨before, after, hsplit⟩ := List.append_of_mem horder
      exact hcut before bid after hsplit c ((mem_take_iff hp hsplit hbid).mp hc) c' ((mem_drop_iff count hp hsplit hbid').mp hdrop)

theorem cut_of_closest (h : Sound t) (hp : Placed t) {count : Nat}
    (hclosest : Closest t targetId requestorId count ((visited t targetId requestorId).take count)) :
    Cut t targetId requestorId count := by
  intro before bid after hsplit left c hc c' hc'
  have hmem := List.mem_of_mem_take hc
  have hmem' := List.mem_of_mem_drop hc'
  have hdrop := (mem_drop_iff count hp hsplit hmem').mpr hc'
  obtain ⟨hcontact, hne⟩ := (mem_visited h).mp (List.mem_of_mem_drop hdrop)
  exact hclosest.closest c ((mem_take_iff hp hsplit hmem).mpr hc) c' hcontact hne (not_mem_take_of_mem_drop h hp hdrop)

/-- The contacts closest to the target come out exactly where no bucket is cut amiss. -/
theorem getCloseNodes_iff (h : Reachable t) (targetId requestorId : Id) (count : Nat) :
    (∃ l, getCloseNodes t targetId requestorId count = .ok l ∧ Closest t targetId requestorId count l) ↔
      Cut t targetId requestorId count := by
  rw [getCloseNodes_eq h.sound]
  constructor
  · intro ⟨l, hl, hclosest⟩
    cases hl
    exact cut_of_closest h.sound h.placed hclosest
  · intro hcut
    exact ⟨_, rfl, closest_of_cut h.sound h.placed hcut⟩

/-- A node 0 that has heard of 3, and then of 2. -/
def twoContacts : Except Exn (Buckets Unit) := do
  let (t, _) ← updateNode (new 0 Config.k) 3 ()
  let (t, _) ← updateNode t 2 ()
  return t

theorem twoContacts_reachable : ∃ t, twoContacts = .ok t ∧ Reachable t ∧ ids (contacts t) = [3, 2] := by
  have hcontacts : (twoContacts.toOption.map fun t => ids (contacts t)) = some [3, 2] := by decide +kernel
  cases htwo : twoContacts with
  | error e =>
    rw [htwo] at hcontacts
    cases hcontacts
  | ok t =>
    rw [htwo] at hcontacts
    refine ⟨t, rfl, ?_, Option.some.inj hcontacts⟩
    unfold twoContacts at htwo
    obtain ⟨⟨t1, added1⟩, h1, htwo⟩ := bind_eq_ok.mp htwo
    obtain ⟨⟨t2, added2⟩, h2, htwo⟩ := bind_eq_ok.mp htwo
    cases htwo
    exact .updateNode (.updateNode (.new 0 (by decide)) h1) h2

/-- Two contacts of one bucket, and 7 asks for the one closest to 2. -/
theorem getCloseNodes_iff_two : ∃ t : Buckets Unit, ids (contacts t) = [3, 2] ∧
    ((∃ l, getCloseNodes t 2 7 (1 : Nat) = .ok l ∧ Closest t 2 7 1 l) ↔ Cut t 2 7 1) := by
  obtain ⟨t, -, hreachable, hids⟩ := twoContacts_reachable
  exact ⟨t, hids, getCloseNodes_iff hreachable 2 7 1⟩

/-- Asked for the one closest to 0, it answers with 3. -/
theorem three_before_two : ¬ ∀ (t : Buckets Unit) (targetId requestorId : Id) (count : Nat), Reachable t →
    ∃ l, getCloseNodes t targetId requestorId count = .ok l ∧ Closest t targetId requestorId count l := by
  intro h
  have hanswer : (twoContacts.toOption.bind fun t => (getCloseNodes t 0 0 1).toOption.map ids) = some [3] := by decide +kernel
  obtain ⟨t, htwo, hreachable, hids⟩ := twoContacts_reachable
  obtain ⟨l, hl, hclosest⟩ := h t 0 0 1 hreachable
  have hl' : ids l = [3] := by
    rw [htwo] at hanswer
    change ((getCloseNodes t 0 0 (1 : Nat)).toOption.map ids) = some [3] at hanswer
    rw [hl] at hanswer
    exact Option.some.inj hanswer
  obtain ⟨c, hc, hc3⟩ := List.mem_map.mp (hl' ▸ List.mem_cons_self : (3 : Id) ∈ ids l)
  obtain ⟨c', hc', hc2⟩ := List.mem_map.mp (hids ▸ .tail _ (List.mem_cons_self) : (2 : Id) ∈ ids (contacts t))
  have hnear := hclosest.closest c hc c' hc' (by rw [hc2]; decide) fun hmem => by
    have : (2 : Id) ∈ ids l := hc2 ▸ List.mem_map_of_mem hmem
    rw [hl'] at this
    exact absurd this (by decide)
  unfold nearer at hnear
  rw [hc3, hc2] at hnear
  exact absurd hnear (by decide)

end Buckets

end BubbleStorm.Kademlia
