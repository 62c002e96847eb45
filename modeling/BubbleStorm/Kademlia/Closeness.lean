/-
  BubbleStorm.Kademlia.Closeness — counting closer contacts (`countCloserNodesFor` and
  `knowNodesCloserTo` of `src/kademlia/buckets.fun`), and the decision of
  `updateNode` of `src/kademlia/node.fun` to store a value at a new contact.

  Both functions go by buckets. Of the buckets other than those of the two ids a bucket is
  closer or not as a whole, but for those below the target's when the id is below it too;
  there the count leaves all contacts out, and of the id's own bucket it leaves out all
  where that is above the target's. `knowNodesCloserTo` takes every contact below the
  target for a closer one.

  Proved: when the count and the test are right, and with them the decision
  (`closeness_iff`).
-/

import BubbleStorm.Kademlia.Placement
import BubbleStorm.Kademlia.Receive
import Mathlib.Algebra.BigOperators.Group.Finset.Basic

namespace BubbleStorm.Kademlia

open BubbleStorm.Cusp (Exn)
open BubbleStorm.Lib
open RingMap (ids)

variable {Address : Type}

theorem Id.highestOneBit_ge (x : Id) : -1 ≤ Id.highestOneBit x := by
  unfold Id.highestOneBit
  split <;> omega

namespace Buckets

variable {t : Buckets Address} {target id : Id} {bid : Nat}

/-- A contact strictly closer to the target than the id. -/
def closer (target id : Id) (c : Contact Address) : Bool := target ^^^ c.id < target ^^^ id

/-- How many are known. -/
def closerCount (t : Buckets Address) (target id : Id) : Nat := ((contacts t).filter (closer target id)).length

/-! ## Bucket by bucket -/

def closerAt (t : Buckets Address) (target id : Id) (bid : Nat) : Nat := ((entriesAt t bid).filter (closer target id)).length

theorem length_flatMap_range {α : Type} (f : Nat → List α) (n : Nat) :
    ((List.range n).flatMap f).length = ∑ bid ∈ Finset.range n, (f bid).length := by
  induction n with
  | zero => rfl
  | succ n ih =>
    rw [List.range_succ, List.flatMap_append, List.length_append, ih, Finset.sum_range_succ, List.flatMap_singleton]

theorem closerCount_eq (t : Buckets Address) (target id : Id) :
    closerCount t target id = ∑ bid ∈ Finset.range Id.numberOfBits, closerAt t target id bid := by
  unfold closerCount contacts
  rw [List.filter_flatMap, length_flatMap_range]
  rfl

/-- What the node and the id differ in is under every bit above the id's bucket. -/
theorem under_bucketId (h : bucketId t id < bid) : Under (t.myId ^^^ id) bid := by
  cases hh : bucketId t id with
  | ofNat b =>
    rw [hh] at h
    simp only [Int.ofNat_eq_natCast, Nat.cast_lt] at h
    exact (Id.isTop_of_highestOneBit hh).under h
  | negSucc n =>
    have heq : id = t.myId := by
      by_contra hne
      have := bucketId_nonneg.mpr hne
      omega
    rw [heq, BitVec.xor_self]
    exact under_zero bid

theorem closer_eq (t : Buckets Address) (target id : Id) (c : Contact Address) :
    closer target id c = decide ((t.myId ^^^ target) ^^^ (t.myId ^^^ c.id) < (t.myId ^^^ target) ^^^ (t.myId ^^^ id)) := by
  unfold closer
  rw [← xor_through, ← xor_through]

section Contact

variable {c : Contact Address} (h : Placed t) (hc : c ∈ entriesAt t bid)

include h hc

/-- Above the id's bucket the target's bit decides. -/
theorem closer_above (hlt : bucketId t id < bid) : closer target id c = (t.myId ^^^ target).getLsbD bid := by
  rw [closer_eq t, Bool.eq_iff_iff, decide_eq_true_iff]
  exact (top_of_mem h hc).nearer_iff (under_bucketId hlt)

/-- Below it the bit of the id's bucket does. -/
theorem closer_below {b : Nat} (hb : bucketId t id = b) (hlt : bid < b) : closer target id c = !(t.myId ^^^ target).getLsbD b := by
  rw [closer_eq t, Bool.eq_iff_iff, decide_eq_true_iff, Bool.not_eq_true']
  exact (Id.isTop_of_highestOneBit hb).not_nearer ((top_of_mem h hc).under hlt)

end Contact

theorem closerAt_zero (h : ∀ c ∈ entriesAt t bid, closer target id c = false) : closerAt t target id bid = 0 := by
  unfold closerAt
  rw [List.filter_eq_nil_iff.mpr fun c hc => by rw [h c hc]; exact Bool.false_ne_true]
  rfl

theorem closerAt_all (h : ∀ c ∈ entriesAt t bid, closer target id c = true) : closerAt t target id bid = (entriesAt t bid).length := by
  unfold closerAt
  rw [List.filter_eq_self.mpr h]

theorem closerAt_eq_zero : closerAt t target id bid = 0 ↔ ∀ c ∈ entriesAt t bid, closer target id c = false := by
  constructor
  · intro hzero c hc
    have := List.filter_eq_nil_iff.mp (List.length_eq_zero_iff.mp hzero) c hc
    simpa using this
  · exact closerAt_zero

/-! ## The count -/

theorem countAll_eq (h : Sound t) {n : Nat} (hn : n ≤ Id.numberOfBits) :
    countAll t n = .ok (∑ bid ∈ Finset.range n, (entriesAt t bid).length) := by
  induction n with
  | zero => rfl
  | succ n ih =>
    obtain ⟨b, hb, hentries⟩ := sub_entriesAt h (show n < Id.numberOfBits by omega)
    refine bind_eq_ok.mpr ⟨b, hb, bind_eq_ok.mpr ⟨_, ih (by omega), ?_⟩⟩
    rw [Finset.sum_range_succ, Nat.add_comm, ← hentries]
    rfl

/-- The contacts that the count leaves out are not closer. -/
structure NoneMissed (t : Buckets Address) (target id : Id) : Prop where
  other : ¬ (target = t.myId ∧ id = t.myId)
  /-- The id is below the target's bucket: the contacts below that are left out. -/
  below : bucketId t id < bucketId t target → ∀ bid : Nat, bid < bucketId t target → ∀ c ∈ entriesAt t bid, closer target id c = false
  /-- It is above: those of the id's bucket are. -/
  above : bucketId t target < bucketId t id → ∀ bid : Nat, bid = bucketId t id → ∀ c ∈ entriesAt t bid, closer target id c = false

theorem sum_split {n b : Nat} (f : Nat → Nat) (hb : b < n) (hzero : ∀ bid, b < bid → f bid = 0) :
    ∑ bid ∈ Finset.range n, f bid = ∑ bid ∈ Finset.range b, f bid + f b := by
  rw [← Finset.sum_range_succ]
  symm
  refine Finset.sum_subset (Finset.range_mono (by omega)) ?_
  intro bid _ hnot
  rw [Finset.mem_range] at hnot
  exact hzero bid (by omega)

theorem sum_closerAt_zero (t : Buckets Address) (target id : Id) (b : Nat) :
    ∑ bid ∈ Finset.range b, closerAt t target id bid = 0 ↔ ∀ bid < b, ∀ c ∈ entriesAt t bid, closer target id c = false := by
  rw [Finset.sum_eq_zero_iff]
  constructor
  · intro hall bid hbid
    exact closerAt_eq_zero.mp (hall bid (Finset.mem_range.mpr hbid))
  · intro hall bid hbid
    exact closerAt_eq_zero.mpr (hall bid (Finset.mem_range.mp hbid))

theorem size_sub (h : Sound t) {b : Nat} (hb : b < Id.numberOfBits) :
    (do return (← sub t b).size : Except Exn Nat) = .ok (entriesAt t b).length := by
  obtain ⟨bucket, hsub, hentries⟩ := sub_entriesAt h hb
  refine bind_eq_ok.mpr ⟨bucket, hsub, ?_⟩
  rw [← hentries]
  rfl

/-- Target and id in one bucket: only its contacts may be closer. -/
theorem closerCount_same (hp : Placed t) {b : Nat} (hb : bucketId t target = b) (hid : bucketId t id = b) (hlt : b < Id.numberOfBits) :
    closerCount t target id = closerAt t target id b := by
  have htop := Id.isTop_of_highestOneBit hb
  rw [closerCount_eq, sum_split (b := b) _ hlt fun bid hbid => closerAt_zero fun c hc => ?_]
  · rw [Finset.sum_eq_zero, Nat.zero_add]
    intro bid hbid
    refine closerAt_zero fun c hc => ?_
    rw [closer_below hp hc hid (Finset.mem_range.mp hbid), htop.one]
    rfl
  · rw [closer_above hp hc (by omega)]
    exact htop.above bid hbid

/-- The id below: all contacts of the target's bucket are closer, and some below it may be. -/
theorem closerCount_below (hp : Placed t) {b : Nat} (hb : bucketId t target = b) (hid : bucketId t id < b) (hlt : b < Id.numberOfBits) :
    closerCount t target id = ∑ bid ∈ Finset.range b, closerAt t target id bid + (entriesAt t b).length := by
  have htop := Id.isTop_of_highestOneBit hb
  rw [closerCount_eq, sum_split (b := b) _ hlt fun bid hbid => closerAt_zero fun c hc => ?_]
  · rw [closerAt_all fun c hc => ?_]
    rw [closer_above hp hc hid]
    exact htop.one
  · rw [closer_above hp hc (by omega)]
    exact htop.above bid hbid

/-- The id above: all contacts below its bucket are closer, and some in it may be. -/
theorem closerCount_above (hp : Placed t) {b : Nat} (hid : bucketId t id = b) (hb : bucketId t target < b) (hlt : b < Id.numberOfBits) :
    closerCount t target id = ∑ bid ∈ Finset.range b, (entriesAt t bid).length + closerAt t target id b := by
  have hunder := under_bucketId hb
  rw [closerCount_eq, sum_split (b := b) _ hlt fun bid hbid => closerAt_zero fun c hc => ?_]
  · congr 1
    refine Finset.sum_congr rfl fun bid hbid => closerAt_all fun c hc => ?_
    rw [closer_below hp hc hid (Finset.mem_range.mp hbid), hunder b (Nat.le_refl b)]
    rfl
  · rw [closer_above hp hc (by omega)]
    exact hunder bid (by omega)

theorem countCloserNodesFor_same (h : Sound t) (hp : Placed t) (heq : bucketId t target = bucketId t id) :
    countCloserNodesFor t target id = .ok (closerCount t target id) ↔ NoneMissed t target id := by
  have hlt := bucketId_lt t target
  unfold countCloserNodesFor
  dsimp only
  rw [if_pos heq]
  by_cases h0 : 0 ≤ bucketId t target
  · obtain ⟨b, hb⟩ := Int.eq_ofNat_of_zero_le h0
    obtain ⟨bucket, hsub, hentries⟩ := sub_entriesAt h (show b < Id.numberOfBits by omega)
    constructor
    · intro _
      refine ⟨?_, fun hl => absurd hl (by omega), fun hl => absurd hl (by omega)⟩
      intro hown
      exact bucketId_nonneg.mp h0 hown.1
    · intro _
      rw [closerCount_same hp hb (heq ▸ hb) (by omega), hb]
      refine bind_eq_ok.mpr ⟨bucket, hsub, ?_⟩
      unfold closerAt closer
      rw [hentries]
      rfl
  · -- both are the node's own id
    have hown : ∀ x, bucketId t x = bucketId t target → x = t.myId := by
      intro x hx
      by_contra hne
      exact h0 (hx ▸ bucketId_nonneg.mpr hne)
    constructor
    · intro hok
      obtain ⟨b, hb, -⟩ := bind_eq_ok.mp hok
      rw [sub_neg (by omega)] at hb
      cases hb
    · intro hn
      exact absurd ⟨hown target rfl, hown id heq.symm⟩ hn.other

theorem countCloserNodesFor_below (h : Sound t) (hp : Placed t) (hgt : bucketId t id < bucketId t target) :
    countCloserNodesFor t target id = .ok (closerCount t target id) ↔ NoneMissed t target id := by
  have hlt := bucketId_lt t target
  have h0 : 0 ≤ bucketId t target := by
    have := Id.highestOneBit_ge (t.myId ^^^ id)
    unfold bucketId at hgt ⊢
    omega
  obtain ⟨b, hb⟩ := Int.eq_ofNat_of_zero_le h0
  have hzero := sum_closerAt_zero t target id b
  unfold countCloserNodesFor
  dsimp only
  rw [if_neg (Int.ne_of_gt hgt), if_pos hgt, closerCount_below hp hb (by omega) (by omega), hb, size_sub h (by omega), Except.ok.injEq]
  constructor
  · intro heq
    refine ⟨?_, ?_, fun hl => absurd hl (by omega)⟩
    · intro hown
      exact bucketId_nonneg.mp h0 hown.1
    · intro _ bid hbid
      exact hzero.mp (by omega) bid (by omega)
  · intro hn
    have := hzero.mpr fun bid hbid => hn.below hgt bid (by omega)
    omega

theorem countCloserNodesFor_above (h : Sound t) (hp : Placed t) (hgt : bucketId t target < bucketId t id) :
    countCloserNodesFor t target id = .ok (closerCount t target id) ↔ NoneMissed t target id := by
  have hlt := bucketId_lt t id
  have h0 : 0 ≤ bucketId t id := by
    have := Id.highestOneBit_ge (t.myId ^^^ target)
    unfold bucketId at hgt ⊢
    omega
  obtain ⟨b, hb⟩ := Int.eq_ofNat_of_zero_le h0
  have hid : bucketId t id = (b : Nat) := hb
  unfold countCloserNodesFor
  dsimp only
  rw [if_neg (Int.ne_of_lt hgt), if_neg (Int.not_lt.mpr (Int.le_of_lt hgt)), closerCount_above hp hid (by omega) (by omega), hid,
    Int.toNat_natCast, countAll_eq h (by omega), Except.ok.injEq]
  constructor
  · intro heq
    refine ⟨?_, fun hl => absurd hl (by omega), ?_⟩
    · intro hown
      exact bucketId_nonneg.mp h0 hown.2
    · intro _ bid hbid
      have hsame : bid = b := by omega
      rw [hsame]
      exact closerAt_eq_zero.mp (by omega)
  · intro hn
    have := closerAt_eq_zero.mpr (hn.above hgt b hid.symm)
    omega

theorem countCloserNodesFor_iff (h : Sound t) (hp : Placed t) (target id : Id) :
    countCloserNodesFor t target id = .ok (closerCount t target id) ↔ NoneMissed t target id := by
  rcases Int.lt_trichotomy (bucketId t target) (bucketId t id) with hgt | heq | hgt
  · exact countCloserNodesFor_above h hp hgt
  · exact countCloserNodesFor_same h hp heq
  · exact countCloserNodesFor_below h hp hgt

/-! ## Knowing closer nodes -/

/-- A known contact is strictly closer to the target than the node. -/
def KnowsCloser (t : Buckets Address) (target : Id) : Prop := ∃ c ∈ contacts t, closer target t.myId c = true

theorem checkBucket_eq (h : Sound t) {n : Nat} (hn : n ≤ Id.numberOfBits) :
    ∃ known, checkBucket t n = .ok known ∧ (known = true ↔ ∃ bid < n, entriesAt t bid ≠ []) := by
  induction n with
  | zero =>
    refine ⟨false, rfl, ?_⟩
    simp
  | succ n ih =>
    obtain ⟨b, hb, hentries⟩ := sub_entriesAt h (show n < Id.numberOfBits by omega)
    obtain ⟨known, hknown, hiff⟩ := ih (by omega)
    by_cases he : b.isEmpty = true
    · have hnil : entriesAt t n = [] := by
        rw [← hentries]
        exact List.isEmpty_iff.mp he
      refine ⟨known, bind_eq_ok.mpr ⟨b, hb, by rw [if_pos he]; exact hknown⟩, hiff.trans ?_⟩
      constructor
      · intro ⟨bid, hlt, hne⟩
        exact ⟨bid, by omega, hne⟩
      · intro ⟨bid, hlt, hne⟩
        rcases Nat.lt_succ_iff_lt_or_eq.mp hlt with hlt | rfl
        · exact ⟨bid, hlt, hne⟩
        · exact absurd hnil hne
    · refine ⟨true, bind_eq_ok.mpr ⟨b, hb, by rw [if_neg he]; rfl⟩, ?_⟩
      constructor
      · intro _
        refine ⟨n, by omega, ?_⟩
        rw [← hentries]
        intro hnil
        exact he (List.isEmpty_iff.mpr hnil)
      · intro _
        rfl

theorem knowsCloser_iff (h : Sound t) (hp : Placed t) (target : Id) :
    KnowsCloser t target ↔ ∃ bid, entriesAt t bid ≠ [] ∧ (t.myId ^^^ target).getLsbD bid = true := by
  have hown : ∀ bid : Nat, bucketId t t.myId < bid := by
    intro bid
    have hneg : ¬ 0 ≤ bucketId t t.myId := fun h0 => bucketId_nonneg.mp h0 rfl
    omega
  constructor
  · intro ⟨c, hc, hcloser⟩
    obtain ⟨bid, hbid⟩ := (mem_contacts h).mp hc
    rw [closer_above hp hbid (hown bid)] at hcloser
    exact ⟨bid, List.ne_nil_of_mem hbid, hcloser⟩
  · intro ⟨bid, hne, hbit⟩
    obtain ⟨c, hc⟩ := List.exists_mem_of_ne_nil _ hne
    exact ⟨c, (mem_contacts h).mpr ⟨bid, hc⟩, (closer_above hp hc (hown bid)).trans hbit⟩

/-- If there is a contact in the target's bucket or below, there is one where the target differs
    from the node. -/
def SomeDiffers (t : Buckets Address) (target : Id) : Prop :=
  (∃ bid : Nat, bid ≤ bucketId t target ∧ entriesAt t bid ≠ []) → ∃ bid, entriesAt t bid ≠ [] ∧ (t.myId ^^^ target).getLsbD bid = true

theorem knowNodesCloserTo_iff (h : Sound t) (hp : Placed t) (target : Id) :
    ∃ known, knowNodesCloserTo t target = .ok known ∧ ((known = true ↔ KnowsCloser t target) ↔ SomeDiffers t target) := by
  have hlt := bucketId_lt t target
  have hge := Id.highestOneBit_ge (t.myId ^^^ target)
  obtain ⟨known, hknown, hiff⟩ := checkBucket_eq h (n := (bucketId t target + 1).toNat) (by omega)
  refine ⟨known, hknown, ?_⟩
  have hiff' : known = true ↔ ∃ bid : Nat, bid ≤ bucketId t target ∧ entriesAt t bid ≠ [] := by
    rw [hiff]
    constructor
    · intro ⟨bid, hbid, hne⟩
      exact ⟨bid, by omega, hne⟩
    · intro ⟨bid, hbid, hne⟩
      exact ⟨bid, by omega, hne⟩
  -- a bit that is one is not above the highest
  have himp : (∃ bid, entriesAt t bid ≠ [] ∧ (t.myId ^^^ target).getLsbD bid = true) →
      ∃ bid : Nat, bid ≤ bucketId t target ∧ entriesAt t bid ≠ [] := by
    intro ⟨bid, hne, hbit⟩
    refine ⟨bid, ?_, hne⟩
    by_contra hgt
    rw [under_bucketId (show bucketId t target < bid by omega) bid (Nat.le_refl bid)] at hbit
    cases hbit
  rw [hiff', knowsCloser_iff h hp]
  unfold SomeDiffers
  constructor
  · intro hboth
    exact hboth.mp
  · intro hdiffers
    exact ⟨hdiffers, himp⟩

/-! ## The decision -/

end Buckets

open Buckets

/-- What the functions should say of a value and a contact. -/
structure Right (t : Buckets Util.Serial.Forms.Address) (id : Id) (addr : Util.Serial.Forms.Address) (entry : Id × Value) : Prop where
  count : countCloserNodesFor t entry.1 id = .ok (closerCount t entry.1 id)
  know : ∃ known, knowNodesCloserTo t entry.1 = .ok known ∧ (known = true ↔ KnowsCloser t entry.1)
  /-- The value is stored exactly if fewer than `k` contacts are closer to its key. -/
  store : checkStore t id addr entry = .ok (if closerCount t entry.1 id < Config.k then [.store addr id entry.1 entry.2] else [])

variable {t : Buckets Util.Serial.Forms.Address}

theorem checkStore_eq {id : Id} {addr : Util.Serial.Forms.Address} {entry : Id × Value} {known : Bool} {n : Nat}
    (hk : knowNodesCloserTo t entry.1 = .ok known) (hn : countCloserNodesFor t entry.1 id = .ok n) :
    checkStore t id addr entry = .ok (if known then [] else if n < Config.k then [.store addr id entry.1 entry.2] else []) := by
  unfold checkStore
  refine bind_eq_ok.mpr ⟨known, hk, ?_⟩
  cases known with
  | true => rfl
  | false => exact bind_eq_ok.mpr ⟨n, hn, rfl⟩

/-- The functions are right exactly where the count leaves no closer contact out, a contact in
    the target's bucket or below comes with one that is closer, and a node that knows of a
    closer one knows of `k` closer than the new contact. -/
theorem closeness_iff (h : Reachable t) (id : Id) (addr : Util.Serial.Forms.Address) (entry : Id × Value) :
    Right t id addr entry ↔
      NoneMissed t entry.1 id ∧ SomeDiffers t entry.1 ∧ (KnowsCloser t entry.1 → Config.k ≤ closerCount t entry.1 id) := by
  have hcount := countCloserNodesFor_iff h.sound h.placed entry.1 id
  obtain ⟨known, hknown, hknow⟩ := knowNodesCloserTo_iff h.sound h.placed entry.1
  -- the decision, once the two functions are right
  have hstore : countCloserNodesFor t entry.1 id = .ok (closerCount t entry.1 id) → (known = true ↔ KnowsCloser t entry.1) →
      (checkStore t id addr entry = .ok (if closerCount t entry.1 id < Config.k then [.store addr id entry.1 entry.2] else []) ↔
        (KnowsCloser t entry.1 → Config.k ≤ closerCount t entry.1 id)) := by
    intro hn hk
    rw [checkStore_eq hknown hn, Except.ok.injEq, ← hk]
    cases known with
    | false => simp
    | true =>
      simp only [if_true, true_implies]
      constructor
      · intro heq
        by_contra hlt
        rw [if_pos (Nat.lt_of_not_le hlt)] at heq
        cases heq
      · intro hle
        rw [if_neg (Nat.not_lt.mpr hle)]
  constructor
  · intro hright
    obtain ⟨known', hknown', hiff⟩ := hright.know
    rw [hknown] at hknown'
    cases hknown'
    exact ⟨hcount.mp hright.count, hknow.mp hiff, (hstore hright.count hiff).mp hright.store⟩
  · intro ⟨hmissed, hdiffers, hclosest⟩
    have hn := hcount.mpr hmissed
    have hk := hknow.mpr hdiffers
    exact ⟨hn, ⟨known, hknown, hk⟩, (hstore hn hk).mpr hclosest⟩

/-- A node 0 that has heard of 1. -/
theorem oneContact : ∃ t : Buckets Util.Serial.Forms.Address, Reachable t ∧ ids (contacts t) = [1] ∧ t.myId = 0 ∧
    (knowNodesCloserTo t 2).toOption = some true := by
  have hknown : ((Buckets.updateNode (new 0 Config.k) 1 (([], 0) : Util.Serial.Forms.Address)).toOption.bind fun t =>
      (knowNodesCloserTo t.1 2).toOption) = some true := by decide +kernel
  have hcontacts : ((Buckets.updateNode (new 0 Config.k) 1 (([], 0) : Util.Serial.Forms.Address)).toOption.map fun t =>
      (ids (contacts t.1), t.1.myId)) = some ([1], 0) := by decide +kernel
  cases ht : Buckets.updateNode (new 0 Config.k) 1 (([], 0) : Util.Serial.Forms.Address) with
  | error e =>
    rw [ht] at hcontacts
    cases hcontacts
  | ok p =>
    rw [ht] at hknown hcontacts
    obtain ⟨hids, hmy⟩ := Prod.mk.inj (Option.some.inj hcontacts)
    exact ⟨p.1, .updateNode (.new 0 (by decide)) ht, hids, hmy, hknown⟩

/-- It hears of 5, and holds a value under 9. -/
theorem closeness_iff_one : ∃ t, ids (contacts t) = [1] ∧ (Right t 5 ([], 0) (9, ⟨[], 0⟩) ↔
    NoneMissed t 9 5 ∧ SomeDiffers t 9 ∧ (KnowsCloser t 9 → Config.k ≤ closerCount t 9 5)) := by
  obtain ⟨t, hreachable, hids, -⟩ := oneContact
  exact ⟨t, hids, closeness_iff hreachable 5 ([], 0) (9, ⟨[], 0⟩)⟩

/-- A node 0 that has heard of 1 takes it for closer to 2 than itself. -/
theorem one_not_closer : ¬ ∀ (t : Buckets Util.Serial.Forms.Address) (id : Id) (addr : Util.Serial.Forms.Address) (entry : Id × Value),
    Reachable t → Right t id addr entry := by
  intro h
  obtain ⟨t, hreachable, hids, hmy, hknown⟩ := oneContact
  obtain ⟨known, hk, hiff⟩ := (h t 1 ([], 0) (2, ⟨[], 0⟩) hreachable).know
  rw [hk] at hknown
  cases hknown
  obtain ⟨c, hc, hcloser⟩ := hiff.mp rfl
  have hc1 : c.id = 1 := by
    have hmem : c.id ∈ ids (contacts t) := List.mem_map_of_mem hc
    rw [hids] at hmem
    exact List.mem_singleton.mp hmem
  unfold closer at hcloser
  rw [hc1, hmy] at hcloser
  revert hcloser
  decide

end BubbleStorm.Kademlia
