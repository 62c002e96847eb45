/-
  BubbleStorm.Kademlia.ValueLookup — the iterative lookup of a value (`lookupValue` of
  `src/kademlia/node.fun`).

  There are `alpha` slots for requests, which end as in `NodeLookup`, or are aborted when
  the value is found. A slot whose request is lost stays taken, and to abort it raises
  `KeyDoesNotExist`. `valueless` remembers who answered with nodes.

  The closest node without the value is kept by its id, but compared, and addressed, as
  if its distance to the target were kept. So a lookup that finds the value with no
  request lost calls back once, but its STORE is the one it should be only if nobody has
  answered with nodes, or the distance to the target is the id itself; and if a request is
  lost it neither calls back nor stores (`lookupValue_caches`).
-/

import BubbleStorm.Kademlia.NodeLookup

namespace BubbleStorm.Kademlia

open NodeLookupList

variable {Address Value : Type}

/-- A STORE that is sent. -/
structure StoreRequest (Address Value : Type) where
  destAddr : Address
  destId : Id
  id : Id
  value : Value
  expiryDate : Int

/-- Who is asked, and whether the request is in the table. -/
structure Slot (Address : Type) where
  node : Id × Address
  entered : Bool

structure ValueLookup (Address Value : Type) where
  nodeList : List (Entry Address)
  activeLookups : List (Option (Slot Address))
  closestNodeWithoutValue : Option (Id × Address)
  valueless : List (Id × Address)
  stores : List (StoreRequest Address Value)
  called : List (Option (Id × Value))

/-- What a request ends with. -/
inductive Found (Address Value : Type) where
  | failed
  | nodes (idList : List (Id × Address))
  | value (id : Id) (value : Value) (expiryDate : Int)

namespace ValueLookup

def lookup (s : ValueLookup Address Value) (i : Nat) (node : Id × Address) : Option (ValueLookup Address Value) := do
  let nodeList ← checkNode node.1 s.nodeList
  return { s with nodeList := nodeList, activeLookups := s.activeLookups.set i (some ⟨node, true⟩) }

def clearLookup (s : ValueLookup Address Value) (i : Nat) : ValueLookup Address Value :=
  { s with activeLookups := s.activeLookups.set i none }

/-- The slots that are left, and whether all were aborted: one whose request is not in the
    table raises. -/
def abortLookups : List (Option (Slot Address)) → List (Option (Slot Address)) × Bool
  | [] => ([], true)
  | none :: r => (none :: (abortLookups r).1, (abortLookups r).2)
  | some slot :: r => if slot.entered then (none :: (abortLookups r).1, (abortLookups r).2) else (some slot :: r, false)

def freeLookupSlots (s : ValueLookup Address Value) : List Nat :=
  (List.range Config.alpha).filter fun i => !(s.activeLookups[i]?.join).isSome

/-- The next unchecked node for each slot, as long as there is one. -/
def startLookup : List Nat → List (Entry Address) → ValueLookup Address Value → Option (ValueLookup Address Value)
  | [], _, s => some s
  | _ :: _, [], s => some s
  | i :: slots, e :: nodes, s => do startLookup slots nodes (← lookup s i (e.id, e.addr))

def startLookups (s : ValueLookup Address Value) : Option (ValueLookup Address Value) :=
  let kNodes := takeMax s.nodeList Config.k
  let uncheckedNodes := kNodes.filter (!·.checked)
  if !uncheckedNodes.isEmpty then startLookup (freeLookupSlots s) uncheckedNodes s
  else if s.activeLookups.any (·.isSome) then some s
  else some { s with called := s.called ++ [none] }

/-- The candidate for caching. -/
def candidate (targetId : Id) (closest : Option (Id × Address)) (node : Id × Address) : Id × Address :=
  match closest with
  | some (cid, caddr) => if node.1 ^^^ targetId < cid then node else (cid, caddr)
  | none => node

/-- The value goes to the candidate, if there is one. -/
def store (targetId : Id) (closest : Option (Id × Address)) (id : Id) (value : Value) (expiryDate : Int) :
    List (StoreRequest Address Value) :=
  match closest with
  | some (toXId, toAddr) => [⟨toAddr, toXId ^^^ targetId, id, value, expiryDate⟩]
  | none => []

/-- The request in slot `i`, to `node`, ends. -/
def findValueCb (targetId myId : Id) (s : ValueLookup Address Value) (i : Nat) (node : Id × Address) :
    Found Address Value → Option (ValueLookup Address Value)
  | .failed => startLookups (clearLookup { s with nodeList := removeNode node.1 s.nodeList } i)
  | .nodes idList =>
    startLookups { clearLookup { s with nodeList := idList.foldl (addNode targetId myId) s.nodeList } i with
      closestNodeWithoutValue := some (candidate targetId s.closestNodeWithoutValue node), valueless := s.valueless ++ [node] }
  | .value id value expiryDate =>
    let (slots, aborted) := abortLookups (clearLookup s i).activeLookups
    let s := { s with activeLookups := slots }
    if aborted then
      some { s with stores := s.stores ++ store targetId s.closestNodeWithoutValue id value expiryDate,
                    called := s.called ++ [some (id, value)] }
    else some s

def lookupValue (targetId myId : Id) (startNodes : List (Id × Address)) : Option (ValueLookup Address Value) :=
  startLookups ⟨startNodes.foldl (addNode targetId myId) [], List.replicate Config.alpha none, none, [], [], []⟩

/-- The request in a slot is answered under an id, times out, or is lost. -/
inductive Ev (Address Value : Type) where
  | response (i : Nat) (fromId : Id) (found : Found Address Value)
  | timeout (i : Nat)
  | lost (i : Nat)

/-- What is to end has to be in the table. -/
def step (targetId myId : Id) (s : ValueLookup Address Value) : Ev Address Value → Option (ValueLookup Address Value)
  | .response i fromId found =>
    match s.activeLookups[i]?.join with
    | some ⟨node, true⟩ => findValueCb targetId myId s i node (if fromId = node.1 then found else .failed)
    | _ => some s
  | .timeout i =>
    match s.activeLookups[i]?.join with
    | some ⟨node, true⟩ => findValueCb targetId myId s i node .failed
    | _ => some s
  | .lost i =>
    match s.activeLookups[i]?.join with
    | some slot => some { s with activeLookups := s.activeLookups.set i (some { slot with entered := false }) }
    | none => some s

def run (targetId myId : Id) (startNodes : List (Id × Address)) (evs : List (Ev Address Value)) :
    Option (ValueLookup Address Value) := do
  evs.foldlM (step targetId myId) (← lookupValue targetId myId startNodes)

/-! ## The invariant -/

variable {targetId myId : Id} {s : ValueLookup Address Value}

/-- Whom the candidate is one of. -/
structure Caching (targetId : Id) (closest : Option (Id × Address)) (valueless : List (Id × Address)) : Prop where
  empty : closest = none → valueless = []
  mem : ∀ p, closest = some p → p ∈ valueless
  /-- With the target zero the id is the distance. -/
  nearest : targetId = 0 → ∀ p, closest = some p → ∀ q ∈ valueless, ¬ q.1 ^^^ targetId < p.1 ^^^ targetId

structure Inv (targetId myId : Id) (s : ValueLookup Address Value) : Prop where
  list : Sorted targetId myId s.nodeList
  slots : s.activeLookups.length = Config.alpha
  caching : Caching targetId s.closestNodeWithoutValue s.valueless

/-- Every request that is counted is in the table. -/
def Whole (s : ValueLookup Address Value) : Prop := ∀ slot, some slot ∈ s.activeLookups → slot.entered = true

/-- The lookup waits, or has failed, or has found the value. -/
inductive Settled (targetId : Id) (s : ValueLookup Address Value) : Prop where
  | waits (active : ∃ slot, some slot ∈ s.activeLookups) (called : s.called = []) (stores : s.stores = [])
  | failed (idle : ∀ slot ∈ s.activeLookups, slot = none) (called : s.called = [none]) (stores : s.stores = [])
  | found (idle : ∀ slot ∈ s.activeLookups, slot = none) (id : Id) (value : Value) (expiryDate : Int)
      (called : s.called = [some (id, value)])
      (stores : s.stores = store targetId s.closestNodeWithoutValue id value expiryDate)

theorem caching_candidate {closest : Option (Id × Address)} {valueless : List (Id × Address)}
    (h : Caching targetId closest valueless) (node : Id × Address) :
    Caching targetId (some (candidate targetId closest node)) (valueless ++ [node]) where
  empty := nofun
  mem := by
    intro p hp
    cases hp
    unfold candidate
    split
    next cid caddr =>
      split
      · exact List.mem_append_right _ (List.mem_singleton_self _)
      · exact List.mem_append_left _ (h.mem _ rfl)
    next => exact List.mem_append_right _ (List.mem_singleton_self _)
  nearest := by
    intro hzero p hp q hq
    have hxor : ∀ x : Id, x ^^^ targetId = x := by
      intro x
      rw [hzero]
      exact BitVec.xor_zero
    cases hp
    rw [hxor, hxor]
    cases hc : closest with
    | none =>
      rw [h.empty hc] at hq
      cases List.mem_singleton.mp hq
      exact BitVec.lt_irrefl _
    | some c =>
      have hmin := h.nearest hzero c hc
      unfold candidate
      dsimp only
      rw [hxor]
      rcases List.mem_append.mp hq with hq | hq
      · have hq := hmin q hq
        rw [hxor, hxor] at hq
        split
        next hlt =>
          intro hlt'
          exact hq (BitVec.lt_trans hlt' hlt)
        next => exact hq
      · cases List.mem_singleton.mp hq
        split
        · exact BitVec.lt_irrefl _
        next hnot => exact hnot

/-- Only the list of candidates and the slots differ, and these not in what is lost. -/
structure Kept (s s' : ValueLookup Address Value) : Prop where
  whole : Whole s' ↔ Whole s
  closest : s'.closestNodeWithoutValue = s.closestNodeWithoutValue
  valueless : s'.valueless = s.valueless
  stores : s'.stores = s.stores
  called : s'.called = s.called

theorem Kept.trans {s s' s'' : ValueLookup Address Value} (h : Kept s s') (h' : Kept s' s'') : Kept s s'' :=
  ⟨h'.whole.trans h.whole, h'.closest.trans h.closest, h'.valueless.trans h.valueless, h'.stores.trans h.stores, h'.called.trans h.called⟩

theorem Kept.refl (s : ValueLookup Address Value) : Kept s s := ⟨Iff.rfl, rfl, rfl, rfl, rfl⟩

def Occupied (s : ValueLookup Address Value) : Prop := ∃ slot, some slot ∈ s.activeLookups

/-- A slot that holds no lost request may be filled or cleared. -/
theorem whole_set {l : List (Option (Slot Address))} {i : Nat} {slot' : Option (Slot Address)}
    (hold : ∀ slot, l[i]? = some (some slot) → slot.entered = true) (hnew : ∀ slot, slot' = some slot → slot.entered = true) :
    (∀ slot, some slot ∈ l.set i slot' → slot.entered = true) ↔ ∀ slot, some slot ∈ l → slot.entered = true := by
  constructor
  · intro h slot hslot
    obtain ⟨j, hj⟩ := List.mem_iff_getElem?.mp hslot
    by_cases hij : i = j
    · exact hold slot (hij ▸ hj)
    · exact h slot (List.mem_of_getElem? ((List.getElem?_set_ne hij).trans hj))
  · intro h slot hslot
    rcases List.mem_or_eq_of_mem_set hslot with hslot | hslot
    · exact h slot hslot
    · exact hnew slot hslot.symm

theorem lookup_inv (node : Id × Address) (h : Inv targetId myId s) {i : Nat} (hi : i < Config.alpha)
    (hfree : s.activeLookups[i]?.join = none) (hmem : node.1 ∈ s.nodeList.map (·.id)) :
    ∃ s', lookup s i node = some s' ∧ Inv targetId myId s' ∧ Kept s s' ∧ Occupied s' ∧
      s'.nodeList.map (·.id) = s.nodeList.map (·.id) ∧ ∀ j, j ≠ i → s'.activeLookups[j]? = s.activeLookups[j]? := by
  obtain ⟨l', hl', hids, hxids, hmem'⟩ := checkNode_some hmem
  have hlist : Sorted targetId myId l' := by
    refine ⟨?_, ?_, ?_⟩
    · rw [hxids]
      exact h.list.sorted
    · intro e he
      obtain ⟨x, hx, hid, hxid, -⟩ := hmem' e he
      rw [hxid, hid]
      exact h.list.xids x hx
    · intro e he
      obtain ⟨x, hx, hid, -⟩ := hmem' e he
      rw [hid]
      exact h.list.others x hx
  have hwhole : Whole { s with nodeList := l', activeLookups := s.activeLookups.set i (some ⟨node, true⟩) } ↔ Whole s := by
    refine whole_set (fun slot hslot => ?_) (fun slot hslot => ?_)
    · rw [hslot] at hfree
      cases hfree
    · cases hslot
      rfl
  refine ⟨{ s with nodeList := l', activeLookups := s.activeLookups.set i (some ⟨node, true⟩) }, ?_, ⟨hlist, ?_, h.caching⟩,
    ⟨hwhole, rfl, rfl, rfl, rfl⟩, ⟨⟨node, true⟩, List.mem_set (h.slots ▸ hi) _⟩, hids, fun j hj => List.getElem?_set_ne (Ne.symm hj)⟩
  · rw [lookup, hl']
    rfl
  · rw [List.length_set]
    exact h.slots

theorem startLookup_inv (slots : List Nat) (nodes : List (Entry Address)) (h : Inv targetId myId s) (hnodup : slots.Nodup)
    (hslots : ∀ i ∈ slots, i < Config.alpha ∧ s.activeLookups[i]?.join = none) (hmem : ∀ e ∈ nodes, e.id ∈ s.nodeList.map (·.id)) :
    ∃ s', startLookup slots nodes s = some s' ∧ Inv targetId myId s' ∧ Kept s s' ∧
      (Occupied s ∨ (slots ≠ [] ∧ nodes ≠ []) → Occupied s') := by
  induction slots generalizing s nodes with
  | nil =>
    refine ⟨s, by rw [startLookup], h, Kept.refl s, ?_⟩
    intro ho
    exact ho.resolve_right fun hne => hne.1 rfl
  | cons i slots ih =>
    cases nodes with
    | nil =>
      refine ⟨s, by rw [startLookup], h, Kept.refl s, ?_⟩
      intro ho
      exact ho.resolve_right fun hne => hne.2 rfl
    | cons e nodes =>
      obtain ⟨hi, hfree⟩ := hslots i List.mem_cons_self
      obtain ⟨hfresh, hnodup⟩ := List.nodup_cons.mp hnodup
      obtain ⟨s1, h1, hinv1, hkept1, hocc1, hids, hothers⟩ := lookup_inv (e.id, e.addr) h hi hfree (hmem e List.mem_cons_self)
      have hslots1 : ∀ j ∈ slots, j < Config.alpha ∧ s1.activeLookups[j]?.join = none := by
        intro j hj
        obtain ⟨hlt, hjfree⟩ := hslots j (.tail _ hj)
        exact ⟨hlt, (hothers j fun heq => hfresh (heq ▸ hj)) ▸ hjfree⟩
      obtain ⟨s2, h2, hinv2, hkept2, hocc2⟩ := ih nodes hinv1 hnodup hslots1 (fun x hx => hids.symm ▸ hmem x (.tail _ hx))
      refine ⟨s2, ?_, hinv2, hkept1.trans hkept2, fun _ => hocc2 (.inl hocc1)⟩
      rw [startLookup, h1]
      exact h2

theorem occupied_of_full (hfull : freeLookupSlots s = []) : Occupied s := by
  have hall := List.filter_eq_nil_iff.mp hfull 0 (List.mem_range.mpr (by decide))
  have hsome : (s.activeLookups[0]?.join).isSome = true := Option.isSome_iff_ne_none.mpr (by simpa using hall)
  obtain ⟨slot, hslot⟩ := Option.isSome_iff_exists.mp hsome
  rw [Option.join_eq_some_iff] at hslot
  exact ⟨slot, List.mem_of_getElem? hslot⟩

theorem startLookups_inv (targetId myId : Id) (s : ValueLookup Address Value) (h : Inv targetId myId s) (hc : s.called = []) (hst : s.stores = []) :
    ∃ s', startLookups s = some s' ∧ Inv targetId myId s' ∧ Settled targetId s' ∧ (Whole s' ↔ Whole s) := by
  unfold startLookups
  dsimp only
  have hk : takeMax s.nodeList (Config.k : Nat) = s.nodeList.take Config.k := takeMax_eq s.nodeList Config.k
  rw [hk]
  by_cases hu : ((s.nodeList.take Config.k).filter (!·.checked)).isEmpty = true
  · rw [hu]
    simp only [Bool.not_true, Bool.false_eq_true, if_false]
    by_cases ha : s.activeLookups.any (·.isSome) = true
    · rw [if_pos ha]
      obtain ⟨slot, hslot, hsome⟩ := List.any_eq_true.mp ha
      obtain ⟨node, rfl⟩ := Option.isSome_iff_exists.mp hsome
      exact ⟨s, rfl, h, .waits ⟨node, hslot⟩ hc hst, Iff.rfl⟩
    · rw [if_neg ha]
      refine ⟨_, rfl, ⟨h.list, h.slots, h.caching⟩, .failed ?_ ?_ hst, Iff.rfl⟩
      · intro slot hslot
        rw [List.any_eq_true, not_exists] at ha
        exact Option.not_isSome_iff_eq_none.mp fun hsome => ha slot ⟨hslot, hsome⟩
      · show s.called ++ [none] = _
        rw [hc]
        rfl
  · rw [Bool.not_eq_true] at hu
    rw [hu]
    simp only [Bool.not_false, if_true]
    have hslots : ∀ i ∈ freeLookupSlots s, i < Config.alpha ∧ s.activeLookups[i]?.join = none := by
      intro i hi
      obtain ⟨hrange, hfree⟩ := List.mem_filter.mp hi
      exact ⟨List.mem_range.mp hrange, by simpa using hfree⟩
    obtain ⟨s', hs', hinv, hkept, hocc⟩ := startLookup_inv (freeLookupSlots s) ((s.nodeList.take Config.k).filter (!·.checked)) h
      (List.nodup_range.filter _) hslots (fun e he => List.mem_map_of_mem (List.mem_of_mem_take (List.mem_of_mem_filter he)))
    refine ⟨s', hs', hinv, .waits ?_ (hkept.called.trans hc) (hkept.stores.trans hst), hkept.whole⟩
    apply hocc
    by_cases hfull : freeLookupSlots s = []
    · exact .inl (occupied_of_full hfull)
    · refine .inr ⟨hfull, ?_⟩
      intro hnil
      rw [hnil] at hu
      cases hu

/-! ## Aborting -/

theorem abortLookups_length (l : List (Option (Slot Address))) : (abortLookups l).1.length = l.length := by
  induction l with
  | nil => rfl
  | cons slot r ih =>
    cases slot with
    | none => exact congrArg Nat.succ ih
    | some slot =>
      unfold abortLookups
      split
      · exact congrArg Nat.succ ih
      · rfl

/-- All are aborted exactly if no request is lost; one that is stays. -/
theorem abortLookups_iff (l : List (Option (Slot Address))) :
    ((abortLookups l).2 = true ↔ ∀ slot, some slot ∈ l → slot.entered = true) ∧
      ((abortLookups l).2 = true → ∀ slot ∈ (abortLookups l).1, slot = none) ∧
      ((abortLookups l).2 = false → ∃ slot, some slot ∈ (abortLookups l).1 ∧ slot.entered = false) := by
  induction l with
  | nil => exact ⟨⟨fun _ _ hslot => absurd hslot List.not_mem_nil, fun _ => rfl⟩, fun _ _ hslot => absurd hslot List.not_mem_nil, nofun⟩
  | cons head r ih =>
    obtain ⟨hiff, hnone, hlost⟩ := ih
    cases head with
    | none =>
      refine ⟨hiff.trans ⟨fun h slot hslot => ?_, fun h slot hslot => h slot (.tail _ hslot)⟩, fun h slot hslot => ?_, fun h => ?_⟩
      · exact h slot ((List.mem_cons.mp hslot).resolve_left nofun)
      · obtain rfl | hslot := List.mem_cons.mp hslot
        · rfl
        · exact hnone h slot hslot
      · obtain ⟨slot, hslot, hfalse⟩ := hlost h
        exact ⟨slot, .tail _ hslot, hfalse⟩
    | some head =>
      unfold abortLookups
      by_cases hin : head.entered = true
      · rw [if_pos hin]
        refine ⟨hiff.trans ⟨fun h slot hslot => ?_, fun h slot hslot => h slot (.tail _ hslot)⟩, fun h slot hslot => ?_, fun h => ?_⟩
        · obtain heq | hslot := List.mem_cons.mp hslot
          · cases heq
            exact hin
          · exact h slot hslot
        · obtain rfl | hslot := List.mem_cons.mp hslot
          · rfl
          · exact hnone h slot hslot
        · obtain ⟨slot, hslot, hfalse⟩ := hlost h
          exact ⟨slot, .tail _ hslot, hfalse⟩
      · rw [if_neg hin]
        exact ⟨⟨nofun, fun h => absurd (h head List.mem_cons_self) hin⟩, nofun,
          fun _ => ⟨head, List.mem_cons_self, Bool.not_eq_true _ ▸ hin⟩⟩

/-! ## Steps and runs -/

/-- What an answer says it has found. -/
def Finds (s : ValueLookup Address Value) : Ev Address Value → Id → Value → Prop
  | .response i fromId (.value id value _), id', value' =>
    id = id' ∧ value = value' ∧ ∃ addr, s.activeLookups[i]? = some (some ⟨(fromId, addr), true⟩)
  | _, _, _ => False

theorem findValueCb_inv (h : Inv targetId myId s) (hc : s.called = []) (hst : s.stores = []) {i : Nat} {node : Id × Address}
    (hi : s.activeLookups[i]? = some (some ⟨node, true⟩)) (found : Found Address Value) :
    ∃ s', findValueCb targetId myId s i node found = some s' ∧ Inv targetId myId s' ∧ Settled targetId s' ∧
      (¬ Whole s → ¬ Whole s') ∧ ∀ id value expiryDate, found = .value id value expiryDate → Whole s →
        s'.called = [some (id, value)] ∧ s'.stores = store targetId s.closestNodeWithoutValue id value expiryDate ∧
        s'.closestNodeWithoutValue = s.closestNodeWithoutValue ∧ s'.valueless = s.valueless := by
  have hset : (s.activeLookups.set i none).length = Config.alpha := by
    rw [List.length_set]
    exact h.slots
  have hcleared : (∀ slot, some slot ∈ s.activeLookups.set i none → slot.entered = true) ↔ Whole s := by
    refine whole_set (fun slot hslot => ?_) nofun
    rw [hi] at hslot
    cases hslot
    rfl
  cases found with
  | failed =>
    obtain ⟨s', hs', hinv, hsettled, hwhole⟩ := startLookups_inv targetId myId
      (clearLookup { s with nodeList := removeNode node.1 s.nodeList } i)
      ⟨h.list.sublist (removeNode_sublist node.1), hset, h.caching⟩ hc hst
    exact ⟨s', hs', hinv, hsettled, fun hnot h' => hnot (hcleared.mp (hwhole.mp h')), nofun⟩
  | nodes idList =>
    obtain ⟨s', hs', hinv, hsettled, hwhole⟩ := startLookups_inv targetId myId
      { clearLookup { s with nodeList := idList.foldl (addNode targetId myId) s.nodeList } i with
        closestNodeWithoutValue := some (candidate targetId s.closestNodeWithoutValue node), valueless := s.valueless ++ [node] }
      ⟨addNodes_sorted h.list idList, hset, caching_candidate h.caching node⟩ hc hst
    exact ⟨s', hs', hinv, hsettled, fun hnot h' => hnot (hcleared.mp (hwhole.mp h')), nofun⟩
  | value id value expiryDate =>
    have hlength := (abortLookups_length (s.activeLookups.set i none)).trans hset
    obtain ⟨hiff, hnone, hlost⟩ := abortLookups_iff (s.activeLookups.set i none)
    unfold findValueCb clearLookup
    dsimp only
    by_cases haborted : (abortLookups (s.activeLookups.set i none)).2 = true
    · rw [if_pos haborted]
      have hcalled : s.called ++ [some (id, value)] = [some (id, value)] := by
        rw [hc]
        rfl
      have hstores : s.stores ++ store targetId s.closestNodeWithoutValue id value expiryDate =
          store targetId s.closestNodeWithoutValue id value expiryDate := by
        rw [hst]
        rfl
      refine ⟨_, rfl, ⟨h.list, hlength, h.caching⟩, .found (hnone haborted) id value expiryDate hcalled hstores,
        fun hnot => absurd (hcleared.mp (hiff.mp haborted)) hnot, ?_⟩
      rintro _ _ _ ⟨⟩ -
      exact ⟨hcalled, hstores, rfl, rfl⟩
    · rw [if_neg haborted]
      obtain ⟨slot, hslot, hfalse⟩ := hlost (Bool.not_eq_true _ ▸ haborted)
      refine ⟨_, rfl, ⟨h.list, hlength, h.caching⟩, .waits ⟨slot, hslot⟩ hc hst, fun _ h' => ?_, ?_⟩
      · rw [h' slot hslot] at hfalse
        cases hfalse
      · intro _ _ _ _ hwhole
        exact absurd (hiff.mpr (hcleared.mpr hwhole)) haborted

theorem lookupValue_inv (Value : Type) (targetId myId : Id) (startNodes : List (Id × Address)) :
    ∃ s : ValueLookup Address Value, lookupValue targetId myId startNodes = some s ∧ Inv targetId myId s ∧ Settled targetId s := by
  have hcaching : Caching targetId (none : Option (Id × Address)) [] := ⟨fun _ => rfl, nofun, nofun⟩
  obtain ⟨s, hs, hinv, hsettled, -⟩ := startLookups_inv targetId myId
    (⟨startNodes.foldl (addNode targetId myId) [], List.replicate Config.alpha none, none, [], [], []⟩ : ValueLookup Address Value)
    ⟨addNodes_sorted Sorted.nil _, List.length_replicate, hcaching⟩ rfl rfl
  exact ⟨s, hs, hinv, hsettled⟩

/-- With a request lost it is not over. -/
theorem waits_of_lost (hs : Settled targetId s) (hlost : ¬ Whole s) : s.called = [] ∧ s.stores = [] := by
  cases hs with
  | waits _ hc hst => exact ⟨hc, hst⟩
  | failed hidle => exact absurd (fun slot hslot => nomatch hidle _ hslot) hlost
  | found hidle => exact absurd (fun slot hslot => nomatch hidle _ hslot) hlost

theorem step_inv (h : Inv targetId myId s) (hs : Settled targetId s) (e : Ev Address Value) :
    ∃ s', step targetId myId s e = some s' ∧ Inv targetId myId s' ∧ Settled targetId s' ∧ (¬ Whole s → ¬ Whole s') ∧
      ∀ id value, Finds s e id value → Whole s → s'.called = [some (id, value)] ∧ s'.valueless = s.valueless := by
  -- a lookup that is over has nobody asked
  have hwaits : ∀ {i : Nat} {slot : Slot Address}, s.activeLookups[i]? = some (some slot) → s.called = [] ∧ s.stores = [] := by
    intro i slot hslot
    have hmem := List.mem_of_getElem? hslot
    cases hs with
    | waits _ hc hst => exact ⟨hc, hst⟩
    | failed hidle => cases hidle _ hmem
    | found hidle => cases hidle _ hmem
  cases e with
  | response i fromId found =>
    unfold step
    dsimp only
    split
    · rename_i node hnode
      rw [Option.join_eq_some_iff] at hnode
      obtain ⟨s', hs', hinv, hset, hwhole, hfound⟩ := findValueCb_inv h (hwaits hnode).1 (hwaits hnode).2 hnode
        (if fromId = node.1 then found else .failed)
      refine ⟨s', hs', hinv, hset, hwhole, fun id value hfinds hw => ?_⟩
      cases found with
      | failed => cases hfinds
      | nodes idList => cases hfinds
      | value id' value' expiryDate =>
        obtain ⟨rfl, rfl, addr, hslot⟩ := hfinds
        cases hnode.symm.trans hslot
        obtain ⟨hcalled, -, -, hvalueless⟩ := hfound id' value' expiryDate (if_pos rfl) hw
        exact ⟨hcalled, hvalueless⟩
    · rename_i hnot
      refine ⟨s, rfl, h, hs, id, fun id value hfinds => ?_⟩
      cases found with
      | failed => cases hfinds
      | nodes idList => cases hfinds
      | value id' value' expiryDate =>
        obtain ⟨-, -, addr, hslot⟩ := hfinds
        exact absurd (Option.join_eq_some_iff.mpr hslot) (hnot _)
  | timeout i =>
    unfold step
    dsimp only
    split
    · rename_i node hnode
      rw [Option.join_eq_some_iff] at hnode
      obtain ⟨s', hs', hinv, hset, hwhole, -⟩ := findValueCb_inv h (hwaits hnode).1 (hwaits hnode).2 hnode .failed
      exact ⟨s', hs', hinv, hset, hwhole, nofun⟩
    · exact ⟨s, rfl, h, hs, id, nofun⟩
  | lost i =>
    unfold step
    dsimp only
    split
    · rename_i slot hslot
      rw [Option.join_eq_some_iff] at hslot
      obtain ⟨hc, hst⟩ := hwaits hslot
      have hlt := (List.getElem?_eq_some_iff.mp hslot).1
      have hmem : some { slot with entered := false } ∈ s.activeLookups.set i (some { slot with entered := false }) :=
        List.mem_set hlt _
      refine ⟨_, rfl, ⟨h.list, ?_, h.caching⟩, .waits ⟨_, hmem⟩ hc hst, fun _ hwhole => ?_, nofun⟩
      · exact List.length_set.trans h.slots
      · cases hwhole _ hmem
    · exact ⟨s, rfl, h, hs, id, nofun⟩

theorem steps_inv (h : Inv targetId myId s) (hs : Settled targetId s) (evs : List (Ev Address Value)) :
    ∃ s', evs.foldlM (step targetId myId) s = some s' ∧ Inv targetId myId s' ∧ Settled targetId s' ∧ (¬ Whole s → ¬ Whole s') := by
  induction evs generalizing s with
  | nil => exact ⟨s, rfl, h, hs, id⟩
  | cons e evs ih =>
    obtain ⟨s1, h1, hinv1, hset1, hwhole1, -⟩ := step_inv h hs e
    obtain ⟨s2, h2, hinv2, hset2, hwhole2⟩ := ih hinv1 hset1
    refine ⟨s2, ?_, hinv2, hset2, fun hnot => hwhole2 (hwhole1 hnot)⟩
    rw [List.foldlM_cons, h1]
    exact h2

/-- Once the value is found nothing happens any more. -/
theorem steps_found (hs : Settled targetId s) {r : Id × Value} (hc : s.called = [some r]) (evs : List (Ev Address Value)) :
    evs.foldlM (step targetId myId) s = some s := by
  have hidle : ∀ i : Nat, s.activeLookups[i]?.join = none := by
    intro i
    cases hslot : (s.activeLookups[i]? : Option (Option (Slot Address))) with
    | none => rfl
    | some slot =>
      cases hs with
      | waits _ hnil =>
        rw [hnil] at hc
        cases hc
      | failed hidle => exact hidle _ (List.mem_of_getElem? hslot)
      | found hidle => exact hidle _ (List.mem_of_getElem? hslot)
  induction evs with
  | nil => rfl
  | cons e evs ih =>
    have hstep : step targetId myId s e = some s := by
      cases e with
      | response i fromId found =>
        unfold step
        dsimp only
        rw [hidle i]
      | timeout i =>
        unfold step
        dsimp only
        rw [hidle i]
      | lost i =>
        unfold step
        dsimp only
        rw [hidle i]
    rw [List.foldlM_cons, hstep]
    exact ih

/-! ## Caching -/

/-- Called back once, with the value that is stored: at the closest node that answered with
    nodes, under its own id, if there is one. -/
structure Cached (targetId : Id) (s : ValueLookup Address Value) (id : Id) (value : Value) : Prop where
  called : s.called = [some (id, value)]
  none : s.valueless = [] → s.stores = []
  once : s.valueless ≠ [] → ∃ r node, s.stores = [r] ∧ r.id = id ∧ r.value = value ∧ node ∈ s.valueless ∧
    (∀ other ∈ s.valueless, ¬ other.1 ^^^ targetId < node.1 ^^^ targetId) ∧ r.destAddr = node.2 ∧ r.destId = node.1

/-- Two that answered from one address have ids that differ by the target. -/
def Mirrored (targetId : Id) (valueless : List (Id × Address)) : Prop :=
  ∃ p ∈ valueless, ∃ q ∈ valueless, p.2 = q.2 ∧ q.1 = p.1 ^^^ targetId

theorem cached_of (h : Inv targetId myId s) {id : Id} {value : Value} {expiryDate : Int} (hc : s.called = [some (id, value)])
    (hst : s.stores = store targetId s.closestNodeWithoutValue id value expiryDate) (hcond : s.valueless = [] ∨ targetId = 0) :
    Cached targetId s id value := by
  refine ⟨hc, ?_, ?_⟩
  · intro hnil
    cases hclosest : s.closestNodeWithoutValue with
    | none =>
      rw [hst, hclosest]
      rfl
    | some p =>
      have := h.caching.mem p hclosest
      rw [hnil] at this
      cases this
  · intro hne
    have hzero := hcond.resolve_left hne
    cases hclosest : s.closestNodeWithoutValue with
    | none => exact absurd (h.caching.empty hclosest) hne
    | some p =>
      refine ⟨⟨p.2, p.1 ^^^ targetId, id, value, expiryDate⟩, p, ?_, rfl, rfl, h.caching.mem p hclosest,
        h.caching.nearest hzero p hclosest, rfl, ?_⟩
      · rw [hst, hclosest]
        rfl
      · rw [hzero]
        exact BitVec.xor_zero

theorem of_cached (h : Inv targetId myId s) {id : Id} {value : Value} {expiryDate : Int}
    (hst : s.stores = store targetId s.closestNodeWithoutValue id value expiryDate) (hcached : Cached targetId s id value) :
    s.valueless = [] ∨ targetId = 0 ∨ Mirrored targetId s.valueless := by
  by_cases hnil : s.valueless = []
  · exact .inl hnil
  · obtain ⟨r, node, hr, -, -, hnode, -, haddr, hid⟩ := hcached.once hnil
    cases hclosest : s.closestNodeWithoutValue with
    | none => exact absurd (h.caching.empty hclosest) hnil
    | some p =>
      rw [hst, hclosest] at hr
      cases hr
      exact .inr (.inr ⟨p, h.caching.mem p hclosest, node, hnode, haddr, hid.symm⟩)

theorem length_le_of_settled (hs : Settled targetId s) : s.called.length ≤ 1 ∧ s.stores.length ≤ 1 := by
  cases hs with
  | waits _ hc hst =>
    rw [hc, hst]
    exact ⟨Nat.zero_le _, Nat.zero_le _⟩
  | failed _ hc hst =>
    rw [hc, hst]
    exact ⟨Nat.le_refl _, Nat.zero_le _⟩
  | found _ id value expiryDate hc hst =>
    rw [hc, hst]
    refine ⟨Nat.le_refl _, ?_⟩
    unfold store
    split
    · exact Nat.le_refl _
    · exact Nat.zero_le _

end ValueLookup

end BubbleStorm.Kademlia
