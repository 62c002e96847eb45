/-
  BubbleStorm.Kademlia.NodeLookup — the iterative lookup of nodes
  (`lookupNodes` and `NodeLookupList` of `src/kademlia/node.fun`).

  An id is 160 bits, compared as a number. The contacts a lookup starts with are a
  parameter (`Buckets.getCloseNodes`). Requests end in any order: with an answer, with
  their timer, or with an answer of another service or one that does not parse
  (`Requests`). The last takes the request out of the table (`src/kademlia/rpc-udp.fun`)
  without a word to the lookup, which goes on to count it: it is lost. An answer under
  another id counts as a timeout. The ids of requests are new ones; the statistics are
  left out.

  Proved: a lookup never has more than `alpha` requests outstanding and calls back at most
  once; `checkNode` always finds its node; what is reported is at most `k` nodes, sorted by
  their distance, that it was told of and that have all answered. If no request is lost it
  has called back when nothing is outstanding, and has not otherwise (`lookup_sound`).
-/

import Mathlib.Data.List.Perm.Basic

namespace BubbleStorm.Kademlia

namespace Config

def k : Nat := 10
def alpha : Nat := 3

end Config

abbrev Id := BitVec 160

variable {Address : Type}

/-! ## The list of candidates -/

structure Entry (Address : Type) where
  id : Id
  addr : Address
  xid : Id
  checked : Bool

namespace NodeLookupList

def maxSize : Int := 2 * Config.k

def takeMax {α : Type} : List α → Int → List α
  | [], _ => []
  | l :: r, i => if i = 0 then [] else l :: takeMax r (i - 1)

def insert (e1 : Entry Address) : List (Entry Address) → List (Entry Address)
  | [] => [e1]
  | e2 :: r =>
    if e1.xid = e2.xid then e2 :: r
    else if e1.xid < e2.xid then e1 :: e2 :: r
    else e2 :: insert e1 r

def addNode (targetId myId : Id) (this : List (Entry Address)) (node : Id × Address) : List (Entry Address) :=
  if node.1 = myId then this
  else takeMax (insert ⟨node.1, node.2, node.1 ^^^ targetId, false⟩ this) maxSize

/-- `none` is `Fail "Check non-existent item"`. -/
def checkNode (checkId : Id) : List (Entry Address) → Option (List (Entry Address))
  | [] => none
  | e :: r => if e.id = checkId then some ({ e with checked := true } :: r) else (checkNode checkId r).map (e :: ·)

def removeNode (removeId : Id) : List (Entry Address) → List (Entry Address)
  | [] => []
  | e :: r => if e.id = removeId then r else e :: removeNode removeId r

end NodeLookupList

open NodeLookupList

/-! ## A lookup -/

/-- The requests outstanding, the ids that have answered one and those that have failed, the
    nodes it was told of, and what the callback was called with. -/
structure Lookup (Address : Type) where
  nodeList : List (Entry Address)
  activeLookups : Int
  requests : List (Id × Address)
  answered : List Id
  failed : List Id
  known : List (Id × Address)
  called : List (List (Id × Address))

namespace Lookup

def lookup (s : Lookup Address) (node : Id × Address) : Option (Lookup Address) := do
  let nodeList ← checkNode node.1 s.nodeList
  return { s with nodeList := nodeList, activeLookups := s.activeLookups + 1, requests := s.requests ++ [node] }

def idAddr (e : Entry Address) : Id × Address := (e.id, e.addr)

def startLookups (s : Lookup Address) : Option (Lookup Address) :=
  let count := Config.alpha - s.activeLookups
  let kNodes := takeMax s.nodeList Config.k
  let uncheckedNodes := kNodes.filter (!·.checked)
  if !uncheckedNodes.isEmpty then ((takeMax uncheckedNodes count).map idAddr).foldlM lookup s
  else if 0 < s.activeLookups then some s
  else some { s with called := s.called ++ [kNodes.map idAddr] }

/-- The outcome of request number `i`, which was to `id`. -/
def findNodeCb (targetId myId : Id) (s : Lookup Address) (i : Nat) (id : Id) : Option (List (Id × Address)) → Option (Lookup Address)
  | none =>
    startLookups { s with nodeList := removeNode id s.nodeList, activeLookups := s.activeLookups - 1,
                          requests := s.requests.eraseIdx i, failed := id :: s.failed }
  | some idList =>
    startLookups { s with nodeList := idList.foldl (addNode targetId myId) s.nodeList,
                          activeLookups := s.activeLookups - 1, requests := s.requests.eraseIdx i,
                          answered := id :: s.answered, known := s.known ++ idList }

def lookupNodes (targetId myId : Id) (startNodes : List (Id × Address)) : Option (Lookup Address) :=
  startLookups ⟨startNodes.foldl (addNode targetId myId) [], 0, [], [], [], startNodes, []⟩

/-- `lost`: an answer of another service, or one that does not parse. -/
inductive Ev (Address : Type) where
  | response (i : Nat) (fromId : Id) (idList : List (Id × Address))
  | timeout (i : Nat)
  | lost (i : Nat)

def step (targetId myId : Id) (s : Lookup Address) : Ev Address → Option (Lookup Address)
  | .response i fromId idList =>
    match s.requests[i]? with
    | none => some s
    | some (id, _) => findNodeCb targetId myId s i id (if fromId = id then some idList else none)
  | .timeout i =>
    match s.requests[i]? with
    | none => some s
    | some (id, _) => findNodeCb targetId myId s i id none
  -- the request is forgotten, and `findNodeCb` is never called
  | .lost i => some { s with requests := s.requests.eraseIdx i }

def run (targetId myId : Id) (startNodes : List (Id × Address)) (evs : List (Ev Address)) : Option (Lookup Address) := do
  evs.foldlM (step targetId myId) (← lookupNodes targetId myId startNodes)

end Lookup

/-! ## What the list operations keep -/

theorem takeMax_eq {α : Type} (l : List α) (n : Nat) : takeMax l n = l.take n := by
  induction l generalizing n with
  | nil => rw [takeMax, List.take_nil]
  | cons x l ih =>
    cases n with
    | zero => rfl
    | succ n =>
      have h : ((n + 1 : Nat) : Int) ≠ 0 := by omega
      have e : ((n + 1 : Nat) : Int) - 1 = n := by omega
      rw [takeMax, if_neg h, e, ih, List.take_succ_cons]

/-- A list of candidates for `targetId`, the nearest first. -/
structure Sorted (targetId myId : Id) (l : List (Entry Address)) : Prop where
  sorted : (l.map (·.xid)).Pairwise (· < ·)
  xids : ∀ e ∈ l, e.xid = e.id ^^^ targetId
  others : ∀ e ∈ l, e.id ≠ myId

section List

variable {targetId myId : Id} {l : List (Entry Address)}

theorem Sorted.nil : Sorted targetId myId ([] : List (Entry Address)) :=
  ⟨List.Pairwise.nil, fun _ h => absurd h List.not_mem_nil, fun _ h => absurd h List.not_mem_nil⟩

theorem Sorted.sublist {l' : List (Entry Address)} (h : Sorted targetId myId l) (hsub : l'.Sublist l) : Sorted targetId myId l' :=
  ⟨h.sorted.sublist (hsub.map _), fun e he => h.xids e (hsub.subset he), fun e he => h.others e (hsub.subset he)⟩

theorem mem_insert {e x : Entry Address} (h : x ∈ insert e l) : x = e ∨ x ∈ l := by
  induction l with
  | nil => exact .inl (List.mem_singleton.mp h)
  | cons e2 r ih =>
    unfold NodeLookupList.insert at h
    split at h
    · exact .inr h
    · split at h
      · exact List.mem_cons.mp h
      · obtain rfl | h := List.mem_cons.mp h
        · exact .inr List.mem_cons_self
        · obtain h | h := ih h
          · exact .inl h
          · exact .inr (List.mem_cons_of_mem _ h)

theorem insert_sorted {e : Entry Address} (h : (l.map (·.xid)).Pairwise (· < ·)) :
    ((insert e l).map (·.xid)).Pairwise (· < ·) := by
  induction l with
  | nil => exact List.pairwise_singleton _ _
  | cons e2 r ih =>
    rw [List.map_cons, List.pairwise_cons] at h
    obtain ⟨hlt, hr⟩ := h
    unfold NodeLookupList.insert
    split
    · exact List.pairwise_cons.mpr ⟨hlt, hr⟩
    · rename_i hne
      split
      · rename_i hless
        refine List.pairwise_cons.mpr ⟨fun y hy => ?_, List.pairwise_cons.mpr ⟨hlt, hr⟩⟩
        obtain rfl | hy := List.mem_cons.mp hy
        · exact hless
        · exact BitVec.lt_trans hless (hlt y hy)
      · rename_i hnless
        refine List.pairwise_cons.mpr ⟨fun y hy => ?_, ih hr⟩
        obtain ⟨x, hx, rfl⟩ := List.mem_map.mp hy
        obtain rfl | hx := mem_insert hx
        · exact BitVec.lt_of_le_ne (BitVec.not_lt.mp hnless) (Ne.symm hne)
        · exact hlt _ (List.mem_map_of_mem hx)

theorem addNode_sorted (h : Sorted targetId myId l) (node : Id × Address) : Sorted targetId myId (addNode targetId myId l node) := by
  unfold addNode
  split
  · exact h
  · rename_i hne
    have hins : Sorted targetId myId (insert ⟨node.1, node.2, node.1 ^^^ targetId, false⟩ l) := by
      refine ⟨insert_sorted h.sorted, fun e he => ?_, fun e he => ?_⟩
      · obtain rfl | he := mem_insert he
        · rfl
        · exact h.xids e he
      · obtain rfl | he := mem_insert he
        · exact hne
        · exact h.others e he
    exact hins.sublist ((takeMax_eq _ 20).symm ▸ List.take_sublist _ _)

/-- A node that is added is not checked. -/
theorem mem_addNode {node : Id × Address} {e : Entry Address} (h : e ∈ addNode targetId myId l node) :
    e ∈ l ∨ e.checked = false ∧ (e.id, e.addr) = node := by
  unfold addNode at h
  split at h
  · exact .inl h
  · have h : e ∈ (insert ⟨node.1, node.2, node.1 ^^^ targetId, false⟩ l).take 20 := takeMax_eq _ 20 ▸ h
    obtain rfl | h := mem_insert (List.mem_of_mem_take h)
    · exact .inr ⟨rfl, rfl⟩
    · exact .inl h

theorem insert_keeps {e x : Entry Address} (h : x ∈ l) : x ∈ insert e l := by
  induction l with
  | nil => cases h
  | cons e2 r ih =>
    unfold NodeLookupList.insert
    split
    · exact h
    · split
      · exact List.mem_cons_of_mem _ h
      · obtain rfl | h := List.mem_cons.mp h
        · exact List.mem_cons_self
        · exact List.mem_cons_of_mem _ (ih h)

/-- An entry at the same distance may be there instead. -/
theorem insert_enters (e : Entry Address) (l : List (Entry Address)) : ∃ x ∈ insert e l, x.xid = e.xid := by
  induction l with
  | nil => exact ⟨e, List.mem_singleton_self _, rfl⟩
  | cons e2 r ih =>
    unfold NodeLookupList.insert
    split
    · rename_i heq
      exact ⟨e2, List.mem_cons_self, heq.symm⟩
    · split
      · exact ⟨e, List.mem_cons_self, rfl⟩
      · obtain ⟨x, hx, hxid⟩ := ih
        exact ⟨x, List.mem_cons_of_mem _ hx, hxid⟩

theorem length_insert (e : Entry Address) (l : List (Entry Address)) : (insert e l).length ≤ l.length + 1 := by
  induction l with
  | nil => exact Nat.le_refl _
  | cons e2 r ih =>
    unfold NodeLookupList.insert
    split
    · exact Nat.le_succ _
    · split
      · exact Nat.le_refl _
      · exact Nat.succ_le_succ ih

/-- While there is room nothing is dropped. -/
theorem addNode_keeps (h : Sorted targetId myId l) (node : Id × Address) (hroom : l.length + 1 ≤ 20) :
    (addNode targetId myId l node).length ≤ l.length + 1 ∧ (∀ id ∈ l.map (·.id), id ∈ (addNode targetId myId l node).map (·.id)) ∧
      (node.1 = myId ∨ node.1 ∈ (addNode targetId myId l node).map (·.id)) := by
  have hlength := length_insert ⟨node.1, node.2, node.1 ^^^ targetId, false⟩ l
  unfold addNode
  split
  · rename_i heq
    exact ⟨Nat.le_succ _, fun _ hid => hid, .inl heq⟩
  · rename_i hne
    have htake : takeMax (insert ⟨node.1, node.2, node.1 ^^^ targetId, false⟩ l) maxSize =
        insert ⟨node.1, node.2, node.1 ^^^ targetId, false⟩ l :=
      (takeMax_eq _ 20).trans (List.take_of_length_le (Nat.le_trans hlength hroom))
    rw [htake]
    refine ⟨hlength, fun id hid => ?_, .inr ?_⟩
    · obtain ⟨e, he, rfl⟩ := List.mem_map.mp hid
      exact List.mem_map_of_mem (insert_keeps he)
    · obtain ⟨x, hx, hxid⟩ := insert_enters ⟨node.1, node.2, node.1 ^^^ targetId, false⟩ l
      refine List.mem_map.mpr ⟨x, hx, ?_⟩
      have hown : x.xid = x.id ^^^ targetId := by
        obtain rfl | hx := mem_insert hx
        · rfl
        · exact h.xids x hx
      exact (BitVec.xor_left_inj targetId).mp (hown.symm.trans hxid)

theorem addNodes_sorted (h : Sorted targetId myId l) (nodes : List (Id × Address)) :
    Sorted targetId myId (nodes.foldl (addNode targetId myId) l) := by
  induction nodes generalizing l with
  | nil => exact h
  | cons node nodes ih => exact ih (addNode_sorted h node)

theorem mem_addNodes {nodes : List (Id × Address)} {e : Entry Address} (h : e ∈ nodes.foldl (addNode targetId myId) l) :
    e ∈ l ∨ e.checked = false ∧ (e.id, e.addr) ∈ nodes := by
  induction nodes generalizing l with
  | nil => exact .inl h
  | cons node nodes ih =>
    obtain h | ⟨hunchecked, h⟩ := ih h
    · obtain h | ⟨hunchecked, h⟩ := mem_addNode h
      · exact .inl h
      · exact .inr ⟨hunchecked, h ▸ List.mem_cons_self⟩
    · exact .inr ⟨hunchecked, List.mem_cons_of_mem _ h⟩

theorem addNodes_keeps (h : Sorted targetId myId l) (nodes : List (Id × Address)) (hroom : l.length + nodes.length ≤ 20) :
    (nodes.foldl (addNode targetId myId) l).length ≤ l.length + nodes.length ∧
      (∀ id ∈ l.map (·.id), id ∈ (nodes.foldl (addNode targetId myId) l).map (·.id)) ∧
      ∀ node ∈ nodes, node.1 = myId ∨ node.1 ∈ (nodes.foldl (addNode targetId myId) l).map (·.id) := by
  induction nodes generalizing l with
  | nil => exact ⟨Nat.le_refl _, fun _ hid => hid, fun _ hnode => nomatch hnode⟩
  | cons node nodes ih =>
    rw [List.length_cons] at hroom ⊢
    obtain ⟨hlength, hkeeps, hnode⟩ := addNode_keeps h node (by omega)
    obtain ⟨hlength', hkeeps', hnodes⟩ := ih (addNode_sorted h node) (by omega)
    refine ⟨by simp only [List.foldl_cons]; omega, fun id hid => hkeeps' id (hkeeps id hid), fun x hx => ?_⟩
    obtain rfl | hx := List.mem_cons.mp hx
    · obtain heq | hmem := hnode
      · exact .inl heq
      · exact .inr (hkeeps' _ hmem)
    · exact hnodes x hx

theorem removeNode_sublist (id : Id) : (removeNode id l).Sublist l := by
  induction l with
  | nil => exact List.Sublist.refl _
  | cons e r ih =>
    unfold removeNode
    split
    · exact List.sublist_cons_self _ _
    · exact ih.cons_cons _

theorem removeNode_keeps {id id' : Id} (h : id' ∈ l.map (·.id)) (hne : id' ≠ id) : id' ∈ (removeNode id l).map (·.id) := by
  induction l with
  | nil => cases h
  | cons e r ih =>
    rw [List.map_cons, List.mem_cons] at h
    unfold removeNode
    split
    · rename_i heq
      exact h.resolve_left fun hid => hne (hid.trans heq)
    · rw [List.map_cons, List.mem_cons]
      obtain hid | h := h
      · exact .inl hid
      · exact .inr (ih h)

/-- A node is in the list once, so it is gone. -/
theorem removeNode_ne (h : Sorted targetId myId l) {id : Id} : ∀ e ∈ removeNode id l, e.id ≠ id := by
  induction l with
  | nil => exact fun _ h => nomatch h
  | cons e r ih =>
    have hr := h.sublist (List.sublist_cons_self e r)
    intro x hx
    unfold removeNode at hx
    split at hx
    · rename_i heq
      intro hid
      have hlt : e.xid < x.xid := (List.pairwise_cons.mp h.sorted).1 _ (List.mem_map_of_mem hx)
      rw [h.xids e List.mem_cons_self, h.xids x (List.mem_cons_of_mem _ hx), heq, hid] at hlt
      exact BitVec.lt_irrefl _ hlt
    · rename_i hne
      obtain rfl | hx := List.mem_cons.mp hx
      · exact hne
      · exact ih hr x hx

/-- Checking a node of the list changes nothing but its mark. -/
theorem checkNode_some {id : Id} (h : id ∈ l.map (·.id)) : ∃ l', checkNode id l = some l' ∧ l'.map (·.id) = l.map (·.id) ∧
    l'.map (·.xid) = l.map (·.xid) ∧
    ∀ e' ∈ l', ∃ e ∈ l, e'.id = e.id ∧ e'.xid = e.xid ∧ e'.addr = e.addr ∧ (e'.checked = true → e'.id = id ∨ e.checked = true) := by
  induction l with
  | nil => cases h
  | cons e r ih =>
    unfold checkNode
    by_cases heq : e.id = id
    · rw [if_pos heq]
      refine ⟨_, rfl, rfl, rfl, fun e' he' => ?_⟩
      obtain rfl | he' := List.mem_cons.mp he'
      · exact ⟨e, List.mem_cons_self, rfl, rfl, rfl, fun _ => .inl heq⟩
      · exact ⟨e', List.mem_cons_of_mem _ he', rfl, rfl, rfl, .inr⟩
    · rw [if_neg heq]
      have hr : id ∈ r.map (·.id) := by
        obtain h | h := List.mem_cons.mp h
        · exact absurd h.symm heq
        · exact h
      obtain ⟨l', hl', hids, hxids, hmem⟩ := ih hr
      rw [hl']
      refine ⟨e :: l', rfl, ?_, ?_, fun e' he' => ?_⟩
      · rw [List.map_cons, List.map_cons, hids]
      · rw [List.map_cons, List.map_cons, hxids]
      · obtain rfl | he' := List.mem_cons.mp he'
        · exact ⟨e', List.mem_cons_self, rfl, rfl, rfl, .inr⟩
        · obtain ⟨x, hx, h⟩ := hmem e' he'
          exact ⟨x, List.mem_cons_of_mem _ hx, h⟩

end List

/-! ## The lookup's invariant -/

namespace Lookup

variable {targetId myId : Id} {s : Lookup Address}

/-- A request is counted that can never end. -/
def Stuck (s : Lookup Address) : Prop := (s.requests.length : Int) < s.activeLookups

structure Inv (targetId myId : Id) (s : Lookup Address) : Prop where
  list : Sorted targetId myId s.nodeList
  active : s.requests.length ≤ s.activeLookups
  bound : s.activeLookups ≤ Config.alpha
  /-- A node that was asked has answered, unless its answer is still to come, or is lost. -/
  asked : ∀ e ∈ s.nodeList, e.checked = true → e.id ∈ s.requests.map (·.1) ∨ e.id ∈ s.answered ∨ Stuck s
  known : ∀ e ∈ s.nodeList, idAddr e ∈ s.known
  /-- As long as all it was told of have room, only those that failed are gone. -/
  room : s.known.length ≤ 2 * Config.k → s.nodeList.length ≤ s.known.length ∧
    ∀ p ∈ s.known, p.1 = myId ∨ p.1 ∈ s.nodeList.map (·.id) ∨ p.1 ∈ s.failed

/-- The lookup waits, or it is over. -/
def Settled (s : Lookup Address) : Prop :=
  (0 < s.activeLookups ∧ s.called = []) ∨
    (s.activeLookups = 0 ∧ s.called = [(s.nodeList.take Config.k).map idAddr] ∧ ∀ e ∈ s.nodeList.take Config.k, e.checked = true)

theorem lookup_inv {node : Id × Address} (h : Inv targetId myId s) (hmem : node.1 ∈ s.nodeList.map (·.id))
    (hlt : s.activeLookups < Config.alpha) : ∃ s', lookup s node = some s' ∧ Inv targetId myId s' ∧
      s'.activeLookups = s.activeLookups + 1 ∧ (Stuck s' ↔ Stuck s) ∧ s'.called = s.called ∧
      s'.nodeList.map (·.id) = s.nodeList.map (·.id) := by
  obtain ⟨l', hl', hids, hxids, hmem'⟩ := checkNode_some hmem
  have hstuck : (((s.requests ++ [node]).length : Nat) : Int) < s.activeLookups + 1 ↔ (s.requests.length : Int) < s.activeLookups := by
    rw [List.length_append, List.length_singleton]
    omega
  have hlength : l'.length = s.nodeList.length := by
    rw [← List.length_map (·.id), hids, List.length_map]
  refine ⟨{ s with nodeList := l', activeLookups := s.activeLookups + 1, requests := s.requests ++ [node] },
    by rw [lookup, hl']; rfl, ⟨⟨?_, fun e he => ?_, fun e he => ?_⟩, ?_, ?_, fun e he hc => ?_, fun e he => ?_, fun hroom => ?_⟩, rfl,
    hstuck, rfl, hids⟩
  · show (l'.map (·.xid)).Pairwise _
    rw [hxids]
    exact h.list.sorted
  · obtain ⟨x, hx, hid, hxid, -⟩ := hmem' e he
    rw [hxid, hid]
    exact h.list.xids x hx
  · obtain ⟨x, hx, hid, -⟩ := hmem' e he
    rw [hid]
    exact h.list.others x hx
  · have := h.active
    simp only [List.length_append, List.length_singleton]
    omega
  · dsimp only
    omega
  · obtain ⟨x, hx, hid, -, -, hchecked⟩ := hmem' e he
    rw [List.map_append, List.mem_append]
    obtain hnode | hxc := hchecked hc
    · exact .inl (.inr (by rw [hnode]; exact List.mem_singleton_self _))
    · obtain hreq | hans | hlost := h.asked x hx hxc
      · exact .inl (.inl (hid ▸ hreq))
      · exact .inr (.inl (hid ▸ hans))
      · exact .inr (.inr (hstuck.mpr hlost))
  · obtain ⟨x, hx, hid, -, haddr, -⟩ := hmem' e he
    have hsame : idAddr e = idAddr x := Prod.ext hid haddr
    exact hsame ▸ h.known x hx
  · dsimp only
    rw [hlength, hids]
    exact h.room hroom

theorem lookups_inv {nodes : List (Id × Address)} (h : Inv targetId myId s) (hmem : ∀ p ∈ nodes, p.1 ∈ s.nodeList.map (·.id))
    (hle : s.activeLookups + nodes.length ≤ Config.alpha) : ∃ s', nodes.foldlM lookup s = some s' ∧ Inv targetId myId s' ∧
      s'.activeLookups = s.activeLookups + nodes.length ∧ (Stuck s' ↔ Stuck s) ∧ s'.called = s.called := by
  induction nodes generalizing s with
  | nil => exact ⟨s, rfl, h, (Int.add_zero _).symm, Iff.rfl, rfl⟩
  | cons node nodes ih =>
    rw [List.length_cons] at hle ⊢
    obtain ⟨s1, h1, hinv, hactive, hstuck, hcalled, hids⟩ := lookup_inv h (hmem node List.mem_cons_self) (by omega)
    obtain ⟨s2, h2, hinv', hactive', hstuck', hcalled'⟩ := ih hinv
      (fun p hp => hids.symm ▸ hmem p (List.mem_cons_of_mem _ hp)) (by omega)
    refine ⟨s2, ?_, hinv', by omega, hstuck'.trans hstuck, hcalled'.trans hcalled⟩
    rw [List.foldlM_cons, h1]
    exact h2

theorem startLookups_inv (h : Inv targetId myId s) (hc : s.called = []) :
    ∃ s', startLookups s = some s' ∧ Inv targetId myId s' ∧ Settled s' ∧ (Stuck s' ↔ Stuck s) := by
  have hactive := h.active
  have hbound := h.bound
  have hcount : (Config.alpha : Int) - s.activeLookups = ((Config.alpha - s.activeLookups).toNat : Int) := by omega
  unfold startLookups
  dsimp only
  rw [hcount, takeMax_eq, takeMax_eq]
  by_cases hu : ((s.nodeList.take Config.k).filter (!·.checked)).isEmpty = true
  · rw [hu]
    simp only [Bool.not_true, Bool.false_eq_true, if_false]
    by_cases ha : 0 < s.activeLookups
    · rw [if_pos ha]
      exact ⟨s, rfl, h, .inl ⟨ha, hc⟩, Iff.rfl⟩
    · rw [if_neg ha]
      refine ⟨_, rfl, ⟨h.list, h.active, h.bound, h.asked, h.known, h.room⟩, .inr ⟨?_, ?_, fun e he => ?_⟩, Iff.rfl⟩
      · dsimp only
        omega
      · dsimp only
        rw [hc]
        rfl
      · have hnone := List.filter_eq_nil_iff.mp (List.isEmpty_iff.mp hu) e he
        simpa using hnone
  · rw [Bool.not_eq_true] at hu
    rw [hu]
    simp only [Bool.not_false, if_true]
    have hne : (s.nodeList.take Config.k).filter (!·.checked) ≠ [] := fun hnil => by rw [hnil] at hu; cases hu
    have hpos := List.length_pos_iff.mpr hne
    have hmem : ∀ p ∈ (((s.nodeList.take Config.k).filter (!·.checked)).take (Config.alpha - s.activeLookups).toNat).map idAddr,
        p.1 ∈ s.nodeList.map (·.id) := by
      intro p hp
      obtain ⟨e, he, rfl⟩ := List.mem_map.mp hp
      exact List.mem_map_of_mem (List.mem_of_mem_take (List.mem_of_mem_filter (List.mem_of_mem_take he)))
    obtain ⟨s', hs', hinv, hactive', hstuck, hcalled⟩ := lookups_inv h hmem (by rw [List.length_map, List.length_take]; omega)
    refine ⟨s', hs', hinv, .inl ⟨?_, hcalled.trans hc⟩, hstuck⟩
    -- something was counted before, or a node could be asked
    rw [hactive', List.length_map, List.length_take]
    have hthree : Config.alpha = 3 := rfl
    omega

theorem findNodeCb_inv (h : Inv targetId myId s) (hc : s.called = []) {i : Nat} {id : Id} {addr : Address}
    (hi : s.requests[i]? = some (id, addr)) (answer : Option (List (Id × Address))) :
    ∃ s', findNodeCb targetId myId s i id answer = some s' ∧ Inv targetId myId s' ∧ Settled s' ∧ (Stuck s' ↔ Stuck s) := by
  obtain ⟨hlt, hget⟩ := List.getElem?_eq_some_iff.mp hi
  have hlen := List.length_eraseIdx_of_lt hlt
  have hactive := h.active
  have hbound := h.bound
  have hperm : s.requests.Perm ((id, addr) :: s.requests.eraseIdx i) := by
    rw [← hget]
    exact (List.getElem_cons_eraseIdx_perm hlt).symm
  -- a request to another node is still outstanding
  have hrest : ∀ x : Id, x ∈ s.requests.map (·.1) → x = id ∨ x ∈ (s.requests.eraseIdx i).map (·.1) := fun x hx =>
    List.mem_cons.mp ((hperm.map (·.1)).mem_iff.mp hx)
  have hstuck : (((s.requests.eraseIdx i).length : Nat) : Int) < s.activeLookups - 1 ↔ (s.requests.length : Int) < s.activeLookups := by
    omega
  cases answer with
  | none =>
    have hpre : Inv targetId myId { s with nodeList := removeNode id s.nodeList, activeLookups := s.activeLookups - 1,
                                           requests := s.requests.eraseIdx i, failed := id :: s.failed } := by
      refine ⟨h.list.sublist (removeNode_sublist id), by dsimp only; omega, by dsimp only; omega, ?asked,
        fun e he => h.known e ((removeNode_sublist id).subset he), ?room⟩
      case asked =>
        intro e he hchecked
        have hne := removeNode_ne h.list e he
        obtain hreq | hans | hlost := h.asked e ((removeNode_sublist id).subset he) hchecked
        · obtain heq | hreq := hrest _ hreq
          · exact absurd heq hne
          · exact .inl hreq
        · exact .inr (.inl hans)
        · exact .inr (.inr (hstuck.mpr hlost))
      case room =>
        intro hroom
        obtain ⟨hlength, hkept⟩ := h.room hroom
        refine ⟨Nat.le_trans (removeNode_sublist id).length_le hlength, fun p hp => ?_⟩
        obtain hme | hin | hfailed := hkept p hp
        · exact .inl hme
        · by_cases heq : p.1 = id
          · exact .inr (.inr (heq ▸ List.mem_cons_self))
          · exact .inr (.inl (removeNode_keeps hin heq))
        · exact .inr (.inr (List.mem_cons_of_mem _ hfailed))
    obtain ⟨s', hs', hinv, hset, hsame⟩ := startLookups_inv hpre hc
    exact ⟨s', hs', hinv, hset, hsame.trans hstuck⟩
  | some idList =>
    have hpre : Inv targetId myId { s with nodeList := idList.foldl (addNode targetId myId) s.nodeList,
                                           activeLookups := s.activeLookups - 1, requests := s.requests.eraseIdx i,
                                           answered := id :: s.answered, known := s.known ++ idList } := by
      refine ⟨addNodes_sorted h.list idList, by dsimp only; omega, by dsimp only; omega, ?asked, ?known, ?room⟩
      case asked =>
        intro e he hchecked
        obtain he | ⟨hunchecked, -⟩ := mem_addNodes he
        · obtain hreq | hans | hlost := h.asked e he hchecked
          · obtain heq | hreq := hrest _ hreq
            · exact .inr (.inl (heq ▸ List.mem_cons_self))
            · exact .inl hreq
          · exact .inr (.inl (List.mem_cons_of_mem _ hans))
          · exact .inr (.inr (hstuck.mpr hlost))
        · rw [hunchecked] at hchecked
          cases hchecked
      case known =>
        intro e he
        obtain he | ⟨-, he⟩ := mem_addNodes he
        · exact List.mem_append_left _ (h.known e he)
        · exact List.mem_append_right _ he
      case room =>
        intro hroom
        rw [List.length_append] at hroom
        obtain ⟨hlength, hkept⟩ := h.room (Nat.le_trans (Nat.le_add_right _ _) hroom)
        have htwenty : 2 * Config.k = 20 := rfl
        obtain ⟨hlength', hkeeps, hnodes⟩ := addNodes_keeps h.list idList (by omega)
        refine ⟨by dsimp only; rw [List.length_append]; omega, fun p hp => ?_⟩
        obtain hp | hp := List.mem_append.mp hp
        · obtain hme | hin | hfailed := hkept p hp
          · exact .inl hme
          · exact .inr (.inl (hkeeps _ hin))
          · exact .inr (.inr hfailed)
        · obtain hme | hin := hnodes p hp
          · exact .inl hme
          · exact .inr (.inl hin)
    obtain ⟨s', hs', hinv, hset, hsame⟩ := startLookups_inv hpre hc
    exact ⟨s', hs', hinv, hset, hsame.trans hstuck⟩

theorem lookupNodes_inv (targetId myId : Id) (startNodes : List (Id × Address)) :
    ∃ s, lookupNodes targetId myId startNodes = some s ∧ Inv targetId myId s ∧ Settled s ∧ ¬ Stuck s := by
  have hpre : Inv targetId myId ⟨startNodes.foldl (addNode targetId myId) [], 0, [], [], [], startNodes, []⟩ := by
    refine ⟨addNodes_sorted Sorted.nil _, Int.le_refl _, Int.natCast_nonneg _, fun e he hchecked => ?_, fun e he => ?_, fun hroom => ?_⟩
    · obtain he | ⟨hunchecked, -⟩ := mem_addNodes he
      · cases he
      · rw [hunchecked] at hchecked
        cases hchecked
    · obtain he | ⟨-, he⟩ := mem_addNodes he
      · cases he
      · exact he
    · have hempty : Sorted targetId myId ([] : List (Entry Address)) := Sorted.nil
      obtain ⟨hlength, -, hnodes⟩ := addNodes_keeps hempty startNodes (by rw [List.length_nil, Nat.zero_add]; exact hroom)
      refine ⟨by simpa using hlength, fun p hp => ?_⟩
      obtain hme | hin := hnodes p hp
      · exact .inl hme
      · exact .inr (.inl hin)
  obtain ⟨s, hs, hinv, hset, hsame⟩ := startLookups_inv hpre rfl
  exact ⟨s, hs, hinv, hset, fun hstuck => Int.lt_irrefl _ (hsame.mp hstuck)⟩

/-- No request is lost: one that is outstanding stays so until it is answered or times out. -/
def Heard (s : Lookup Address) : Ev Address → Prop
  | .lost i => s.requests[i]? = none
  | _ => True

theorem step_inv (h : Inv targetId myId s) (hs : Settled s) (e : Ev Address) :
    ∃ s', step targetId myId s e = some s' ∧ Inv targetId myId s' ∧ Settled s' ∧ (Stuck s' ↔ Stuck s ∨ ¬ Heard s e) := by
  have hactive := h.active
  -- a lookup that is over has no request
  have hcalled : ∀ {i : Nat} {r : Id × Address}, s.requests[i]? = some r → s.called = [] := by
    intro i r hr
    obtain ⟨-, hc⟩ | ⟨hzero, -⟩ := hs
    · exact hc
    · have := (List.getElem?_eq_some_iff.mp hr).1
      omega
  cases e with
  | response i fromId idList =>
    have hheard : Stuck s ↔ Stuck s ∨ ¬ Heard s (.response i fromId idList) :=
      ⟨.inl, fun hor => hor.resolve_right fun hnot => hnot trivial⟩
    unfold step
    dsimp only
    cases hi : s.requests[i]? with
    | none => exact ⟨s, rfl, h, hs, hheard⟩
    | some r =>
      obtain ⟨s', hs', hinv, hset, hsame⟩ := findNodeCb_inv h (hcalled hi) hi (if fromId = r.1 then some idList else none)
      exact ⟨s', hs', hinv, hset, hsame.trans hheard⟩
  | timeout i =>
    have hheard : Stuck s ↔ Stuck s ∨ ¬ Heard s (.timeout i) := ⟨.inl, fun hor => hor.resolve_right fun hnot => hnot trivial⟩
    unfold step
    dsimp only
    cases hi : s.requests[i]? with
    | none => exact ⟨s, rfl, h, hs, hheard⟩
    | some r =>
      obtain ⟨s', hs', hinv, hset, hsame⟩ := findNodeCb_inv h (hcalled hi) hi none
      exact ⟨s', hs', hinv, hset, hsame.trans hheard⟩
  | lost i =>
    refine ⟨_, rfl, ⟨h.list, ?_, h.bound, ?_, h.known, h.room⟩, hs, ?_⟩
    · have := (s.requests.eraseIdx_sublist i).length_le
      dsimp only
      omega
    · intro e he hchecked
      cases hi : s.requests[i]? with
      | none =>
        have hsame : s.requests.eraseIdx i = s.requests := List.eraseIdx_of_length_le (List.getElem?_eq_none_iff.mp hi)
        unfold Stuck
        dsimp only
        rw [hsame]
        exact h.asked e he hchecked
      | some r =>
        have hlt := (List.getElem?_eq_some_iff.mp hi).1
        have hlen := List.length_eraseIdx_of_lt hlt
        refine .inr (.inr ?_)
        unfold Stuck
        dsimp only
        omega
    · unfold Stuck Heard
      dsimp only
      cases hi : s.requests[i]? with
      | none =>
        rw [List.eraseIdx_of_length_le (List.getElem?_eq_none_iff.mp hi)]
        exact ⟨.inl, fun hor => hor.resolve_right fun hnot => hnot rfl⟩
      | some r =>
        have hlt := (List.getElem?_eq_some_iff.mp hi).1
        have hlen := List.length_eraseIdx_of_lt hlt
        refine ⟨fun _ => .inr nofun, fun _ => ?_⟩
        omega

/-- The same along a run. -/
def AllHeard (targetId myId : Id) (s : Lookup Address) : List (Ev Address) → Prop
  | [] => True
  | e :: evs => Heard s e ∧ ∀ s', step targetId myId s e = some s' → AllHeard targetId myId s' evs

theorem run_inv (h : Inv targetId myId s) (hs : Settled s) (evs : List (Ev Address)) :
    ∃ s', evs.foldlM (step targetId myId) s = some s' ∧ Inv targetId myId s' ∧ Settled s' ∧
      (Stuck s' ↔ Stuck s ∨ ¬ AllHeard targetId myId s evs) := by
  induction evs generalizing s with
  | nil => exact ⟨s, rfl, h, hs, .inl, fun hor => hor.resolve_right fun hnot => hnot trivial⟩
  | cons e evs ih =>
    obtain ⟨s1, h1, hinv1, hset1, hstuck1⟩ := step_inv h hs e
    obtain ⟨s2, h2, hinv2, hset2, hstuck2⟩ := ih hinv1 hset1
    have hall : AllHeard targetId myId s (e :: evs) ↔ Heard s e ∧ AllHeard targetId myId s1 evs := by
      refine and_congr_right fun _ => ⟨fun hall => hall s1 h1, fun hall s' hs' => ?_⟩
      cases h1.symm.trans hs'
      exact hall
    refine ⟨s2, ?_, hinv2, hset2, ?_⟩
    · rw [List.foldlM_cons, h1]
      exact h2
    · rw [hstuck2, hstuck1, hall]
      tauto

/-! ## Soundness -/

/-- What is reported. -/
structure Result (targetId myId : Id) (s : Lookup Address) (r : List (Id × Address)) : Prop where
  length : r.length ≤ Config.k
  distinct : (r.map (·.1)).Nodup
  sorted : (r.map (·.1 ^^^ targetId)).Pairwise (· < ·)
  others : ∀ p ∈ r, p.1 ≠ myId
  answered : ∀ p ∈ r, p.1 ∈ s.answered
  /-- Each is a start node or was in an answer, under that address. -/
  known : ∀ p ∈ r, p ∈ s.known
  /-- Of at most 20 it was told of, all that have not failed, unless `k` nearer ones are reported. -/
  complete : s.known.length ≤ 2 * Config.k → ∀ p ∈ s.known, p.1 ≠ myId → p.1 ∉ s.failed → p.1 ∉ r.map (·.1) →
    r.length = Config.k ∧ ∀ q ∈ r, q.1 ^^^ targetId < p.1 ^^^ targetId

theorem result_of (h : Inv targetId myId s) (hzero : s.activeLookups = 0)
    (hchecked : ∀ e ∈ s.nodeList.take Config.k, e.checked = true) :
    Result targetId myId s ((s.nodeList.take Config.k).map idAddr) := by
  have hsort := h.list.sublist (List.take_sublist Config.k s.nodeList)
  have hxids : ((s.nodeList.take Config.k).map idAddr).map (·.1 ^^^ targetId) = (s.nodeList.take Config.k).map (·.xid) := by
    rw [List.map_map]
    exact List.map_congr_left fun e he => (hsort.xids e he).symm
  have hpair : (((s.nodeList.take Config.k).map idAddr).map (·.1 ^^^ targetId)).Pairwise (· < ·) := hxids ▸ hsort.sorted
  refine ⟨?_, ?_, hpair, fun p hp => ?_, fun p hp => ?_, fun p hp => ?_, fun hroom p hp hme hfailed hout => ?_⟩
  · rw [List.length_map, List.length_take]
    exact Nat.min_le_left _ _
  · rw [List.Nodup, List.pairwise_map]
    rw [List.pairwise_map] at hpair
    refine hpair.imp fun {a b} hlt heq => ?_
    rw [heq] at hlt
    exact BitVec.lt_irrefl _ hlt
  · obtain ⟨e, he, rfl⟩ := List.mem_map.mp hp
    exact hsort.others e he
  · obtain ⟨e, he, rfl⟩ := List.mem_map.mp hp
    have hactive := h.active
    obtain hreq | hans | hstuck := h.asked e (List.mem_of_mem_take he) (hchecked e he)
    · have hnil : s.requests = [] := List.length_eq_zero_iff.mp (by omega)
      rw [hnil] at hreq
      cases hreq
    · exact hans
    · unfold Stuck at hstuck
      omega
  · obtain ⟨e, he, rfl⟩ := List.mem_map.mp hp
    exact h.known e (List.mem_of_mem_take he)
  · -- it is in the list, but behind the first `k`
    have hin := (((h.room hroom).2 p hp).resolve_left hme).resolve_right hfailed
    obtain ⟨e, he, hid⟩ := List.mem_map.mp hin
    have hsplit := List.take_append_drop Config.k s.nodeList
    rw [← hsplit] at he
    obtain he | he := List.mem_append.mp he
    · exact absurd (hid ▸ List.mem_map_of_mem (List.mem_map_of_mem (f := idAddr) he)) hout
    · refine ⟨?_, fun q hq => ?_⟩
      · have := List.length_pos_of_mem he
        rw [List.length_drop] at this
        rw [List.length_map, List.length_take]
        omega
      · obtain ⟨x, hx, rfl⟩ := List.mem_map.mp hq
        have hsorted := h.list.sorted
        rw [← hsplit, List.map_append, List.pairwise_append] at hsorted
        have hlt := hsorted.2.2 _ (List.mem_map_of_mem hx) _ (List.mem_map_of_mem he)
        rw [h.list.xids x (List.mem_of_mem_take hx), h.list.xids e (List.mem_of_mem_drop he), hid] at hlt
        exact hlt

structure Sound (targetId myId : Id) (s : Lookup Address) : Prop where
  outstanding : s.requests.length ≤ Config.alpha
  once : s.called.length ≤ 1
  /-- When nothing is outstanding and the nearest nodes have been asked it has called back. -/
  ends : s.requests = [] → (∀ e ∈ s.nodeList.take Config.k, e.checked = true) → s.called = [(s.nodeList.take Config.k).map idAddr]
  results : ∀ r ∈ s.called, Result targetId myId s r

theorem called_of_stuck (h : Inv targetId myId s) (hs : Settled s) (hstuck : Stuck s) : s.called = [] := by
  have := h.active
  unfold Stuck at hstuck
  obtain ⟨-, hc⟩ | ⟨hzero, -⟩ := hs
  · exact hc
  · omega

theorem sound_of (h : Inv targetId myId s) (hs : Settled s) (hstuck : ¬ Stuck s) : Sound targetId myId s := by
  have hactive := h.active
  have hbound := h.bound
  unfold Stuck at hstuck
  refine ⟨by omega, ?_, fun hnil _ => ?_, fun r hr => ?_⟩
  · obtain ⟨-, hc⟩ | ⟨-, hc, -⟩ := hs
    · rw [hc]
      exact Nat.zero_le _
    · rw [hc]
      exact Nat.le_refl _
  · obtain ⟨hpos, -⟩ | ⟨-, hc, -⟩ := hs
    · rw [hnil, List.length_nil] at hstuck
      omega
    · exact hc
  · obtain ⟨-, hc⟩ | ⟨hzero, hc, hchecked⟩ := hs
    · rw [hc] at hr
      cases hr
    · rw [hc, List.mem_singleton] at hr
      rw [hr]
      exact result_of h hzero hchecked

/-- Whatever the peers answer and in whatever order: no node is missing, and if no request is
    lost the lookup goes well, with the nearest nodes asked when nothing is outstanding. If
    one is, it never calls back. -/
theorem lookup_sound (targetId myId : Id) (startNodes : List (Id × Address)) (evs : List (Ev Address)) :
    ∃ s0 s, lookupNodes targetId myId startNodes = some s0 ∧ evs.foldlM (step targetId myId) s0 = some s ∧
      (AllHeard targetId myId s0 evs → Sound targetId myId s ∧
        (s.requests = [] → ∀ e ∈ s.nodeList.take Config.k, e.checked = true)) ∧
      (¬ AllHeard targetId myId s0 evs → s.called = []) := by
  obtain ⟨s0, h0, hinv0, hset0, hstuck0⟩ := lookupNodes_inv targetId myId startNodes
  obtain ⟨s, hs, hinv, hset, hstuck⟩ := run_inv hinv0 hset0 evs
  refine ⟨s0, s, h0, hs, fun hheard => ?_, fun hlost => called_of_stuck hinv hset (hstuck.mpr (.inr hlost))⟩
  have hnot : ¬ Stuck s := fun h => (hstuck.mp h).elim hstuck0 fun hlost => hlost hheard
  refine ⟨sound_of hinv hset hnot, fun hnil => ?_⟩
  unfold Stuck at hnot
  rw [hnil, List.length_nil] at hnot
  obtain ⟨hpos, -⟩ | ⟨-, -, hchecked⟩ := hset
  · omega
  · exact hchecked

/-- The only request ends with an answer that does not parse. -/
theorem answer_lost : ¬ ∀ (targetId myId : Id) (startNodes : List (Id × Unit)) (evs : List (Ev Unit)) (s : Lookup Unit),
    run targetId myId startNodes evs = some s → Sound targetId myId s := by
  intro h
  have hrun : (run 7 0 [(5, ())] [.lost 0]).map (fun s => (s.requests, s.called, s.nodeList.map (·.checked))) =
      some ([], [], [true]) := by decide +kernel
  cases hs : run 7 0 [(5, ())] [.lost 0] with
  | none =>
    rw [hs] at hrun
    cases hrun
  | some s =>
    rw [hs] at hrun
    obtain ⟨hrequests, hpair⟩ := Prod.mk.inj (Option.some.inj hrun)
    obtain ⟨hcalled, hchecked⟩ := Prod.mk.inj hpair
    have hall : ∀ e ∈ s.nodeList.take Config.k, e.checked = true := by
      intro e he
      have := List.mem_map_of_mem (f := (·.checked)) (List.mem_of_mem_take he)
      rw [hchecked] at this
      exact List.mem_singleton.mp this
    have hends := (h 7 0 _ _ s hs).ends hrequests hall
    rw [hcalled] at hends
    cases hends

end Lookup

end BubbleStorm.Kademlia
