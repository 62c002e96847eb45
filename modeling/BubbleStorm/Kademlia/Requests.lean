/-
  BubbleStorm.Kademlia.Requests — the requests a node has under way (`request` and
  `handleResponse` of `src/kademlia/rpc-udp.fun`, the wrappers of
  `src/kademlia/node-rpc.fun`).

  A call has an entry in the request map, under an id that is drawn at random, and a
  timer. It ends with a response, with its timer, or with the caller's abort. What a
  response says is read as in `Receive`; the node it is read at is whatever the node is by
  then. The writers and what is sent are left out.

  Proved: in a run in which no response to a call has another service or fails to parse, no
  call is aborted after its end, and no id is drawn twice at a time, each call is called
  back once, or aborted, its entry and timer go together, and neither a timer nor an abort
  raises; in every other run this is broken (`lifecycle_iff`).
-/

import BubbleStorm.Kademlia.ReceiveProofs

namespace BubbleStorm.Kademlia.Requests

open Function (update_of_ne update_self)
open BubbleStorm.Cusp (Exn Bytes)
open BubbleStorm.Lib
open BubbleStorm.Util.Serial

structure Call where
  reqId : RequestId
  request : Pending
  aborted : Bool

structure Rpc where
  calls : List Call
  requestMap : RequestId → Option Nat
  timers : Nat → Bool
  /-- What the callbacks were called with. -/
  invoked : List (Nat × Answer)

def new : Rpc := ⟨[], fun _ => none, fun _ => false, []⟩

namespace Rpc

def remove (s : Rpc) (reqId : RequestId) : Rpc := { s with requestMap := Function.update s.requestMap reqId none }

/-- `Event.cancel` of a call's timer. -/
def cancel (s : Rpc) (n : Nat) : Rpc := { s with timers := Function.update s.timers n false }

/-- The callbacks among the effects. -/
def answers (n : Nat) (effects : List Effect) : List (Nat × Answer) :=
  effects.filterMap fun
    | .callback _ answer => some (n, answer)
    | _ => none

/-- What a handler leaves, and what it raises. -/
abbrev Outcome := Rpc × Option Exn

/-- The wrapper's `response` to the callback. -/
def respond (s : Rpc) (n : Nat) : Except Exn (Node × List Effect) → Outcome
  | .ok (_, effects) => ({ s with invoked := s.invoked ++ answers n effects }, none)
  | .error e => (s, some e)

/-- The timer is set before the id is entered. -/
def request (s : Rpc) (reqId : RequestId) (pending : Pending) : Outcome :=
  let n := s.calls.length
  let s := { s with calls := s.calls ++ [(⟨reqId, pending, false⟩ : Call)], timers := Function.update s.timers n true }
  match s.requestMap reqId with
  | some _ => (s, some (.fail "KeyExists"))
  | none => ({ s with requestMap := Function.update s.requestMap reqId (some n) }, none)

def handleResponse (s : Rpc) (node : Node) (payload : ArraySlice) (reqId : RequestId) (svcId : BitVec 16) : Outcome :=
  match s.requestMap reqId with
  | none => (s, none)
  | some n =>
    match s.calls[n]? with
    | none => (s, none)
    | some call =>
      let s := s.remove reqId
      if svcId = call.request.service.svcId then (s.cancel n).respond n (response node call.request payload)
      else (s, none)

/-- The header of a datagram, and what is behind it. -/
def parse (datagram : Bytes) : Except Exn (Header × ArraySlice) := do
  let data := full datagram
  let header ← parseHeader data
  return (header, ← subsliceFrom data headerSize)

/-- A request of another node leaves this one's alone. -/
def receive (s : Rpc) (node : Node) (datagram : Bytes) : Outcome :=
  match parse datagram with
  | .ok (.response svcId reqId, payload) => s.handleResponse node payload reqId svcId
  | .ok (.request _ _, _) => (s, none)
  | .ok (.invalid, _) => (s, none)
  | .error e => (s, some e)

/-- The timer of a call, if it is set. -/
def onTimeout (s : Rpc) (node : Node) (n : Nat) : Outcome :=
  match s.calls[n]? with
  | none => (s, none)
  | some call =>
    if s.timers n then
      let s := s.cancel n
      match s.requestMap call.reqId with
      | none => (s, some (.fail "KeyDoesNotExist"))
      | some _ => (s.remove call.reqId).respond n (timeout node call.request)
    else (s, none)

def abort (s : Rpc) (n : Nat) : Outcome :=
  match s.calls[n]? with
  | none => (s, none)
  | some call =>
    match s.requestMap call.reqId with
    | none => (s, some (.fail "KeyDoesNotExist"))
    | some _ =>
      (({ s with calls := s.calls.set n { call with aborted := true } }.remove call.reqId).cancel n, none)

end Rpc

/-- The node is sound, as every node that is reached. -/
inductive Ev where
  | request (reqId : RequestId) (pending : Pending)
  | receive (node : { s : Node // s.Sound }) (datagram : Bytes)
  | expire (node : { s : Node // s.Sound }) (n : Nat)
  | abort (n : Nat)

def step (s : Rpc) : Ev → Rpc.Outcome
  | .request reqId pending => s.request reqId pending
  | .receive node datagram => s.receive node.val datagram
  | .expire node n => s.onTimeout node.val n
  | .abort n => s.abort n

/-! ## What should hold -/

def count (s : Rpc) (n : Nat) : Nat := (s.invoked.filter (·.1 == n)).length

/-- A call with its timer set has its entry and was not called back; a call without was, once,
    unless it was aborted. -/
structure Proper (s : Rpc) : Prop where
  entry : ∀ reqId n, s.requestMap reqId = some n ↔ ∃ call, s.calls[n]? = some call ∧ call.reqId = reqId ∧ s.timers n = true
  known : ∀ n, s.timers n = true → n < s.calls.length
  waits : ∀ n call, s.calls[n]? = some call → s.timers n = true → call.aborted = false ∧ count s n = 0
  ended : ∀ n call, s.calls[n]? = some call → s.timers n = false → count s n = if call.aborted then 0 else 1
  bounded : ∀ p ∈ s.invoked, p.1 < s.calls.length

/-- The timer handler and an abort may not raise. -/
def quiet : Ev → Option Exn → Prop
  | .expire _ _, raised => raised = none
  | .abort _, raised => raised = none
  | _, _ => True

/-- The run from a state: every state that is reached is proper, and no step is loud. -/
def Holds (s : Rpc) : List Ev → Prop
  | [] => Proper s
  | e :: evs => Proper s ∧ quiet e (step s e).2 ∧ Holds (step s e).1 evs

/-- What a step has to meet. -/
def Meets (s : Rpc) : Ev → Prop
  | .request reqId _ => s.requestMap reqId = none
  | .receive _ datagram => ∀ svcId reqId payload, Rpc.parse datagram = .ok (.response svcId reqId, payload) →
      ∀ n call, s.requestMap reqId = some n → s.calls[n]? = some call →
        svcId = call.request.service.svcId ∧ call.request.Reads payload
  | .expire _ _ => True
  | .abort n => ∀ call, s.calls[n]? = some call → s.requestMap call.reqId = some n

/-- The same along a run. -/
def AllMeet (s : Rpc) : List Ev → Prop
  | [] => True
  | e :: evs => Meets s e ∧ AllMeet (step s e).1 evs

theorem proper_new : Proper new where
  entry := by
    intro reqId n
    constructor
    · nofun
    · intro ⟨call, hcall, _⟩
      cases hcall
  known := nofun
  waits := nofun
  ended := nofun
  bounded := nofun

/-! ## A response calls back once -/

theorem answers_append (n : Nat) (l l' : List Effect) : Rpc.answers n (l ++ l') = Rpc.answers n l ++ Rpc.answers n l' :=
  List.filterMap_append

theorem answers_checkStore {buckets : Buckets Forms.Address} {id : Id} {addr : Forms.Address} {entry : Id × Value}
    {effects : List Effect} (h : checkStore buckets id addr entry = .ok effects) (n : Nat) : Rpc.answers n effects = [] := by
  unfold checkStore at h
  obtain ⟨known, -, h⟩ := bind_eq_ok.mp h
  split at h
  · cases h
    rfl
  · obtain ⟨closer, -, h⟩ := bind_eq_ok.mp h
    cases h
    split <;> rfl

theorem answers_stored {buckets : Buckets Forms.Address} {id : Id} {addr : Forms.Address} {values : List (Id × Value)}
    {stored : List (List Effect)} (h : values.mapM (checkStore buckets id addr) = .ok stored) (n : Nat) :
    Rpc.answers n stored.flatten = [] := by
  induction values generalizing stored with
  | nil =>
    cases h
    rfl
  | cons v values ih =>
    rw [List.mapM_cons] at h
    obtain ⟨effects, heffects, h⟩ := bind_eq_ok.mp h
    obtain ⟨rest, hrest, h⟩ := bind_eq_ok.mp h
    cases h
    rw [List.flatten_cons, answers_append, answers_checkStore heffects, ih hrest]
    rfl

theorem answers_updateNode {s s' : Node} {id : Id} {addr : Forms.Address} {effects : List Effect}
    (h : updateNode s id addr = .ok (s', effects)) (n : Nat) : Rpc.answers n effects = [] := by
  unfold updateNode at h
  obtain ⟨⟨buckets, nodeWasAdded⟩, -, h⟩ := bind_eq_ok.mp h
  cases nodeWasAdded with
  | true =>
    obtain ⟨stored, hstored, h⟩ := bind_eq_ok.mp h
    cases h
    exact answers_stored hstored n
  | false =>
    cases h
    rfl

/-- One callback, and no more. -/
def Once (n : Nat) (effects : List Effect) : Prop := ∃ answer, Rpc.answers n effects = [(n, answer)]

theorem once_append {effects : List Effect} {n : Nat} (h : Rpc.answers n effects = []) (request : Pending) (answer : Answer) :
    Once n (effects ++ [.callback request answer]) := by
  refine ⟨answer, ?_⟩
  rw [answers_append, h]
  rfl

theorem once_timeout {s s' : Node} {request : Pending} {effects : List Effect} (h : timeout s request = .ok (s', effects)) (n : Nat) :
    Once n effects := by
  unfold timeout at h
  obtain ⟨node, -, h⟩ := bind_eq_ok.mp h
  cases h
  exact ⟨.none, rfl⟩

theorem once_validResponse {s s' : Node} {service : Service} {request : Pending} {fromId : Id} {data : ArraySlice} {effects : List Effect}
    (h : service.validResponse s request fromId data = .ok (s', effects)) (n : Nat) : Once n effects := by
  cases service with
  | ping =>
    obtain ⟨⟨node, stored⟩, hnode, h⟩ := bind_eq_ok.mp h
    cases h
    exact once_append (answers_updateNode hnode n) _ _
  | findNode =>
    obtain ⟨idList, -, h⟩ := bind_eq_ok.mp h
    obtain ⟨⟨node, stored⟩, hnode, h⟩ := bind_eq_ok.mp h
    cases h
    exact once_append (answers_updateNode hnode n) _ _
  | store =>
    obtain ⟨res, -, h⟩ := bind_eq_ok.mp h
    obtain ⟨⟨node, stored⟩, hnode, h⟩ := bind_eq_ok.mp h
    cases h
    exact once_append (answers_updateNode hnode n) _ _
  | findValue =>
    obtain ⟨tp, -, h⟩ := bind_eq_ok.mp h
    obtain ⟨tail, -, h⟩ := bind_eq_ok.mp h
    obtain ⟨⟨node, stored⟩, hnode, h⟩ := bind_eq_ok.mp h
    dsimp only at h
    split at h
    · obtain ⟨nodes, -, h⟩ := bind_eq_ok.mp h
      cases h
      exact once_append (answers_updateNode hnode n) _ _
    · split at h
      · obtain ⟨idDate, -, h⟩ := bind_eq_ok.mp h
        obtain ⟨value, -, h⟩ := bind_eq_ok.mp h
        cases h
        exact once_append (answers_updateNode hnode n) _ _
      · cases h

theorem once_response {s s' : Node} {request : Pending} {data : ArraySlice} {effects : List Effect}
    (h : response s request data = .ok (s', effects)) (n : Nat) : Once n effects := by
  unfold response at h
  obtain ⟨id, -, h⟩ := bind_eq_ok.mp h
  obtain ⟨tail, -, h⟩ := bind_eq_ok.mp h
  split at h
  · exact once_validResponse h n
  · exact once_timeout h n

/-! ## The end of a call -/

variable {s s' : Rpc} {n : Nat} {call : Call}

theorem proper_of_end (h : Proper s) (hcall : s.calls[n]? = some call) (ht : s.timers n = true)
    (hmap : s'.requestMap = Function.update s.requestMap call.reqId none) (htimers : s'.timers = Function.update s.timers n false)
    (hothers : ∀ m, m ≠ n → s'.calls[m]? = s.calls[m]?) (hlength : s'.calls.length = s.calls.length)
    (hself : ∃ call', s'.calls[n]? = some call' ∧ count s' n = if call'.aborted then 0 else 1)
    (hcount : ∀ m, m ≠ n → count s' m = count s m) (hbounded : ∀ p ∈ s'.invoked, p.1 < s.calls.length) : Proper s' := by
  have hown : s.requestMap call.reqId = some n := (h.entry _ _).mpr ⟨call, hcall, rfl, ht⟩
  refine ⟨?_, ?_, ?_, ?_, ?_⟩
  · intro reqId m
    rw [hmap, htimers]
    by_cases hm : m = n
    · subst hm
      rw [update_self]
      constructor
      · intro hentry
        by_cases hr : reqId = call.reqId
        · rw [hr, update_self] at hentry
          cases hentry
        · rw [update_of_ne hr] at hentry
          obtain ⟨call', hcall', hid, -⟩ := (h.entry _ _).mp hentry
          rw [hcall] at hcall'
          cases hcall'
          exact absurd hid.symm hr
      · intro ⟨_, _, _, hfalse⟩
        cases hfalse
    · rw [update_of_ne hm, hothers m hm]
      by_cases hr : reqId = call.reqId
      · rw [hr, update_self]
        constructor
        · nofun
        · intro hex
          have := (h.entry _ _).mpr hex
          rw [hown] at this
          cases this
          exact absurd rfl hm
      · rw [update_of_ne hr]
        exact h.entry reqId m
  · intro m hm
    rw [htimers] at hm
    rw [hlength]
    by_cases hmn : m = n
    · rw [hmn, update_self] at hm
      cases hm
    · rw [update_of_ne hmn] at hm
      exact h.known m hm
  · intro m call' hcall' hm
    rw [htimers] at hm
    by_cases hmn : m = n
    · rw [hmn, update_self] at hm
      cases hm
    · rw [update_of_ne hmn] at hm
      rw [hothers m hmn] at hcall'
      rw [hcount m hmn]
      exact h.waits m call' hcall' hm
  · intro m call' hcall' hm
    rw [htimers] at hm
    by_cases hmn : m = n
    · subst hmn
      obtain ⟨call'', hcall'', hc⟩ := hself
      rw [hcall'] at hcall''
      cases hcall''
      exact hc
    · rw [update_of_ne hmn] at hm
      rw [hothers m hmn] at hcall'
      rw [hcount m hmn]
      exact h.ended m call' hcall' hm
  · intro p hp
    rw [hlength]
    exact hbounded p hp

theorem count_append (s : Rpc) (n m : Nat) (answer : Answer) :
    count { s with invoked := s.invoked ++ [(n, answer)] } m = count s m + if n = m then 1 else 0 := by
  unfold count
  dsimp only
  rw [List.filter_append, List.length_append]
  by_cases h : n = m
  · simp [h]
  · simp [h]

/-- The call is over with one callback. -/
theorem proper_answered (h : Proper s) (hcall : s.calls[n]? = some call) (ht : s.timers n = true) (answer : Answer) :
    Proper { (s.remove call.reqId).cancel n with invoked := s.invoked ++ [(n, answer)] } := by
  obtain ⟨hab, hzero⟩ := h.waits n call hcall ht
  have hlt := h.known n ht
  refine proper_of_end h hcall ht rfl rfl (fun _ _ => rfl) rfl ⟨call, hcall, ?_⟩ ?_ ?_
  · show count { (s.remove call.reqId).cancel n with invoked := s.invoked ++ [(n, answer)] } n = _
    rw [hab, if_neg Bool.false_ne_true]
    refine (count_append s n n answer).trans ?_
    rw [hzero, if_pos rfl]
  · intro m hm
    refine (count_append s n m answer).trans ?_
    rw [if_neg (Ne.symm hm)]
    rfl
  · intro p hp
    rcases List.mem_append.mp hp with hp | hp
    · exact h.bounded p hp
    · cases List.mem_singleton.mp hp
      exact hlt

/-- The call is over without one. -/
theorem not_proper_silent (h : Proper s) (hcall : s.calls[n]? = some call) (ht : s.timers n = true) :
    ¬ Proper ((s.remove call.reqId).cancel n) := by
  intro h'
  obtain ⟨hab, hzero⟩ := h.waits n call hcall ht
  have hone := h'.ended n call hcall (update_self _ _ _)
  rw [hab, if_neg Bool.false_ne_true] at hone
  have hsame : count ((s.remove call.reqId).cancel n) n = count s n := rfl
  omega

/-- Its entry is gone, but not its timer. -/
theorem not_proper_unhooked (hcall : s.calls[n]? = some call) (ht : s.timers n = true) : ¬ Proper (s.remove call.reqId) := by
  intro h'
  have hentry := (h'.entry call.reqId n).mpr ⟨call, hcall, rfl, ht⟩
  unfold Rpc.remove at hentry
  dsimp only at hentry
  rw [update_self] at hentry
  cases hentry

theorem proper_aborted (h : Proper s) (hcall : s.calls[n]? = some call) (ht : s.timers n = true) :
    Proper (({ s with calls := s.calls.set n { call with aborted := true } }.remove call.reqId).cancel n) := by
  obtain ⟨-, hzero⟩ := h.waits n call hcall ht
  have hlt := h.known n ht
  refine proper_of_end h hcall ht rfl rfl ?_ ?_ ⟨{ call with aborted := true }, ?_, ?_⟩ (fun _ _ => rfl) h.bounded
  · intro m hm
    exact List.getElem?_set_ne (Ne.symm hm)
  · exact List.length_set
  · exact List.getElem?_set_self hlt
  · rw [if_pos rfl]
    exact hzero

/-! ## Steps -/

theorem calls_concat (s : Rpc) (call : Call) {m : Nat} (hm : m ≠ s.calls.length) : (s.calls ++ [call])[m]? = s.calls[m]? := by
  rcases Nat.lt_or_gt_of_ne hm with hlt | hgt
  · exact List.getElem?_append_left hlt
  · rw [List.getElem?_eq_none (by rw [List.length_append]; exact hgt), List.getElem?_eq_none (Nat.le_of_lt hgt)]

/-- The timer is set, but the entry is another call's. -/
theorem request_taken (h : Proper s) {reqId : RequestId} {m : Nat} (hreq : s.requestMap reqId = some m) (pending : Pending) :
    ¬ Proper (s.request reqId pending).1 := by
  have hfresh : s.timers s.calls.length = false := by
    by_contra hne
    exact Nat.lt_irrefl _ (h.known _ (by simpa using hne))
  unfold Rpc.request
  dsimp only
  rw [hreq]
  dsimp only
  intro h'
  have hentry := (h'.entry reqId s.calls.length).mpr
    ⟨⟨reqId, pending, false⟩, List.getElem?_concat_length, rfl, update_self _ _ _⟩
  dsimp only at hentry
  rw [hreq, Option.some.injEq] at hentry
  obtain ⟨_, _, _, hm⟩ := (h.entry reqId m).mp hreq
  rw [hentry, hfresh] at hm
  cases hm

theorem request_free (h : Proper s) {reqId : RequestId} (hreq : s.requestMap reqId = none) (pending : Pending) :
    Proper (s.request reqId pending).1 := by
  have hnone : s.calls[s.calls.length]? = none := List.getElem?_eq_none (Nat.le_refl _)
  unfold Rpc.request
  dsimp only
  rw [hreq]
  dsimp only
  refine ⟨?_, ?_, ?_, ?_, ?_⟩
  · intro r m
    dsimp only
    by_cases hm : m = s.calls.length
    · subst hm
      rw [List.getElem?_concat_length, update_self]
      constructor
      · intro hentry
        by_cases hr : r = reqId
        · exact ⟨_, rfl, hr.symm, rfl⟩
        · rw [update_of_ne hr] at hentry
          obtain ⟨_, hcall, _⟩ := (h.entry _ _).mp hentry
          rw [hnone] at hcall
          cases hcall
      · rintro ⟨_, ⟨⟩, rfl, -⟩
        exact update_self _ _ _
    · rw [update_of_ne hm, calls_concat s _ hm]
      by_cases hr : r = reqId
      · rw [hr, update_self, ← h.entry, hreq]
        constructor
        · intro heq
          cases heq
          exact absurd rfl hm
        · nofun
      · rw [update_of_ne hr]
        exact h.entry r m
  · intro m hm
    dsimp only at hm ⊢
    rw [List.length_append]
    by_cases hmn : m = s.calls.length
    · rw [hmn]
      exact Nat.lt_succ_self _
    · rw [update_of_ne hmn] at hm
      exact Nat.lt_succ_of_lt (h.known m hm)
  · intro m call hcall hm
    dsimp only at hcall hm
    by_cases hmn : m = s.calls.length
    · subst hmn
      rw [List.getElem?_concat_length] at hcall
      cases hcall
      refine ⟨rfl, ?_⟩
      show (s.invoked.filter _).length = 0
      rw [List.length_eq_zero_iff, List.filter_eq_nil_iff]
      intro p hp
      have := h.bounded p hp
      simp only [beq_iff_eq]
      omega
    · rw [update_of_ne hmn] at hm
      rw [calls_concat s _ hmn] at hcall
      exact h.waits m call hcall hm
  · intro m call hcall hm
    dsimp only at hcall hm
    by_cases hmn : m = s.calls.length
    · rw [hmn, update_self] at hm
      cases hm
    · rw [update_of_ne hmn] at hm
      rw [calls_concat s _ hmn] at hcall
      exact h.ended m call hcall hm
  · intro p hp
    dsimp only
    rw [List.length_append]
    exact Nat.lt_succ_of_lt (h.bounded p hp)

theorem request_iff (h : Proper s) (reqId : RequestId) (pending : Pending) :
    Proper (s.request reqId pending).1 ↔ s.requestMap reqId = none := by
  cases hreq : s.requestMap reqId with
  | some m => exact ⟨fun h' => absurd h' (request_taken h hreq pending), nofun⟩
  | none => exact ⟨fun _ => rfl, fun _ => request_free h hreq pending⟩

/-- A response that is read calls back once. -/
theorem respond_ok (s : Rpc) (n : Nat) (s' : Node) {effects : List Effect} (h : Once n effects) :
    ∃ answer, s.respond n (.ok (s', effects)) = ({ s with invoked := s.invoked ++ [(n, answer)] }, none) := by
  obtain ⟨answer, hanswer⟩ := h
  refine ⟨answer, ?_⟩
  unfold Rpc.respond
  dsimp only
  rw [hanswer]

theorem parse_payload {datagram : Bytes} {header : Header} {payload : ArraySlice} (h : Rpc.parse datagram = .ok (header, payload)) :
    payload.In ∧ payload.i = 24 := by
  obtain ⟨header', -, h⟩ := bind_eq_ok.mp h
  obtain ⟨payload', hsub, h⟩ := bind_eq_ok.mp h
  cases h
  have hle := ok_subsliceFrom.mp ⟨_, hsub⟩
  rw [subsliceFrom_ok hle] at hsub
  cases hsub
  exact ⟨subslice_in (full_in datagram) hle, rfl⟩

theorem handleResponse_iff (h : Proper s) (node : { s : Node // s.Sound }) {payload : ArraySlice} (hin : payload.In)
    (hi : payload.i = 24) (reqId : RequestId) (svcId : BitVec 16) :
    Proper (s.handleResponse node.val payload reqId svcId).1 ↔ ∀ n call, s.requestMap reqId = some n → s.calls[n]? = some call →
      svcId = call.request.service.svcId ∧ call.request.Reads payload := by
  unfold Rpc.handleResponse
  cases hreq : s.requestMap reqId with
  | none => exact ⟨fun _ => nofun, fun _ => h⟩
  | some n =>
    obtain ⟨call, hcall, hid, ht⟩ := (h.entry reqId n).mp hreq
    dsimp only
    rw [hcall]
    dsimp only
    have hall : (∀ m call', some n = some m → s.calls[m]? = some call' →
        svcId = call'.request.service.svcId ∧ call'.request.Reads payload) ↔
        svcId = call.request.service.svcId ∧ call.request.Reads payload := by
      constructor
      · intro hcond
        exact hcond n call rfl hcall
      · intro hcond m call' hm hcall'
        cases hm
        rw [hcall] at hcall'
        cases hcall'
        exact hcond
    have hreads := (response_iff node.property call.request hin hi).ok_iff
    rw [hall, ← hid, ← hreads]
    by_cases hsvc : svcId = call.request.service.svcId
    · rw [if_pos hsvc]
      cases hresponse : response node.val call.request payload with
      | ok result =>
        obtain ⟨node', effects⟩ := result
        obtain ⟨answer, hrespond⟩ := respond_ok ((s.remove call.reqId).cancel n) n node' (once_response hresponse n)
        rw [hrespond]
        exact ⟨fun _ => ⟨hsvc, ok_ok _⟩, fun _ => proper_answered h hcall ht answer⟩
      | error e =>
        constructor
        · intro h'
          exact absurd h' (not_proper_silent h hcall ht)
        · intro ⟨_, hok⟩
          exact absurd hok (not_ok_error e)
    · rw [if_neg hsvc]
      constructor
      · intro h'
        exact absurd h' (not_proper_unhooked hcall ht)
      · intro ⟨hsame, _⟩
        exact absurd hsame hsvc

theorem receive_iff (h : Proper s) (node : { s : Node // s.Sound }) (datagram : Bytes) :
    Proper (s.receive node.val datagram).1 ↔ Meets s (.receive node datagram) := by
  unfold Rpc.receive Meets
  dsimp only
  cases hparse : Rpc.parse datagram with
  | error e => exact ⟨fun _ => nofun, fun _ => h⟩
  | ok result =>
    obtain ⟨header, payload⟩ := result
    cases header with
    | request svcId reqId => exact ⟨fun _ => nofun, fun _ => h⟩
    | invalid => exact ⟨fun _ => nofun, fun _ => h⟩
    | response svcId reqId =>
      dsimp only
      obtain ⟨hin, hi⟩ := parse_payload hparse
      rw [handleResponse_iff h node hin hi]
      constructor
      · intro hcond svcId' reqId' payload' heq
        cases heq
        exact hcond
      · intro hcond
        exact hcond svcId reqId payload rfl

/-- A timer that goes off finds its entry. -/
theorem onTimeout_proper (h : Proper s) (node : { s : Node // s.Sound }) (n : Nat) :
    Proper (s.onTimeout node.val n).1 ∧ (s.onTimeout node.val n).2 = none := by
  unfold Rpc.onTimeout
  cases hcall : s.calls[n]? with
  | none => exact ⟨h, rfl⟩
  | some call =>
    dsimp only
    by_cases ht : s.timers n = true
    · have hentry : (s.cancel n).requestMap call.reqId = some n := (h.entry _ _).mpr ⟨call, hcall, rfl, ht⟩
      rw [if_pos ht, hentry]
      dsimp only
      obtain ⟨node', effects, htimeout, -⟩ := timeout_ok node.property call.request
      rw [htimeout]
      obtain ⟨answer, hrespond⟩ := respond_ok ((s.cancel n).remove call.reqId) n node' (once_timeout htimeout n)
      rw [hrespond]
      exact ⟨proper_answered h hcall ht answer, rfl⟩
    · rw [if_neg ht]
      exact ⟨h, rfl⟩

theorem abort_iff (h : Proper s) (n : Nat) : (s.abort n).2 = none ∧ Proper (s.abort n).1 ↔ Meets s (.abort n) := by
  unfold Rpc.abort Meets
  cases hcall : s.calls[n]? with
  | none =>
    refine ⟨?_, fun _ => ⟨rfl, h⟩⟩
    intro _ call hcall'
    rw [hcall] at hcall'
    cases hcall'
  | some call =>
    dsimp only
    cases hentry : s.requestMap call.reqId with
    | none =>
      constructor
      · nofun
      · intro hcond
        cases (hcond call hcall).symm.trans hentry
    | some m =>
      dsimp only
      by_cases hm : m = n
      · subst hm
        obtain ⟨call', hcall', -, ht⟩ := (h.entry _ _).mp hentry
        refine ⟨?_, fun _ => ⟨rfl, proper_aborted h hcall ht⟩⟩
        intro _ call'' hcall''
        rw [hcall] at hcall''
        cases hcall''
        exact hentry
      · -- the entry is a later call's under the same id
        constructor
        · intro ⟨_, h'⟩
          obtain ⟨call', hcall', hid, ht⟩ := (h.entry _ _).mp hentry
          have hlater := (h'.entry call.reqId m).mpr ⟨call', (List.getElem?_set_ne (Ne.symm hm)).trans hcall', hid,
            (update_of_ne hm _ _).trans ht⟩
          have hgone : (Function.update s.requestMap call.reqId none) call.reqId = some m := hlater
          rw [update_self] at hgone
          cases hgone
        · intro hcond
          have := (hcond call hcall).symm.trans hentry
          cases this
          exact absurd rfl hm

theorem step_iff (h : Proper s) (e : Ev) : quiet e (step s e).2 ∧ Proper (step s e).1 ↔ Meets s e := by
  cases e with
  | request reqId pending => exact ⟨fun hq => (request_iff h reqId pending).mp hq.2, fun hm => ⟨trivial, (request_iff h reqId pending).mpr hm⟩⟩
  | receive node datagram => exact ⟨fun hq => (receive_iff h node datagram).mp hq.2, fun hm => ⟨trivial, (receive_iff h node datagram).mpr hm⟩⟩
  | expire node n =>
    have ht := onTimeout_proper h node n
    exact ⟨fun _ => trivial, fun _ => ⟨ht.2, ht.1⟩⟩
  | abort n => exact abort_iff h n

/-! ## Runs -/

theorem holds_proper {evs : List Ev} (h : Holds s evs) : Proper s := by
  cases evs with
  | nil => exact h
  | cons e evs => exact h.1

theorem holds_iff (h : Proper s) (evs : List Ev) : Holds s evs ↔ AllMeet s evs := by
  induction evs generalizing s with
  | nil => exact ⟨fun _ => trivial, fun _ => h⟩
  | cons e evs ih =>
    constructor
    · intro ⟨_, hquiet, hrest⟩
      have hproper := holds_proper hrest
      exact ⟨(step_iff h e).mp ⟨hquiet, hproper⟩, (ih hproper).mp hrest⟩
    · intro ⟨hmeets, hrest⟩
      obtain ⟨hquiet, hproper⟩ := (step_iff h e).mpr hmeets
      exact ⟨h, hquiet, (ih hproper).mpr hrest⟩

/-- The life of the requests is in order in exactly the runs whose every step meets its condition. -/
theorem lifecycle_iff (evs : List Ev) : Holds new evs ↔ AllMeet new evs := holds_iff proper_new evs

/-- A call that is aborted after it has timed out: `abort` raises. -/
theorem abort_after_timeout : ¬ ∀ evs : List Ev, Holds new evs := by
  intro h
  have hsound : Node.Sound ⟨Buckets.new 0 Config.k, [], []⟩ := Buckets.new_sound 0 (by decide)
  obtain ⟨-, -, -, -, -, hquiet, -⟩ := h [.request [] ⟨.ping, ([], 0), none⟩, .expire ⟨_, hsound⟩ 0, .abort 0]
  cases hquiet

end BubbleStorm.Kademlia.Requests
