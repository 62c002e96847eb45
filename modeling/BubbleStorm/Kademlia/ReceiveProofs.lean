/-
  BubbleStorm.Kademlia.ReceiveProofs — which datagrams a node survives.

  In every state a node comes to, its routing table is sound (`reach_sound`), so that no
  exception comes from there but for a value stored under the node's own id. What is left
  are the lengths the parsers trust, the dates of a STORE and the type of a FIND_VALUE
  response: `Survives` is what a datagram must satisfy, no more and no less
  (`datagram_iff`).
-/

import BubbleStorm.Kademlia.BucketsProofs
import BubbleStorm.Kademlia.Receive

namespace BubbleStorm.Kademlia

open BubbleStorm.Cusp (Exn Bytes)
open BubbleStorm.Lib
open BubbleStorm.Util.Serial
open BubbleStorm.Util.Serial.Forms (Address)

/-! ## Parsers -/

theorem header_length : headerSize = 24 := rfl

theorem id_length : idForm.serial.length = 20 := rfl

theorem idAddr_length : idAddr.serial.length = 26 := rfl

theorem idDate_length : idDate.serial.length = 32 := rfl

theorem word32_length : Forms.word32l.serial.length = 4 := rfl

variable {data : ArraySlice}

theorem parseHeader_iff (hs : data.In) (hi : data.i = 0) : Ok (parseHeader data) ↔ 24 ≤ data.n := by
  unfold parseHeader
  rw [ok_bind_pure, parseSlice_iff headerForm hs (hi ▸ Nat.dvd_zero _)]
  exact Iff.rfl

theorem parseId_iff (hs : data.In) : Ok (parseId data) ↔ 20 ≤ data.n := by
  unfold parseId
  rw [ok_bind_pure, parseSlice_iff idForm hs (Nat.one_dvd _), id_length]

theorem parseId_val {x : Id × Nat} (h : parseId data = .ok x) : x.2 = 20 := by
  obtain ⟨id, -, hx⟩ := bind_eq_ok.mp h
  cases hx
  rfl

theorem parseIdAddr_iff (hs : data.In) (hi : 2 ∣ data.i) : Ok (parseIdAddr data) ↔ 26 ≤ data.n := by
  unfold parseIdAddr
  rw [ok_bind_pure, parseSlice_iff idAddr hs hi, idAddr_length]

theorem parseIdAddr_val {x : (Id × Address) × Nat} (h : parseIdAddr data = .ok x) : x.2 = 26 := by
  obtain ⟨y, -, hx⟩ := bind_eq_ok.mp h
  cases hx
  rfl

theorem parseIdDate_iff (hs : data.In) (hi : 8 ∣ data.i) : Ok (parseIdDate data) ↔ 32 ≤ data.n := by
  unfold parseIdDate
  rw [ok_bind_pure, parseSlice_iff idDate hs hi, idDate_length]

theorem parseIdDate_val {x : (Id × BitVec 64) × Nat} (h : parseIdDate data = .ok x) : x.2 = 32 := by
  obtain ⟨y, -, hx⟩ := bind_eq_ok.mp h
  cases hx
  rfl

theorem parseWord32_iff (hs : data.In) (hi : 4 ∣ data.i) : Ok (parseWord32 data) ↔ 4 ≤ data.n := by
  unfold parseWord32
  rw [ok_bind_pure, parseSlice_iff Forms.word32l hs hi, word32_length]

theorem parseWord32_val {x : BitVec 32 × Nat} (h : parseWord32 data = .ok x) : x.2 = 4 := by
  obtain ⟨y, -, hx⟩ := bind_eq_ok.mp h
  cases hx
  rfl

theorem parseIds_iff (hs : data.In) : Ok (parseIds data) ↔ 40 ≤ data.n := by
  unfold parseIds
  rw [ok_bind]
  constructor
  · intro ⟨x, hx, h⟩
    rw [ok_bind] at h
    obtain ⟨s, hsub, h⟩ := h
    rw [ok_bind_pure] at h
    have h20 := parseId_val hx
    rw [h20] at hsub
    have hle := ok_subsliceFrom.mp ⟨s, hsub⟩
    rw [subsliceFrom_ok hle] at hsub
    cases hsub
    have := (parseId_iff (subslice_in hs hle)).mp h
    dsimp only at this
    omega
  · intro h
    obtain ⟨⟨fromId, l⟩, hx⟩ := (parseId_iff hs).mpr (by omega)
    obtain rfl : l = 20 := parseId_val hx
    refine ⟨_, hx, ?_⟩
    dsimp only
    rw [ok_bind]
    have hle : 20 ≤ data.n := by omega
    refine ⟨_, subsliceFrom_ok hle, ?_⟩
    rw [ok_bind_pure, parseId_iff (subslice_in hs hle)]
    dsimp only
    omega

/-- The padding lines the date up. -/
theorem parseStore_iff (hs : data.In) (hi : data.i = 24) : Ok (parseStore data) ↔ 56 ≤ data.n := by
  unfold parseStore
  rw [ok_bind]
  constructor
  · intro ⟨x, hx, h⟩
    obtain ⟨s, hsub, h⟩ := ok_bind.mp h
    obtain ⟨y, hy, -⟩ := ok_bind.mp h
    rw [parseId_val hx] at hsub
    have hle := ok_subsliceFrom.mp ⟨s, hsub⟩
    rw [subsliceFrom_ok hle] at hsub
    cases hsub
    have := (parseIdDate_iff (subslice_in hs hle) (by dsimp only; omega)).mp ⟨y, hy⟩
    dsimp only at this
    omega
  · intro h
    obtain ⟨⟨fromId, l⟩, hx⟩ := (parseId_iff hs).mpr (by omega)
    obtain rfl : l = 20 := parseId_val hx
    refine ⟨_, hx, ?_⟩
    have hle : 20 + 4 ≤ data.n := by omega
    dsimp only
    rw [ok_bind]
    refine ⟨_, subsliceFrom_ok hle, ?_⟩
    obtain ⟨⟨idDate, l⟩, hy⟩ := (parseIdDate_iff (subslice_in hs hle) (by dsimp only; omega)).mpr (by dsimp only; omega)
    obtain rfl : l = 32 := parseIdDate_val hy
    rw [ok_bind]
    refine ⟨_, hy, ?_⟩
    dsimp only
    rw [ok_bind_pure, ok_subsliceFrom]
    dsimp only
    omega

/-- A list is read to its end: entry after entry. -/
theorem readList_iff (fuel : Nat) (hs : data.In) (hi : 2 ∣ data.i) (hf : data.n ≤ fuel) :
    Ok (readList fuel data) ↔ data.n % 26 = 0 := by
  induction fuel generalizing data with
  | zero =>
    have h0 : data.n = 0 := by omega
    simp [readList, h0]
  | succ fuel ih =>
    unfold readList
    by_cases h0 : 0 < data.n
    · rw [if_pos h0, ok_bind]
      constructor
      · intro ⟨x, hx, h⟩
        obtain ⟨s, hsub, h⟩ := ok_bind.mp h
        rw [ok_bind_pure] at h
        rw [parseIdAddr_val hx] at hsub
        have hle := ok_subsliceFrom.mp ⟨s, hsub⟩
        rw [subsliceFrom_ok hle] at hsub
        cases hsub
        have := (ih (subslice_in hs hle) (by dsimp only; omega) (by dsimp only; omega)).mp h
        dsimp only at this
        omega
      · intro hmod
        have hle : 26 ≤ data.n := by omega
        obtain ⟨⟨hd, l⟩, hx⟩ := (parseIdAddr_iff hs hi).mpr hle
        obtain rfl : l = 26 := parseIdAddr_val hx
        refine ⟨_, hx, ?_⟩
        dsimp only
        rw [ok_bind]
        refine ⟨_, subsliceFrom_ok hle, ?_⟩
        rw [ok_bind_pure, ih (subslice_in hs hle) (by dsimp only; omega) (by dsimp only; omega)]
        dsimp only
        omega
    · rw [if_neg h0]
      have : data.n = 0 := by omega
      simp [this]

/-! ## Seeing a node -/

def Node.Sound (s : Node) : Prop := s.buckets.Sound

/-- The routing table once a node was seen. -/
def seen (s : Node) (id : Id) (addr : Address) : Buckets Address :=
  match Buckets.updateNode s.buckets id addr with
  | .ok (buckets, _) => buckets
  | .error _ => s.buckets

theorem updateNode_ok {s : Node} (h : s.Sound) (id : Id) (addr : Address) :
    ∃ effects, updateNode s id addr = .ok ({ s with buckets := seen s id addr }, effects) ∧ (seen s id addr).Sound ∧
      (seen s id addr).myId = s.buckets.myId := by
  obtain ⟨t, added, ht, hsound, hmy, hne⟩ := Buckets.updateNode_sound h id addr
  have hseen : seen s id addr = t := by
    unfold seen
    rw [ht]
  rw [hseen]
  have hstored : Ok (if added then s.values.mapM (checkStore t id addr) else .ok []) := by
    rw [ok_ite]
    refine ⟨?_, fun _ => ok_ok _⟩
    intro hadded
    rw [ok_mapM]
    intro entry _
    unfold checkStore
    obtain ⟨r, hr⟩ := Buckets.knowNodesCloserTo_ok hsound entry.1
    rw [ok_bind]
    refine ⟨r, hr, ?_⟩
    rw [ok_ite, ok_bind_pure]
    exact ⟨fun _ => ok_pure _, fun _ => Buckets.countCloserNodesFor_ok hsound entry.1 (hmy ▸ hne hadded)⟩
  obtain ⟨stored, hstored⟩ := hstored
  refine ⟨stored.flatten, ?_, hsound, hmy⟩
  unfold updateNode
  refine bind_eq_ok.mpr ⟨_, ht, ?_⟩
  cases added with
  | true => exact bind_eq_ok.mpr ⟨stored, hstored, rfl⟩
  | false => exact bind_eq_ok.mpr ⟨stored, hstored, rfl⟩

theorem nodeTimeout_ok {s : Node} (h : s.Sound) (id : Option Id) : ∃ s', nodeTimeout s id = .ok s' ∧ s'.Sound := by
  cases id with
  | none => exact ⟨s, rfl, h⟩
  | some id =>
    obtain ⟨t, ht, hsound, -⟩ := Buckets.nodeTimeout_sound h id
    exact ⟨_, bind_eq_ok.mpr ⟨t, ht, rfl⟩, hsound⟩

theorem timeout_ok {s : Node} (h : s.Sound) (request : Pending) : ∃ s' effects, timeout s request = .ok (s', effects) ∧ s'.Sound := by
  obtain ⟨s', hs', hsound⟩ := nodeTimeout_ok h request.destId
  exact ⟨s', _, bind_eq_ok.mpr ⟨s', hs', rfl⟩, hsound⟩

theorem closeNodes_ok {s : Node} (h : s.Sound) (fromId targetId : Id) :
    ∃ l, closeNodes s fromId targetId = .ok l ∧ l.length ≤ Config.k := by
  have hk : (0 : Int) ≤ Config.k := Int.natCast_nonneg _
  obtain ⟨l, hl, hlen⟩ := Buckets.getCloseNodes_ok h targetId fromId hk
  refine ⟨idAddrs l, bind_eq_ok.mpr ⟨l, hl, rfl⟩, ?_⟩
  simpa [idAddrs] using hlen

/-! ## Requests -/

variable (env : Env)

/-- What is written fits where at most `k` nodes are listed. -/
theorem write_ok (sender : Address) (svcId : BitVec 16) (reqId : RequestId) {response : Response}
    (h : ∀ l, response = .nodes l ∨ response = .nodeList l → l.length ≤ Config.k) : Ok (write env sender svcId reqId response) := by
  have hmtu := env.ample
  unfold write
  dsimp only
  rw [ok_ite]
  refine ⟨fun _ => ok_ok _, ?_⟩
  intro hn
  refine absurd ⟨?_, ?_⟩ hn
  · rw [header_length]
    omega
  · rw [header_length]
    cases response with
    | ping =>
      simp only [Response.size, id_length]
      omega
    | nodes l =>
      have := h l (.inl rfl)
      simp only [Response.size, id_length, idAddr_length, Config.k] at this ⊢
      omega
    | stored r =>
      simp only [Response.size, id_length, word32_length]
      omega
    | nodeList l =>
      have := h l (.inr rfl)
      simp only [Response.size, id_length, idAddr_length, word32_length, Config.k] at this ⊢
      omega
    | value id v =>
      simp only [Response.size, id_length, idDate_length, word32_length]
      omega

/-- The value of a STORE can be kept: it is not the node's own, and what is left of its
    time can be computed. -/
structure Keeps (s : Node) (sender : Address) (fromId id : Id) (date : Int) : Prop where
  other : id ≠ s.buckets.myId
  left : minTime ≤ date - env.now ∧ date - env.now ≤ maxTime
  scaled : ∀ c, Buckets.countCloserNodes (seen s fromId sender) id = .ok c →
    ∃ expire, env.multReal32 (date - env.now) c = .ok expire ∧ minTime ≤ env.now + expire ∧ env.now + expire ≤ maxTime

theorem toTime_iff {x r : Int} : toTime x = .ok r ↔ r = x ∧ minTime ≤ x ∧ x ≤ maxTime := by
  unfold toTime
  constructor
  · intro h
    split at h
    next hx =>
      cases h
      exact ⟨rfl, hx⟩
    next => cases h
  · intro ⟨rfl, hx⟩
    exact if_pos hx

theorem expiry_iff {s : Node} (h : s.Sound) (sender : Address) (fromId id : Id) (date : Int) :
    Ok (expiry env (seen s fromId sender) id date) ↔ Keeps env s sender fromId id date := by
  obtain ⟨-, -, hsound, hmy⟩ := updateNode_ok h fromId sender
  unfold expiry
  constructor
  · intro hok
    obtain ⟨d, hd, hok⟩ := ok_bind.mp hok
    obtain ⟨rfl, hleft⟩ := toTime_iff.mp hd
    obtain ⟨c, hc, hok⟩ := ok_bind.mp hok
    obtain ⟨e, he, r, hr⟩ := ok_bind.mp hok
    refine ⟨hmy ▸ (Buckets.countCloserNodes_iff hsound id).mp ⟨c, hc⟩, hleft, ?_⟩
    intro c' hc'
    rw [hc] at hc'
    cases hc'
    exact ⟨e, he, (toTime_iff.mp hr).2⟩
  · intro ⟨hother, hleft, hscaled⟩
    obtain ⟨c, hc⟩ := (Buckets.countCloserNodes_iff hsound id).mpr (hmy ▸ hother)
    obtain ⟨e, he, hr⟩ := hscaled c hc
    refine ok_bind.mpr ⟨_, toTime_iff.mpr ⟨rfl, hleft⟩, ok_bind.mpr ⟨c, hc, ok_bind.mpr ⟨e, he, _, toTime_iff.mpr ⟨rfl, hr⟩⟩⟩⟩

theorem storeHandler_iff {s : Node} (id : Id) (value : Bytes) (date : Int) :
    Ok (storeHandler env s id value date) ↔ Ok (expiry env s.buckets id date) := by
  unfold storeHandler
  rw [ok_bind]
  constructor
  · intro ⟨e, he, _⟩
    exact ⟨e, he⟩
  · intro ⟨e, he⟩
    refine ⟨e, he, ?_⟩
    cases getValue s.values id with
    | none => exact ok_pure _
    | some old =>
      dsimp only
      split
      · exact ok_pure _
      · exact ok_pure _

theorem storeHandler_buckets {s s' : Node} {id : Id} {value : Bytes} {date : Int} (h : storeHandler env s id value date = .ok s') :
    s'.buckets = s.buckets := by
  unfold storeHandler at h
  obtain ⟨e, -, h⟩ := bind_eq_ok.mp h
  split at h
  · split at h
    · cases h
      rfl
    · cases h
      rfl
  · cases h
    rfl

/-- What a request needs of its payload. -/
def Service.Accepts (s : Node) (sender : Address) (data : ArraySlice) : Service → Prop
  | .ping => 20 ≤ data.n
  | .findNode => 40 ≤ data.n
  | .store => 56 ≤ data.n ∧ ∀ fromId id date value, parseStore data = .ok (fromId, (id, date), value) →
      Keeps env s sender fromId id date.toInt
  | .findValue => 40 ≤ data.n

/-- The node after a request, and an answer that fits. -/
def Fine (x : Node × List Effect × Response) : Prop :=
  x.1.Sound ∧ ∀ l, x.2.2 = .nodes l ∨ x.2.2 = .nodeList l → l.length ≤ Config.k

theorem requestHandlerPing_iff {s : Node} (h : s.Sound) (sender : Address) (hs : data.In) :
    Exactly (requestHandlerPing s data sender) (20 ≤ data.n) Fine := by
  rw [← parseId_iff hs]
  unfold requestHandlerPing
  constructor
  · intro ⟨x, hx⟩
    obtain ⟨y, hy, -⟩ := bind_eq_ok.mp hx
    exact ⟨y, hy⟩
  · intro ⟨⟨fromId, l⟩, hy⟩
    obtain ⟨effects, hu, hsound, -⟩ := updateNode_ok h fromId sender
    refine ⟨_, bind_eq_ok.mpr ⟨_, hy, bind_eq_ok.mpr ⟨_, hu, rfl⟩⟩, hsound, ?_⟩
    rintro l (hl | hl) <;> cases hl

theorem requestHandlerFindNode_iff {s : Node} (h : s.Sound) (sender : Address) (hs : data.In) :
    Exactly (requestHandlerFindNode s data sender) (40 ≤ data.n) Fine := by
  rw [← parseIds_iff hs]
  unfold requestHandlerFindNode
  constructor
  · intro ⟨x, hx⟩
    obtain ⟨y, hy, -⟩ := bind_eq_ok.mp hx
    exact ⟨y, hy⟩
  · intro ⟨⟨fromId, targetId⟩, hy⟩
    obtain ⟨effects, hu, hsound, -⟩ := updateNode_ok h fromId sender
    obtain ⟨l, hl, hlen⟩ := closeNodes_ok (s := { s with buckets := seen s fromId sender }) hsound fromId targetId
    refine ⟨_, bind_eq_ok.mpr ⟨_, hy, bind_eq_ok.mpr ⟨_, hu, bind_eq_ok.mpr ⟨l, hl, rfl⟩⟩⟩, hsound, ?_⟩
    rintro l' (hl' | hl')
    · cases hl'
      exact hlen
    · cases hl'

theorem requestHandlerStore_iff {s : Node} (h : s.Sound) (sender : Address) (hs : data.In) (hi : data.i = 24) :
    Exactly (requestHandlerStore env s data sender) (56 ≤ data.n ∧
      ∀ fromId id date value, parseStore data = .ok (fromId, (id, date), value) → Keeps env s sender fromId id date.toInt) Fine := by
  rw [← parseStore_iff hs hi]
  unfold requestHandlerStore
  constructor
  · intro ⟨x, hx⟩
    obtain ⟨⟨fromId, ⟨id, date⟩, value⟩, hy, hx⟩ := bind_eq_ok.mp hx
    obtain ⟨effects, hu, -, -⟩ := updateNode_ok h fromId sender
    obtain ⟨u, hu', hx⟩ := bind_eq_ok.mp hx
    obtain rfl : _ = u := Except.ok.inj (hu.symm.trans hu')
    obtain ⟨s', hs', -⟩ := bind_eq_ok.mp hx
    refine ⟨⟨_, hy⟩, ?_⟩
    intro fromId' id' date' value' heq
    have heq := Except.ok.inj (hy.symm.trans heq)
    simp only [Prod.mk.injEq] at heq
    obtain ⟨rfl, ⟨rfl, rfl⟩, rfl⟩ := heq
    rw [← expiry_iff env h]
    exact (storeHandler_iff env (s := { s with buckets := seen s fromId sender }) id value date.toInt).mp ⟨s', hs'⟩
  · intro ⟨⟨⟨fromId, ⟨id, date⟩, value⟩, hy⟩, hkeeps⟩
    obtain ⟨effects, hu, hsound, -⟩ := updateNode_ok h fromId sender
    have hexp := (expiry_iff env h sender fromId id date.toInt).mpr (hkeeps _ _ _ _ hy)
    obtain ⟨s', hs'⟩ := (storeHandler_iff env (s := { s with buckets := seen s fromId sender }) id value date.toInt).mpr hexp
    refine ⟨_, bind_eq_ok.mpr ⟨_, hy, bind_eq_ok.mpr ⟨_, hu, bind_eq_ok.mpr ⟨s', hs', rfl⟩⟩⟩, ?_, ?_⟩
    · show s'.buckets.Sound
      rw [storeHandler_buckets env hs']
      exact hsound
    · rintro l (hl | hl) <;> cases hl

theorem requestHandlerFindValue_iff {s : Node} (h : s.Sound) (sender : Address) (hs : data.In) :
    Exactly (requestHandlerFindValue s data sender) (40 ≤ data.n) Fine := by
  rw [← parseIds_iff hs]
  unfold requestHandlerFindValue
  constructor
  · intro ⟨x, hx⟩
    obtain ⟨y, hy, -⟩ := bind_eq_ok.mp hx
    exact ⟨y, hy⟩
  · intro ⟨⟨fromId, targetId⟩, hy⟩
    obtain ⟨effects, hu, hsound, -⟩ := updateNode_ok h fromId sender
    obtain ⟨l, hl, hlen⟩ := closeNodes_ok (s := { s with buckets := seen s fromId sender }) hsound fromId targetId
    cases hv : getValue s.values targetId with
    | some v =>
      refine ⟨({ s with buckets := seen s fromId sender }, effects, .value targetId v),
        bind_eq_ok.mpr ⟨_, hy, bind_eq_ok.mpr ⟨_, hu, ?_⟩⟩, hsound, ?_⟩
      · dsimp only
        rw [hv]
        rfl
      · rintro l (hl | hl) <;> cases hl
    | none =>
      refine ⟨({ s with buckets := seen s fromId sender }, effects, .nodeList l),
        bind_eq_ok.mpr ⟨_, hy, bind_eq_ok.mpr ⟨_, hu, ?_⟩⟩, hsound, ?_⟩
      · dsimp only
        rw [hv]
        exact bind_eq_ok.mpr ⟨l, hl, rfl⟩
      · rintro l' (hl' | hl')
        · cases hl'
        · cases hl'
          exact hlen

theorem handler_iff {s : Node} (h : s.Sound) (sender : Address) (hs : data.In) (hi : data.i = 24) (service : Service) :
    Exactly (service.handler env s data sender) (service.Accepts env s sender data) Fine := by
  cases service with
  | ping => exact requestHandlerPing_iff h sender hs
  | findNode => exact requestHandlerFindNode_iff h sender hs
  | store => exact requestHandlerStore_iff env h sender hs hi
  | findValue => exact requestHandlerFindValue_iff h sender hs

/-! ## Responses -/

/-- What a response needs behind the id. -/
def Service.Tail (data : ArraySlice) : Service → Prop
  | .ping => True
  | .findNode => data.n % 26 = 0
  | .store => 4 ≤ data.n
  | .findValue => 4 ≤ data.n ∧ ∀ tp l, parseWord32 data = .ok (tp, l) →
      tp = findValueResultList ∧ (data.n - 4) % 26 = 0 ∨ tp = findValueResultValue ∧ 36 ≤ data.n

/-- A list or a value, as the type says. -/
theorem findValue_iff {s : Node} (h : s.Sound) (request : Pending) (fromId : Id) (hs : data.In) (hi : data.i = 44) :
    Exactly (Service.findValue.validResponse s request fromId data) (Service.findValue.Tail data) (·.1.Sound) := by
  obtain ⟨effects, hu, hsound, -⟩ := updateNode_ok h fromId request.destAddr
  unfold Service.validResponse Service.Tail
  dsimp only
  constructor
  · intro hok
    obtain ⟨⟨tp, l⟩, hw, hok⟩ := ok_bind.mp hok
    obtain rfl : l = 4 := parseWord32_val hw
    obtain ⟨tail, hsub, hok⟩ := ok_bind.mp hok
    have hle := (parseWord32_iff hs (by omega)).mp ⟨_, hw⟩
    rw [subsliceFrom_ok hle] at hsub
    obtain rfl := Except.ok.inj hsub
    obtain ⟨u, hu', hok⟩ := ok_bind.mp hok
    obtain rfl : _ = u := Except.ok.inj (hu.symm.trans hu')
    refine ⟨hle, ?_⟩
    intro tp' l' heq
    obtain ⟨rfl, rfl⟩ := Prod.mk.inj (Except.ok.inj (hw.symm.trans heq))
    rw [ok_ite, ok_ite] at hok
    by_cases hlist : tp = findValueResultList
    · have hr := hok.1 hlist
      rw [ok_bind_pure, readList_iff _ (subslice_in hs hle) (by dsimp only; omega) (Nat.le_refl _)] at hr
      exact .inl ⟨hlist, hr⟩
    · by_cases hval : tp = findValueResultValue
      · obtain ⟨⟨idDate, l⟩, hd, -⟩ := ok_bind.mp ((hok.2 hlist).1 hval)
        have := (parseIdDate_iff (subslice_in hs hle) (by dsimp only; omega)).mp ⟨_, hd⟩
        dsimp only at this
        exact .inr ⟨hval, by omega⟩
      · exact absurd ((hok.2 hlist).2 hval) (not_ok_error _)
  · intro ⟨hle, htail⟩
    obtain ⟨⟨tp, l⟩, hw⟩ := (parseWord32_iff hs (by omega)).mpr hle
    obtain rfl : l = 4 := parseWord32_val hw
    have hin := subslice_in hs hle
    rcases htail tp 4 hw with ⟨htp, hlist⟩ | ⟨htp, hval⟩
    · obtain ⟨nodes, hnodes⟩ := (readList_iff (data.n - 4) hin (by dsimp only; omega) (Nat.le_refl _)).mpr hlist
      refine ⟨({ s with buckets := seen s fromId request.destAddr }, effects ++ [.callback request (.nodes fromId nodes)]),
        bind_eq_ok.mpr ⟨_, hw, bind_eq_ok.mpr ⟨_, subsliceFrom_ok hle, bind_eq_ok.mpr ⟨_, hu, ?_⟩⟩⟩, hsound⟩
      dsimp only
      rw [if_pos htp]
      exact bind_eq_ok.mpr ⟨nodes, hnodes, rfl⟩
    · have hne : ¬ tp = findValueResultList := by
        rw [htp]
        decide
      obtain ⟨⟨⟨id, date⟩, l⟩, hd⟩ := (parseIdDate_iff hin (by dsimp only; omega)).mpr (by dsimp only; omega)
      obtain rfl : l = 32 := parseIdDate_val hd
      obtain ⟨value, hv⟩ := ok_subsliceFrom (s := ⟨data.array, data.i + 4, data.n - 4⟩) (i := 32) |>.mpr (by dsimp only; omega)
      refine ⟨({ s with buckets := seen s fromId request.destAddr },
          effects ++ [.callback request (.value fromId id (bytes value) date.toInt)]),
        bind_eq_ok.mpr ⟨_, hw, bind_eq_ok.mpr ⟨_, subsliceFrom_ok hle, bind_eq_ok.mpr ⟨_, hu, ?_⟩⟩⟩, hsound⟩
      dsimp only
      rw [if_neg hne, if_pos htp]
      exact bind_eq_ok.mpr ⟨_, hd, bind_eq_ok.mpr ⟨value, hv, rfl⟩⟩

theorem validResponse_iff {s : Node} (h : s.Sound) (request : Pending) (fromId : Id) (hs : data.In) (hi : data.i = 44)
    (service : Service) : Exactly (service.validResponse s request fromId data) (service.Tail data) (·.1.Sound) := by
  obtain ⟨effects, hu, hsound, -⟩ := updateNode_ok h fromId request.destAddr
  cases service with
  | ping => exact ⟨fun _ => trivial, fun _ => ⟨_, bind_eq_ok.mpr ⟨_, hu, rfl⟩, hsound⟩⟩
  | findNode =>
    have hlist := readList_iff data.n hs (by omega) (Nat.le_refl _)
    constructor
    · intro hok
      obtain ⟨nodes, hnodes, -⟩ := ok_bind.mp hok
      exact hlist.mp ⟨nodes, hnodes⟩
    · intro hmod
      obtain ⟨nodes, hnodes⟩ := hlist.mpr hmod
      exact ⟨_, bind_eq_ok.mpr ⟨nodes, hnodes, bind_eq_ok.mpr ⟨_, hu, rfl⟩⟩, hsound⟩
  | store =>
    have hword := parseWord32_iff hs (by omega)
    constructor
    · intro hok
      obtain ⟨res, hres, -⟩ := ok_bind.mp hok
      exact hword.mp ⟨res, hres⟩
    · intro hle
      obtain ⟨res, hres⟩ := hword.mpr hle
      exact ⟨_, bind_eq_ok.mpr ⟨res, hres, bind_eq_ok.mpr ⟨_, hu, rfl⟩⟩, hsound⟩
  | findValue => exact findValue_iff h request fromId hs hi

/-- What a response to a request needs of its payload. -/
def Pending.Reads (request : Pending) (data : ArraySlice) : Prop :=
  20 ≤ data.n ∧ ∀ fromId l, parseId data = .ok (fromId, l) → expected request.destId fromId = true →
    request.service.Tail ⟨data.array, data.i + 20, data.n - 20⟩

theorem response_iff {s : Node} (h : s.Sound) (request : Pending) (hs : data.In) (hi : data.i = 24) :
    Exactly (response s request data) (request.Reads data) (·.1.Sound) := by
  unfold response Pending.Reads
  constructor
  · intro hok
    obtain ⟨⟨fromId, l⟩, hid, hok⟩ := ok_bind.mp hok
    obtain rfl : l = 20 := parseId_val hid
    obtain ⟨tail, hsub, hok⟩ := ok_bind.mp hok
    have hle := (parseId_iff hs).mp ⟨_, hid⟩
    rw [subsliceFrom_ok hle] at hsub
    obtain rfl := Except.ok.inj hsub
    refine ⟨hle, ?_⟩
    intro fromId' l' heq hexp
    obtain ⟨rfl, rfl⟩ := Prod.mk.inj (Except.ok.inj (hid.symm.trans heq))
    rw [ok_ite] at hok
    exact (validResponse_iff h request fromId (subslice_in hs hle) (by dsimp only; omega) request.service).1 (hok.1 hexp)
  · intro ⟨hle, htail⟩
    obtain ⟨⟨fromId, l⟩, hid⟩ := (parseId_iff hs).mpr hle
    obtain rfl : l = 20 := parseId_val hid
    by_cases hexp : expected request.destId fromId = true
    · obtain ⟨x, hx, hsound⟩ := (validResponse_iff h request fromId (subslice_in hs hle) (by dsimp only; omega) request.service).2
        (htail fromId 20 hid hexp)
      refine ⟨x, bind_eq_ok.mpr ⟨_, hid, bind_eq_ok.mpr ⟨_, subsliceFrom_ok hle, ?_⟩⟩, hsound⟩
      rw [if_pos hexp]
      exact hx
    · obtain ⟨s', effects, ht, hsound⟩ := timeout_ok h request
      refine ⟨(s', effects), bind_eq_ok.mpr ⟨_, hid, bind_eq_ok.mpr ⟨_, subsliceFrom_ok hle, ?_⟩⟩, hsound⟩
      rw [if_neg hexp]
      exact ht

/-! ## Datagrams -/

theorem handleRequest_iff {s : Node} (h : s.Sound) (sender : Address) (hs : data.In) (hi : data.i = 24) (svcId : BitVec 16)
    (reqId : RequestId) : Exactly (handleRequest env s sender data svcId reqId)
      (∀ service, serviceMap svcId = some service → service.Accepts env s sender data) (·.1.Sound) := by
  unfold handleRequest
  cases hm : serviceMap svcId with
  | none => exact ⟨fun _ _ hn => (nomatch hn), fun _ => ⟨_, rfl, h⟩⟩
  | some service =>
    have hh := handler_iff env h sender hs hi service
    constructor
    · intro hok service' heq
      obtain rfl := Option.some.inj heq
      obtain ⟨x, hx, -⟩ := ok_bind.mp hok
      exact hh.1 ⟨x, hx⟩
    · intro hacc
      obtain ⟨⟨s', effects, answer⟩, hx, hsound, hlen⟩ := hh.2 (hacc service rfl)
      obtain ⟨effect, he⟩ := write_ok env sender svcId reqId hlen
      exact ⟨_, bind_eq_ok.mpr ⟨_, hx, bind_eq_ok.mpr ⟨effect, he, rfl⟩⟩, hsound⟩

theorem handleResponse_iff {s : Node} (h : s.Sound) (hs : data.In) (hi : data.i = 24) (reqId : RequestId) (svcId : BitVec 16) :
    Exactly (handleResponse s data reqId svcId)
      (∀ request, s.requests.lookup reqId = some request → svcId = request.service.svcId → request.Reads data) (·.1.Sound) := by
  unfold handleResponse
  cases hl : s.requests.lookup reqId with
  | none => exact ⟨fun _ _ hn => (nomatch hn), fun _ => ⟨_, rfl, h⟩⟩
  | some request =>
    dsimp only
    have hr := response_iff (s := { s with requests := s.requests.filter fun e => e.1 != reqId }) h request hs hi
    constructor
    · intro hok request' heq hsvc
      obtain rfl := Option.some.inj heq
      rw [if_pos hsvc] at hok
      exact hr.1 hok
    · intro hreads
      by_cases hsvc : svcId = request.service.svcId
      · obtain ⟨x, hx, hsound⟩ := hr.2 (hreads request rfl hsvc)
        exact ⟨x, by rw [if_pos hsvc]; exact hx, hsound⟩
      · exact ⟨_, if_neg hsvc, h⟩

/-- The datagram does not meet any of the exceptions of the receive path. -/
def Survives (s : Node) (sender : Address) (datagram : Bytes) : Prop :=
  24 ≤ datagram.length ∧ ∀ header, parseHeader (full datagram) = .ok header →
    match header with
    | .request svcId _ => ∀ service, serviceMap svcId = some service →
        service.Accepts env s sender ⟨datagram, 24, datagram.length - 24⟩
    | .response svcId reqId => ∀ request, s.requests.lookup reqId = some request → svcId = request.service.svcId →
        request.Reads ⟨datagram, 24, datagram.length - 24⟩
    | .invalid => True

theorem receiveHandler_iff {s : Node} (h : s.Sound) (sender : Address) (datagram : Bytes) :
    Exactly (receiveHandler env s sender datagram) (Survives env s sender datagram) (·.1.Sound) := by
  have hfull := full_in datagram
  have hheader := parseHeader_iff hfull rfl
  unfold receiveHandler Survives
  dsimp only
  constructor
  · intro hok
    obtain ⟨header, hh, hok⟩ := ok_bind.mp hok
    obtain ⟨payload, hp, hok⟩ := ok_bind.mp hok
    have hle : 24 ≤ datagram.length := hheader.mp ⟨header, hh⟩
    rw [header_length, subsliceFrom_ok hle] at hp
    obtain rfl := Except.ok.inj hp
    refine ⟨hle, ?_⟩
    intro header' heq
    obtain rfl := Except.ok.inj (hh.symm.trans heq)
    cases header with
    | request svcId reqId => exact (handleRequest_iff env h sender (subslice_in hfull hle) rfl svcId reqId).1 hok
    | response svcId reqId => exact (handleResponse_iff h (subslice_in hfull hle) rfl reqId svcId).1 hok
    | invalid => trivial
  · intro ⟨hle, hcond⟩
    obtain ⟨header, hh⟩ := hheader.mpr hle
    have hp : subsliceFrom (full datagram) headerSize = .ok ⟨datagram, 0 + 24, datagram.length - 24⟩ := subsliceFrom_ok hle
    have hcond := hcond header hh
    have hin := subslice_in hfull hle
    have hlast : ∃ x, (match header with
        | .request svcId reqId => handleRequest env s sender ⟨datagram, 0 + 24, datagram.length - 24⟩ svcId reqId
        | .response svcId reqId => handleResponse s ⟨datagram, 0 + 24, datagram.length - 24⟩ reqId svcId
        | .invalid => return (s, [])) = .ok x ∧ x.1.Sound := by
      cases header with
      | request svcId reqId => exact (handleRequest_iff env h sender hin rfl svcId reqId).2 hcond
      | response svcId reqId => exact (handleResponse_iff h hin rfl reqId svcId).2 hcond
      | invalid => exact ⟨_, rfl, h⟩
    obtain ⟨x, hx, hsound⟩ := hlast
    exact ⟨x, bind_eq_ok.mpr ⟨header, hh, bind_eq_ok.mpr ⟨_, hp, hx⟩⟩, hsound⟩

/-! ## Runs -/

theorem reach_sound {env : Nat → Env} {s : Node} (h : Reach env s) : s.Sound := by
  induction h with
  | new myId => exact Buckets.new_sound myId (by decide)
  | receive t sender datagram _ hr ih => exact (receiveHandler_iff (env t) ih sender datagram).value hr
  | request reqId request _ _ ih => exact ih
  | @timeout s _ _ reqId request _ _ ht ih =>
    obtain ⟨s', effects, hs', hsound⟩ := timeout_ok (s := { s with requests := s.requests.filter fun e => e.1 != reqId }) ih request
    obtain ⟨rfl, -⟩ := Prod.mk.inj (Except.ok.inj (hs'.symm.trans ht))
    exact hsound
  | values values _ ih => exact ih

/-- A clock that stands still; floating point that keeps durations. -/
def still : Nat → Env := fun _ => ⟨0, fun expire _ => .ok expire, 1472, by decide⟩

def fresh : Node := ⟨Buckets.new 5 Config.k, [], []⟩

/-- A FIND_NODE request. -/
def findsNode : Bytes := 1 :: 1 :: 0 :: 0x10 :: List.replicate 60 7

end BubbleStorm.Kademlia
