/-
  BubbleStorm.Topology.BubblecastReception — which bubblecasts a node survives.

  The handler raises nothing exactly where (`Survives`) no sum of the message leaves an
  `int`, the payload is as long as what its type reads of it, and every real that becomes
  a size or a priority is a number in range. A short payload, or a slice of an unknown
  type that does not start at zero, is enough to break it (`not_every_message`).
-/

import BubbleStorm.Lib.Outcome
import BubbleStorm.Topology.BubblecastHandler

namespace BubbleStorm.Topology.BubblecastHandler

open BubbleStorm.Cusp (Exn Bytes)
open BubbleStorm.Lib
open BubbleStorm.Util.Serial
open BubbleStorm.Util.Serial.Forms (Id Address)
open BubbleStorm.Topology.Bubblecast

variable {R F Node : Type} (N : Reals R F) (stats : Stats R F)

/-! ## Decoders -/

theorem toInt32_ok {x : Int} {r : Int32} : toInt32 x = .ok r ↔ r.val = x := by
  unfold toInt32
  constructor
  · intro h
    split at h
    · cases h
      rfl
    · cases h
  · intro h
    subst h
    exact dif_pos r.property

theorem ok_fromReal {x : F} : Ok (fromReal N x) ↔ N.isFinite x = true := by
  unfold fromReal
  rw [ok_ite]
  simp

/-- Two bytes are all the alignment a callback needs. -/
theorem queryHandler_iff (responder : Nat) {data : VectorSlice} (hs : data.In) (ha : 2 ∣ data.i) :
    Ok (queryHandler responder data : Except Exn (Effect R F Node)) ↔ callback.serial.length ≤ data.n := by
  have hcb : Ok (parseVector callback.serial data) ↔ callback.serial.length ≤ data.n := parseSlice_iff callback hs ha
  rw [← hcb]
  unfold queryHandler decode
  constructor
  · intro h
    obtain ⟨p, hp, -⟩ := ok_bind.mp h
    exact ok_bind_pure.mp ⟨p, hp⟩
  · rintro ⟨sender, hsender⟩
    have hle := hcb.mp ⟨sender, hsender⟩
    rw [hsender]
    show Ok (do return Effect.respond responder sender (← subsliceFrom data callback.serial.length))
    rw [ok_bind_pure, ok_subsliceFrom]
    exact hle

/-! ## Rendezvous -/

/-- The bytes a handler reads are there. -/
def MatchHandler.Takes (n : Nat) : MatchHandler → Prop
  | .query _ => callback.serial.length ≤ n
  | .application _ => True

theorem call_iff (handler : MatchHandler) (id : Id) {data : VectorSlice} (hs : data.In) (ha : 2 ∣ data.i) :
    Ok (handler.call id data : Except Exn (Effect R F Node)) ↔ handler.Takes data.n := by
  cases handler with
  | query responder => exact queryHandler_iff responder hs ha
  | application handler => simp [MatchHandler.call, MatchHandler.Takes]

/-- The sizes of every constraint can be computed, and what a query needs is there if it
    matches. -/
def Matched (typ : BubbleType R F) (pos : Int) (n : Nat) : Prop :=
  ∀ m ∈ typ.matchConstraints, ∃ b, intersects N stats m pos = .ok b ∧ (b = true → m.handler.Takes n)

theorem doMatching_iff (typ : BubbleType R F) (pos : Int) (id : Id) {data : VectorSlice} (hs : data.In) (ha : 2 ∣ data.i) :
    Ok (doMatching N stats typ pos id data : Except Exn (List (Effect R F Node))) ↔ Matched N stats typ pos data.n := by
  unfold doMatching Matched
  rw [ok_bind_pure, ok_mapM]
  apply forall₂_congr
  intro m _
  unfold doMatch
  rw [ok_bind]
  apply exists_congr
  intro b
  apply and_congr_right
  intro _
  rw [ok_ite, ok_bind_pure, call_iff m.handler id hs ha]
  simp

/-! ## Types -/

/-- What a type needs to process a message with a payload of `n` bytes. -/
def Processes (typ : BubbleType R F) (pos : Int) (n : Nat) : Prop :=
  match typ.size.cls with
  | .instant => Matched N stats typ pos n
  | .fading => Forms.id.serial.length ≤ n ∧ Matched N stats typ pos (n - Forms.id.serial.length)
  | .managed => True
  | .durable => True
  | .maximum (.findMaintainer counter) => N.lt (raised N stats counter) (N.fromInt 1) = false → findMaintainer.serial.length ≤ n
  | .maximum (.findStorage running) => running = true → findStorage.serial.length ≤ n

theorem parse_full {α : Type} (s : Shape α) (payload : Bytes) :
    Ok (parseVector s.serial (full payload)) ↔ s.serial.length ≤ payload.length :=
  parseSlice_iff s (full_in payload) (Nat.dvd_zero _)

theorem extractID_iff (payload : Bytes) : Ok (extractID payload) ↔ Forms.id.serial.length ≤ payload.length := by
  unfold extractID
  rw [ok_bind]
  constructor
  · rintro ⟨s, hs, -⟩
    unfold slice at hs
    split at hs
    next hle => simpa using hle
    next => cases hs
  · intro hle
    have hs : slice payload 0 Forms.id.serial.length = .ok ⟨payload, 0, Forms.id.serial.length⟩ := if_pos (by omega)
    obtain ⟨x, hx⟩ := (parseSlice_iff Forms.id (slice_in hs).2 (Nat.dvd_zero _)).mpr (Nat.le_refl _)
    refine ⟨_, hs, ?_⟩
    rw [ok_bind]
    refine ⟨x, hx, ?_⟩
    rw [ok_bind_pure]
    exact ⟨_, if_pos hle⟩

/-- The data is what follows the ID. -/
theorem extractID_data {payload : Bytes} {x : Id × VectorSlice} (h : extractID payload = .ok x) :
    x.2 = ⟨payload, Forms.id.serial.length, payload.length - Forms.id.serial.length⟩ ∧ x.2.In := by
  unfold extractID at h
  obtain ⟨s, -, h⟩ := bind_eq_ok.mp h
  obtain ⟨i, -, h⟩ := bind_eq_ok.mp h
  obtain ⟨d, hd, h⟩ := bind_eq_ok.mp h
  cases h
  exact sliceFrom_in hd

/-- The data behind an ID is aligned as the ID is. -/
theorem data_aligned {payload : Bytes} {x : Id × VectorSlice} (h : extractID payload = .ok x) : 2 ∣ x.2.i := by
  rw [(extractID_data h).1]
  show 2 ∣ Forms.id.serial.length
  rw [Forms.id_length]
  decide

theorem receive_iff (counter : R) (pos : Int) (payload : Bytes) :
    Ok (receive N stats counter pos (full payload) : Except Exn (List (Effect R F Node))) ↔
      (N.lt (raised N stats counter) (N.fromInt 1) = false → findMaintainer.serial.length ≤ payload.length) := by
  unfold receive
  rw [ok_ite, ok_bind_pure, parse_full]
  simp

theorem respondWithOffer_iff (running : Bool) (pos : Int) (payload : Bytes) :
    Ok (respondWithOffer running pos (full payload) : Except Exn (List (Effect R F Node))) ↔
      (running = true → findStorage.serial.length ≤ payload.length) := by
  unfold respondWithOffer
  rw [ok_ite, ok_bind_pure, parse_full]
  simp

theorem process_iff (typ : BubbleType R F) (pos : Int) (payload : Bytes) :
    Ok (process N stats typ pos payload : Except Exn (List (Effect R F Node))) ↔ Processes N stats typ pos payload.length := by
  unfold process Processes
  cases typ.size.cls with
  | instant => exact doMatching_iff N stats typ pos fakeID (full_in payload) (Nat.dvd_zero _)
  | fading =>
    dsimp only
    rw [ok_bind]
    constructor
    · rintro ⟨x, hx, h⟩
      obtain ⟨hdata, hin⟩ := extractID_data hx
      rw [ok_bind_pure, doMatching_iff N stats typ pos x.1 hin (data_aligned hx), hdata] at h
      exact ⟨(extractID_iff payload).mp ⟨x, hx⟩, h⟩
    · rintro ⟨hle, h⟩
      obtain ⟨x, hx⟩ := (extractID_iff payload).mpr hle
      obtain ⟨hdata, hin⟩ := extractID_data hx
      refine ⟨x, hx, ?_⟩
      rw [ok_bind_pure, doMatching_iff N stats typ pos x.1 hin (data_aligned hx), hdata]
      exact h
  | managed => simp
  | durable => simp
  | maximum handler =>
    cases handler with
    | findMaintainer counter => exact receive_iff N stats counter pos payload
    | findStorage running => exact respondWithOffer_iff running pos payload

/-! ## The topology's handler -/

/-- The sizes of the two halves of what is left of the slice, if it is cut to `m`. -/
def halves (c : Call Node Bytes) (m : Int) : List Int :=
  let stop := max c.bubbleStart c.bubbleStop
  let midpoint := (c.bubbleStart + 1 + stop) / 2
  let sliceStop := min (max c.sliceStart c.sliceStop) (c.sliceStart + m)
  [min sliceStop midpoint - max c.sliceStart (c.bubbleStart + 1), min sliceStop stop - max c.sliceStart midpoint]

/-- The node has a neighbour a call may go to. -/
def Passes (state : State R F Node) (c : Call Node Bytes) (permutation : List Nat) : Prop :=
  permutation.filterMap (toTotalNeighbour state.locations c.source) ≠ []

/-- The call does not meet any of the handler's exceptions. -/
structure Survives (state : State R F Node) (c : Call Node Bytes) (permutation : List Nat) : Prop where
  process : ∀ typ, state.bubbletypes c.typ = some typ → c.sliceStart ≤ c.bubbleStart →
    Processes N state.stats typ c.bubbleStart c.payload.length
  start : minInt ≤ c.bubbleStart + 1 ∧ c.bubbleStart + 1 ≤ maxInt
  sum : minInt ≤ c.bubbleStart + 1 + max c.bubbleStart c.bubbleStop ∧ c.bubbleStart + 1 + max c.bubbleStart c.bubbleStop ≤ maxInt
  limit : ∃ m, (bubblecaster N state c.typ).maxSize = .ok m ∧ minInt ≤ c.sliceStart + m.val ∧ c.sliceStart + m.val ≤ maxInt ∧
    (Passes state c permutation → ∀ size ∈ halves c m.val, 0 < size →
      N.isFinite ((bubblecaster N state c.typ).priority size) = true ∧
        N.isFinite ((bubblecaster N state c.typ).reliability size) = true)

section

variable {state : State R F Node} {c : Call Node Bytes} {permutation : List Nat}

/-- `cast` keeps the size of its slice. -/
theorem cast_all {P : Int → Prop} {seed : BitVec 64} {n : Neighbour Node} {a b x y : Int} :
    (∀ d ∈ Bubblecast.cast c seed n a b x y, P (d.sliceStop - d.sliceStart)) ↔ (0 < y - x → P (y - x)) := by
  unfold Bubblecast.cast
  split
  next h =>
    constructor
    · intro _ hpos
      omega
    · intro _ d hd
      cases hd
  next h =>
    constructor
    · intro hall _
      exact hall _ (.head _)
    · intro hp d hd
      cases List.mem_singleton.mp hd
      exact hp (by omega)

/-- What is passed on are the two halves, if there is a neighbour: the first and the last
    of the permutation are the same if there is only one. -/
theorem forward_all {P : Int → Prop} {m : Int} :
    (∀ d ∈ forward c ⟨state.locations, permutation, m⟩ (c.bubbleStart + 1) (max c.bubbleStart c.bubbleStop)
        ((c.bubbleStart + 1 + max c.bubbleStart c.bubbleStop) / 2) (min (max c.sliceStart c.sliceStop) (c.sliceStart + m)),
      P (d.sliceStop - d.sliceStart)) ↔ (Passes state c permutation → ∀ size ∈ halves c m, 0 < size → P size) := by
  unfold forward Passes randomSplitTotalNeighbours halves
  dsimp only
  rw [List.filterMap_reverse]
  cases hl : permutation.filterMap (toTotalNeighbour state.locations c.source) with
  | nil => simp
  | cons left rest =>
    have hne : (left :: rest).reverse.head? = some ((left :: rest).getLast (by simp)) := by
      rw [List.head?_reverse, List.getLast?_eq_some_getLast]
    rw [hne]
    simp only [List.head?_cons, List.forall_mem_append, cast_all, ne_eq, reduceCtorEq, not_false_eq_true, forall_const,
      List.forall_mem_cons, List.not_mem_nil, false_implies, and_true]

theorem ok_bind_toInt32 {β : Type} {x : Int} {f : Int32 → Except Exn β} :
    Ok (toInt32 x >>= f) ↔ ∃ h : minInt ≤ x ∧ x ≤ maxInt, Ok (f ⟨x, h⟩) := by
  rw [ok_bind]
  constructor
  · rintro ⟨r, hr, h⟩
    obtain rfl := toInt32_ok.mp hr
    exact ⟨r.property, h⟩
  · rintro ⟨hx, h⟩
    exact ⟨⟨x, hx⟩, toInt32_ok.mpr rfl, h⟩

theorem send_iff (methods : Methods R F Node) {call : Call Node Bytes}
    (h : minInt ≤ call.sliceStop - call.sliceStart ∧ call.sliceStop - call.sliceStart ≤ maxInt) :
    Ok (send N methods call) ↔ N.isFinite (methods.priority (call.sliceStop - call.sliceStart)) = true ∧
      N.isFinite (methods.reliability (call.sliceStop - call.sliceStart)) = true := by
  unfold send
  rw [ok_bind_toInt32]
  constructor
  · rintro ⟨_, hp⟩
    obtain ⟨p, hp, hr⟩ := ok_bind.mp hp
    rw [ok_bind_pure, ok_fromReal] at hr
    exact ⟨(ok_fromReal N).mp ⟨p, hp⟩, hr⟩
  · rintro ⟨hp, hr⟩
    refine ⟨h, ?_⟩
    obtain ⟨p, hp⟩ := (ok_fromReal N).mpr hp
    rw [ok_bind]
    refine ⟨p, hp, ?_⟩
    rw [ok_bind_pure, ok_fromReal]
    exact hr

theorem processLocally_iff : Ok (processLocally (bubblecaster N state c.typ) c) ↔
    ∀ typ, state.bubbletypes c.typ = some typ → c.sliceStart ≤ c.bubbleStart →
      Processes N state.stats typ c.bubbleStart c.payload.length := by
  unfold processLocally bubblecaster
  rw [ok_ite]
  cases ht : state.bubbletypes c.typ with
  | none => simp
  | some typ => simp only [process_iff, ok_ok, implies_true, and_true, Option.some.injEq, forall_eq']

/-- No half is larger than the size the slice is cut to. -/
theorem halves_le {m : Int} (hm : m ≤ maxInt) : ∀ size ∈ halves c m, size ≤ maxInt := by
  intro size hsize
  simp only [halves, List.mem_cons, List.not_mem_nil, or_false] at hsize
  rcases hsize with rfl | rfl <;> omega

theorem sent_iff {m : Int32} : Ok ((forward c ⟨state.locations, permutation, m.val⟩ (c.bubbleStart + 1)
        (max c.bubbleStart c.bubbleStop) ((c.bubbleStart + 1 + max c.bubbleStart c.bubbleStop) / 2)
        (min (max c.sliceStart c.sliceStop) (c.sliceStart + m.val))).mapM (send N (bubblecaster N state c.typ))) ↔
    (Passes state c permutation → ∀ size ∈ halves c m.val, 0 < size →
      N.isFinite ((bubblecaster N state c.typ).priority size) = true ∧
        N.isFinite ((bubblecaster N state c.typ).reliability size) = true) := by
  rw [ok_mapM, ← forward_all (P := fun size => N.isFinite ((bubblecaster N state c.typ).priority size) = true ∧
    N.isFinite ((bubblecaster N state c.typ).reliability size) = true)]
  apply forall₂_congr
  intro d hd
  have hsize : minInt ≤ d.sliceStop - d.sliceStart ∧ d.sliceStop - d.sliceStart ≤ maxInt := by
    apply (forward_all (P := fun size => minInt ≤ size ∧ size ≤ maxInt)).mpr _ d hd
    intro _ size hs hpos
    exact ⟨Int.le_trans (by decide) (Int.le_of_lt hpos), halves_le m.property.2 size hs⟩
  exact send_iff N _ hsize

/-- Nothing is left of an empty slice. -/
theorem halves_nil {m : Int} (h : min (max c.sliceStart c.sliceStop) (c.sliceStart + m) ≤ c.sliceStart) :
    ∀ size ∈ halves c m, ¬ 0 < size := by
  intro size hsize
  simp only [halves, List.mem_cons, List.not_mem_nil, or_false] at hsize
  rcases hsize with rfl | rfl <;> omega

theorem survives_iff : Ok (handleBubblecast N state c permutation) ↔ Survives N state c permutation := by
  unfold handleBubblecast
  dsimp only
  rw [ok_bind]
  simp only [ok_bind_toInt32, ok_bind (x := (bubblecaster N state c.typ).maxSize)]
  simp only [ok_ite, ok_pure, implies_true, true_and, ok_bind_pure, sent_iff]
  constructor
  · rintro ⟨processed, hprocess, hstart, hsum, m, hm, hlimit, hsent⟩
    refine ⟨(processLocally_iff N).mp ⟨processed, hprocess⟩, hstart, hsum, m, hm, hlimit.1, hlimit.2, ?_⟩
    by_cases he : min (max c.sliceStart c.sliceStop) (c.sliceStart + m.val) ≤ c.sliceStart
    · intro _ size hs hpos
      exact absurd hpos (halves_nil he size hs)
    · exact hsent he
  · rintro ⟨hprocess, hstart, hsum, m, hm, hl, hu, hrated⟩
    obtain ⟨processed, hprocess⟩ := (processLocally_iff N).mpr hprocess
    exact ⟨processed, hprocess, hstart, hsum, m, hm, ⟨hl, hu⟩, fun _ => hrated⟩

end

/-! ## Messages that break a node -/

/-- Floating point as the machine has it. -/
def float : Reals Float Float32 :=
  { fromInt := Float.ofInt
    fromBits := fun b => Float.ofBits (UInt64.ofBitVec b)
    neg := Float.neg
    exp := Float.exp
    ln := Float.log
    add := Float.add
    sub := Float.sub
    mul := Float.mul
    div := Float.div
    max := fun x y => if x < y then y else if x.isNaN then y else x
    lt := fun x y => x < y
    minPos := Float.ofBits 1
    ceil := fun x => if x.isNaN then .error .domain else if x.isInf then .error .overflow else toInt32 x.ceil.toInt64.toInt
    maxBubbleOvershoot := 1.2
    toReal32 := Float.toFloat32
    toReal64 := Float32.toFloat
    fromInt32 := Float32.ofInt
    add32 := Float32.add
    div32 := Float32.div
    isFinite := Float32.isFinite
    defaultQueryPriority := 5000.0
    defaultBubblecastReliability := 4000.0 }

/-- A node that knows one fading type. -/
def node (priority : Float32) : State Float Float32 Nat :=
  { stats := ⟨16, 16, 512, 512, 16, 16⟩
    bubbletypes := fun typ => if typ = 7 then some ⟨⟨.fading, 10, 10⟩, priority, 4000.0, []⟩ else none
    locations := [] }

/-- A payload that does not hold an ID. -/
def short : Call Nat Bytes := ⟨0, some 1, 7, 0, 0, 4, 0, 4, [1, 2, 3]⟩

/-- The second slice of a bubble of a type that is not known here. -/
def unknown : Call Nat Bytes := ⟨0, some 1, 9, 0, 1, 4, 1, 4, []⟩

theorem not_every_message : handleBubblecast float (node 0) short [] = .error .subscript ∧
    handleBubblecast float (node 0) unknown [] = .error .overflow ∧
    ¬ ∀ (state : State Float Float32 Nat) (c : Call Nat Bytes) (permutation : List Nat),
      Ok (handleBubblecast float state c permutation) := by
  refine ⟨rfl, rfl, ?_⟩
  intro h
  exact (h (node 0) unknown []).not_error .overflow rfl

end BubbleStorm.Topology.BubblecastHandler
