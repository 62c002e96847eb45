/-
  BubbleStorm.Topology.GossipHandler — a gossip message as it comes from the wire
  (`src/bubblestorm/topology/handlers/gossip.sml`, and `recv` of
  `src/bubblestorm/topology/state/gossip.fun` with the bytes of its values).

  The numbers, which are floating point, are a parameter with the operations the source
  uses (`Num`). Each value takes `size` bytes; what is behind the last one is ignored.
  The functions give the state they leave behind also when they raise. `Gossip` has the
  same state machine over rationals, without the bytes and the reports.
-/

import BubbleStorm.Cusp.Stream.PacketFormat
import BubbleStorm.Topology.Gossip

namespace BubbleStorm.Topology.GossipHandler

open BubbleStorm.Cusp (Exn Bytes)
open BubbleStorm.Topology.Gossip

/-- The numbers, and their serial form. -/
structure Num (R : Type) where
  size : Nat
  decode : Bytes → R
  zero : R
  one : R
  posInf : R
  negInf : R
  minPos : R
  /-- `fromInt Config.measurementAccuracySlack * epsilon`. -/
  tolerance : R
  min : R → R → R
  max : R → R → R
  add : R → R → R
  sub : R → R → R
  div : R → R → R
  abs : R → R
  lt : R → R → Bool

/-- How many minimums, maximums and sums there are, in this order. -/
structure Shape where
  min : Nat
  max : Nat
  sum : Nat
  deriving DecidableEq

def Shape.count (S : Shape) : Nat := S.min + S.max + S.sum

structure Packet (R : Type) where
  round : BitVec 32
  fishSize : Nat
  fish : R
  values : Bytes

structure Data (R : Type) (S : Shape) where
  round : BitVec 32
  fishSize : Nat
  fish : R
  values : Fin S.count → R

structure Gossip (R : Type) (S : Shape) where
  last : Data R S
  state : Data R S
  steady : Nat
  initd : Bool

/-- What the application is told: by `init` or by `push`. -/
structure Report (R : Type) where
  isInit : Bool
  round : BitVec 32
  values : List R

/-- What a node brings into a round: the hash of its address and the round, if it has an
    address, and what it measures. -/
structure Own (R : Type) (S : Shape) where
  hash : Option (BitVec 32 → Nat)
  pull : Fin S.count → R

variable {R : Type} (N : Num R) {S : Shape}

/-! ## The state of a measurement -/

/-- The bytes are not enough for the values. -/
def Short (S : Shape) (p : Packet R) : Prop := p.values.length < S.count * N.size

instance (S : Shape) (p : Packet R) : Decidable (Short N S p) := inferInstanceAs (Decidable (_ < _))

def fromPacket (S : Shape) (p : Packet R) : Except Exn (Data R S) :=
  if Short N S p then .error .subscript
  else .ok ⟨p.round, p.fishSize, p.fish, fun i => N.decode ((p.values.drop (i * N.size)).take N.size)⟩

def fixup (d : Data R S) (i : Fin S.count) : R := if i < S.min + S.max then d.values i else N.div (d.values i) d.fish

/-- The last round is reported, if the node took part in it. -/
def push (g : Gossip R S) (isInit : Bool) : Gossip R S × List (Report R) :=
  if g.state.fishSize = 0 then (g, [])
  else ({ g with last := g.state }, [⟨isInit, g.state.round, List.ofFn (fixup N g.state)⟩])

def nothing (i : Fin S.count) : R := if i < S.min then N.posInf else if i < S.min + S.max then N.negInf else N.zero

def skipRound (g : Gossip R S) (init : Bool) (newRound : BitVec 32) : Gossip R S × List (Report R) :=
  let (g, reports) := push N g init
  ({ g with steady := 0, state := ⟨newRound, 0, N.one, nothing N⟩ }, reports)

def newRound (g : Gossip R S) (own : Own R S) (newRound : BitVec 32) : Gossip R S × List (Report R) :=
  match own.hash with
  | none => skipRound N g false newRound
  | some hash =>
    let (g, reports) := push N g false
    let fishSize := hash newRound
    ({ g with steady := 0, state := ⟨newRound, if fishSize = 0 then 1 else fishSize, N.one, own.pull⟩ }, reports)

def differ (x y : R) : Bool :=
  N.lt N.tolerance (N.div (N.abs (N.sub x y)) (N.max (N.max (N.abs x) (N.abs y)) N.minPos))

def isChanged (a b : Data R S) (sizeB : Nat) : Bool :=
  if a.fishSize ≠ sizeB then false
  else
    (List.finRange S.count).any fun i =>
      if i < S.min + S.max then differ N (a.values i) (b.values i)
      else differ N (N.div (a.values i) a.fish) (N.div (b.values i) b.fish)

def combine (my : Fin S.count → R) (i : Fin S.count) (v : R) : R :=
  if i < S.min then N.min v (my i) else if i < S.min + S.max then N.max v (my i) else N.add v (my i)

/-- The packet is decoded before it is merged. -/
def process (g : Gossip R S) (p : Packet R) : Except Exn (Gossip R S) := do
  let data ← fromPacket N S p
  let my := g.state
  let (fish, fishSize) :=
    if data.fishSize < my.fishSize then (my.fish, my.fishSize)
    else if data.fishSize = my.fishSize then (N.add my.fish data.fish, my.fishSize)
    else (data.fish, data.fishSize)
  return { g with state := ⟨data.round, fishSize, fish, fun i => combine N my.values i (data.values i)⟩ }

/-- What is left behind, what was reported, and what was raised. -/
structure Result (R : Type) (σ : Type) where
  state : σ
  reports : List (Report R)
  exn : Option Exn

/-- `enough` is `degree + Config.gossipExtraAgreement`. -/
def recv (g : Gossip R S) (own : Own R S) (enough : Nat) (p : Packet R) : Result R (Gossip R S) :=
  if !g.initd then ⟨g, [], some (.fail "recv not initd")⟩
  else
    match Round.compare p.round g.state.round with
    | .lt => ⟨g, [], none⟩
    | .gt =>
      -- our round is moved up before the values are decoded
      let (g, reports) :=
        if g.state.fishSize = 0 ∨ p.round ≠ g.state.round + 1 then skipRound N g false p.round
        else newRound N g own p.round
      match process N g p with
      | .ok g => ⟨g, reports, none⟩
      | .error e => ⟨g, reports, some e⟩
    | .eq =>
      match process N g p with
      | .error e => ⟨g, [], some e⟩
      | .ok merged =>
        let steady := if isChanged N g.state merged.state p.fishSize then 0 else g.steady + 1
        if steady < enough then ⟨{ merged with steady := steady }, [], none⟩
        else
          let (g, reports) := newRound N { merged with steady := steady } own (g.state.round + 1)
          ⟨g, reports, none⟩

/-- The measurements of a topology. -/
abbrev Gossips (R : Type) := List (Σ S, Gossip R S)

/-- The state of a measurement when the topology is created. -/
def initCreate (g : Gossip R S) (own : Own R S) : Gossip R S × List (Report R) :=
  if g.initd then (g, []) else newRound N { g with initd := true, state := ⟨41, 1, N.one, own.pull⟩ } own 42

def new (S : Shape) : Gossip R S :=
  { last := ⟨0, 0, N.one, fun _ => N.zero⟩, state := ⟨0, 0, N.one, fun _ => N.zero⟩, steady := 0, initd := false }

/-! ## The handler -/

/-- `Vector.sub`, with an index that may be negative. -/
def sub (gossips : Gossips R) (id : Int) : Option (Σ S, Gossip R S) := if id < 0 then none else gossips[id.toNat]?

/-- `handleGossip`; `none` are the measurements of a topology that is not initialised. Only
    what `recv` raises is handled. -/
def handleGossip (gossip : Option (Gossips R)) (own : (S : Shape) → Own R S) (enough : Nat) (id : Int) (p : Packet R) :
    Result R (Option (Gossips R)) :=
  match gossip with
  | none => ⟨none, [], some (.fail "topology not initialized")⟩
  | some gossips =>
    match sub gossips id with
    | none => ⟨gossip, [], some .subscript⟩
    | some ⟨S, g⟩ =>
      let result := recv N g (own S) enough p
      ⟨some (gossips.set id.toNat ⟨S, result.state⟩), result.reports,
        if result.exn = some .subscript then none else result.exn⟩

/-- The message is malformed: its id is that of no measurement, or its values are not
    enough for it. -/
def Malformed (gossip : Option (Gossips R)) (id : Int) (p : Packet R) : Prop :=
  ∀ gossips, gossip = some gossips → ∀ m, sub gossips id = some m → Short N m.1 p

/-- The handler raises nothing, and ignores a message that is malformed. -/
def Ignores (gossip : Option (Gossips R)) (own : (S : Shape) → Own R S) (enough : Nat) (id : Int) (p : Packet R) : Prop :=
  let result := handleGossip N gossip own enough id p
  result.exn = none ∧ (Malformed N gossip id p → result.state = gossip ∧ result.reports = [])

theorem process_short {g : Gossip R S} {p : Packet R} (h : Short N S p) : process N g p = .error .subscript := by
  unfold process fromPacket
  rw [if_pos h]
  rfl

theorem process_whole {g : Gossip R S} {p : Packet R} (h : ¬ Short N S p) : ∃ g', process N g p = .ok g' := by
  unfold process fromPacket
  rw [if_neg h]
  exact ⟨_, rfl⟩

theorem skipRound_round (g : Gossip R S) (init : Bool) (round : BitVec 32) : (skipRound N g init round).1.state.round = round := rfl

theorem newRound_round (g : Gossip R S) (own : Own R S) (round : BitVec 32) : (newRound N g own round).1.state.round = round := by
  unfold newRound
  split
  · rfl
  · rfl

theorem recv_deinit {g : Gossip R S} (hg : g.initd = false) (own : Own R S) (enough : Nat) (p : Packet R) :
    recv N g own enough p = ⟨g, [], some (.fail "recv not initd")⟩ := by
  simp [recv, hg]

/-- A measurement that takes part raises at most a Subscript, and that at a vector that is
    too short; a newer round is begun first. -/
theorem recv_spec {g : Gossip R S} (hg : g.initd = true) (own : Own R S) (enough : Nat) (p : Packet R) :
    ((recv N g own enough p).exn = none ∨ (recv N g own enough p).exn = some .subscript) ∧
      (Short N S p → Round.compare p.round g.state.round ≠ .gt →
        (recv N g own enough p).state = g ∧ (recv N g own enough p).reports = []) ∧
      (Round.compare p.round g.state.round = .gt → (recv N g own enough p).state.state.round = p.round) := by
  have hinit : ¬ (!g.initd) = true := by simp [hg]
  unfold recv
  rw [if_neg hinit]
  cases hround : Round.compare p.round g.state.round with
  | lt => exact ⟨.inl rfl, fun _ _ => ⟨rfl, rfl⟩, fun h => by cases h⟩
  | eq =>
    refine ⟨?_, fun hshort _ => ?_, fun h => by cases h⟩
    · by_cases hshort : Short N S p
      · rw [process_short N hshort]
        exact .inr rfl
      · obtain ⟨g', hg'⟩ := process_whole (g := g) N hshort
        rw [hg']
        dsimp only
        generalize (if isChanged N g.state g'.state p.fishSize = true then 0 else g.steady + 1) = steady
        split
        · exact .inl rfl
        · exact .inl rfl
    · rw [process_short N hshort]
      exact ⟨rfl, rfl⟩
  | gt =>
    dsimp only
    generalize hmoved : (if g.state.fishSize = 0 ∨ p.round ≠ g.state.round + 1 then skipRound N g false p.round
      else newRound N g own p.round) = moved
    have hr : moved.1.state.round = p.round := by
      rw [← hmoved]
      split
      · exact skipRound_round ..
      · exact newRound_round ..
    refine ⟨?_, fun _ hne => absurd rfl hne, fun _ => ?_⟩
    · by_cases hshort : Short N S p
      · rw [process_short N hshort]
        exact .inr rfl
      · obtain ⟨g', hg'⟩ := process_whole (g := moved.1) N hshort
        rw [hg']
        exact .inl rfl
    · by_cases hshort : Short N S p
      · rw [process_short N hshort]
        exact hr
      · unfold process fromPacket
        rw [if_neg hshort]
        rfl

theorem round_gt_ne {a b : BitVec 32} (h : Round.compare a b = .gt) : a ≠ b := by
  intro same
  subst same
  unfold Round.compare Round.lt at h
  simp at h

/-- The handler raises nothing and ignores a malformed message iff the id is that of a
    measurement that takes part, and a message of a newer round has all its values. -/
theorem ignores_iff (gossip : Option (Gossips R)) (own : (S : Shape) → Own R S) (enough : Nat) (id : Int) (p : Packet R) :
    Ignores N gossip own enough id p ↔ ∃ gossips m, gossip = some gossips ∧ sub gossips id = some m ∧ m.2.initd = true ∧
      (Round.compare p.round m.2.state.round = .gt → ¬ Short N m.1 p) := by
  unfold Ignores
  cases gossip with
  | none =>
    refine iff_of_false (fun h => ?_) fun ⟨_, _, h, _⟩ => by cases h
    cases h.1
  | some gossips =>
    cases hsub : sub gossips id with
    | none =>
      refine iff_of_false (fun h => ?_) fun ⟨_, _, h, hm, _⟩ => ?_
      · have hexn := h.1
        unfold handleGossip at hexn
        dsimp only at hexn
        rw [hsub] at hexn
        cases hexn
      · cases h
        rw [hsub] at hm
        cases hm
    | some m =>
      obtain ⟨S, g⟩ := m
      have hget : 0 ≤ id ∧ gossips[id.toNat]? = some ⟨S, g⟩ := by
        unfold sub at hsub
        split at hsub
        · cases hsub
        · rename_i hid
          exact ⟨Int.not_lt.mp hid, hsub⟩
      have hmal : Malformed N (some gossips) id p ↔ Short N S p := by
        refine ⟨fun h => h gossips rfl _ hsub, fun h gossips' heq m hm => ?_⟩
        cases heq
        cases hsub.symm.trans hm
        exact h
      rw [hmal]
      unfold handleGossip
      dsimp only
      rw [hsub]
      dsimp only
      obtain ⟨hlt, hg⟩ := List.getElem?_eq_some_iff.mp hget.2
      constructor
      · intro ⟨hexn, hstate⟩
        have hinit : g.initd = true := by
          by_contra hne
          rw [recv_deinit N (Bool.eq_false_iff.mpr hne)] at hexn
          simp at hexn
        refine ⟨gossips, ⟨S, g⟩, rfl, hsub, hinit, ?_⟩
        intro hgt hshort
        -- the round that was begun is not the one that was there
        have hround := (recv_spec N hinit (own S) enough p).2.2 hgt
        have hset := Option.some.inj (hstate hshort).1
        have hself : (gossips.set id.toNat ⟨S, (recv N g (own S) enough p).state⟩)[id.toNat]? = some ⟨S, (recv N g (own S) enough p).state⟩ := by
          simp [hlt]
        rw [hset, hget.2] at hself
        have heq : g = (recv N g (own S) enough p).state := by
          simpa using hself
        rw [← heq] at hround
        exact round_gt_ne hgt hround.symm
      · intro ⟨gossips', m, heq, hm, hinit, hlate⟩
        cases heq
        cases hsub.symm.trans hm
        obtain ⟨hexn, hsame, -⟩ := recv_spec N hinit (own S) enough p
        refine ⟨?_, ?_⟩
        · rcases hexn with hnone | hsubscript
          · rw [hnone]
            rfl
          · rw [if_pos hsubscript]
        · intro hshort
          obtain ⟨hstate, hreports⟩ := hsame hshort fun hgt => hlate hgt hshort
          rw [hstate, hreports, ← hg, List.set_getElem_self]
          exact ⟨rfl, rfl⟩

/-- What four bytes say as a Real32, the lowest first. -/
def real32Of (b : Bytes) : ℚ :=
  let w : Nat := (b.zipIdx.map fun x => x.1.toNat * 256 ^ x.2).sum
  let mantissa : Nat := w % 2 ^ 23
  let exponent : Nat := w / 2 ^ 23 % 256
  let x : ℚ := if exponent = 0 then 2 * (mantissa : ℚ) else if exponent = 255 then 2 ^ 278 else (2 ^ 23 + (mantissa : ℚ)) * 2 ^ exponent
  (if w / 2 ^ 31 = 0 then x else -x) / 2 ^ 150

/-- Real32 without rounding and NaN; the infinities are the first numbers out of range. -/
def real32 : Num ℚ :=
  { size := 4, decode := real32Of, zero := 0, one := 1, posInf := 2 ^ 128, negInf := -2 ^ 128, minPos := 1 / 2 ^ 149,
    tolerance := 64 / 2 ^ 24, min := min, max := max, add := (· + ·), sub := (· - ·), div := (· / ·), abs := abs,
    lt := fun x y => decide (x < y) }

/-- The only measurement is a minimum, and it measures 5. -/
def measures (S : Shape) : Own ℚ S := ⟨some fun _ => 7, fun _ => 5⟩

def created : Gossips ℚ := [⟨⟨1, 0, 0⟩, (initCreate real32 (new real32 ⟨1, 0, 0⟩) (measures _)).1⟩]

/-- No values, but a newer round: the round 42 is reported and left. -/
theorem short_reported :
    Malformed real32 (some created) 0 ⟨43, 7, 1, []⟩ ∧
      (handleGossip real32 (some created) measures 10 0 ⟨43, 7, 1, []⟩).reports.map Report.round = [42] ∧
      (handleGossip real32 (some created) measures 10 0 ⟨43, 7, 1, []⟩).state.map (·.map fun m => m.2.state.round) = some [43] ∧
      created.map (fun m => m.2.state.round) = [42] ∧
      (handleGossip real32 (some created) measures 10 1 ⟨43, 7, 1, []⟩).exn = some .subscript ∧
      ¬ Ignores real32 (some created) measures 10 0 ⟨43, 7, 1, []⟩ := by
  have hmal : Malformed real32 (some created) 0 ⟨43, 7, 1, []⟩ := by
    intro gossips heq m hm
    cases heq
    cases hm
    decide
  refine ⟨hmal, rfl, rfl, rfl, rfl, ?_⟩
  intro h
  exact absurd (h.2 hmal).2 (by decide)

end BubbleStorm.Topology.GossipHandler
