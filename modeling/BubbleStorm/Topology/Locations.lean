/-
  BubbleStorm.Topology.Locations — the locations of a peer and their goals
  (`src/bubblestorm/topology/state/locations.sml`, the goals and degrees of
  `src/bubblestorm/topology/state/location.sml`, and what
  `src/bubblestorm/topology/actions/evaluateN.sml` decides).

  Of a slot only its phase is kept, which is what the degrees are counted from. The sums
  that the source keeps up to date with each change are taken of the table. The timers,
  gossip and the advertised services are left out. What depends on `Config.minDegree` alone
  takes it as a parameter `m`.
-/

import BubbleStorm.Cusp.Stream.PacketFormat
import Mathlib.Data.Nat.Sqrt
import Mathlib.Algebra.Order.BigOperators.Group.List

namespace BubbleStorm.Topology.Locations

open BubbleStorm.Cusp (Exn)

/-- `Config.minDegree`. -/
def Config.minDegree : Nat := 16

/-! ## A location -/

inductive Subjoin where
  | client
  | peer
  deriving DecidableEq, Repr

inductive Subleave where
  | linger
  | quit
  deriving DecidableEq, Repr

/-- What a slot holds of a neighbour. -/
inductive Peer (α : Type) where
  | nothing
  | connecting
  | connected (x : α)
  | zombie (x : α)
  deriving DecidableEq, Repr

namespace Location

inductive Goal where
  | join (sub : Subjoin)
  | leave (sub : Subleave)
  deriving DecidableEq, Repr

end Location

/-- Of the master it is kept whether it has an `upgrade`. -/
structure Location where
  goal : Location.Goal
  master : Peer Bool
  slave : Peer Unit
  deriving DecidableEq, Repr

namespace Location

def leaving (l : Location) : Bool :=
  match l.goal with
  | .leave _ => true
  | .join _ => false

def actualDegree {α : Type} : Peer α → Nat
  | .connected _ => 1
  | _ => 0

/-- Fully connected neighbours, unless the location is leaving. -/
def minDegree (l : Location) : Nat := if l.leaving then 0 else actualDegree l.master + actualDegree l.slave

def zombieToNothing {α : Type} : Peer α → Peer α
  | .zombie _ => .nothing
  | x => x

def maxDegree (l : Location) : Nat :=
  match zombieToNothing l.master, zombieToNothing l.slave with
  | .nothing, .nothing => if l.leaving then 0 else 2
  | .nothing, _ => 1
  | .connected false, .nothing => 1
  | _, _ => 2

def setGoal (l : Location) (goal : Goal) : Location := { l with goal := goal }

def new : Location := ⟨.leave .quit, .nothing, .nothing⟩

end Location

/-! ## Goals -/

/-- What `setGoal` may run: nothing, the end of the bootstrap service, or what the
    application gave with a call. -/
inductive Callback where
  | noop
  | unadvertise
  | user (call : Nat)
  deriving DecidableEq, Repr

inductive Progress where
  | inProgress (cb : Callback)
  | complete (cb : Callback)
  deriving DecidableEq, Repr

inductive Goal where
  | join (p : Progress)
  | leave (p : Progress)
  deriving DecidableEq, Repr

structure T where
  goal : Goal
  desiredDegree : Nat
  table : List Location
  activeLocations : Nat
  deriving DecidableEq, Repr

def new (desiredDegree : Nat) : T :=
  let desiredDegree := max desiredDegree Config.minDegree
  { goal := .leave (.complete .noop), desiredDegree := desiredDegree, table := List.replicate desiredDegree .new,
    activeLocations := 0 }

/-! ## Degrees -/

inductive MinDegree where
  | low
  | enough
  | tooMuch
  deriving DecidableEq, Repr

inductive MaxDegree where
  | zero
  | needMore
  | satisfied
  deriving DecidableEq, Repr

/-- `Real.round` of the root of `desired / minDegree`: a half is rounded to the even
    number. -/
def degreeTolerance (m desired : Nat) : Nat :=
  let q := Nat.sqrt (desired / m)
  let half := m * (2 * q + 1) ^ 2
  if 4 * desired < half ∨ (4 * desired = half ∧ q % 2 = 0) then q else q + 1

def minIdeal (m desired : Nat) : Int := desired - degreeTolerance m desired
def maxIdeal (m desired : Nat) : Int := desired + degreeTolerance m desired

def degreeState (m : Nat) (min max : Int) (desired : Nat) : MinDegree × MaxDegree :=
  (if min < (m / 4 : Nat) then .low else if min ≤ maxIdeal m desired then .enough else .tooMuch,
    if max = 0 then .zero else if max < minIdeal m desired then .needMore else .satisfied)

namespace T

def minDegree (t : T) : Nat := (t.table.map Location.minDegree).sum
def maxDegree (t : T) : Nat := (t.table.map Location.maxDegree).sum

def state (t : T) : MinDegree × MaxDegree := degreeState Config.minDegree t.minDegree t.maxDegree t.desiredDegree

end T

/-! ## Changing the goal -/

/-- The callback that a transition runs before the new goal is stored. -/
def transition : Goal → Goal → Except Exn Callback
  | .join (.inProgress cb), .join (.complete _) => .ok cb
  | .join (.inProgress _), .leave (.inProgress _) => .ok .noop
  | .join (.complete cb), .leave (.inProgress _) => .ok cb
  | .leave (.inProgress cb), .leave (.complete _) => .ok cb
  | .leave (.inProgress _), .join (.inProgress _) => .ok .noop
  | .leave (.complete cb), .join (.inProgress _) => .ok cb
  | _, _ => .error (.fail "bad goal transition")

namespace T

def setGoals (t : T) (goalFn : Nat → Location → Location.Goal) : T :=
  { t with table := t.table.mapIdx fun i l => l.setGoal (goalFn i l) }

/-- Superfluous connections are flushed; an old location is restored as a peer. -/
def joinDecision (m i : Nat) (l : Location) : Location.Goal :=
  if m / 2 ≤ i then .leave .quit
  else
    match l.master, l.slave with
    | .nothing, .nothing => .join .client
    | _, _ => .join .peer

def upgradeServers (t : T) : T :=
  { t with table := t.table.mapIdx fun i l => if i < Config.minDegree / 2 then l.setGoal (.join .peer) else l }

/-- What `setGoal` does after the callback: the goal is stored, and then the goals of
    the locations. -/
def store (t : T) (goal : Goal) : T :=
  let t := { t with goal := goal }
  match goal with
  | .join (.inProgress _) => { t.setGoals (joinDecision Config.minDegree) with activeLocations := Config.minDegree / 2 }
  | .join (.complete _) => t.upgradeServers
  | .leave (.inProgress _) => { t.setGoals (fun _ _ => .leave .linger) with activeLocations := 0 }
  | .leave (.complete _) => { t.setGoals (fun _ _ => .leave .quit) with activeLocations := 0 }

/-- `sub`, and the location with another goal. -/
def setLocationGoal (t : T) (i : Nat) (goal : Location.Goal) : Except Exn (List Location) :=
  match t.table[i]? with
  | some l => .ok (t.table.set i (l.setGoal goal))
  | none => .error .subscript

def increaseDegree (t : T) : Except Exn T := do
  let table ← t.setLocationGoal t.activeLocations (.join .peer)
  return { t with table := table, activeLocations := t.activeLocations + 1 }

/-- Below zero the source has counted the location off when it raises. -/
def decreaseDegree (t : T) : Except Exn T := do
  if t.activeLocations = 0 then .error .subscript
  else
    let table ← t.setLocationGoal (t.activeLocations - 1) (.leave .quit)
    return { t with table := table, activeLocations := t.activeLocations - 1 }

end T

/-! ## What is evaluated -/

inductive Action where
  | nothing
  | joinComplete
  | leaveComplete
  | increaseDegree
  | decreaseDegree
  deriving DecidableEq, Repr

/-- The cases of `doEvaluateN`. -/
def decision (state : MinDegree × MaxDegree) (goal : Goal) (noClients : Bool) : Except Exn Action :=
  match state.2, state.1, goal, noClients with
  | _, .enough, .leave _, _ => .error (.fail "cannot be ENOUGH if leaving")
  | _, .tooMuch, .leave _, _ => .error (.fail "cannot be TOO_MUCH if leaving")
  | .zero, .low, .leave (.inProgress _), true => .ok .leaveComplete
  | .zero, .low, .leave (.inProgress _), false => .ok .nothing
  | .zero, .low, .leave (.complete _), _ => .ok .nothing
  | .zero, .low, .join _, _ => .error (.fail "no active locations in join state")
  | .zero, _, _, _ => .error (.fail "min degree bigger than max degree (ZERO)")
  | .needMore, .tooMuch, _, _ => .error (.fail "min degree bigger than max degree (NEED_MORE)")
  | .needMore, .low, .join (.inProgress _), _ => .ok .nothing
  | .needMore, .enough, .join (.inProgress _), _ => .ok .joinComplete
  | .needMore, _, .join (.complete _), _ => .ok .increaseDegree
  | .needMore, _, .leave _, _ => .ok .nothing
  | .satisfied, .low, _, _ => .ok .nothing
  | .satisfied, .enough, .join (.inProgress _), _ => .ok .joinComplete
  | .satisfied, .enough, _, _ => .ok .nothing
  | .satisfied, .tooMuch, _, _ => .ok .decreaseDegree

def action (t : T) (noClients : Bool) : Except Exn Action := decision t.state t.goal noClients

/-! ## The goals of the locations -/

/-- The goal of location `i` among `n` active ones. -/
def Goal.Subgoal (g : Goal) (active i : Nat) (sub : Location.Goal) : Prop :=
  match g with
  | .join (.inProgress _) => if i < active then ∃ s, sub = .join s else sub = .leave .quit
  | .join (.complete _) => sub = if i < active then .join .peer else .leave .quit
  | .leave (.inProgress _) => sub = .leave .linger
  | .leave (.complete _) => sub = .leave .quit

/-- How many locations are active. -/
def Goal.Active (g : Goal) (m length active : Nat) : Prop :=
  match g with
  | .join (.inProgress _) => active = m / 2
  | .join (.complete _) => m / 2 ≤ active ∧ active ≤ length
  | .leave _ => active = 0

/-- The goals of the locations and their number are those of the goal. -/
structure Agrees (t : T) : Prop where
  length : t.table.length = t.desiredDegree
  least : Config.minDegree ≤ t.desiredDegree
  active : t.goal.Active Config.minDegree t.table.length t.activeLocations
  goals : ∀ i l, t.table[i]? = some l → t.goal.Subgoal t.activeLocations i l.goal

theorem agrees_new (desiredDegree : Nat) : Agrees (new desiredDegree) where
  length := List.length_replicate
  least := Nat.le_max_right _ _
  active := rfl
  goals i l h := by
    rw [List.getElem?_eq_some_iff] at h
    obtain ⟨hi, rfl⟩ := h
    simp [new, Goal.Subgoal, Location.new]

variable {t t' : T}

theorem joinDecision_subgoal (m : Nat) (cb : Callback) (i : Nat) (l : Location) :
    (Goal.join (.inProgress cb)).Subgoal (m / 2) i (T.joinDecision m i l) := by
  show if i < m / 2 then ∃ s, T.joinDecision m i l = .join s else T.joinDecision m i l = .leave .quit
  unfold T.joinDecision
  split
  · rw [if_neg (by omega)]
    split
    · exact ⟨_, rfl⟩
    · exact ⟨_, rfl⟩
  · rw [if_pos (by omega)]

/-- Each goal but that of a completed join sets all goals anew. -/
theorem store_agrees (hlength : t.table.length = t.desiredDegree) (hleast : Config.minDegree ≤ t.desiredDegree) {g : Goal}
    (hg : ∀ cb, g = .join (.complete cb) → Agrees t ∧ ∃ cb', t.goal = .join (.inProgress cb')) : Agrees (t.store g) := by
  have hmap : ∀ {f : Nat → Location → Location} {i : Nat} {l : Location}, (t.table.mapIdx f)[i]? = some l →
      ∃ l', t.table[i]? = some l' ∧ l = f i l' := by
    intro f i l hl
    rw [List.getElem?_mapIdx, Option.map_eq_some_iff] at hl
    obtain ⟨l', h1, h2⟩ := hl
    exact ⟨l', h1, h2.symm⟩
  have hlen : ∀ f : Nat → Location → Location, (t.table.mapIdx f).length = t.desiredDegree := by
    intro f
    rw [List.length_mapIdx, hlength]
  cases g with
  | join p =>
    cases p with
    | inProgress cb =>
      refine ⟨hlen _, hleast, rfl, fun i l hl => ?_⟩
      obtain ⟨l', -, rfl⟩ := hmap hl
      exact joinDecision_subgoal Config.minDegree cb i l'
    | complete cb =>
      obtain ⟨h, cb', hj⟩ := hg cb rfl
      have hact := h.active
      rw [hj] at hact
      have hact' : t.activeLocations = Config.minDegree / 2 := hact
      refine ⟨hlen _, hleast, ⟨Nat.le_of_eq hact'.symm, ?_⟩, fun i l hl => ?_⟩
      · show t.activeLocations ≤ (t.table.mapIdx _).length
        rw [hlen, hact']
        omega
      · obtain ⟨l', hl', rfl⟩ := hmap hl
        have hsub := h.goals i l' hl'
        rw [hj] at hsub
        change if i < t.activeLocations then ∃ s, l'.goal = .join s else l'.goal = .leave .quit at hsub
        show (if i < Config.minDegree / 2 then l'.setGoal (.join .peer) else l').goal =
          if i < t.activeLocations then .join .peer else .leave .quit
        rw [hact'] at hsub ⊢
        split
        · rfl
        · rename_i hi
          rw [if_neg hi] at hsub
          exact hsub
  | leave p =>
    cases p with
    | inProgress cb =>
      refine ⟨hlen _, hleast, rfl, fun i l hl => ?_⟩
      obtain ⟨l', -, rfl⟩ := hmap hl
      rfl
    | complete cb =>
      refine ⟨hlen _, hleast, rfl, fun i l hl => ?_⟩
      obtain ⟨l', -, rfl⟩ := hmap hl
      rfl

/-! ## What the degrees tell -/

namespace Location

theorem minDegree_le (l : Location) : l.minDegree ≤ l.maxDegree := by
  obtain ⟨g, m, s⟩ := l
  rcases m with _ | _ | x | x <;> rcases s with _ | _ | y | y <;> cases g <;> try cases x
  all_goals simp [minDegree, maxDegree, leaving, actualDegree, zombieToNothing]

theorem minDegree_le_two (l : Location) : l.minDegree ≤ 2 := by
  obtain ⟨g, m, s⟩ := l
  rcases m with _ | _ | x | x <;> rcases s with _ | _ | y | y <;> cases g
  all_goals simp [minDegree, leaving, actualDegree]

theorem minDegree_leave {l : Location} {s : Subleave} (h : l.goal = .leave s) : l.minDegree = 0 := by
  unfold minDegree leaving
  rw [h]
  rfl

theorem maxDegree_join {l : Location} {s : Subjoin} (h : l.goal = .join s) : 1 ≤ l.maxDegree := by
  obtain ⟨g, m, sl⟩ := l
  change g = .join s at h
  subst h
  rcases m with _ | _ | x | x <;> rcases sl with _ | _ | y | y <;> try cases x
  all_goals simp [maxDegree, leaving, zombieToNothing]

end Location

theorem sum_min_le : ∀ (table : List Location) (n : Nat),
    (∀ i l, table[i]? = some l → n ≤ i → l.minDegree = 0) → (table.map Location.minDegree).sum ≤ 2 * n
  | [], n, _ => Nat.zero_le _
  | l :: table, 0, h => by
    have h0 := h 0 l rfl (Nat.le_refl 0)
    have ht := sum_min_le table 0 fun i l' hl _ => h (i + 1) l' hl (Nat.zero_le _)
    rw [List.map_cons, List.sum_cons]
    omega
  | l :: table, n + 1, h => by
    have h0 := l.minDegree_le_two
    have ht := sum_min_le table n fun i l' hl hi => h (i + 1) l' hl (Nat.succ_le_succ hi)
    rw [List.map_cons, List.sum_cons]
    omega

theorem le_sum_max : ∀ (table : List Location) (n : Nat), n ≤ table.length →
    (∀ i l, table[i]? = some l → i < n → 1 ≤ l.maxDegree) → n ≤ (table.map Location.maxDegree).sum
  | _, 0, _, _ => Nat.zero_le _
  | [], n + 1, hn, _ => absurd hn (by simp)
  | l :: table, n + 1, hn, h => by
    have h0 := h 0 l rfl (Nat.succ_pos n)
    have ht := le_sum_max table n (Nat.le_of_succ_le_succ hn) fun i l' hl hi => h (i + 1) l' hl (Nat.succ_lt_succ hi)
    rw [List.map_cons, List.sum_cons]
    omega

theorem sum_min_le_max : ∀ table : List Location,
    (table.map Location.minDegree).sum ≤ (table.map Location.maxDegree).sum
  | [] => Nat.le_refl _
  | l :: table => by
    have h0 := l.minDegree_le
    have ht := sum_min_le_max table
    rw [List.map_cons, List.map_cons, List.sum_cons, List.sum_cons]
    omega

/-- A peer that leaves has no links that count. -/
theorem Agrees.leaving (h : Agrees t) {p : Progress} (hg : t.goal = .leave p) : t.minDegree = 0 := by
  have hz := sum_min_le t.table 0 fun i l hl _ => by
    have hs := h.goals i l hl
    rw [hg] at hs
    cases p with
    | inProgress cb => exact Location.minDegree_leave hs
    | complete cb => exact Location.minDegree_leave hs
  exact Nat.le_zero.mp hz

/-- Of a peer that joins each active location counts. -/
theorem Agrees.joining (h : Agrees t) {p : Progress} (hg : t.goal = .join p) :
    Config.minDegree / 2 ≤ t.activeLocations ∧ t.activeLocations ≤ t.table.length ∧ t.minDegree ≤ 2 * t.activeLocations ∧
      t.activeLocations ≤ t.maxDegree := by
  have hact := h.active
  have hlen := h.length
  have hleast := h.least
  rw [hg] at hact
  have hbounds : Config.minDegree / 2 ≤ t.activeLocations ∧ t.activeLocations ≤ t.table.length := by
    cases p with
    | inProgress cb =>
      have e : t.activeLocations = Config.minDegree / 2 := hact
      omega
    | complete cb => exact hact
  have hgoal : ∀ i l, t.table[i]? = some l →
      (i < t.activeLocations → ∃ s, l.goal = .join s) ∧ (t.activeLocations ≤ i → l.goal = .leave .quit) := by
    intro i l hl
    have hs := h.goals i l hl
    rw [hg] at hs
    cases p with
    | inProgress cb =>
      change if i < t.activeLocations then ∃ s, l.goal = .join s else l.goal = .leave .quit at hs
      split at hs
      · exact ⟨fun _ => hs, fun hi => by omega⟩
      · exact ⟨fun hi => by omega, fun _ => hs⟩
    | complete cb =>
      change l.goal = if i < t.activeLocations then .join .peer else .leave .quit at hs
      split at hs
      · exact ⟨fun _ => ⟨_, hs⟩, fun hi => by omega⟩
      · exact ⟨fun hi => by omega, fun _ => hs⟩
  refine ⟨hbounds.1, hbounds.2, ?_, ?_⟩
  · exact sum_min_le t.table _ fun i l hl hi => Location.minDegree_leave ((hgoal i l hl).2 hi)
  · refine le_sum_max t.table _ hbounds.2 fun i l hl hi => ?_
    obtain ⟨s, hs⟩ := (hgoal i l hl).1 hi
    exact Location.maxDegree_join hs

/-- What an action needs. -/
def Action.Ready (m : Nat) (goal : Goal) (length active : Nat) : Action → Prop
  | .nothing => True
  | .joinComplete => ∃ cb, goal = .join (.inProgress cb)
  | .leaveComplete => ∃ cb, goal = .leave (.inProgress cb)
  | .increaseDegree => (∃ cb, goal = .join (.complete cb)) ∧ active < length
  | .decreaseDegree => (∃ cb, goal = .join (.complete cb)) ∧ m / 2 < active

section Decision

variable {m desired active : Nat} {low high : Int} {goal : Goal}

/-- What the two states of the totals stand for. -/
theorem degreeState_fst (m desired : Nat) (low high : Int) : ((degreeState m low high desired).1 = .low → low < (m / 4 : Nat)) ∧
    ((degreeState m low high desired).1 = .enough → (m / 4 : Nat) ≤ low) ∧
    ((degreeState m low high desired).1 = .tooMuch → (m / 4 : Nat) ≤ low ∧ maxIdeal m desired < low) := by
  unfold degreeState
  dsimp only
  split
  · exact ⟨fun _ => ‹_›, MinDegree.noConfusion, MinDegree.noConfusion⟩
  · split
    · exact ⟨MinDegree.noConfusion, fun _ => by omega, MinDegree.noConfusion⟩
    · exact ⟨MinDegree.noConfusion, MinDegree.noConfusion, fun _ => by omega⟩

theorem degreeState_snd (m desired : Nat) (low high : Int) : ((degreeState m low high desired).2 = .zero → high = 0) ∧
    ((degreeState m low high desired).2 = .needMore → high < minIdeal m desired) := by
  unfold degreeState
  dsimp only
  split
  · exact ⟨fun _ => ‹_›, MaxDegree.noConfusion⟩
  · split
    · exact ⟨MaxDegree.noConfusion, fun _ => ‹_›⟩
    · exact ⟨MaxDegree.noConfusion, MaxDegree.noConfusion⟩

/-- As long as the totals are those of as many locations as the goal has active, the
    evaluation finds a case that it expects, and what that case asks for. -/
theorem decision_ready (hm : 8 ≤ m) (hleast : m ≤ desired) (hact : goal.Active m desired active) (hlow : low ≤ 2 * active)
    (hhigh : active ≤ high) (hle : low ≤ high) (noClients : Bool) :
    ∃ a, decision (degreeState m low high desired) goal noClients = .ok a ∧ a.Ready m goal desired active := by
  obtain ⟨-, henough, htoo⟩ := degreeState_fst m desired low high
  obtain ⟨hzero, hneed⟩ := degreeState_snd m desired low high
  have hideal : minIdeal m desired ≤ desired ∧ (desired : Int) ≤ maxIdeal m desired := by
    unfold minIdeal maxIdeal
    omega
  have hquarter : 1 ≤ m / 4 := by omega
  unfold decision
  generalize degreeState m low high desired = state at *
  obtain ⟨a, b⟩ := state
  dsimp only at *
  cases goal with
  | leave p =>
    have hnone : active = 0 := hact
    have hmlow : a = .low := by
      cases a with
      | low => rfl
      | enough => exact absurd (henough rfl) (by omega)
      | tooMuch => exact absurd (htoo rfl).1 (by omega)
    subst hmlow
    cases b with
    | zero =>
      cases p with
      | inProgress cb =>
        cases noClients with
        | true => exact ⟨.leaveComplete, rfl, cb, rfl⟩
        | false => exact ⟨.nothing, rfl, trivial⟩
      | complete cb => exact ⟨.nothing, rfl, trivial⟩
    | needMore => exact ⟨.nothing, rfl, trivial⟩
    | satisfied => exact ⟨.nothing, rfl, trivial⟩
  | join p =>
    have hsome : m / 2 ≤ active := by
      cases p with
      | inProgress cb => exact Nat.le_of_eq hact.symm
      | complete cb => exact hact.1
    cases b with
    | zero => exact absurd (hzero rfl) (by omega)
    | needMore =>
      have hmore := hneed rfl
      cases a with
      | tooMuch => exact absurd (htoo rfl).2 (by omega)
      | low =>
        cases p with
        | inProgress cb => exact ⟨.nothing, rfl, trivial⟩
        | complete cb => exact ⟨.increaseDegree, rfl, ⟨cb, rfl⟩, by omega⟩
      | enough =>
        cases p with
        | inProgress cb => exact ⟨.joinComplete, rfl, cb, rfl⟩
        | complete cb => exact ⟨.increaseDegree, rfl, ⟨cb, rfl⟩, by omega⟩
    | satisfied =>
      cases a with
      | low => exact ⟨.nothing, rfl, trivial⟩
      | enough =>
        cases p with
        | inProgress cb => exact ⟨.joinComplete, rfl, cb, rfl⟩
        | complete cb => exact ⟨.nothing, rfl, trivial⟩
      | tooMuch =>
        have hmuch := (htoo rfl).2
        cases p with
        | inProgress cb =>
          -- only the first locations are active, which cannot have too many links
          have e : active = m / 2 := hact
          omega
        | complete cb => exact ⟨.decreaseDegree, rfl, ⟨cb, rfl⟩, by omega⟩

end Decision

/-- As long as the goals agree, the evaluation finds a case that it expects. -/
theorem action_ready (h : Agrees t) (noClients : Bool) :
    ∃ a, action t noClients = .ok a ∧ a.Ready Config.minDegree t.goal t.table.length t.activeLocations := by
  have hle : t.minDegree ≤ t.maxDegree := sum_min_le_max t.table
  have hbounds : t.minDegree ≤ 2 * t.activeLocations ∧ t.activeLocations ≤ t.maxDegree := by
    cases hg : t.goal with
    | leave p =>
      have hact := h.active
      rw [hg] at hact
      have hnone : t.activeLocations = 0 := hact
      have hl := h.leaving hg
      omega
    | join p => exact (h.joining hg).2.2
  have hact := h.active
  rw [h.length] at hact ⊢
  exact decision_ready (by decide) h.least hact (by omega) (by omega) (by omega) noClients

theorem setLocationGoal_eq {t : T} {i : Nat} (h : i < t.table.length) (goal : Location.Goal) :
    ∃ table, t.setLocationGoal i goal = .ok table ∧ table.length = t.table.length ∧
      ∀ j l, table[j]? = some l → if j = i then l.goal = goal else t.table[j]? = some l := by
  refine ⟨t.table.set i (t.table[i].setGoal goal), ?_, List.length_set, fun j l hl => ?_⟩
  · unfold T.setLocationGoal
    rw [List.getElem?_eq_getElem h]
  · rw [List.getElem?_set] at hl
    split at hl
    · rename_i e
      rw [if_pos e.symm]
      cases hl
      rfl
    · rename_i e
      rw [if_neg (Ne.symm e)]
      exact hl

theorem increaseDegree_agrees (h : Agrees t) (ha : Action.Ready Config.minDegree t.goal t.table.length t.activeLocations .increaseDegree) :
    ∃ t', t.increaseDegree = .ok t' ∧ Agrees t' ∧ t'.goal = t.goal := by
  obtain ⟨⟨cb, hg⟩, hlt⟩ := ha
  obtain ⟨table, e, hlen, hget⟩ := setLocationGoal_eq hlt (.join .peer)
  refine ⟨{ t with table := table, activeLocations := t.activeLocations + 1 }, ?_, ⟨?_, h.least, ?_, ?_⟩, rfl⟩
  · unfold T.increaseDegree
    rw [e]
    rfl
  · exact hlen.trans h.length
  · have hact := h.active
    rw [hg] at hact
    show t.goal.Active Config.minDegree table.length (t.activeLocations + 1)
    rw [hg, hlen]
    exact ⟨Nat.le_succ_of_le hact.1, hlt⟩
  · intro i l hl
    have hi := hget i l hl
    show t.goal.Subgoal (t.activeLocations + 1) i l.goal
    rw [hg]
    show l.goal = if i < t.activeLocations + 1 then .join .peer else .leave .quit
    split at hi
    · rename_i e
      rw [if_pos (by omega), hi]
    · have hs := h.goals i l hi
      rw [hg] at hs
      change l.goal = if i < t.activeLocations then .join .peer else .leave .quit at hs
      rw [hs]
      split
      · rw [if_pos (by omega)]
      · rw [if_neg (by omega)]

theorem decreaseDegree_agrees (h : Agrees t) (ha : Action.Ready Config.minDegree t.goal t.table.length t.activeLocations .decreaseDegree) :
    ∃ t', t.decreaseDegree = .ok t' ∧ Agrees t' ∧ t'.goal = t.goal := by
  obtain ⟨⟨cb, hg⟩, hlt⟩ := ha
  have hact := h.active
  rw [hg] at hact
  obtain ⟨hact1, hact2⟩ := hact
  obtain ⟨table, e, hlen, hget⟩ := setLocationGoal_eq (t := t) (show t.activeLocations - 1 < t.table.length by omega) (.leave .quit)
  refine ⟨{ t with table := table, activeLocations := t.activeLocations - 1 }, ?_, ⟨?_, h.least, ?_, ?_⟩, rfl⟩
  · unfold T.decreaseDegree
    rw [if_neg (by omega), e]
    rfl
  · exact hlen.trans h.length
  · show t.goal.Active Config.minDegree table.length (t.activeLocations - 1)
    rw [hg, hlen]
    exact ⟨by omega, by omega⟩
  · intro i l hl
    have hi := hget i l hl
    show t.goal.Subgoal (t.activeLocations - 1) i l.goal
    rw [hg]
    show l.goal = if i < t.activeLocations - 1 then .join .peer else .leave .quit
    split at hi
    · rename_i e
      rw [if_neg (by omega), hi]
    · have hs := h.goals i l hi
      rw [hg] at hs
      change l.goal = if i < t.activeLocations then .join .peer else .leave .quit at hs
      rw [hs]
      split
      · rw [if_pos (by omega)]
      · rw [if_neg (by omega)]

end BubbleStorm.Topology.Locations
