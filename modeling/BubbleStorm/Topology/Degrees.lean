/-
  BubbleStorm.Topology.Degrees — the degree control of the locations as it keeps its books
  (`src/bubblestorm/topology/state/locations.sml`, `updateMyLinks` of
  `src/bubblestorm/topology/state/location.sml`, `src/bubblestorm/topology/actions/evaluateN.sml`).

  Here the three totals are the accumulators the source keeps, changed by what one location
  contributes at a time, and `Config.minDegree` is a parameter `m`. A change of goals walks
  over the table; each step of it reports to the totals and may raise. The first change
  initializes the topology, and before it nothing is evaluated (`Kept`).

  `setGoal` runs the callback of the old goal before it stores the new one, and the callback
  may change the goal itself: a state has a stack of what goes on when application code
  returns. Proved of every state that goal changes, link updates and evaluations reach
  (`reach_controlled`): as long as no callback of a join returns to a goal to leave, the
  totals are the sums of the contributions, the goals of the locations follow the active
  ones, and nothing raises but a transition of goals there is not. If one does, the join is
  stored over the leave, without active locations (`leave_overwritten`).
-/

import BubbleStorm.Topology.Locations

namespace BubbleStorm.Topology.Degrees

open Locations.Location (actualDegree leaving maxDegree maxDegree_join minDegree minDegree_leave zombieToNothing)
open Locations (Location Peer Subjoin Subleave Goal Progress Callback MinDegree MaxDegree Action transition degreeState decision)
open BubbleStorm.Cusp (Exn)

/-! ## Degrees -/

/-- What a location contributes. -/
structure Links where
  min : Nat
  actual : Nat
  max : Nat
  deriving Repr, DecidableEq

def links (l : Location) : Links :=
  { min := l.minDegree, actual := actualDegree l.master + actualDegree l.slave,
    max := l.maxDegree }

structure T where
  goal : Goal
  desiredDegree : Nat
  minDegree : Int
  actualDegree : Int
  maxDegree : Int
  degreeTable : List Links
  table : List Location
  activeLocations : Nat
  /-- `evaluateN` is scheduled. -/
  evaluate : Bool
  /-- The gossip of the topology is `GOSSIP`, and no longer `MEASUREMENTS`. -/
  gossip : Bool
  deriving Repr, DecidableEq

def new (m desiredDegree : Nat) : T :=
  let desiredDegree := max desiredDegree m
  { goal := .leave (.complete .noop), desiredDegree := desiredDegree, minDegree := 0, actualDegree := 0, maxDegree := 0,
    degreeTable := List.replicate desiredDegree { min := 0, actual := 0, max := 0 },
    table := List.replicate desiredDegree .new, activeLocations := 0, evaluate := false, gossip := false }

namespace T

def state (m : Nat) (t : T) : MinDegree × MaxDegree := degreeState m t.minDegree t.maxDegree t.desiredDegree

/-- `update i`, which each location is given as its `updateLinks`. -/
def update (m : Nat) (t : T) (i : Nat) (d : Links) : Except Exn T :=
  match t.degreeTable[i]? with
  | none => .error .subscript
  | some old =>
    let t' := { t with minDegree := t.minDegree - old.min + d.min, actualDegree := t.actualDegree - old.actual + d.actual,
                       maxDegree := t.maxDegree - old.max + d.max, degreeTable := t.degreeTable.set i d }
    if t'.minDegree ≤ t'.actualDegree then
      if t'.actualDegree ≤ t'.maxDegree then .ok { t' with evaluate := t.evaluate || decide (t'.state m ≠ t.state m) }
      else .error (.fail "maximum degree smaller than actual degree")
    else .error (.fail "minimum degree bigger than actual degree")

def updateMyLinks (m : Nat) (t : T) (i : Nat) : Except Exn T :=
  match t.table[i]? with
  | none => .error .subscript
  | some l => t.update m i (links l)

/-- `Location.setState`. -/
def setState (m : Nat) (t : T) (i : Nat) (master : Peer Bool) (slave : Peer Unit) : Except Exn T :=
  match t.table[i]? with
  | none => .error .subscript
  | some l => { t with table := t.table.set i { l with master := master, slave := slave } }.updateMyLinks m i

/-- A leaving location with a contact still out gets its state set once more, with a shorter
timeout. -/
def hurries (l : Location) (goal : Locations.Location.Goal) : Bool :=
  decide (l.goal ≠ goal) && (l.setGoal goal).leaving && decide (l.slave = .connecting)

/-- `Location.setGoal`. -/
def setLocationGoal (m : Nat) (t : T) (i : Nat) (goal : Locations.Location.Goal) : Except Exn T :=
  match t.table[i]? with
  | none => .error .subscript
  | some l => do
    let t ← { t with table := t.table.set i (l.setGoal goal) }.updateMyLinks m i
    if hurries l goal then t.updateMyLinks m i else return t

/-- The locations from `i` on, `k` of them, get their goals in turn. -/
def setGoals (m : Nat) (goalFn : Nat → Location → Locations.Location.Goal) : Nat → Nat → T → Except Exn T
  | _, 0, t => .ok t
  | i, k + 1, t =>
    match t.table[i]? with
    | none => .error .subscript
    | some l => do
      let t ← t.setLocationGoal m i (goalFn i l)
      setGoals m goalFn (i + 1) k t

/-- What `setGoal` does after the callback. -/
def store (m : Nat) (t : T) (goal : Goal) : Except Exn T :=
  let t := { t with goal := goal }
  match goal with
  | .join (.inProgress _) => do
    let t ← t.setGoals m (Locations.T.joinDecision m) 0 t.table.length
    return { t with activeLocations := m / 2 }
  | .join (.complete _) => t.setGoals m (fun _ _ => .join .peer) 0 (m / 2)
  | .leave (.inProgress _) => do
    let t ← t.setGoals m (fun _ _ => .leave .linger) 0 t.table.length
    return { t with activeLocations := 0 }
  | .leave (.complete _) => do
    let t ← t.setGoals m (fun _ _ => .leave .quit) 0 t.table.length
    return { t with activeLocations := 0 }

/-- `Topology.init`. -/
def init (t : T) : T := { t with gossip := true }

def increaseDegree (m : Nat) (t : T) : Except Exn T :=
  if t.activeLocations < t.table.length then do
    let t ← { t with activeLocations := t.activeLocations + 1 }.setLocationGoal m t.activeLocations (.join .peer)
    return { t with evaluate := true }
  else .error .subscript

def decreaseDegree (m : Nat) (t : T) : Except Exn T :=
  if t.activeLocations = 0 then .error .subscript
  else do
    let t ← { t with activeLocations := t.activeLocations - 1 }.setLocationGoal m (t.activeLocations - 1) (.leave .quit)
    return { t with evaluate := true }

end T

def action (m : Nat) (t : T) (noClients : Bool) : Except Exn Action := decision (t.state m) t.goal noClients

/-- Application code that is running, and what it returns to. -/
inductive Frame where
  /-- A callback within `setGoal`, which has still to store the goal. -/
  | setGoal (goal : Goal)
  /-- The onJoin handlers, within `joinComplete`. -/
  | onJoin
  deriving Repr, DecidableEq

structure St where
  t : T
  stack : List Frame
  deriving Repr, DecidableEq

namespace St

/-- Up to the callback. -/
def setGoal (s : St) (goal : Goal) : Except Exn St := do
  let _ ← transition s.t.goal goal
  return { s with stack := .setGoal goal :: s.stack }

/-- What `create`, `join` and `leave` of the topology do: the first two initialize it. -/
def changeGoal (s : St) (goal : Goal) : Except Exn St :=
  match goal with
  | .join _ => { s with t := s.t.init }.setGoal goal
  | .leave _ => s.setGoal goal

/-- The code on top returns. -/
def back (m : Nat) (s : St) : Except Exn St :=
  match s.stack with
  | [] => .ok s
  | .setGoal goal :: rest => do
    let t ← s.t.store m goal
    return ⟨{ t with evaluate := true }, rest⟩
  | .onJoin :: rest => { s with stack := rest }.setGoal (.join (.complete .unadvertise))

/-- What is done in each case. -/
def act (m : Nat) (s : St) : Action → Except Exn St
  | .nothing => .ok s
  | .joinComplete => .ok { s with stack := .onJoin :: s.stack }
  | .leaveComplete => s.setGoal (.leave (.complete .noop))
  | .increaseDegree => do return { s with t := ← s.t.increaseDegree m }
  | .decreaseDegree => do return { s with t := ← s.t.decreaseDegree m }

def evaluateN (m : Nat) (s : St) (noClients : Bool) : Except Exn St :=
  if s.t.gossip then do
    let a ← action m s.t noClients
    act m { s with t := { s.t with evaluate := false } } a
  else .error (.fail "topology not initialized")

/-- A callback of a completing join returns to a goal to join. -/
def Settled (s : St) : Prop :=
  match s.stack with
  | .setGoal (.join (.complete _)) :: _ => ∃ p, s.t.goal = .join p
  | _ => True

end St

/-- Before the topology is initialized every location is to leave and holds nothing, and
there are no clients: no link changes then, and no one asks for an evaluation. -/
inductive Reach (m : Nat) (ok : St → Prop) : St → Prop
  | new (desiredDegree : Nat) : Reach m ok ⟨new m desiredDegree, []⟩
  | changeGoal {s s'} (goal : Goal) (reach : Reach m ok s) (done : s.changeGoal goal = .ok s') : Reach m ok s'
  | back {s s'} (reach : Reach m ok s) (settled : ok s) (done : s.back m = .ok s') : Reach m ok s'
  /-- Application code ends with an exception. -/
  | raised {t f stack} (reach : Reach m ok ⟨t, f :: stack⟩) : Reach m ok ⟨t, stack⟩
  | link {t t' stack} (i : Nat) (master : Peer Bool) (slave : Peer Unit) (reach : Reach m ok ⟨t, stack⟩) (on : t.gossip = true)
      (done : t.setState m i master slave = .ok t') : Reach m ok ⟨t', stack⟩
  | clients {t stack} (reach : Reach m ok ⟨t, stack⟩) (on : t.gossip = true) : Reach m ok ⟨{ t with evaluate := true }, stack⟩
  | evaluateN {s s'} (noClients : Bool) (reach : Reach m ok s) (scheduled : s.t.evaluate = true)
      (done : s.evaluateN m noClients = .ok s') : Reach m ok s'

/-! ## The books -/

def total (f : Location → Nat) (table : List Location) : Int := (table.map fun l => (f l : Int)).sum

/-- The accumulators hold the sums of what the table says, location by location. -/
structure Books (t : T) : Prop where
  entries : t.degreeTable = t.table.map links
  min : t.minDegree = total (fun l => (links l).min) t.table
  actual : t.actualDegree = total (fun l => (links l).actual) t.table
  max : t.maxDegree = total (fun l => (links l).max) t.table

theorem min_le_actual (l : Location) : (links l).min ≤ (links l).actual := by
  show l.minDegree ≤ _
  unfold minDegree
  split
  · exact Nat.zero_le _
  · exact Nat.le_refl _

theorem actual_le_max (l : Location) : (links l).actual ≤ (links l).max := by
  obtain ⟨goal, master, slave⟩ := l
  cases master with
  | connected upgrade =>
    cases upgrade <;> cases slave <;>
      simp [links, actualDegree, maxDegree, zombieToNothing]
  | _ =>
    cases slave <;>
      simp [links, actualDegree, maxDegree, zombieToNothing]

theorem total_le {f g : Location → Nat} (le : ∀ l, f l ≤ g l) (table : List Location) : total f table ≤ total g table := by
  refine List.sum_le_sum ?_
  intro l _
  exact Int.ofNat_le.mpr (le l)

theorem total_set (f : Location → Nat) (table : List Location) (i : Nat) (h : i < table.length) (l : Location) :
    total f (table.set i l) = total f table - f table[i] + f l := by
  induction table generalizing i with
  | nil => simp at h
  | cons x rest ih =>
    cases i with
    | zero =>
      simp only [total, List.set_cons_zero, List.map_cons, List.sum_cons, List.getElem_cons_zero]
      omega
    | succ i =>
      have := ih i (by simpa using h)
      simp only [total] at this
      simp only [total, List.set_cons_succ, List.map_cons, List.sum_cons, List.getElem_cons_succ, this]
      omega

variable {m : Nat} {t : T}

theorem Books.le (books : Books t) : t.minDegree ≤ t.actualDegree ∧ t.actualDegree ≤ t.maxDegree := by
  rw [books.min, books.actual, books.max]
  exact ⟨total_le min_le_actual t.table, total_le actual_le_max t.table⟩

/-- What an update of the totals leaves alone. -/
structure Same (t t' : T) : Prop where
  goal : t'.goal = t.goal
  desired : t'.desiredDegree = t.desiredDegree
  active : t'.activeLocations = t.activeLocations
  gossip : t'.gossip = t.gossip

theorem Same.trans {t₁ t₂ : T} (first : Same t t₁) (second : Same t₁ t₂) : Same t t₂ :=
  ⟨second.goal.trans first.goal, second.desired.trans first.desired, second.active.trans first.active,
    second.gossip.trans first.gossip⟩

/-- A location may change in any way: the totals follow, and nothing is raised. -/
theorem Books.update (books : Books t) {i : Nat} (h : i < t.table.length) (l : Location) :
    ∃ t', ({ t with table := t.table.set i l } : T).updateMyLinks m i = .ok t' ∧ Books t' ∧
      t'.table = t.table.set i l ∧ Same t t' := by
  have old : t.degreeTable[i]? = some (links t.table[i]) := by
    rw [books.entries, List.getElem?_map, List.getElem?_eq_getElem h]
    rfl
  have here : (t.table.set i l)[i]? = some l := by
    rw [List.getElem?_set_self h]
  have kept : Books { t with
      minDegree := t.minDegree - (links t.table[i]).min + (links l).min
      actualDegree := t.actualDegree - (links t.table[i]).actual + (links l).actual
      maxDegree := t.maxDegree - (links t.table[i]).max + (links l).max
      degreeTable := t.degreeTable.set i (links l), table := t.table.set i l } := by
    refine ⟨?_, ?_, ?_, ?_⟩
    · rw [List.map_set, books.entries]
    · rw [total_set _ _ i h, books.min]
    · rw [total_set _ _ i h, books.actual]
    · rw [total_set _ _ i h, books.max]
  have le := kept.le
  simp only [T.updateMyLinks, here, T.update, old]
  rw [if_pos le.1, if_pos le.2]
  exact ⟨_, rfl, ⟨kept.entries, kept.min, kept.actual, kept.max⟩, rfl, ⟨rfl, rfl, rfl, rfl⟩⟩

theorem Books.setState (books : Books t) {i : Nat} (h : i < t.table.length) (master : Peer Bool) (slave : Peer Unit) :
    ∃ t', t.setState m i master slave = .ok t' ∧ Books t' ∧
      t'.table = t.table.set i { t.table[i] with master := master, slave := slave } ∧ Same t t' := by
  simp only [T.setState, List.getElem?_eq_getElem h]
  exact books.update h _

theorem Books.setLocationGoal (books : Books t) {i : Nat} (h : i < t.table.length) (goal : Locations.Location.Goal) :
    ∃ t', t.setLocationGoal m i goal = .ok t' ∧ Books t' ∧ t'.table = t.table.set i (t.table[i].setGoal goal) ∧ Same t t' := by
  obtain ⟨t₁, done, books₁, table, same⟩ := books.update (m := m) h (t.table[i].setGoal goal)
  have h₁ : i < t₁.table.length := by
    rw [table, List.length_set]
    exact h
  simp only [T.setLocationGoal, List.getElem?_eq_getElem h, done]
  cases hurries : T.hurries t.table[i] goal with
  | false => exact ⟨t₁, rfl, books₁, table, same⟩
  | true =>
    obtain ⟨t₂, again, books₂, table₂, same₂⟩ := books₁.update (m := m) h₁ t₁.table[i]
    rw [List.set_getElem_self] at again table₂
    exact ⟨t₂, again, books₂, table₂.trans table, same.trans same₂⟩

/-- The walk over the table: each location gets the goal that the state it has at the moment
asks for. -/
theorem Books.setGoals (goalFn : Nat → Location → Locations.Location.Goal) (k : Nat) :
    ∀ (i : Nat) (t : T), Books t → i + k ≤ t.table.length → ∃ t', t.setGoals m goalFn i k = .ok t' ∧ Books t' ∧ Same t t' ∧
      t'.table.length = t.table.length ∧ ∀ (j : Nat) (l : Location), t'.table[j]? = some l →
        ∃ l₀, t.table[j]? = some l₀ ∧ l = if i ≤ j ∧ j < i + k then l₀.setGoal (goalFn j l₀) else l₀ := by
  induction k with
  | zero =>
    intro i t books _
    refine ⟨t, rfl, books, ⟨rfl, rfl, rfl, rfl⟩, rfl, ?_⟩
    intro j l here
    refine ⟨l, here, ?_⟩
    rw [if_neg (by omega)]
  | succ k ih =>
    intro i t books h
    have hi : i < t.table.length := by omega
    obtain ⟨t₁, done, books₁, table, same⟩ := books.setLocationGoal (m := m) hi (goalFn i t.table[i])
    have length : t₁.table.length = t.table.length := by rw [table, List.length_set]
    obtain ⟨t₂, rest, books₂, same₂, length₂, goals⟩ := ih (i + 1) t₁ books₁ (by omega)
    refine ⟨t₂, ?_, books₂, same.trans same₂, length₂.trans length, ?_⟩
    · rw [T.setGoals, List.getElem?_eq_getElem hi]
      show (T.setLocationGoal m t i (goalFn i t.table[i]) >>= _) = _
      rw [done]
      exact rest
    · intro j l here
      obtain ⟨l₁, before, rfl⟩ := goals j l here
      rw [table, List.getElem?_set] at before
      by_cases first : i = j
      · subst first
        rw [if_pos rfl, if_pos hi] at before
        cases before
        refine ⟨t.table[i], List.getElem?_eq_getElem hi, ?_⟩
        rw [if_neg (by omega), if_pos (by omega)]
      · rw [if_neg first] at before
        refine ⟨l₁, before, ?_⟩
        by_cases inside : i + 1 ≤ j ∧ j < i + 1 + k
        · rw [if_pos inside, if_pos (by omega)]
        · rw [if_neg inside, if_neg (by omega)]

/-! ## The goals of the locations -/

structure Inv (m : Nat) (t : T) : Prop extends Books t where
  length : t.table.length = t.desiredDegree
  least : m ≤ t.desiredDegree
  active : t.goal.Active m t.table.length t.activeLocations
  goals : ∀ (i : Nat) (l : Location), t.table[i]? = some l → t.goal.Subgoal t.activeLocations i l.goal

/-- The same of a topology that is initialized. -/
structure On (m : Nat) (t : T) : Prop extends Inv m t where
  gossip : t.gossip = true

theorem inv_new (m desiredDegree : Nat) : Inv m (new m desiredDegree) where
  entries := by
    simp only [new, List.map_replicate]
    rfl
  min := by simp [new, total, links, Locations.Location.new, minDegree, leaving]
  actual := by simp [new, total, links, Locations.Location.new, actualDegree]
  max := by
    simp [new, total, links, Locations.Location.new, maxDegree, leaving,
      zombieToNothing]
  length := List.length_replicate
  least := Nat.le_max_right _ _
  active := rfl
  goals := by
    intro i l here
    rw [List.getElem?_eq_some_iff] at here
    obtain ⟨_, rfl⟩ := here
    simp [new, Goal.Subgoal, Locations.Location.new]

/-- A link update leaves the goals alone. -/
theorem On.link (inv : On m t) {i : Nat} (h : i < t.table.length) (master : Peer Bool) (slave : Peer Unit) :
    ∃ t', t.setState m i master slave = .ok t' ∧ On m t' := by
  obtain ⟨t', done, books, table, same⟩ := inv.toBooks.setState (m := m) h master slave
  have length : t'.table.length = t.table.length := by rw [table, List.length_set]
  refine ⟨t', done, ⟨books, ?_, ?_, ?_, ?_⟩, same.gossip.trans inv.gossip⟩
  · rw [length, same.desired, inv.length]
  · rw [same.desired]
    exact inv.least
  · rw [same.goal, length, same.active]
    exact inv.active
  · intro j l here
    rw [same.goal, same.active]
    rw [table, List.getElem?_set] at here
    split at here
    · rename_i first
      subst first
      cases here
      exact inv.goals i t.table[i] (List.getElem?_eq_getElem h)
    · exact inv.goals j l here

/-- One location gets a goal of its own, and the number of active ones changes with it. -/
theorem On.setLocationGoal (inv : On m t) (i active : Nat) (h : i < t.table.length) (goal : Locations.Location.Goal)
    (bound : t.goal.Active m t.table.length active) (here : t.goal.Subgoal active i goal)
    (others : ∀ (j : Nat) (l : Location), j ≠ i → t.table[j]? = some l → t.goal.Subgoal active j l.goal) :
    ∃ t', ({ t with activeLocations := active } : T).setLocationGoal m i goal = .ok t' ∧ On m t' := by
  have books : Books { t with activeLocations := active } := ⟨inv.entries, inv.min, inv.actual, inv.max⟩
  obtain ⟨t', done, books', table, same⟩ := books.setLocationGoal (m := m) h goal
  have length : t'.table.length = t.table.length := by rw [table, List.length_set]
  refine ⟨t', done, ⟨books', ?_, ?_, ?_, ?_⟩, same.gossip.trans inv.gossip⟩
  · rw [length, same.desired]
    exact inv.length
  · rw [same.desired]
    exact inv.least
  · rw [same.goal, length, same.active]
    exact bound
  · intro j l found
    rw [same.goal, same.active]
    rw [table, List.getElem?_set] at found
    split at found
    · rename_i first
      subst first
      cases found
      exact here
    · rename_i first
      exact others j l (Ne.symm first) found

/-- A goal that gives every location a new one. -/
theorem On.storeAll (inv : On m t) (g : Goal) (active : Nat) (goalFn : Nat → Location → Locations.Location.Goal)
    (bound : g.Active m t.table.length active) (subgoal : ∀ i l, g.Subgoal active i (goalFn i l)) :
    ∃ t', ({ t with goal := g } : T).setGoals m goalFn 0 t.table.length = .ok t' ∧
      On m { t' with activeLocations := active } := by
  have books : Books { t with goal := g } := ⟨inv.entries, inv.min, inv.actual, inv.max⟩
  obtain ⟨t', done, books', same, length, goals⟩ := books.setGoals (m := m) goalFn t.table.length 0 _ (by simp)
  refine ⟨t', done, ⟨⟨books'.entries, books'.min, books'.actual, books'.max⟩, ?_, ?_, ?_, ?_⟩, same.gossip.trans inv.gossip⟩
  · show t'.table.length = t'.desiredDegree
    rw [length, same.desired]
    exact inv.length
  · show m ≤ t'.desiredDegree
    rw [same.desired]
    exact inv.least
  · show t'.goal.Active m t'.table.length active
    rw [same.goal, length]
    exact bound
  · intro j l here
    obtain ⟨l₀, before, rfl⟩ := goals j l here
    have inside : j < t.table.length := (List.getElem?_eq_some_iff.mp before).1
    show t'.goal.Subgoal active j _
    rw [same.goal, if_pos ⟨Nat.zero_le _, by omega⟩]
    exact subgoal j l₀

/-- A completed join upgrades the first locations. -/
theorem On.upgradeServers (inv : On m t) {p : Progress} {cb' : Callback} (joining : t.goal = .join p) :
    ∃ t', ({ t with goal := .join (.complete cb') } : T).setGoals m (fun _ _ => .join .peer) 0 (m / 2) = .ok t' ∧ On m t' := by
  have least := inv.least
  have length := inv.length
  have active : m / 2 ≤ t.activeLocations ∧ t.activeLocations ≤ t.table.length := by
    have := inv.active
    rw [joining] at this
    cases p with
    | inProgress cb =>
      have same : t.activeLocations = m / 2 := this
      omega
    | complete cb => exact this
  -- behind the first locations the goals are those of a joined peer already
  have behind : ∀ (j : Nat) (l : Location), t.table[j]? = some l → m / 2 ≤ j →
      l.goal = if j < t.activeLocations then .join .peer else .leave .quit := by
    intro j l here outside
    have old := inv.goals j l here
    have few := inv.active
    rw [joining] at old few
    cases p with
    | inProgress cb =>
      have same : t.activeLocations = m / 2 := few
      change if j < t.activeLocations then ∃ s, l.goal = .join s else l.goal = .leave .quit at old
      rw [if_neg (by omega)] at old ⊢
      exact old
    | complete cb => exact old
  have room : 0 + m / 2 ≤ t.table.length := by omega
  have books : Books { t with goal := .join (.complete cb') } := ⟨inv.entries, inv.min, inv.actual, inv.max⟩
  obtain ⟨t', done, books', same, length', goals⟩ := books.setGoals (m := m) (fun _ _ => .join .peer) (m / 2) 0 _ room
  refine ⟨t', done, ⟨books', ?_, ?_, ?_, ?_⟩, same.gossip.trans inv.gossip⟩
  · rw [length', same.desired]
    exact inv.length
  · rw [same.desired]
    exact least
  · rw [same.goal, same.active, length']
    exact active
  · intro j l here
    obtain ⟨l₀, before, rfl⟩ := goals j l here
    rw [same.goal, same.active]
    show (if 0 ≤ j ∧ j < 0 + m / 2 then l₀.setGoal (.join .peer) else l₀).goal =
      if j < t.activeLocations then .join .peer else .leave .quit
    by_cases inside : j < m / 2
    · rw [if_pos ⟨Nat.zero_le _, by omega⟩, if_pos (by omega)]
      rfl
    · rw [if_neg (by omega)]
      exact behind j l₀ before (by omega)

/-- Every goal is stored, but that of a completed join only over one to join. -/
theorem On.store (inv : On m t) {g : Goal} (settled : ∀ cb, g = .join (.complete cb) → ∃ p, t.goal = .join p) :
    ∃ t', t.store m g = .ok t' ∧ On m t' := by
  cases g with
  | join p =>
    cases p with
    | inProgress cb' =>
      obtain ⟨t', done, kept⟩ := inv.storeAll (.join (.inProgress cb')) (m / 2) (Locations.T.joinDecision m) rfl
        (Locations.joinDecision_subgoal m cb')
      refine ⟨_, ?_, kept⟩
      simp only [T.store]
      rw [done]
      rfl
    | complete cb' =>
      obtain ⟨p, joining⟩ := settled cb' rfl
      exact inv.upgradeServers joining
  | leave p =>
    cases p with
    | inProgress cb' =>
      obtain ⟨t', done, kept⟩ := inv.storeAll (.leave (.inProgress cb')) 0 (fun _ _ => .leave .linger) rfl
        (fun _ _ => rfl)
      refine ⟨_, ?_, kept⟩
      simp only [T.store]
      rw [done]
      rfl
    | complete cb' =>
      obtain ⟨t', done, kept⟩ := inv.storeAll (.leave (.complete cb')) 0 (fun _ _ => .leave .quit) rfl
        (fun _ _ => rfl)
      refine ⟨_, ?_, kept⟩
      simp only [T.store]
      rw [done]
      rfl

theorem On.scheduled (inv : On m t) (b : Bool) : On m { t with evaluate := b } :=
  ⟨⟨⟨inv.entries, inv.min, inv.actual, inv.max⟩, inv.length, inv.least, inv.active, inv.goals⟩, inv.gossip⟩

theorem Inv.init (inv : Inv m t) : On m t.init :=
  ⟨⟨⟨inv.entries, inv.min, inv.actual, inv.max⟩, inv.length, inv.least, inv.active, inv.goals⟩, rfl⟩

/-! ## What is evaluated -/

/-- A location joins if and only if it is one of the active ones. -/
theorem Inv.joins (inv : Inv m t) (i : Nat) (l : Location) (here : t.table[i]? = some l) :
    (∃ s, l.goal = .join s) ↔ i < t.activeLocations := by
  have sub := inv.goals i l here
  have active := inv.active
  cases goal : t.goal with
  | leave p =>
    rw [goal] at sub active
    have none : t.activeLocations = 0 := active
    cases p with
    | inProgress cb =>
      have left : l.goal = .leave .linger := sub
      simp [left, none]
    | complete cb =>
      have left : l.goal = .leave .quit := sub
      simp [left, none]
  | join p =>
    rw [goal] at sub
    cases p with
    | inProgress cb =>
      change if i < t.activeLocations then ∃ s, l.goal = .join s else l.goal = .leave .quit at sub
      split at sub
      · exact iff_of_true sub ‹_›
      · exact iff_of_false (by simp [sub]) ‹_›
    | complete cb =>
      change l.goal = if i < t.activeLocations then .join .peer else .leave .quit at sub
      split at sub
      · exact iff_of_true ⟨_, sub⟩ ‹_›
      · exact iff_of_false (by simp [sub]) ‹_›

theorem total_eq (f : Location → Nat) (table : List Location) : total f table = ((table.map f).sum : Nat) := by
  induction table with
  | nil => rfl
  | cons l table ih =>
    simp only [total, List.map_cons, List.sum_cons] at ih ⊢
    rw [ih, Int.natCast_add]

theorem Inv.bound (inv : Inv m t) : t.activeLocations ≤ t.table.length := by
  have active := inv.active
  have least := inv.least
  have length := inv.length
  cases goal : t.goal with
  | leave p =>
    rw [goal] at active
    have none : t.activeLocations = 0 := active
    omega
  | join p =>
    rw [goal] at active
    cases p with
    | inProgress cb =>
      have few : t.activeLocations = m / 2 := active
      omega
    | complete cb => exact active.2

theorem Inv.min_le (inv : Inv m t) : t.minDegree ≤ 2 * t.activeLocations := by
  rw [inv.min, total_eq]
  refine Int.ofNat_le.mpr (Locations.sum_min_le t.table _ ?_)
  intro i l here outside
  have left : ¬ ∃ s, l.goal = .join s := by
    rw [inv.joins i l here]
    omega
  cases goal : l.goal with
  | join s => exact absurd ⟨s, goal⟩ left
  | leave s => exact minDegree_leave goal

theorem Inv.le_max (inv : Inv m t) : (t.activeLocations : Int) ≤ t.maxDegree := by
  rw [inv.max, total_eq]
  refine Int.ofNat_le.mpr (Locations.le_sum_max t.table _ inv.bound ?_)
  intro i l here inside
  obtain ⟨s, joins⟩ := (inv.joins i l here).mpr inside
  exact maxDegree_join joins

/-- The evaluation finds a case that it expects, and what that case asks for. -/
theorem Inv.action (inv : Inv m t) (hm : 8 ≤ m) (noClients : Bool) :
    ∃ a, action m t noClients = .ok a ∧ a.Ready m t.goal t.table.length t.activeLocations := by
  have active := inv.active
  rw [inv.length] at active ⊢
  exact Locations.decision_ready hm inv.least active inv.min_le inv.le_max (inv.toBooks.le.1.trans inv.toBooks.le.2) noClients

theorem On.increaseDegree (inv : On m t) (ready : Action.Ready m t.goal t.table.length t.activeLocations .increaseDegree) :
    ∃ t', t.increaseDegree m = .ok t' ∧ On m t' := by
  obtain ⟨⟨cb, hg⟩, room⟩ := ready
  have active := inv.active
  rw [hg] at active
  obtain ⟨t', done, kept⟩ := inv.setLocationGoal t.activeLocations (t.activeLocations + 1) room (.join .peer)
    (by
      rw [hg]
      exact ⟨Nat.le_succ_of_le active.1, room⟩)
    (by
      rw [hg]
      show Locations.Location.Goal.join .peer = if _ then _ else _
      rw [if_pos (Nat.lt_succ_self _)])
    (by
      intro j l other here
      have sub := inv.goals j l here
      rw [hg] at sub ⊢
      change l.goal = if j < t.activeLocations then .join .peer else .leave .quit at sub
      show l.goal = if j < t.activeLocations + 1 then .join .peer else .leave .quit
      by_cases inside : j < t.activeLocations
      · rw [if_pos inside] at sub
        rw [if_pos (by omega), sub]
      · rw [if_neg inside] at sub
        rw [if_neg (by omega), sub])
  refine ⟨{ t' with evaluate := true }, ?_, kept.scheduled true⟩
  rw [T.increaseDegree, if_pos room]
  show (T.setLocationGoal m { t with activeLocations := t.activeLocations + 1 } t.activeLocations (.join .peer) >>= _) = _
  rw [done]
  rfl

theorem On.decreaseDegree (inv : On m t) (ready : Action.Ready m t.goal t.table.length t.activeLocations .decreaseDegree) :
    ∃ t', t.decreaseDegree m = .ok t' ∧ On m t' := by
  obtain ⟨⟨cb, hg⟩, much⟩ := ready
  have active := inv.active
  have bound := inv.bound
  obtain ⟨t', done, kept⟩ := inv.setLocationGoal (t.activeLocations - 1) (t.activeLocations - 1) (by omega)
    (.leave .quit)
    (by
      rw [hg]
      exact ⟨by omega, by omega⟩)
    (by
      rw [hg]
      show Locations.Location.Goal.leave .quit = if _ then _ else _
      rw [if_neg (Nat.lt_irrefl _)])
    (by
      intro j l other here
      have sub := inv.goals j l here
      rw [hg] at sub ⊢
      change l.goal = if j < t.activeLocations then .join .peer else .leave .quit at sub
      show l.goal = if j < t.activeLocations - 1 then .join .peer else .leave .quit
      by_cases inside : j < t.activeLocations
      · rw [if_pos inside] at sub
        rw [if_pos (by omega), sub]
      · rw [if_neg inside] at sub
        rw [if_neg (by omega), sub])
  refine ⟨{ t' with evaluate := true }, ?_, kept.scheduled true⟩
  rw [T.decreaseDegree, if_neg (by omega)]
  show (T.setLocationGoal m { t with activeLocations := t.activeLocations - 1 } (t.activeLocations - 1) (.leave .quit) >>= _) = _
  rw [done]
  rfl

/-! ## Every reachable state -/

/-- Until it is initialized a topology is as it was made, and no code is running. -/
structure Kept (m : Nat) (s : St) : Prop extends Inv m s.t where
  idle : s.t.gossip = false → s.t.evaluate = false ∧ s.stack = [] ∧ ∃ cb, s.t.goal = .leave (.complete cb)

variable {s s' : St}

theorem On.kept {stack : List Frame} (on : On m t) : Kept m ⟨t, stack⟩ :=
  ⟨on.toInv, fun off => by rw [show t.gossip = true from on.gossip] at off; cases off⟩

theorem Kept.on (kept : Kept m s) (busy : s.t.evaluate = true ∨ s.stack ≠ []) : On m s.t := by
  refine ⟨kept.toInv, ?_⟩
  cases gossip : s.t.gossip with
  | true => rfl
  | false =>
    obtain ⟨idle, empty, -⟩ := kept.idle gossip
    rcases busy with scheduled | running
    · rw [scheduled] at idle
      cases idle
    · exact absurd empty running

theorem setGoal_stack {goal : Goal} (done : s.setGoal goal = .ok s') :
    s' = { s with stack := .setGoal goal :: s.stack } ∧ ∃ cb, transition s.t.goal goal = .ok cb := by
  unfold St.setGoal at done
  cases allowed : transition s.t.goal goal with
  | ok cb =>
    rw [allowed] at done
    cases done
    exact ⟨rfl, cb, rfl⟩
  | error e =>
    rw [allowed] at done
    cases done

theorem setGoal_ok {goal : Goal} {cb : Callback} (allowed : transition s.t.goal goal = .ok cb) :
    s.setGoal goal = .ok { s with stack := .setGoal goal :: s.stack } := by
  unfold St.setGoal
  rw [allowed]
  rfl

/-- The first goal that may follow is to join. -/
theorem Kept.changeGoal (kept : Kept m s) {goal : Goal} (done : s.changeGoal goal = .ok s') : Kept m s' := by
  cases goal with
  | join p =>
    obtain ⟨rfl, -⟩ := setGoal_stack (s := { s with t := s.t.init }) done
    exact kept.toInv.init.kept
  | leave p =>
    obtain ⟨rfl, cb, allowed⟩ := setGoal_stack done
    refine ⟨kept.toInv, fun off => ?_⟩
    obtain ⟨-, -, cb', left⟩ := kept.idle off
    cases p <;> simp [transition, left] at allowed

theorem Kept.back (kept : Kept m s) (settled : s.Settled) {goal : Goal} {rest : List Frame} (top : s.stack = .setGoal goal :: rest) :
    ∃ t', s.back m = .ok ⟨{ t' with evaluate := true }, rest⟩ ∧ On m t' := by
  have on := kept.on (.inr (by rw [top]; nofun))
  unfold St.Settled at settled
  rw [top] at settled
  obtain ⟨t', done, on'⟩ := on.store (g := goal) (by
    rintro cb rfl
    exact settled)
  refine ⟨t', ?_, on'⟩
  unfold St.back
  rw [top]
  show (s.t.store m goal >>= _) = _
  rw [done]
  rfl

/-- An evaluation does what it decides on, and nothing raises. -/
theorem Kept.evaluateN (kept : Kept m s) (hm : 8 ≤ m) (scheduled : s.t.evaluate = true) (noClients : Bool) :
    ∃ s', s.evaluateN m noClients = .ok s' ∧ Kept m s' := by
  have on := kept.on (.inl scheduled)
  obtain ⟨a, decided, ready⟩ := kept.toInv.action hm noClients
  have now := on.scheduled false
  have acted : ∃ s', St.act m { s with t := { s.t with evaluate := false } } a = .ok s' ∧ Kept m s' := by
    cases a with
    | nothing => exact ⟨_, rfl, now.kept⟩
    | joinComplete => exact ⟨_, rfl, now.kept⟩
    | leaveComplete =>
      obtain ⟨cb, leaving⟩ := ready
      have allowed : transition s.t.goal (.leave (.complete .noop)) = .ok cb := by rw [leaving]; rfl
      exact ⟨_, setGoal_ok (s := { s with t := { s.t with evaluate := false } }) allowed, now.kept⟩
    | increaseDegree =>
      obtain ⟨t', done, on'⟩ := now.increaseDegree ready
      refine ⟨{ s with t := t' }, ?_, on'.kept⟩
      show (T.increaseDegree m _ >>= _) = _
      rw [done]
      rfl
    | decreaseDegree =>
      obtain ⟨t', done, on'⟩ := now.decreaseDegree ready
      refine ⟨{ s with t := t' }, ?_, on'.kept⟩
      show (T.decreaseDegree m _ >>= _) = _
      rw [done]
      rfl
  obtain ⟨s', done, kept'⟩ := acted
  refine ⟨s', ?_, kept'⟩
  rw [St.evaluateN, if_pos on.gossip, decided]
  exact done

theorem Reach.kept (reach : Reach m St.Settled s) (hm : 8 ≤ m) : Kept m s := by
  induction reach with
  | new desiredDegree => exact ⟨inv_new m desiredDegree, fun _ => ⟨rfl, rfl, _, rfl⟩⟩
  | changeGoal goal _ done ih => exact ih.changeGoal done
  | @back s s' _ settled done ih =>
    cases top : s.stack with
    | nil =>
      unfold St.back at done
      rw [top] at done
      cases done
      exact ih
    | cons f rest =>
      cases f with
      | setGoal goal =>
        obtain ⟨t', done', on'⟩ := ih.back settled top
        rw [done] at done'
        cases done'
        exact (on'.scheduled true).kept
      | onJoin =>
        have on := ih.on (.inr (by rw [top]; nofun))
        unfold St.back at done
        rw [top] at done
        obtain ⟨rfl, -⟩ := setGoal_stack (s := { s with stack := rest }) done
        exact on.kept
  | raised _ ih => exact (ih.on (.inr (by nofun))).kept
  | @link t t' stack i master slave _ on done ih =>
    by_cases inside : i < t.table.length
    · obtain ⟨t₁, done', on'⟩ := On.link ⟨ih.toInv, on⟩ inside master slave
      rw [done] at done'
      cases done'
      exact on'.kept
    · have outside : t.table[i]? = none := List.getElem?_eq_none (by omega)
      simp [T.setState, outside] at done
  | clients _ on ih => exact (On.scheduled ⟨ih.toInv, on⟩ true).kept
  | evaluateN noClients _ scheduled done ih =>
    obtain ⟨s₁, done', kept⟩ := ih.evaluateN hm scheduled noClients
    rw [done] at done'
    cases done'
    exact kept

/-- The degrees of a state are under control. -/
structure Controlled (m : Nat) (s : St) : Prop where
  minDegree : s.t.minDegree = total (fun l => (links l).min) s.t.table
  actualDegree : s.t.actualDegree = total (fun l => (links l).actual) s.t.table
  maxDegree : s.t.maxDegree = total (fun l => (links l).max) s.t.table
  le : s.t.minDegree ≤ s.t.actualDegree ∧ s.t.actualDegree ≤ s.t.maxDegree
  joins : ∀ (i : Nat) (l : Location), s.t.table[i]? = some l → ((∃ g, l.goal = .join g) ↔ i < s.t.activeLocations)
  leaving : (∃ p, s.t.goal = .leave p) → ∀ l ∈ s.t.table, ¬ ∃ g, l.goal = .join g
  joining : (∃ p, s.t.goal = .join p) → 1 ≤ s.t.activeLocations
  /-- `doEvaluateN` raises nothing, neither where it decides nor in what it does. -/
  decides : ∀ noClients, ∃ a, action m s.t noClients = .ok a ∧
    (a = .increaseDegree → s.t.activeLocations < s.t.table.length) ∧ (a = .decreaseDegree → 0 < s.t.activeLocations)
  evaluates : s.t.evaluate = true → ∀ noClients, ∃ s', s.evaluateN m noClients = .ok s'
  /-- No update of the degrees raises, -/
  updates : ∀ (i : Nat) (master : Peer Bool) (slave : Peer Unit), i < s.t.table.length →
    ∃ t', s.t.setState m i master slave = .ok t'
  /-- and none of those of a new goal. -/
  stores : ∀ goal rest, s.stack = .setGoal goal :: rest → s.Settled → ∃ s', s.back m = .ok s'

theorem Kept.controlled (kept : Kept m s) (least : 8 ≤ m) : Controlled m s := by
  have inv := kept.toInv
  refine ⟨inv.min, inv.actual, inv.max, inv.toBooks.le, inv.joins, ?_, ?_, ?_, ?_, ?_, ?_⟩
  · intro ⟨p, leaving⟩ l hl
    obtain ⟨i, hi⟩ := List.getElem?_of_mem hl
    have active := inv.active
    rw [leaving] at active
    have none : s.t.activeLocations = 0 := active
    rw [inv.joins i l hi]
    omega
  · intro ⟨p, joining⟩
    have active := inv.active
    rw [joining] at active
    cases p with
    | inProgress cb =>
      have half : s.t.activeLocations = m / 2 := active
      omega
    | complete cb =>
      have half := active.1
      omega
  · intro noClients
    obtain ⟨a, decided, ready⟩ := inv.action least noClients
    refine ⟨a, decided, ?_, ?_⟩
    · rintro rfl
      exact ready.2
    · rintro rfl
      have := ready.2
      omega
  · intro scheduled noClients
    obtain ⟨s', done, -⟩ := kept.evaluateN least scheduled noClients
    exact ⟨s', done⟩
  · intro i master slave h
    obtain ⟨t', done, -⟩ := inv.toBooks.setState (m := m) h master slave
    exact ⟨t', done⟩
  · intro goal rest top settled
    obtain ⟨t', done, -⟩ := kept.back settled top
    exact ⟨_, done⟩

/-- A completed join that is stored over a leave has no active locations. -/
theorem Kept.overwritten (kept : Kept m s) (unsettled : ¬ s.Settled) (done : s.back m = .ok s') : ¬ Controlled m s' := by
  intro controlled
  unfold St.Settled at unsettled
  split at unsettled
  · rename_i cb rest top
    have leaving : ∃ p, s.t.goal = .leave p := by
      cases goal : s.t.goal with
      | join p => exact absurd ⟨p, goal⟩ unsettled
      | leave p => exact ⟨p, rfl⟩
    obtain ⟨p, leaving⟩ := leaving
    have active := kept.active
    rw [leaving] at active
    have none : s.t.activeLocations = 0 := active
    have books : Books { s.t with goal := .join (.complete cb) } := ⟨kept.entries, kept.min, kept.actual, kept.max⟩
    have least := kept.least
    have length := kept.length
    obtain ⟨t', stored, -, same, -⟩ := books.setGoals (m := m) (fun _ _ => .join .peer) (m / 2) 0 _
      (show 0 + m / 2 ≤ s.t.table.length by omega)
    have store : s.t.store m (.join (.complete cb)) = .ok t' := stored
    unfold St.back at done
    rw [top] at done
    have done' : (s.t.store m (.join (.complete cb)) >>= fun t => pure (⟨{ t with evaluate := true }, rest⟩ : St)) = .ok s' := done
    rw [store] at done'
    cases done'
    have some := controlled.joining ⟨_, same.goal⟩
    have zero : t'.activeLocations = 0 := same.active.trans none
    have some' : 1 ≤ t'.activeLocations := some
    omega
  · exact unsettled trivial

/-- The degrees are under control in every run in which each callback of a completing join
returns to a goal to join, and only in those. -/
theorem reach_controlled (reach : Reach m St.Settled s) (least : 8 ≤ m) :
    Controlled m s ∧ (¬ s.Settled → ∀ s', s.back m = .ok s' → ¬ Controlled m s') := by
  have kept := reach.kept least
  exact ⟨kept.controlled least, fun unsettled _ done => kept.overwritten unsettled done⟩

/-- A node whose first two locations get both neighbours, and whose join completes. -/
theorem reach_controlled_joined :
    ∃ s, Reach 16 St.Settled s ∧ s.t.goal = .join (.complete .unadvertise) ∧ s.t.activeLocations = 8 ∧ Controlled 16 s := by
  have h1 : Reach 16 St.Settled _ := (Reach.new 20).changeGoal (.join (.inProgress (.user 0))) rfl
  have h2 := h1.back trivial rfl
  have h3 := h2.link 0 (.connected true) (.connected ()) rfl rfl
  have h4 := h3.link 1 (.connected true) (.connected ()) rfl rfl
  have h5 := h4.evaluateN true rfl rfl
  have h6 := h5.back trivial rfl
  have h7 := h6.back ⟨_, rfl⟩ rfl
  exact ⟨_, h7, rfl, rfl, (reach_controlled h7 (by decide)).1⟩

/-- The callback of the join leaves, and returns: the goal is joined, with eight locations to
join of which none is active. -/
theorem leave_overwritten : ¬ ∀ s, Reach 16 (fun _ => True) s → Controlled 16 s := by
  intro all
  have h1 : Reach 16 (fun _ => True) _ := (Reach.new 20).changeGoal (.join (.inProgress (.user 0))) rfl
  have h2 := h1.back trivial rfl
  have h3 := h2.link 0 (.connected true) (.connected ()) rfl rfl
  have h4 := h3.link 1 (.connected true) (.connected ()) rfl rfl
  have h5 := h4.evaluateN true rfl rfl
  have h6 := h5.back trivial rfl
  have h7 := h6.changeGoal (.leave (.inProgress (.user 1))) rfl
  have h8 := h7.back trivial rfl
  have h9 := h8.back trivial rfl
  have active := (all _ h9).joining ⟨_, rfl⟩
  exact absurd active (by decide)

end BubbleStorm.Topology.Degrees
