/-
  BubbleStorm.Topology.Create — a first peer builds the ring with itself
  (`src/bubblestorm/topology/actions/create.sml`, `contact-slave.sml`, and the slots of
  `src/bubblestorm/topology/state/location.sml` that the connections go through).

  Every active location contacts the `makeSlave` entry of the next one. The number of
  entries is taken from the desired degree, and so is the modulus, but `setGoal` activates
  only as many locations as the minimum degree asks for.
  - `setups_eq`: what the loop starts.
  - `Connects.all`: connections with different ends can succeed in any order.
  - `create_ring_iff`: the connections form one ring of the active locations exactly when
    both numbers agree.
-/

import BubbleStorm.Topology.Locations
import BubbleStorm.Lib.Outcome
import Mathlib.Logic.Relation

namespace BubbleStorm.Topology.Locations

open List (foldlM_cons range)
open Config (minDegree)
open BubbleStorm.Cusp (Exn)
open Lib (bind_eq_ok)

namespace T

def sub (t : T) (i : Nat) : Except Exn Location :=
  match t.table[i]? with
  | some l => .ok l
  | none => .error .subscript

def setActiveLocations (t : T) (value : Nat) : T := { t with activeLocations := value }

/-- The callback that the transition runs, and the goals. -/
def setGoal (t : T) (goal : Goal) : Except Exn (Callback × T) := do
  let cb ← transition t.goal goal
  pure (cb, t.store goal)

/-- The state of location `i`. -/
def setState (t : T) (i : Nat) (l : Location) : T := { t with table := t.table.set i l }

def connectSlave (t : T) (i : Nat) : Except Exn T := do
  let l ← t.sub i
  match l.slave with
  | .nothing => pure (t.setState i { l with slave := .connecting })
  | _ => .error (.fail "not NOTHING")

def connectMaster (t : T) (i : Nat) : Except Exn T := do
  let l ← t.sub i
  match l.master with
  | .nothing => pure (t.setState i { l with master := .connecting })
  | _ => .error (.fail "not NOTHING")

def failedSlave (t : T) (i : Nat) : Except Exn T := do
  let l ← t.sub i
  match l.slave with
  | .connecting => pure (t.setState i { l with slave := .nothing })
  | _ => .error (.fail "not CONNECTING")

def installSlave (t : T) (i : Nat) : Except Exn T := do
  let l ← t.sub i
  match l.slave with
  | .connecting => pure (t.setState i { l with slave := .connected () })
  | _ => .error (.fail "not CONNECTING")

/-- A master that was met has no `upgrade`. -/
def installMaster (t : T) (i : Nat) : Except Exn T := do
  let l ← t.sub i
  match l.master with
  | .connecting => pure (t.setState i { l with master := .connected false })
  | _ => .error (.fail "not CONNECTING")

end T

/-- A connection that was started: the location, and the location of the `makeSlave` entry. -/
abbrev Connection := Nat × Nat

/-- `CUSP.Address.invalid` is `none`. -/
abbrev Address := Option Nat

/-- The connections that were started so far go along. -/
def contactSlave (location : Nat) (address : Address) (makeSlave : Nat) (s : T × List Connection) :
    Except Exn (T × List Connection) :=
  if address = none then do
    let t ← s.1.failedSlave location
    pure (t, s.2)
  else pure (s.1, s.2 ++ [(location, makeSlave)])

/-- Connect the location to the next. -/
def setup (numLocations : Nat) (makeSlaveTable : List Nat) (myAddress : Address) (s : T × List Connection)
    (masterLocation : Nat) : Except Exn (T × List Connection) := do
  let slaveLocation := (masterLocation + 1) % numLocations
  let makeSlave ← match makeSlaveTable[slaveLocation]? with
    | some x => pure x
    | none => .error .subscript
  let t ← s.1.connectSlave masterLocation
  contactSlave masterLocation myAddress makeSlave (t, s.2)

def doCreate (t : T) (myAddress : Address) (cb : Callback) : Except Exn (T × List Connection) := do
  let numLocations := t.desiredDegree / 2
  let t := t.setActiveLocations numLocations
  let (_, t) ← t.setGoal (.join (.inProgress cb))
  -- an entry is known by the location it is made for
  let makeSlaveTable := range numLocations
  (range t.activeLocations).foldlM (setup numLocations makeSlaveTable myAddress) (t, [])

/-- `Topology.create`. -/
def create (t : T) (myAddress : Address) (cb : Callback) : Except Exn (T × List Connection) :=
  match t.goal with
  | .leave (.complete _) => doCreate t myAddress cb
  | _ => .error (.fail "create called on running topology")

/-- Both ends of a connection that succeeds: the target meets its master (`handleMakeSlave`),
    and the location its slave (`handleFoundSlave`). -/
def succeed (t : T) (c : Connection) : Except Exn T := do
  let t ← t.connectMaster c.2
  let t ← t.installMaster c.2
  t.installSlave c.1

/-! ## A ring -/

def T.Active (t : T) (i : Nat) : Prop := i < t.activeLocations

/-- Both slots of the location hold a neighbour. -/
def Location.Linked (l : Location) : Prop := (∃ x, l.master = .connected x) ∧ ∃ x, l.slave = .connected x

/-- The connections form one cycle through exactly the active locations. -/
structure Ring (t : T) (started : List Connection) : Prop where
  nonempty : 0 < t.activeLocations
  initiates : ∀ i, t.Active i → ∃ s, started.filter (fun c => c.1 = i) = [(i, s)]
  target : ∀ i, t.Active i → ∃ m, started.filter (fun c => c.2 = i) = [(m, i)]
  active : ∀ c ∈ started, t.Active c.1 ∧ t.Active c.2
  cycle : ∀ i j, t.Active i → t.Active j → Relation.ReflTransGen (fun a b => (a, b) ∈ started) i j
  succeeds : ∀ order : List Connection, order.Perm started → ∃ t', order.foldlM succeed t = .ok t' ∧
    ∀ i : Nat, t.Active i → ∃ l, t'.table[i]? = some l ∧ l.Linked

/-- Nothing goes on in the topology. -/
structure Offline (t : T) : Prop where
  goal : ∃ cb, t.goal = .leave (.complete cb)
  size : t.table.length = t.desiredDegree
  desired : minDegree ≤ t.desiredDegree
  slots : ∀ l ∈ t.table, l.master = .nothing ∧ l.slave = .nothing

theorem offline_new (desiredDegree : Nat) : Offline (new desiredDegree) where
  goal := ⟨.noop, rfl⟩
  size := List.length_replicate
  desired := Nat.le_max_right _ _
  slots := by
    intro l hl
    rw [List.eq_of_mem_replicate hl]
    exact ⟨rfl, rfl⟩

/-! ## What the loop starts -/

theorem sub_eq {t : T} {i : Nat} {l : Location} (h : t.table[i]? = some l) : t.sub i = .ok l := by
  simp [T.sub, h]

theorem setState_get {t : T} {i j : Nat} {l l' : Location} (h : t.table[i]? = some l') :
    (t.setState i l).table[j]? = if j = i then some l else t.table[j]? := by
  by_cases e : j = i
  · subst e
    rw [T.setState, List.getElem?_set_self (List.getElem?_eq_some_iff.mp h).1, if_pos rfl]
  · rw [T.setState, List.getElem?_set_ne (Ne.symm e), if_neg e]

theorem connectSlave_eq {t : T} {i : Nat} {l : Location} (h : t.table[i]? = some l) (hs : l.slave = .nothing) :
    t.connectSlave i = .ok (t.setState i { l with slave := .connecting }) := by
  rw [T.connectSlave, sub_eq h]
  show (match l.slave with | .nothing => _ | _ => _) = _
  rw [hs]
  rfl

/-- The slots of the locations before `k` are connecting, those from `k` on are empty. -/
structure Started (t : T) (k : Nat) : Prop where
  before : ∀ i < k, ∃ l, t.table[i]? = some l ∧ l.master = .nothing ∧ l.slave = .connecting
  after : ∀ i, k ≤ i → ∀ l, t.table[i]? = some l → l.master = .nothing ∧ l.slave = .nothing

theorem setup_eq {t : T} {k n : Nat} (address : Nat) (cs : List Connection) (h : Started t k) (hk : k < t.table.length) (hn : 0 < n) :
    ∃ t', setup n (range n) (some address) (t, cs) k = .ok (t', cs ++ [(k, (k + 1) % n)]) ∧ Started t' (k + 1) ∧
      t'.activeLocations = t.activeLocations ∧ t'.table.length = t.table.length := by
  have hx := List.getElem?_eq_getElem hk
  obtain ⟨hm, hs⟩ := h.after k (Nat.le_refl k) _ hx
  refine ⟨t.setState k { t.table[k] with slave := .connecting }, ?_, ⟨?_, ?_⟩, rfl, by simp [T.setState]⟩
  · simp only [setup, List.getElem?_range (Nat.mod_lt _ hn), connectSlave_eq hx hs]
    rfl
  · intro i hi
    rw [setState_get hx]
    by_cases e : i = k
    · rw [if_pos e]
      exact ⟨_, rfl, hm, rfl⟩
    · rw [if_neg e]
      exact h.before i (by omega)
  · intro i hi l hl
    rw [setState_get hx, if_neg (by omega)] at hl
    exact h.after i (by omega) l hl

/-- Each of the first `k` locations is connected to the next, modulo `n`. -/
theorem setups_eq {t : T} {n : Nat} (address : Nat) (h : Started t 0) (hn : 0 < n) (k : Nat) (hk : k ≤ t.table.length) :
    ∃ t', (range k).foldlM (setup n (range n) (some address)) (t, []) =
        .ok (t', (range k).map fun i => (i, (i + 1) % n)) ∧
      Started t' k ∧ t'.activeLocations = t.activeLocations ∧ t'.table.length = t.table.length := by
  induction k with
  | zero => exact ⟨t, rfl, h, rfl, rfl⟩
  | succ k ih =>
    obtain ⟨t₁, h₁, S₁, ha, hl⟩ := ih (by omega)
    obtain ⟨t₂, h₂, S₂, ha', hl'⟩ := setup_eq address ((range k).map fun i => (i, (i + 1) % n)) S₁
      (by omega) hn
    refine ⟨t₂, ?_, S₂, ha'.trans ha, hl'.trans hl⟩
    rw [List.range_succ, List.foldlM_append, List.map_append]
    refine bind_eq_ok.mpr ⟨_, h₁, ?_⟩
    rw [foldlM_cons]
    exact bind_eq_ok.mpr ⟨_, h₂, rfl⟩

/-- Without an address nothing is started. -/
theorem setups_invalid {t : T} {n : Nat} (h : Started t 0) (hn : 0 < n) (k : Nat) (hk : k ≤ t.table.length) :
    (range k).foldlM (setup n (range n) none) (t, []) = .ok (t, []) := by
  induction k with
  | zero => rfl
  | succ k ih =>
    have hx := List.getElem?_eq_getElem (show k < t.table.length by omega)
    obtain ⟨hm, hs⟩ := h.after k (Nat.zero_le k) _ hx
    rw [List.range_succ, List.foldlM_append]
    refine bind_eq_ok.mpr ⟨_, ih (by omega), ?_⟩
    rw [foldlM_cons]
    refine bind_eq_ok.mpr ⟨(t, []), ?_, rfl⟩
    have hback : (t.setState k { t.table[k] with slave := .connecting }).setState k
        { t.table[k] with slave := .nothing } = t := by
      have e : ({ t.table[k] with slave := .nothing } : Location) = t.table[k] := by rw [← hs]
      rw [T.setState, T.setState, List.set_set, e, List.set_getElem_self]
    have hget : (t.setState k { t.table[k] with slave := .connecting }).table[k]? =
        some { t.table[k] with slave := .connecting } := by
      rw [setState_get hx, if_pos rfl]
    simp only [setup, List.getElem?_range (Nat.mod_lt _ hn), connectSlave_eq hx hs]
    show (T.failedSlave (t.setState k { t.table[k] with slave := .connecting }) k >>= _) = _
    rw [T.failedSlave, sub_eq hget]
    show Except.ok _ = _
    rw [hback]

/-! ## What succeeds -/

/-- The connections can still succeed. -/
structure Connects (t : T) (cs : List Connection) : Prop where
  sources : (cs.map (·.1)).Nodup
  targets : (cs.map (·.2)).Nodup
  slave : ∀ c ∈ cs, ∃ l, t.table[c.1]? = some l ∧ l.slave = .connecting
  master : ∀ c ∈ cs, ∃ l, t.table[c.2]? = some l ∧ l.master = .nothing

/-- A slot that is connected stays so. -/
def Keeps (t t' : T) : Prop :=
  ∀ (i : Nat) l, t.table[i]? = some l → ∃ l', t'.table[i]? = some l' ∧ ((∃ x, l.master = .connected x) → ∃ x, l'.master = .connected x) ∧
    ((∃ x, l.slave = .connected x) → ∃ x, l'.slave = .connected x)

theorem Keeps.refl (t : T) : Keeps t t := fun _ l hl => ⟨l, hl, id, id⟩

theorem Keeps.trans {t t' t'' : T} (h : Keeps t t') (h' : Keeps t' t'') : Keeps t t'' := by
  intro i l hl
  obtain ⟨l', hl', hm, hs⟩ := h i l hl
  obtain ⟨l'', hl'', hm', hs'⟩ := h' i l' hl'
  exact ⟨l'', hl'', hm' ∘ hm, hs' ∘ hs⟩

/-- The master slot of `s` and the slave slot of `m` are filled, the others are as they were. -/
theorem succeed_eq {t : T} {m s : Nat} {lm ls : Location} (hm : t.table[m]? = some lm) (hs : t.table[s]? = some ls)
    (hslave : lm.slave = .connecting) (hmaster : ls.master = .nothing) :
    ∃ t', succeed t (m, s) = .ok t' ∧ ∀ i l, t.table[i]? = some l → ∃ l', t'.table[i]? = some l' ∧
      l'.master = (if i = s then .connected false else l.master) ∧ l'.slave = (if i = m then .connected () else l.slave) := by
  obtain ⟨t₁, h₁⟩ : ∃ t₁, t₁ = t.setState s { ls with master := .connecting } := ⟨_, rfl⟩
  obtain ⟨t₂, h₂⟩ : ∃ t₂, t₂ = t₁.setState s { ls with master := .connected false } := ⟨_, rfl⟩
  have g₁ : t₁.table[s]? = some { ls with master := .connecting } := by rw [h₁, setState_get hs, if_pos rfl]
  have g₂ : ∀ i, t₂.table[i]? = if i = s then some { ls with master := .connected false } else t.table[i]? := by
    intro i
    rw [h₂, setState_get g₁, h₁, setState_get hs]
    by_cases e : i = s
    · simp [e]
    · simp [e]
  obtain ⟨lm', hm', hms, hmm⟩ : ∃ lm', t₂.table[m]? = some lm' ∧ lm'.slave = .connecting ∧
      lm'.master = (if m = s then .connected false else lm.master) := by
    by_cases e : m = s
    · subst e
      rw [hm] at hs
      cases hs
      exact ⟨{ lm with master := .connected false }, by rw [g₂, if_pos rfl], hslave, by rw [if_pos rfl]⟩
    · exact ⟨lm, by rw [g₂, if_neg e, hm], hslave, by rw [if_neg e]⟩
  refine ⟨t₂.setState m { lm' with slave := .connected () }, ?_, ?_⟩
  · have e₁ : t.connectMaster s = .ok t₁ := by
      rw [T.connectMaster, sub_eq hs]
      show (match ls.master with | .nothing => _ | _ => _) = _
      rw [hmaster, h₁]
      rfl
    have e₂ : t₁.installMaster s = .ok t₂ := by
      rw [T.installMaster, sub_eq g₁, h₂]
      rfl
    have e₃ : t₂.installSlave m = .ok (t₂.setState m { lm' with slave := .connected () }) := by
      rw [T.installSlave, sub_eq hm']
      show (match lm'.slave with | .connecting => _ | _ => _) = _
      rw [hms]
      rfl
    exact bind_eq_ok.mpr ⟨_, e₁, bind_eq_ok.mpr ⟨_, e₂, e₃⟩⟩
  · intro i l hl
    rw [setState_get hm', g₂]
    by_cases em : i = m
    · subst em
      rw [hl] at hm
      cases hm
      exact ⟨{ lm' with slave := .connected () }, by rw [if_pos rfl], hmm, by rw [if_pos rfl]⟩
    · by_cases es : i = s
      · subst es
        rw [hl] at hs
        cases hs
        exact ⟨{ ls with master := .connected false }, by rw [if_neg em, if_pos rfl], by rw [if_pos rfl], by rw [if_neg em]⟩
      · exact ⟨l, by rw [if_neg em, if_neg es, hl], by rw [if_neg es], by rw [if_neg em]⟩

/-- Connections of different locations to different locations all succeed. -/
theorem Connects.all {t : T} {cs : List Connection} (C : Connects t cs) :
    ∃ t', cs.foldlM succeed t = .ok t' ∧ Keeps t t' ∧ (∀ c ∈ cs, ∃ l, t'.table[c.1]? = some l ∧ ∃ x, l.slave = .connected x) ∧
      ∀ c ∈ cs, ∃ l, t'.table[c.2]? = some l ∧ ∃ x, l.master = .connected x := by
  induction cs generalizing t with
  | nil => exact ⟨t, rfl, .refl t, by simp, by simp⟩
  | cons c cs ih =>
    obtain ⟨m, s⟩ := c
    obtain ⟨lm, hm, hslave⟩ := C.slave (m, s) (.head _)
    obtain ⟨ls, hs, hmaster⟩ := C.master (m, s) (.head _)
    obtain ⟨t₁, h₁, g₁⟩ := succeed_eq hm hs hslave hmaster
    obtain ⟨hsrc, hsrcs⟩ := List.nodup_cons.mp C.sources
    obtain ⟨htgt, htgts⟩ := List.nodup_cons.mp C.targets
    have C₁ : Connects t₁ cs := by
      refine ⟨hsrcs, htgts, ?_, ?_⟩
      · intro c hc
        obtain ⟨l, hl, hx⟩ := C.slave c (List.mem_cons_of_mem _ hc)
        obtain ⟨l', hl', -, hx'⟩ := g₁ _ l hl
        have hne : c.1 ≠ m := fun e => hsrc (List.mem_map.mpr ⟨c, hc, e⟩)
        exact ⟨l', hl', by rw [hx', if_neg hne, hx]⟩
      · intro c hc
        obtain ⟨l, hl, hx⟩ := C.master c (List.mem_cons_of_mem _ hc)
        obtain ⟨l', hl', hx', -⟩ := g₁ _ l hl
        have hne : c.2 ≠ s := fun e => htgt (List.mem_map.mpr ⟨c, hc, e⟩)
        exact ⟨l', hl', by rw [hx', if_neg hne, hx]⟩
    have K₁ : Keeps t t₁ := by
      intro i l hl
      obtain ⟨l', hl', hm', hs'⟩ := g₁ i l hl
      refine ⟨l', hl', ?_, ?_⟩
      · intro ⟨x, hx⟩
        rw [hm', hx]
        by_cases e : i = s
        · exact ⟨false, by rw [if_pos e]⟩
        · exact ⟨x, by rw [if_neg e]⟩
      · intro ⟨x, hx⟩
        exact ⟨(), by rw [hs', hx]; simp⟩
    obtain ⟨t', h', K', hsl, hma⟩ := ih C₁
    refine ⟨t', ?_, K₁.trans K', ?_, ?_⟩
    · rw [foldlM_cons]
      exact bind_eq_ok.mpr ⟨_, h₁, h'⟩
    · intro c hc
      rcases List.mem_cons.mp hc with rfl | hc
      · obtain ⟨l', hl', -, hx'⟩ := g₁ m lm hm
        obtain ⟨l'', hl'', -, hk⟩ := K' m l' hl'
        exact ⟨l'', hl'', hk ⟨(), by rw [hx', if_pos rfl]⟩⟩
      · exact hsl c hc
    · intro c hc
      rcases List.mem_cons.mp hc with rfl | hc
      · obtain ⟨l', hl', hx', -⟩ := g₁ s ls hs
        obtain ⟨l'', hl'', hk, -⟩ := K' s l' hl'
        exact ⟨l'', hl'', hk ⟨false, by rw [hx', if_pos rfl]⟩⟩
      · exact hma c hc

/-! ## When it is a ring -/

theorem store_started {t : T} (h : Offline t) (cb : Callback) (n : Nat) :
    Started ((t.setActiveLocations n).store (.join (.inProgress cb))) 0 ∧
      ((t.setActiveLocations n).store (.join (.inProgress cb))).table.length = t.desiredDegree := by
  refine ⟨⟨fun i hi => absurd hi (Nat.not_lt_zero i), ?_⟩, ?_⟩
  · intro i _ l hl
    simp only [T.store, T.setGoals, T.setActiveLocations, List.getElem?_mapIdx] at hl
    obtain ⟨l', hl', rfl⟩ := Option.map_eq_some_iff.mp hl
    exact h.slots l' (List.mem_of_getElem? hl')
  · simp [T.store, T.setGoals, T.setActiveLocations, h.size]

/-- What creating the ring comes to: the goals are stored, and the loop runs. -/
theorem create_eq {t : T} (h : Offline t) (myAddress : Address) (cb : Callback) :
    create t myAddress cb = (range (minDegree / 2)).foldlM
      (setup (t.desiredDegree / 2) (range (t.desiredDegree / 2)) myAddress)
      ((t.setActiveLocations (t.desiredDegree / 2)).store (.join (.inProgress cb)), []) := by
  obtain ⟨cb', hg⟩ := h.goal
  rw [create, hg]
  show doCreate t myAddress cb = _
  have hset : (t.setActiveLocations (t.desiredDegree / 2)).setGoal (.join (.inProgress cb)) =
      .ok (cb', (t.setActiveLocations (t.desiredDegree / 2)).store (.join (.inProgress cb))) := by
    simp only [T.setGoal, T.setActiveLocations, hg]
    rfl
  rw [doCreate]
  simp only [hset]
  rfl

/-- The ring of `n` locations. -/
theorem ring_cycle {n : Nat} (i j : Nat) (hi : i < n) (hj : j < n) :
    Relation.ReflTransGen (fun a b => (a, b) ∈ (range n).map fun i => (i, (i + 1) % n)) i j := by
  have step : ∀ a, a < n → (a, (a + 1) % n) ∈ (range n).map fun i => (i, (i + 1) % n) := fun a ha =>
    List.mem_map.mpr ⟨a, List.mem_range.mpr ha, rfl⟩
  -- `d` steps from `i`
  have walk : ∀ d, Relation.ReflTransGen (fun a b => (a, b) ∈ (range n).map fun i => (i, (i + 1) % n)) i ((i + d) % n) := by
    intro d
    induction d with
    | zero =>
      rw [Nat.add_zero, Nat.mod_eq_of_lt hi]
    | succ d ih =>
      refine ih.tail ?_
      have := step ((i + d) % n) (Nat.mod_lt _ (by omega))
      rwa [Nat.mod_add_mod] at this
  have := walk (n - i + j)
  rwa [show i + (n - i + j) = n + j by omega, Nat.add_mod_left, Nat.mod_eq_of_lt hj] at this

theorem ring_of_eq {t' : T} (hS : Started t' (minDegree / 2)) (ha : t'.activeLocations = minDegree / 2) :
    Ring t' ((range (minDegree / 2)).map fun i => (i, (i + 1) % (minDegree / 2))) := by
  have hact : ∀ i, t'.Active i ↔ i < minDegree / 2 := by
    intro i
    rw [T.Active, ha]
  have hsmall : ∀ i, t'.Active i → i ∈ range 8 := fun i hi => List.mem_range.mpr ((hact i).mp hi)
  refine ⟨by rw [ha]; decide, ?_, ?_, ?_, ?_, ?_⟩
  · intro i hi
    have all : ∀ i ∈ range 8, ∃ s ∈ range 8,
        ((range (minDegree / 2)).map fun i => (i, (i + 1) % (minDegree / 2))).filter (fun c => c.1 = i) =
          [(i, s)] := by decide
    obtain ⟨s, -, hs⟩ := all i (hsmall i hi)
    exact ⟨s, hs⟩
  · intro i hi
    have all : ∀ i ∈ range 8, ∃ m ∈ range 8,
        ((range (minDegree / 2)).map fun i => (i, (i + 1) % (minDegree / 2))).filter (fun c => c.2 = i) =
          [(m, i)] := by decide
    obtain ⟨m, -, hm⟩ := all i (hsmall i hi)
    exact ⟨m, hm⟩
  · intro c hc
    obtain ⟨i, hi, rfl⟩ := List.mem_map.mp hc
    exact ⟨(hact _).mpr (List.mem_range.mp hi), (hact _).mpr (Nat.mod_lt _ (by decide))⟩
  · intro i j hi hj
    exact ring_cycle i j ((hact i).mp hi) ((hact j).mp hj)
  · intro order horder
    have hmem : ∀ c ∈ order, c.1 < minDegree / 2 ∧ c.2 < minDegree / 2 := by
      intro c hc
      obtain ⟨i, hi, rfl⟩ := List.mem_map.mp (horder.mem_iff.mp hc)
      exact ⟨List.mem_range.mp hi, Nat.mod_lt _ (by decide)⟩
    have C : Connects t' order := by
      refine ⟨?_, ?_, ?_, ?_⟩
      · exact ((horder.map _).nodup_iff).mpr (by decide)
      · exact ((horder.map _).nodup_iff).mpr (by decide)
      · intro c hc
        obtain ⟨l, hl, -, hs⟩ := hS.before c.1 (hmem c hc).1
        exact ⟨l, hl, hs⟩
      · intro c hc
        obtain ⟨l, hl, hm, -⟩ := hS.before c.2 (hmem c hc).2
        exact ⟨l, hl, hm⟩
    obtain ⟨t'', h'', -, hsl, hma⟩ := C.all
    refine ⟨t'', h'', ?_⟩
    intro i hi
    have all : ∀ i ∈ range 8,
        (∃ c ∈ (range (minDegree / 2)).map fun i => (i, (i + 1) % (minDegree / 2)), c.1 = i) ∧
          ∃ c ∈ (range (minDegree / 2)).map fun i => (i, (i + 1) % (minDegree / 2)), c.2 = i := by decide
    obtain ⟨⟨c, hc, hci⟩, d, hd, hdi⟩ := all i (hsmall i hi)
    obtain ⟨l, hl, hx⟩ := hsl c (horder.mem_iff.mpr hc)
    obtain ⟨l', hl', hx'⟩ := hma d (horder.mem_iff.mpr hd)
    rw [hci] at hl
    rw [hdi, hl] at hl'
    cases hl'
    exact ⟨l, hl, hx', hx⟩

/-- Whether the ring closes, from every state in which the topology is offline. -/
theorem create_ring_iff (t : T) (h : Offline t) (myAddress : Address) (cb : Callback) :
    (∃ t' started, create t myAddress cb = .ok (t', started) ∧ Ring t' started) ↔
      myAddress ≠ none ∧ t.desiredDegree / 2 = minDegree / 2 := by
  have hmin := h.desired
  have h8 : minDegree = 16 := rfl
  obtain ⟨hS, hlen⟩ := store_started h cb (t.desiredDegree / 2)
  have hact : ((t.setActiveLocations (t.desiredDegree / 2)).store (.join (.inProgress cb))).activeLocations =
      minDegree / 2 := rfl
  rw [create_eq h]
  constructor
  · intro ⟨t', started, hc, R⟩
    cases myAddress with
    | none =>
      rw [setups_invalid hS (by omega) _ (by omega)] at hc
      cases hc
      obtain ⟨s, hs⟩ := R.initiates 0 R.nonempty
      cases hs
    | some address =>
      obtain ⟨t₁, h₁, -, ha, -⟩ := setups_eq address hS (n := t.desiredDegree / 2) (by omega)
        (minDegree / 2) (by omega)
      rw [h₁] at hc
      cases hc
      refine ⟨by simp, ?_⟩
      -- the target of the last active location is active only when it wraps around
      have hlast : (7, (7 + 1) % (t.desiredDegree / 2)) ∈
          (range (minDegree / 2)).map fun i => (i, (i + 1) % (t.desiredDegree / 2)) :=
        List.mem_map.mpr ⟨7, by decide, rfl⟩
      have h2 := (R.active _ hlast).2
      rw [T.Active, ha, hact] at h2
      by_contra hne
      rw [Nat.mod_eq_of_lt (by omega)] at h2
      omega
  · intro ⟨haddr, heq⟩
    obtain ⟨address, rfl⟩ := Option.ne_none_iff_exists'.mp haddr
    obtain ⟨t₁, h₁, S₁, ha, -⟩ := setups_eq address hS (n := t.desiredDegree / 2) (by omega)
      (minDegree / 2) (by omega)
    refine ⟨t₁, _, h₁, ?_⟩
    rw [heq]
    exact ring_of_eq S₁ (ha.trans hact)

theorem create_ring_iff_default :
    (∃ t' started, create (new 16) (some 1) .noop = .ok (t', started) ∧ Ring t' started) ↔
      (some 1 : Address) ≠ none ∧ (new 16).desiredDegree / 2 = minDegree / 2 :=
  create_ring_iff (new 16) (offline_new 16) (some 1) .noop

/-- With a degree of 20 the last of the eight active locations contacts the ninth, and no
    one contacts the first. -/
theorem create_twenty :
    (∃ t', create (new 20) (some 1) .noop = .ok (t', (range 8).map fun i => (i, i + 1)) ∧ t'.activeLocations = 8) ∧
      ¬ ∃ t' started, create (new 20) (some 1) .noop = .ok (t', started) ∧ Ring t' started := by
  have hS := store_started (offline_new 20) .noop 10
  obtain ⟨t', h', -, ha, -⟩ := setups_eq 1 hS.1 (n := 10) (by decide) 8 (by rw [hS.2]; decide)
  have hc : create (new 20) (some 1) .noop = .ok (t', (range 8).map fun i => (i, i + 1)) := by
    rw [create_eq (offline_new 20)]
    exact h'
  refine ⟨⟨t', hc, ha⟩, ?_⟩
  intro ⟨t'', started, h'', R⟩
  rw [hc] at h''
  cases h''
  have h2 := (R.active (7, 8) (by decide)).2
  rw [T.Active, ha] at h2
  exact absurd h2 (by decide)

end BubbleStorm.Topology.Locations
