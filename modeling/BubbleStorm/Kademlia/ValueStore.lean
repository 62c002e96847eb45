/-
  BubbleStorm.Kademlia.ValueStore — the values that a node holds for others, over time
  (`src/kademlia/simple-value-store.fun`).

  `Receive` has the handlers as the network meets them. Here a value also has the date of
  its last store, and every ten minutes the store is checked: what has expired is removed,
  the rest is stored again in the network an hour after the last time.

  Whatever was stored is held until it expires, unless by one that expires later or as late
  and came after it, and gone a check after that; and no value waits longer than an hour and a check for its next store
  (`value_store`).

  The node comes first: `setNode` has been called. The factor of the expiration is a
  parameter, as it is a real number.
-/

import BubbleStorm.Util.Hash.HashTableMap

namespace BubbleStorm.Kademlia.ValueStore

variable {Id Vec : Type} [DecidableEq Id]

/-! ## The store -/

/-- In nanoseconds. -/
def tRepublish : Int := 3600 * 1000000000
def checkValueInterval : Int := 600 * 1000000000

/-- `valueMapEntry`. -/
structure Entry (Vec : Type) where
  value : Vec
  storeDate : Int
  expiryDate : Int

/-- A call of `storeHandler`, or of `Node.store`. -/
structure Call (Id Vec : Type) where
  date : Int
  id : Id
  value : Vec
  expiryDate : Int

structure T (Id Vec : Type) where
  now : Int
  values : List (Id × Entry Vec)
  /-- When `checkValueEvent` is run. -/
  check : Int
  calls : List (Call Id Vec)
  republished : List (Call Id Vec)

def new (now : Int) : T Id Vec := ⟨now, [], now + checkValueInterval, [], []⟩

def get (values : List (Id × Entry Vec)) (id : Id) : Option (Entry Vec) := (values.find? fun e => e.1 = id).map (·.2)

def set (values : List (Id × Entry Vec)) (id : Id) (e : Entry Vec) : List (Id × Entry Vec) := (id, e) :: values.filter fun x => x.1 ≠ id

/-- `retrieveHandler`. -/
def retrieveHandler (t : T Id Vec) (id : Id) : Option (Id × Vec × Int) := (get t.values id).map fun e => (id, e.value, e.expiryDate)

/-- With the factor of the node for the id, `multReal32`. -/
def storeHandler (factor : Id → Int → Int) (t : T Id Vec) (id : Id) (value : Vec) (expiryDate : Int) : T Id Vec :=
  let expiryDate := t.now + factor id (expiryDate - t.now)
  let values :=
    match get t.values id with
    | some old => if old.expiryDate ≤ expiryDate then set t.values id ⟨value, t.now, expiryDate⟩ else t.values
    | none => set t.values id ⟨value, t.now, expiryDate⟩
  { t with values := values, calls := t.calls ++ [⟨t.now, id, value, expiryDate⟩] }

def expired (now : Int) (x : Id × Entry Vec) : Bool := x.2.expiryDate ≤ now

def due (now : Int) (x : Id × Entry Vec) : Bool := x.2.storeDate + tRepublish ≤ now

/-- The value is stored again. -/
def republish (now : Int) (x : Id × Entry Vec) : Id × Entry Vec := if due now x then (x.1, { x.2 with storeDate := now }) else x

def checkValues (t : T Id Vec) : T Id Vec :=
  let live := t.values.filter (!expired t.now ·)
  { t with
    values := live.map (republish t.now)
    republished := t.republished ++ (live.filter (due t.now)).map fun x => ⟨t.now, x.1, x.2.value, x.2.expiryDate⟩ }

inductive Ev (Id Vec : Type) where
  | store (id : Id) (value : Vec) (expiryDate : Int)
  | check
  | tick (now : Int)

def Enabled (t : T Id Vec) : Ev Id Vec → Prop
  | .store .. => True
  | .check => True
  | .tick now => t.now ≤ now ∧ now ≤ t.check

def step (factor : Id → Int → Int) (t : T Id Vec) : Ev Id Vec → T Id Vec
  | .store id value expiryDate => storeHandler factor t id value expiryDate
  | .check => { checkValues { t with now := t.check } with check := t.check + checkValueInterval }
  | .tick now => { t with now := now }

inductive Reach (factor : Id → Int → Int) : T Id Vec → Prop
  | new (now : Int) : Reach factor (new now)
  | step {t : T Id Vec} (e : Ev Id Vec) : Reach factor t → Enabled t e → Reach factor (step factor t e)

/-! ## The table -/

theorem get_some {values : List (Id × Entry Vec)} {id : Id} {e : Entry Vec} (h : get values id = some e) : (id, e) ∈ values := by
  obtain ⟨x, hx, rfl⟩ := Option.map_eq_some_iff.mp h
  have hid : x.1 = id := by simpa using List.find?_some hx
  have hmem := List.mem_of_find?_eq_some hx
  rw [← hid]
  exact hmem

theorem get_none {values : List (Id × Entry Vec)} {id : Id} (h : get values id = none) (e : Entry Vec) : (id, e) ∉ values := by
  intro hmem
  have hnone := List.find?_eq_none.mp (Option.map_eq_none_iff.mp h) (id, e) hmem
  exact hnone (decide_eq_true rfl)

theorem get_of_mem {values : List (Id × Entry Vec)} (hkeys : (values.map (·.1)).Nodup) {id : Id} {e : Entry Vec} (h : (id, e) ∈ values) :
    get values id = some e := by
  cases hget : get values id with
  | none => exact absurd h (get_none hget e)
  | some e' =>
    have hsame := List.inj_on_of_nodup_map hkeys (get_some hget) h rfl
    rw [(Prod.mk.inj hsame).2]

theorem mem_set {values : List (Id × Entry Vec)} {id : Id} {e : Entry Vec} {x : Id × Entry Vec} :
    x ∈ set values id e ↔ x = (id, e) ∨ (x ∈ values ∧ x.1 ≠ id) := by
  unfold set
  rw [List.mem_cons, List.mem_filter, decide_eq_true_iff]

theorem keys_set {values : List (Id × Entry Vec)} (h : (values.map (·.1)).Nodup) (id : Id) (e : Entry Vec) :
    ((set values id e).map (·.1)).Nodup := by
  unfold set
  rw [List.map_cons, List.nodup_cons]
  constructor
  · intro hmem
    obtain ⟨x, hx, hid⟩ := List.mem_map.mp hmem
    exact of_decide_eq_true (List.mem_filter.mp hx).2 hid
  · exact (List.filter_sublist.map _).nodup h

/-- A store takes the place of one that does not expire later. -/
theorem storeHandler_cases (factor : Id → Int → Int) (t : T Id Vec) (id : Id) (value : Vec) (expiryDate : Int) :
    ∃ expiry, (storeHandler factor t id value expiryDate).calls = t.calls ++ [⟨t.now, id, value, expiry⟩] ∧
      (((storeHandler factor t id value expiryDate).values = set t.values id ⟨value, t.now, expiry⟩ ∧
          ∀ old, get t.values id = some old → old.expiryDate ≤ expiry) ∨
        (storeHandler factor t id value expiryDate).values = t.values ∧ ∃ old, get t.values id = some old ∧ expiry < old.expiryDate) := by
  refine ⟨t.now + factor id (expiryDate - t.now), rfl, ?_⟩
  unfold storeHandler
  dsimp only
  cases hget : get t.values id with
  | none => exact .inl ⟨rfl, fun _ h => nomatch h⟩
  | some old =>
    dsimp only
    by_cases hle : old.expiryDate ≤ t.now + factor id (expiryDate - t.now)
    · rw [if_pos hle]
      refine .inl ⟨rfl, fun old' h => ?_⟩
      cases h
      exact hle
    · rw [if_neg hle]
      exact .inr ⟨rfl, old, rfl, by omega⟩

/-! ## Runs -/

/-- The call is of this value. -/
def Of (x : Id × Entry Vec) (s : Call Id Vec) : Prop := s.id = x.1 ∧ s.value = x.2.value ∧ s.expiryDate = x.2.expiryDate

/-- The call is the last of those with the greatest expiration for the id. -/
def Greatest (calls : List (Call Id Vec)) (id : Id) (s : Call Id Vec) : Prop :=
  s.id = id ∧ ∃ earlier later, calls = earlier ++ s :: later ∧ (∀ c ∈ earlier, c.id = id → c.expiryDate ≤ s.expiryDate) ∧
    ∀ c ∈ later, c.id = id → c.expiryDate < s.expiryDate

omit [DecidableEq Id] in
theorem Greatest.mem {calls : List (Call Id Vec)} {id : Id} {s : Call Id Vec} (h : Greatest calls id s) : s ∈ calls := by
  obtain ⟨-, earlier, later, rfl, -, -⟩ := h
  simp

omit [DecidableEq Id] in
theorem Greatest.append {calls : List (Call Id Vec)} {id : Id} {s : Call Id Vec} (h : Greatest calls id s) {c : Call Id Vec}
    (hc : c.id = id → c.expiryDate < s.expiryDate) : Greatest (calls ++ [c]) id s := by
  obtain ⟨hid, earlier, later, rfl, hle, hlt⟩ := h
  refine ⟨hid, earlier, later ++ [c], by simp, hle, fun c' hc' => ?_⟩
  rcases List.mem_append.mp hc' with hc' | hc'
  · exact hlt c' hc'
  · rw [List.mem_singleton] at hc'
    exact hc' ▸ hc

omit [DecidableEq Id] in
theorem greatest_last {calls : List (Call Id Vec)} {s : Call Id Vec} (h : ∀ c ∈ calls, c.id = s.id → c.expiryDate ≤ s.expiryDate) :
    Greatest (calls ++ [s]) s.id s := ⟨rfl, calls, [], rfl, h, nofun⟩

structure Inv (t : T Id Vec) : Prop where
  keys : (t.values.map (·.1)).Nodup
  ahead : t.now ≤ t.check ∧ t.check ≤ t.now + checkValueInterval
  past : ∀ x ∈ t.values, x.2.storeDate ≤ t.now
  fresh : ∀ x ∈ t.values, t.check < x.2.storeDate + tRepublish + checkValueInterval
  alive : ∀ x ∈ t.values, t.check < x.2.expiryDate + checkValueInterval ∨ t.check ≤ x.2.storeDate + checkValueInterval
  called : ∀ x ∈ t.values, ∃ s ∈ t.calls, Of x s
  dated : ∀ x ∈ t.values, ∃ s ∈ t.calls ++ t.republished, Of x s ∧ s.date = x.2.storeDate
  kept : ∀ s ∈ t.calls, t.now < s.expiryDate → ∃ e, (s.id, e) ∈ t.values ∧ s.expiryDate ≤ e.expiryDate
  greatest : ∀ x ∈ t.values, t.now < x.2.expiryDate → ∃ s, Greatest t.calls x.1 s ∧ Of x s

omit [DecidableEq Id] in
theorem inv_new (now : Int) : Inv (new now : T Id Vec) where
  keys := .nil
  ahead := by
    unfold new checkValueInterval
    dsimp only
    omega
  past _ h := nomatch h
  fresh _ h := nomatch h
  alive _ h := nomatch h
  called _ h := nomatch h
  dated _ h := nomatch h
  kept _ h := nomatch h
  greatest _ h := nomatch h

theorem inv_store {t : T Id Vec} (h : Inv t) (factor : Id → Int → Int) (id : Id) (value : Vec) (expiryDate : Int) :
    Inv (storeHandler factor t id value expiryDate) := by
  obtain ⟨expiry, hcalls, hvalues⟩ := storeHandler_cases factor t id value expiryDate
  have hcall : ∀ {x : Id × Entry Vec}, (∃ s ∈ t.calls, Of x s) → ∃ s ∈ (storeHandler factor t id value expiryDate).calls, Of x s := by
    rintro x ⟨s, hs, hof⟩
    rw [hcalls]
    exact ⟨s, List.mem_append_left _ hs, hof⟩
  have hdate : ∀ {x : Id × Entry Vec}, (∃ s ∈ t.calls ++ t.republished, Of x s ∧ s.date = x.2.storeDate) →
      ∃ s ∈ (storeHandler factor t id value expiryDate).calls ++ t.republished, Of x s ∧ s.date = x.2.storeDate := by
    rintro x ⟨s, hs, hof⟩
    rw [hcalls]
    rcases List.mem_append.mp hs with hs | hs
    · exact ⟨s, List.mem_append_left _ (List.mem_append_left _ hs), hof⟩
    · exact ⟨s, List.mem_append_right _ hs, hof⟩
  rcases hvalues with ⟨hset, hold⟩ | ⟨hsame, old, hget, hlater⟩
  · have hmem : ∀ {x : Id × Entry Vec}, x ∈ (storeHandler factor t id value expiryDate).values →
        x = (id, ⟨value, t.now, expiry⟩) ∨ x ∈ t.values := by
      intro x hx
      rw [hset] at hx
      exact (mem_set.mp hx).imp_right And.left
    have hlast : (⟨t.now, id, value, expiry⟩ : Call Id Vec) ∈ (storeHandler factor t id value expiryDate).calls := by
      rw [hcalls]
      exact List.mem_append_right _ (List.mem_singleton_self _)
    have hahead := h.ahead
    refine ⟨?_, h.ahead, fun x hx => ?_, fun x hx => ?_, fun x hx => ?_, fun x hx => ?_, fun x hx => ?_, fun s hs hnow => ?_,
      fun x hx hnow => ?_⟩
    · rw [hset]
      exact keys_set h.keys _ _
    · rcases hmem hx with rfl | hx
      · exact Int.le_refl t.now
      · exact h.past x hx
    · rcases hmem hx with rfl | hx
      · show t.check < t.now + tRepublish + checkValueInterval
        unfold tRepublish
        omega
      · exact h.fresh x hx
    · rcases hmem hx with rfl | hx
      · exact .inr hahead.2
      · exact h.alive x hx
    · rcases hmem hx with rfl | hx
      · exact ⟨_, hlast, rfl, rfl, rfl⟩
      · exact hcall (h.called x hx)
    · rcases hmem hx with rfl | hx
      · exact ⟨_, List.mem_append_left _ hlast, ⟨rfl, rfl, rfl⟩, rfl⟩
      · exact hdate (h.dated x hx)
    · rw [hset]
      rw [hcalls] at hs
      rcases List.mem_append.mp hs with hs | hs
      · obtain ⟨e, he, hle⟩ := h.kept s hs hnow
        by_cases hid : s.id = id
        · have hexpiry := hold e (get_of_mem h.keys (hid ▸ he))
          exact ⟨_, mem_set.mpr (.inl (by rw [hid])), Int.le_trans hle hexpiry⟩
        · exact ⟨e, mem_set.mpr (.inr ⟨he, hid⟩), hle⟩
      · rw [List.mem_singleton] at hs
        subst hs
        exact ⟨_, mem_set.mpr (.inl rfl), Int.le_refl expiry⟩
    · rw [hset] at hx
      rw [hcalls]
      rcases mem_set.mp hx with rfl | ⟨hx, hid⟩
      · refine ⟨_, greatest_last (s := ⟨t.now, id, value, expiry⟩) fun c hc hid => ?_, rfl, rfl, rfl⟩
        have hid' : c.id = id := hid
        show c.expiryDate ≤ expiry
        -- a call that has not expired is in the table, and what is there does not expire later
        by_cases hlive : t.now < c.expiryDate
        · obtain ⟨e, he, hle⟩ := h.kept c hc hlive
          exact Int.le_trans hle (hold e (get_of_mem h.keys (hid' ▸ he)))
        · have hnow' : t.now < expiry := hnow
          omega
      · obtain ⟨s, hs, hof⟩ := h.greatest x hx hnow
        exact ⟨s, hs.append fun heq => absurd heq.symm hid, hof⟩
  · refine ⟨?_, h.ahead, ?_, ?_, ?_, ?_, ?_, fun s hs hnow => ?_, fun x hx hnow => ?_⟩
    · rw [hsame]
      exact h.keys
    · rw [hsame]
      exact h.past
    · rw [hsame]
      exact h.fresh
    · rw [hsame]
      exact h.alive
    · rw [hsame]
      exact fun x hx => hcall (h.called x hx)
    · rw [hsame]
      exact fun x hx => hdate (h.dated x hx)
    · rw [hsame]
      rw [hcalls] at hs
      rcases List.mem_append.mp hs with hs | hs
      · exact h.kept s hs hnow
      · rw [List.mem_singleton] at hs
        subst hs
        exact ⟨old, get_some hget, Int.le_of_lt hlater⟩
    · rw [hsame] at hx
      rw [hcalls]
      obtain ⟨s, hs, hof⟩ := h.greatest x hx hnow
      refine ⟨s, hs.append fun heq => ?_, hof⟩
      have hid : id = x.1 := heq
      have hold : get t.values id = some x.2 := get_of_mem h.keys (hid ▸ hx)
      rw [hget] at hold
      cases hold
      show expiry < s.expiryDate
      rw [hof.2.2]
      exact hlater

omit [DecidableEq Id] in
theorem mem_check {now : Int} {values : List (Id × Entry Vec)} {y : Id × Entry Vec}
    (h : y ∈ (values.filter (!expired now ·)).map (republish now)) : ∃ x ∈ values, now < x.2.expiryDate ∧ y.1 = x.1 ∧
      y.2.value = x.2.value ∧ y.2.expiryDate = x.2.expiryDate ∧
      (y.2.storeDate = x.2.storeDate ∧ now < x.2.storeDate + tRepublish ∨ y.2.storeDate = now ∧ due now x = true) := by
  obtain ⟨x, hx, rfl⟩ := List.mem_map.mp h
  obtain ⟨hmem, hlive⟩ := List.mem_filter.mp hx
  have hexpiry : now < x.2.expiryDate := by
    rw [Bool.not_eq_true', expired, decide_eq_false_iff_not] at hlive
    omega
  unfold republish
  split
  next hdue => exact ⟨x, hmem, hexpiry, rfl, rfl, rfl, .inr ⟨rfl, hdue⟩⟩
  next hdue =>
    refine ⟨x, hmem, hexpiry, rfl, rfl, rfl, .inl ⟨rfl, ?_⟩⟩
    rw [due, decide_eq_true_iff] at hdue
    omega

theorem inv_check {t : T Id Vec} (h : Inv t) (factor : Id → Int → Int) : Inv (step factor t .check) := by
  have hahead := h.ahead
  have hrepublish : ∀ x ∈ t.values, t.check < x.2.expiryDate → due t.check x = true →
      (⟨t.check, x.1, x.2.value, x.2.expiryDate⟩ : Call Id Vec) ∈ (step factor t .check).republished := by
    intro x hx hlive hdue
    have hnot : expired t.check x = false := decide_eq_false (by omega)
    refine List.mem_append_right _ (List.mem_map.mpr ⟨x, List.mem_filter.mpr ⟨List.mem_filter.mpr ⟨hx, ?_⟩, hdue⟩, rfl⟩)
    exact congrArg Bool.not hnot
  refine ⟨?_, ?_, fun y hy => ?_, fun y hy => ?_, fun y hy => ?_, fun y hy => ?_, fun y hy => ?_, fun s hs hnow => ?_,
    fun y hy hnow => ?_⟩
  · have hid : ∀ x : Id × Entry Vec, (republish t.check x).1 = x.1 := by
      intro x
      unfold republish
      split <;> rfl
    show (((t.values.filter (!expired t.check ·)).map (republish t.check)).map (·.1)).Nodup
    rw [List.map_map, show (·.1) ∘ republish t.check = (·.1) from funext hid]
    exact (List.filter_sublist.map _).nodup h.keys
  · show t.check ≤ t.check + checkValueInterval ∧ t.check + checkValueInterval ≤ t.check + checkValueInterval
    unfold checkValueInterval
    omega
  · obtain ⟨x, hx, -, -, -, -, hstore⟩ := @mem_check Id Vec t.check t.values y hy
    have hpast := h.past x hx
    show y.2.storeDate ≤ t.check
    omega
  · obtain ⟨x, hx, -, -, -, -, hstore⟩ := @mem_check Id Vec t.check t.values y hy
    show t.check + checkValueInterval < y.2.storeDate + tRepublish + checkValueInterval
    unfold tRepublish at hstore ⊢
    omega
  · obtain ⟨x, hx, hlive, -, -, hexpiry, -⟩ := @mem_check Id Vec t.check t.values y hy
    refine .inl ?_
    show t.check + checkValueInterval < y.2.expiryDate + checkValueInterval
    omega
  · obtain ⟨x, hx, -, hid, hvalue, hexpiry, -⟩ := @mem_check Id Vec t.check t.values y hy
    obtain ⟨s, hs, hof⟩ := h.called x hx
    exact ⟨s, hs, hof.1.trans hid.symm, hof.2.1.trans hvalue.symm, hof.2.2.trans hexpiry.symm⟩
  · obtain ⟨x, hx, hlive, hid, hvalue, hexpiry, hstore⟩ := @mem_check Id Vec t.check t.values y hy
    rcases hstore with ⟨hstore, -⟩ | ⟨hstore, hdue⟩
    · obtain ⟨s, hs, hof, hdate⟩ := h.dated x hx
      refine ⟨s, ?_, ⟨hof.1.trans hid.symm, hof.2.1.trans hvalue.symm, hof.2.2.trans hexpiry.symm⟩, hdate.trans hstore.symm⟩
      rcases List.mem_append.mp hs with hs | hs
      · exact List.mem_append_left _ hs
      · exact List.mem_append_right _ (List.mem_append_left _ hs)
    · exact ⟨_, List.mem_append_right _ (hrepublish x hx hlive hdue), ⟨hid.symm, hvalue.symm, hexpiry.symm⟩, hstore.symm⟩
  · have hnow' : t.check < s.expiryDate := hnow
    obtain ⟨e, he, hle⟩ := h.kept s hs (by omega)
    have hlive : expired t.check (s.id, e) = false := decide_eq_false (show ¬ e.expiryDate ≤ t.check by omega)
    refine ⟨(republish t.check (s.id, e)).2, List.mem_map.mpr ⟨(s.id, e), List.mem_filter.mpr ⟨he, congrArg Bool.not hlive⟩, ?_⟩, ?_⟩
    · unfold republish
      split <;> rfl
    · unfold republish
      split <;> exact hle
  · obtain ⟨x, hx, hlive, hid, hvalue, hexpiry, -⟩ := @mem_check Id Vec t.check t.values y hy
    obtain ⟨s, hs, hof⟩ := h.greatest x hx (by omega)
    exact ⟨s, hid.symm ▸ hs, hof.1.trans hid.symm, hof.2.1.trans hvalue.symm, hof.2.2.trans hexpiry.symm⟩

theorem inv_step {t : T Id Vec} (h : Inv t) (factor : Id → Int → Int) {e : Ev Id Vec} (he : Enabled t e) : Inv (step factor t e) := by
  cases e with
  | store id value expiryDate => exact inv_store h factor id value expiryDate
  | check => exact inv_check h factor
  | tick now =>
    obtain ⟨hlate, hcheck⟩ := he
    refine ⟨h.keys, ⟨hcheck, ?_⟩, fun x hx => Int.le_trans (h.past x hx) hlate, h.fresh, h.alive, h.called, h.dated, fun s hs hnow => ?_,
      fun x hx hnow => h.greatest x hx (Int.lt_of_le_of_lt hlate hnow)⟩
    · have := h.ahead.2
      show t.check ≤ now + checkValueInterval
      omega
    · exact h.kept s hs (Int.lt_of_le_of_lt hlate hnow)

/-- In every run: of what was stored and has not expired, what expires last can be retrieved
    (the last that was stored of several); what can be retrieved was stored, and is gone a
    check after it expired; and its last store, here or by the check, is not older than an
    hour and a check. -/
theorem value_store {factor : Id → Int → Int} {t : T Id Vec} (h : Reach factor t) :
    (∀ s ∈ t.calls, t.now < s.expiryDate → ∃ last, Greatest t.calls s.id last ∧ s.expiryDate ≤ last.expiryDate ∧
      retrieveHandler t s.id = some (s.id, last.value, last.expiryDate)) ∧
    (∀ id value expiry, retrieveHandler t id = some (id, value, expiry) →
      (∃ s ∈ t.calls, s.id = id ∧ s.value = value ∧ s.expiryDate = expiry) ∧ ∃ s ∈ t.calls ++ t.republished,
        s.id = id ∧ s.value = value ∧ s.expiryDate = expiry ∧ s.date ≤ t.now ∧ t.now < s.date + tRepublish + checkValueInterval ∧
        t.now ≤ max expiry s.date + checkValueInterval) := by
  have hinv : Inv t := by
    induction h with
    | new now => exact inv_new now
    | step e _ he ih => exact inv_step ih factor he
  have hahead := hinv.ahead
  constructor
  · intro s hs hnow
    obtain ⟨e, he, hle⟩ := hinv.kept s hs hnow
    obtain ⟨last, hlast, -, hvalue, hexpiry⟩ := hinv.greatest (s.id, e) he (show t.now < e.expiryDate by omega)
    refine ⟨last, hlast, hexpiry ▸ hle, ?_⟩
    unfold retrieveHandler
    rw [get_of_mem hinv.keys he, hvalue, hexpiry]
    rfl
  · intro id value expiry hget
    obtain ⟨e, hsome, heq⟩ := Option.map_eq_some_iff.mp hget
    have hmem := get_some hsome
    obtain ⟨-, rfl, rfl⟩ : id = id ∧ e.value = value ∧ e.expiryDate = expiry := by
      cases heq
      exact ⟨rfl, rfl, rfl⟩
    obtain ⟨s, hs, hof, hdate⟩ := hinv.dated _ hmem
    have hpast := hinv.past _ hmem
    have hfresh := hinv.fresh _ hmem
    have halive := hinv.alive _ hmem
    dsimp only at hdate hpast hfresh halive
    refine ⟨hinv.called _ hmem, s, hs, hof.1, hof.2.1, hof.2.2, ?_, ?_, ?_⟩
    · omega
    · omega
    · rw [hdate]
      omega

/-- Of two values for two hours, after seven checks, of which the sixth stored the second
    again. -/
theorem value_store_two_hours :
    let factor : Nat → Int → Int := fun _ expire => expire
    let stored := step factor (step factor (new 0) (.store 1 4 (2 * tRepublish))) (.store 1 5 (2 * tRepublish))
    let t : T Nat Nat := (List.replicate 7 Ev.check).foldl (step factor) stored
    ∀ s ∈ t.calls, t.now < s.expiryDate → ∃ last, Greatest t.calls s.id last ∧ s.expiryDate ≤ last.expiryDate ∧
      retrieveHandler t s.id = some (s.id, last.value, last.expiryDate) := by
  intro factor stored t
  have hstored : Reach factor stored := ((Reach.new 0).step (.store 1 4 (2 * tRepublish)) trivial).step _ trivial
  have hchecked : ∀ n, Reach factor ((List.replicate n Ev.check).foldl (step factor) stored) := by
    intro n
    induction n with
    | zero => exact hstored
    | succ n ih =>
      rw [List.replicate_succ', List.foldl_concat]
      exact ih.step .check trivial
  exact (value_store (hchecked 7)).1

end BubbleStorm.Kademlia.ValueStore
