/-
  BubbleStorm.Cusp.EndPoint.Contact — contacting an address
  (`contact`, `killRecord` and `safeExec` of src/cusp/end-point/end-point.fun).

  The callbacks of the contacts to an address sit in the ring of its channel until the
  channel is established or gone. Then the ring is drained: `safeExec` takes the elements
  it has, and those that are still in the ring get their turn. A callback may do anything
  with the end point, so the drains that are going on are a stack (`Frame`).

  A callback is taken out of the ring after it has returned. A channel that is destroyed
  from one of the callbacks of its own establishment finds it there, and calls it again;
  and an address that is a life line gets no callback at all (`never_and_twice`). In the
  runs where no channel goes that way a callback is called at most once, never after it
  was aborted, and, unless the address was a life line, exactly once by the time the
  channel is established or gone (`contact_once`).

  A record is known by its number, and so is a contact. `destroy` is `killRecord` for one
  record after the other. An established channel can fall back (`src/cusp/channel/negotiation.fun`,
  when the other side has lost its state or a zombie is finished) and be established anew:
  contacts wait again in between. It falls back while a packet is handled, not from a callback
  of its ring.
-/

import Mathlib.Logic.Function.Basic
import Mathlib.Data.List.Induction
import Mathlib.Data.List.Nodup

namespace BubbleStorm.Cusp.EndPoint

open Function (update_apply update_of_ne update_self)

variable {A : Type}

/-! ## The end point -/

/-- The record of an address: its channel, and the ring of those who wait for it. -/
structure Rec (A : Type) where
  address : A
  host : Bool
  alive : Bool
  /-- How often it was established. -/
  times : Nat
  ring : List Nat
  deriving DecidableEq, Repr, Inhabited

/-- A call of `contact`: the record it came to, the first that there can be at its address, how
    often that was established before, what the callback was told (`true` for a host), and
    whether it was told after `abort`. -/
structure Contact (A : Type) where
  address : A
  channel : Option Nat
  since : Nat
  times : Nat
  answers : List Bool
  aborted : Bool
  late : Bool
  deriving DecidableEq, Repr, Inhabited

inductive Peer where
  | lifeLine
  | host (record : Nat)
  deriving DecidableEq, Repr

/-- A drain that is going on: the callback that runs, and the elements that are left. -/
structure Frame where
  record : Nat
  answer : Bool
  current : Option Nat
  rest : List Nat
  deriving DecidableEq, Repr

structure St (A : Type) where
  peer : A → Option Peer
  recs : Nat → Rec A
  records : Nat
  contacts : Nat → Contact A
  made : Nat
  stack : List Frame

def new [Inhabited A] : St A := ⟨fun _ => none, fun _ => default, 0, fun _ => default, 0, []⟩

def setRing (s : St A) (r : Nat) (ring : List Nat) : St A :=
  { s with recs := Function.update s.recs r { s.recs r with ring := ring } }

def setContact (s : St A) (c : Nat) (x : Contact A) : St A := { s with contacts := Function.update s.contacts c x }

/-- The callback of `c` is called. -/
def call (s : St A) (c : Nat) (answer : Bool) : St A :=
  let x := s.contacts c
  setContact s c { x with answers := answer :: x.answers, late := x.late || x.aborted }

/-- The drain of a ring goes on to the next of the elements that is still in it. -/
def advance (s : St A) (r : Nat) (answer : Bool) : List Nat → St A
  | [] => s
  | c :: rest =>
    if c ∈ (s.recs r).ring then
      let s := call s c answer
      { s with stack := ⟨r, answer, some c, rest⟩ :: s.stack }
    else advance s r answer rest

def safeExec (s : St A) (r : Nat) (answer : Bool) : St A := advance s r answer (s.recs r).ring

variable [DecidableEq A]

def contact (s : St A) (address : A) : St A :=
  let c := s.made
  let s := { s with made := c + 1 }
  match s.peer address with
  | none =>
    -- create
    let r := s.records
    let s := { s with peer := Function.update s.peer address (some (.host r)),
                      recs := Function.update s.recs r ⟨address, false, true, 0, [c]⟩, records := r + 1 }
    setContact s c ⟨address, some r, r, 0, [], false, false⟩
  -- bad. no CUSP can live there!
  | some .lifeLine => setContact s c ⟨address, none, s.records, 0, [], false, false⟩
  | some (.host r) =>
    let x : Contact A := ⟨address, some r, r, (s.recs r).times, [], false, false⟩
    if (s.recs r).host then call (setContact s c x) c true
    else setContact (setRing s r (c :: (s.recs r).ring)) c x

/-- What `contact` returned. -/
def abort (s : St A) (c : Nat) : St A :=
  let x := s.contacts c
  let s := setContact s c { x with aborted := true }
  match x.channel with
  | some r => setRing s r ((s.recs r).ring.filter (· ≠ c))
  | none => s

/-- The channel knows its host. -/
def establish (s : St A) (r : Nat) : St A :=
  let x := s.recs r
  safeExec { s with recs := Function.update s.recs r { x with host := true, times := x.times + 1 } } r true

/-- The channel has no host any more. -/
def fallBack (s : St A) (r : Nat) : St A :=
  { s with recs := Function.update s.recs r { s.recs r with host := false } }

def killRecord (s : St A) (r : Nat) : St A :=
  let x := s.recs r
  safeExec { s with recs := Function.update s.recs r { x with alive := false }, peer := Function.update s.peer x.address none } r false

/-- The callback that runs returns, and its element leaves the ring. -/
def returns (s : St A) : St A :=
  match s.stack with
  | ⟨r, answer, some c, rest⟩ :: stack =>
    let s := setRing s r ((s.recs r).ring.filter (· ≠ c))
    advance { s with stack := stack } r answer rest
  | _ => s

inductive Event (A : Type) where
  | contact (address : A)
  | abort (c : Nat)
  | establish (r : Nat)
  | fallBack (r : Nat)
  | killRecord (r : Nat)
  | setNATLifeLine (address : A)
  | clear (address : A)
  | returns
  deriving DecidableEq, Repr

def step (s : St A) : Event A → St A
  | .contact address => contact s address
  | .abort c => if c < s.made then abort s c else s
  | .establish r => if r < s.records ∧ (s.recs r).alive ∧ ¬ (s.recs r).host then establish s r else s
  | .fallBack r => if r < s.records ∧ (s.recs r).alive ∧ ∀ f ∈ s.stack, f.record ≠ r then fallBack s r else s
  | .killRecord r => if r < s.records ∧ (s.recs r).alive then killRecord s r else s
  | .setNATLifeLine address =>
    match s.peer address with
    | none => { s with peer := Function.update s.peer address (some .lifeLine) }
    | some _ => s
  | .clear address =>
    match s.peer address with
    | some .lifeLine => { s with peer := Function.update s.peer address none }
    | _ => s
  | .returns => returns s

def run [Inhabited A] (events : List (Event A)) : St A := events.foldl step new

/-- A channel to the contact's address is established, has been since, or is gone. -/
def Over (s : St A) (x : Contact A) : Prop :=
  ∃ r, x.since ≤ r ∧ r < s.records ∧ (s.recs r).address = x.address ∧
    ((s.recs r).host = true ∨ x.times < (s.recs r).times ∨ (s.recs r).alive = false)

/-- Each callback is called at most once, and never after `abort`; while no callback runs,
    once for every contact whose channel is or was established or is gone. -/
structure Right (s : St A) (Meant : Contact A → Prop) : Prop where
  once : ∀ c < s.made, (s.contacts c).answers.length ≤ 1
  late : ∀ c < s.made, (s.contacts c).late = false
  told : ∀ c < s.made, Meant (s.contacts c) → s.stack = [] → Over s (s.contacts c) →
    (s.contacts c).aborted = false → (s.contacts c).answers.length = 1

/-- No channel is destroyed from a callback of its own ring. -/
def Proper (s : St A) : Event A → Prop
  | .killRecord r => ∀ f ∈ s.stack, f.record ≠ r
  | _ => True

/-! ## The books -/

/-- The callback of `c` runs in a drain of the ring of `r`. -/
def Runs (stack : List Frame) (r c : Nat) : Prop := ∃ f ∈ stack, f.record = r ∧ f.current = some c

/-- A drain of the ring of `r` has `c`. -/
def Has (stack : List Frame) (r c : Nat) : Prop := ∃ f ∈ stack, f.record = r ∧ (f.current = some c ∨ c ∈ f.rest)

theorem runs_cons (f : Frame) (stack : List Frame) (r c : Nat) :
    Runs (f :: stack) r c ↔ f.record = r ∧ f.current = some c ∨ Runs stack r c := List.exists_mem_cons_iff _ _ _

theorem has_cons (f : Frame) (stack : List Frame) (r c : Nat) :
    Has (f :: stack) r c ↔ f.record = r ∧ (f.current = some c ∨ c ∈ f.rest) ∨ Has stack r c := List.exists_mem_cons_iff _ _ _

/-- A ring holds those who wait, and a drain that goes on has those who are left; without
    one the ring of a channel that is established or gone is empty, and who is in a ring has
    come since the channel was last established. -/
structure Inv (s : St A) : Prop where
  peer : ∀ a r, s.peer a = some (.host r) → r < s.records ∧ (s.recs r).address = a ∧ (s.recs r).alive = true
  alive : ∀ r < s.records, (s.recs r).alive = true → s.peer (s.recs r).address = some (.host r)
  older : ∀ r r', r < r' → r' < s.records → (s.recs r).address = (s.recs r').address → (s.recs r).alive = false
  ring : ∀ r < s.records, ∀ c ∈ (s.recs r).ring, c < s.made ∧ (s.contacts c).channel = some r ∧ (s.contacts c).aborted = false
  rings : ∀ r < s.records, (s.recs r).ring.Nodup
  channel : ∀ c < s.made, ∀ r, (s.contacts c).channel = some r →
    r < s.records ∧ (s.recs r).address = (s.contacts c).address ∧ (s.contacts c).since = r
  mute : ∀ c < s.made, (s.contacts c).channel = none → (s.contacts c).answers = []
  waits : ∀ r < s.records, ∀ c ∈ (s.recs r).ring, (s.contacts c).answers = [] ∨ Runs s.stack r c
  done : ∀ c < s.made, ∀ r, (s.contacts c).channel = some r → c ∉ (s.recs r).ring →
    (s.contacts c).answers.length = 1 ∨ (s.contacts c).aborted = true
  once : ∀ c < s.made, (s.contacts c).answers.length ≤ 1
  late : ∀ c < s.made, (s.contacts c).late = false
  current : ∀ f ∈ s.stack, ∀ c, f.current = some c → c < s.made ∧ (s.contacts c).answers.length = 1
  left : ∀ f ∈ s.stack, ∀ c ∈ f.rest, c < s.made ∧ (c ∈ (s.recs f.record).ring → (s.contacts c).answers = [])
  drained : ∀ r < s.records, ((s.recs r).host = true ∨ (s.recs r).alive = false) →
    ∀ c ∈ (s.recs r).ring, Has s.stack r c
  fresh : ∀ r < s.records, ∀ c ∈ (s.recs r).ring, (s.contacts c).times = (s.recs r).times ∨ Has s.stack r c
  ended : ∀ f ∈ s.stack, f.record < s.records ∧ ((s.recs f.record).host = true ∨ (s.recs f.record).alive = false)
  apart : s.stack.Pairwise fun f f' => f.record ≠ f'.record
  nodup : ∀ f ∈ s.stack, (f.current.toList ++ f.rest).Nodup

omit [DecidableEq A] in
/-- A drain is over when nobody is left. -/
theorem Inv.pop {s : St A} {r : Nat} {answer : Bool} (I : Inv { s with stack := ⟨r, answer, none, []⟩ :: s.stack }) : Inv s := by
  have mem : ∀ f ∈ s.stack, f ∈ (⟨r, answer, none, []⟩ :: s.stack : List Frame) := fun f mem => List.mem_cons_of_mem _ mem
  refine ⟨I.peer, I.alive, I.older, I.ring, I.rings, I.channel, I.mute, ?waits, I.done, I.once, I.late, fun f m => I.current f (mem f m),
    fun f m => I.left f (mem f m), ?drained, ?fresh, fun f m => I.ended f (mem f m), I.apart.tail, fun f m => I.nodup f (mem f m)⟩
  case waits =>
    intro x known c inside
    have := I.waits x known c inside
    simpa [runs_cons] using this
  case drained =>
    intro x known ended c inside
    have := I.drained x known ended c inside
    simpa [has_cons] using this
  case fresh =>
    intro x known c inside
    have := I.fresh x known c inside
    simpa [has_cons] using this

omit [DecidableEq A] in
/-- An element that has left the ring is passed over. -/
theorem Inv.skip {s : St A} {r c : Nat} {answer : Bool} {rest : List Nat}
    (I : Inv { s with stack := ⟨r, answer, none, c :: rest⟩ :: s.stack }) (out : c ∉ (s.recs r).ring) :
    Inv { s with stack := ⟨r, answer, none, rest⟩ :: s.stack } := by
  obtain ⟨left, lefts⟩ := List.forall_mem_cons.mp I.left
  obtain ⟨nodup, nodups⟩ := List.forall_mem_cons.mp I.nodup
  refine ⟨I.peer, I.alive, I.older, I.ring, I.rings, I.channel, I.mute, ?waits, I.done, I.once, I.late,
    List.forall_mem_cons.mpr ⟨nofun, (List.forall_mem_cons.mp I.current).2⟩,
    List.forall_mem_cons.mpr ⟨fun x mem => left x (List.mem_cons_of_mem c mem), lefts⟩, ?drained, ?fresh,
    List.forall_mem_cons.mpr (List.forall_mem_cons.mp I.ended), List.pairwise_cons.mpr (List.pairwise_cons.mp I.apart),
    List.forall_mem_cons.mpr ⟨(List.nodup_cons.mp nodup).2, nodups⟩⟩
  case waits =>
    intro x known d inside
    have := I.waits x known d inside
    simpa [runs_cons] using this
  case drained =>
    intro x known ended d inside
    have := I.drained x known ended d inside
    simp only [has_cons, List.mem_cons] at this ⊢
    grind
  case fresh =>
    intro x known d inside
    have := I.fresh x known d inside
    simp only [has_cons, List.mem_cons] at this ⊢
    grind

omit [DecidableEq A] in
/-- The next element that is still in the ring gets its turn. -/
theorem Inv.turn {s : St A} {r c : Nat} {answer : Bool} {rest : List Nat}
    (I : Inv { s with stack := ⟨r, answer, none, c :: rest⟩ :: s.stack }) (inside : c ∈ (s.recs r).ring) :
    Inv { call s c answer with stack := ⟨r, answer, some c, rest⟩ :: s.stack } := by
  obtain ⟨known, ended⟩ := (List.forall_mem_cons.mp I.ended).1
  obtain ⟨made, went, live⟩ := I.ring r known c inside
  obtain ⟨first, others⟩ := List.forall_mem_cons.mp I.left
  have none : (s.contacts c).answers = [] := (first c List.mem_cons_self).2 inside
  have quiet := I.late c made
  obtain ⟨nodup, nodups⟩ := List.forall_mem_cons.mp I.nodup
  have elsewhere : ∀ f ∈ s.stack, f.record ≠ r := fun f mem => ((List.pairwise_cons.mp I.apart).1 f mem).symm
  have own : ∀ r' < s.records, c ∈ (s.recs r').ring → r' = r := by
    intro r' known' inside'
    have := (I.ring r' known' c inside').2.1
    exact Option.some.inj (this.symm.trans went)
  have at_c : ∀ x, x ≠ c → (call s c answer).contacts x = s.contacts x := fun x ne => update_of_ne ne _ _
  have told : (call s c answer).contacts c = { s.contacts c with answers := [answer] } := by
    simp only [call, setContact, update_self, none]
    simp only at quiet live
    rw [quiet, live, Bool.or_false]
  generalize after : (call s c answer).contacts = contacts at at_c told
  have same : { call s c answer with stack := ⟨r, answer, some c, rest⟩ :: s.stack } =
      { s with contacts := contacts, stack := ⟨r, answer, some c, rest⟩ :: s.stack } := by
    rw [← after]
    rfl
  rw [same]
  refine ⟨I.peer, I.alive, I.older, ?ring, I.rings, ?channel, ?mute, ?waits, ?done, ?once, ?late, ?current, ?left, ?drained, ?fresh,
    List.forall_mem_cons.mpr (List.forall_mem_cons.mp I.ended),
    List.pairwise_cons.mpr (List.pairwise_cons.mp I.apart), List.forall_mem_cons.mpr ⟨nodup, nodups⟩⟩
  case ring =>
    have := I.ring
    grind
  case channel =>
    have := I.channel
    grind
  case mute =>
    have := I.mute
    grind
  case waits =>
    have := I.waits
    grind [runs_cons]
  case done =>
    have := I.done
    grind
  case once =>
    have := I.once
    grind
  case late =>
    have := I.late
    grind
  case current =>
    obtain ⟨-, others⟩ := List.forall_mem_cons.mp I.current
    refine List.forall_mem_cons.mpr ⟨?_, ?_⟩
    · grind
    · grind
  case left =>
    refine List.forall_mem_cons.mpr ⟨?_, ?_⟩
    · intro x mem
      have := first x (List.mem_cons_of_mem c mem)
      grind
    · intro f mem x left
      have := others f mem x left
      have := (List.forall_mem_cons.mp I.ended).2 f mem
      grind
  case drained =>
    have := I.drained
    grind [has_cons]
  case fresh =>
    have := I.fresh
    grind [has_cons]

omit [DecidableEq A] in
theorem Inv.advance (r : Nat) (answer : Bool) (rest : List Nat) : ∀ s : St A,
    Inv { s with stack := ⟨r, answer, none, rest⟩ :: s.stack } → Inv (advance s r answer rest) := by
  induction rest with
  | nil => exact fun s I => I.pop
  | cons c rest ih =>
    intro s I
    rw [EndPoint.advance]
    split
    · exact I.turn ‹_›
    · exact ih s (I.skip ‹_›)

/-! ## The steps -/

omit [DecidableEq A] in
/-- A contact to a new address creates its record. -/
theorem Inv.create {s : St A} (I : Inv s) {a : A} (free : s.peer a = none) {peer : A → Option Peer} {recs : Nat → Rec A}
    {contacts : Nat → Contact A} (here : peer a = some (.host s.records)) (peers : ∀ x, x ≠ a → peer x = s.peer x)
    (new : recs s.records = ⟨a, false, true, 0, [s.made]⟩) (old : ∀ r, r ≠ s.records → recs r = s.recs r)
    (asks : contacts s.made = ⟨a, some s.records, s.records, 0, [], false, false⟩) (asked : ∀ c, c ≠ s.made → contacts c = s.contacts c) :
    Inv { s with peer := peer, recs := recs, contacts := contacts, records := s.records + 1, made := s.made + 1 } := by
  refine ⟨?peer, ?alive, ?older, ?ring, ?rings, ?channel, ?mute, ?waits, ?done, ?once, ?late, ?current, ?left, ?drained, ?fresh, ?ended, I.apart, I.nodup⟩
  case peer =>
    have := I.peer
    grind
  case alive =>
    have := I.alive
    grind
  case older =>
    have := I.older
    have := I.alive
    grind
  case ring =>
    have := I.ring
    grind
  case rings =>
    have := I.rings
    grind
  case channel =>
    have := I.channel
    grind
  case mute =>
    have := I.mute
    grind
  case waits =>
    have := I.waits
    have := I.ring
    grind
  case done =>
    have := I.done
    have := I.channel
    grind
  case once =>
    have := I.once
    grind
  case late =>
    have := I.late
    grind
  case current =>
    have := I.current
    grind
  case left =>
    have := I.left
    have := I.ended
    grind
  case drained =>
    have := I.drained
    grind
  case fresh =>
    have := I.fresh
    have := I.ring
    grind
  case ended =>
    have := I.ended
    grind

omit [DecidableEq A] in
/-- A contact to an address that has a record. It joins the ring, or is told at once, or,
    for a life line, nothing happens to it. -/
theorem Inv.join {s : St A} (I : Inv s) {recs : Nat → Rec A} {contacts : Nat → Contact A} {x : Contact A}
    (asks : contacts s.made = x) (asked : ∀ c, c ≠ s.made → contacts c = s.contacts c) (live : x.aborted = false) (quiet : x.late = false)
    (way : (x.channel = none ∧ x.answers = [] ∧ recs = s.recs) ∨
      ∃ r, x.channel = some r ∧ x.since = r ∧ r < s.records ∧ (s.recs r).address = x.address ∧ (s.recs r).alive = true ∧
        ((x.answers.length = 1 ∧ recs = s.recs) ∨
          (x.answers = [] ∧ (s.recs r).host = false ∧ x.times = (s.recs r).times ∧ recs r = { s.recs r with ring := s.made :: (s.recs r).ring } ∧
            ∀ r', r' ≠ r → recs r' = s.recs r'))) :
    Inv { s with recs := recs, contacts := contacts, made := s.made + 1 } := by
  have frame : ∀ r, (recs r).address = (s.recs r).address ∧ (recs r).alive = (s.recs r).alive ∧ (recs r).host = (s.recs r).host ∧
      (recs r).times = (s.recs r).times := by
    grind
  refine ⟨?peer, ?alive, ?older, ?ring, ?rings, ?channel, ?mute, ?waits, ?done, ?once, ?late, ?current, ?left, ?drained, ?fresh, ?ended, I.apart, I.nodup⟩
  case peer =>
    have := I.peer
    grind
  case alive =>
    have := I.alive
    grind
  case older =>
    have := I.older
    grind
  case ring =>
    have := I.ring
    grind
  case rings =>
    have := I.rings
    have := I.ring
    grind
  case channel =>
    have := I.channel
    grind
  case mute =>
    have := I.mute
    grind
  case waits =>
    have := I.waits
    have := I.ring
    grind
  case done =>
    have := I.done
    have := I.channel
    grind
  case once =>
    have := I.once
    grind
  case late =>
    have := I.late
    grind
  case current =>
    have := I.current
    grind
  case left =>
    have := I.left
    have := I.ended
    grind
  case drained =>
    have := I.drained
    grind
  case fresh =>
    have := I.fresh
    have := I.ring
    grind
  case ended =>
    have := I.ended
    grind

theorem Inv.contact {s : St A} (I : Inv s) (a : A) : Inv (contact s a) := by
  unfold EndPoint.contact
  simp only
  split
  · exact I.create ‹_› (update_self _ _ _) (fun x ne => update_of_ne ne _ _) (update_self _ _ _)
      (fun r ne => update_of_ne ne _ _) (update_self _ _ _) fun c ne => update_of_ne ne _ _
  · exact I.join (update_self _ _ _) (fun c ne => update_of_ne ne _ _) rfl rfl (.inl ⟨rfl, rfl, rfl⟩)
  · rename_i r host
    obtain ⟨known, address, alive⟩ := I.peer a r host
    split
    · refine I.join (x := ⟨a, some r, r, (s.recs r).times, [true], false, false⟩) ?_ ?_ rfl rfl
        (.inr ⟨r, rfl, rfl, known, address, alive, .inl ⟨rfl, rfl⟩⟩)
      · simp [setContact]
      · intro c ne
        simp [setContact, ne]
    · rename_i waits
      exact I.join (update_self _ _ _) (fun c ne => update_of_ne ne _ _) rfl rfl
        (.inr ⟨r, rfl, rfl, known, address, alive, .inr ⟨rfl, by simpa using waits, rfl, update_self _ _ _,
          fun r' ne => update_of_ne ne _ _⟩⟩)

omit [DecidableEq A] in
/-- An element leaves its ring for good. -/
theorem Inv.abort (s : St A) (I : Inv s) {c : Nat} (made : c < s.made) : Inv (abort s c) := by
  have frame : (EndPoint.abort s c).peer = s.peer ∧ (EndPoint.abort s c).records = s.records ∧ (EndPoint.abort s c).made = s.made ∧
      (EndPoint.abort s c).stack = s.stack ∧ (EndPoint.abort s c).contacts c = { s.contacts c with aborted := true } ∧
        ∀ x, x ≠ c → (EndPoint.abort s c).contacts x = s.contacts x := by
    unfold EndPoint.abort
    simp only
    split <;> simp +contextual [setRing, setContact]
  have recs : ∀ r, (EndPoint.abort s c).recs r =
      if (s.contacts c).channel = some r then { s.recs r with ring := (s.recs r).ring.filter (· ≠ c) } else s.recs r := by
    intro r
    unfold EndPoint.abort
    simp only
    split
    · rename_i r' channel
      by_cases same : r = r'
      · subst same
        simp [setRing, setContact, channel]
      · simp [setRing, setContact, channel, same, Ne.symm same]
    · rename_i channel
      simp [setContact, channel]
  generalize EndPoint.abort s c = s' at frame recs
  obtain ⟨peer', recs', records', contacts', made', stack'⟩ := s'
  dsimp only at frame recs
  obtain ⟨rfl, rfl, rfl, rfl, aborted, others⟩ := frame
  have out : ∀ r < s.records, c ∈ (s.recs r).ring → (s.contacts c).channel = some r := fun r known inside => (I.ring r known c inside).2.1
  have shrunk : ∀ r x, x ∈ (recs' r).ring → x ∈ (s.recs r).ring := by
    intro r x inside
    rw [recs] at inside
    split at inside
    · exact List.mem_of_mem_filter inside
    · exact inside
  have kept : ∀ r x, x ≠ c → x ∈ (s.recs r).ring → x ∈ (recs' r).ring := by
    intro r x ne inside
    rw [recs]
    split
    · exact List.mem_filter.mpr ⟨inside, by simpa using ne⟩
    · exact inside
  have gone : ∀ r < s.records, c ∉ (recs' r).ring := by
    intro r known inside
    have := out r known (shrunk r c inside)
    rw [recs, if_pos this] at inside
    simp at inside
  have same : ∀ r, (recs' r).address = (s.recs r).address ∧ (recs' r).alive = (s.recs r).alive ∧ (recs' r).host = (s.recs r).host ∧
      (recs' r).times = (s.recs r).times := by
    intro r
    rw [recs]
    split <;> exact ⟨rfl, rfl, rfl, rfl⟩
  refine ⟨?peer, ?alive, ?older, ?ring, ?rings, ?channel, ?mute, ?waits, ?done, ?once, ?late, ?current, ?left, ?drained,
    ?fresh, ?ended, ?apart, ?nodup⟩
  case peer =>
    have := I.peer
    grind
  case alive =>
    have := I.alive
    grind
  case older =>
    have := I.older
    grind
  case ring =>
    have := I.ring
    grind
  case rings =>
    intro r known
    show (recs' r).ring.Nodup
    rw [recs]
    split
    · exact (I.rings r known).filter _
    · exact I.rings r known
  case channel =>
    have := I.channel
    grind
  case mute =>
    have := I.mute
    grind
  case waits =>
    have := I.waits
    grind
  case done =>
    have := I.done
    grind
  case once =>
    have := I.once
    grind
  case late =>
    have := I.late
    grind
  case current =>
    have := I.current
    grind
  case left =>
    have := I.left
    have := I.ended
    grind
  case drained =>
    have := I.drained
    grind
  case fresh =>
    have := I.fresh
    have := I.ring
    grind
  case ended =>
    have := I.ended
    grind
  case apart =>
    exact I.apart
  case nodup =>
    exact I.nodup

omit [DecidableEq A] in
/-- The whole ring is to be drained. -/
theorem Inv.drain {s : St A} (I : Inv s) {r : Nat} (known : r < s.records) (free : ∀ f ∈ s.stack, f.record ≠ r) (answer : Bool)
    {peer : A → Option Peer} {recs : Nat → Rec A} (others : ∀ x, x ≠ r → recs x = s.recs x)
    (address : (recs r).address = (s.recs r).address) (ring : (recs r).ring = (s.recs r).ring)
    (ended : (recs r).host = true ∨ (recs r).alive = false)
    (way : (∀ x, peer x = s.peer x) ∧ (recs r).alive = (s.recs r).alive ∨
      peer (s.recs r).address = none ∧ (∀ x, x ≠ (s.recs r).address → peer x = s.peer x) ∧ (s.recs r).alive = true ∧
        (recs r).alive = false) :
    Inv { s with peer := peer, recs := recs, stack := ⟨r, answer, none, (s.recs r).ring⟩ :: s.stack } := by
  have quiet : ∀ c ∈ (s.recs r).ring, c < s.made ∧ (s.contacts c).answers = [] := by
    intro c inside
    refine ⟨(I.ring r known c inside).1, ?_⟩
    rcases I.waits r known c inside with none | ⟨f, mem, same, -⟩
    · exact none
    · exact absurd same (free f mem)
  have rings : ∀ x, (recs x).ring = (s.recs x).ring := by
    intro x
    by_cases same : x = r
    · rw [same, ring]
    · rw [others x same]
  refine ⟨?peer, ?alive, ?older, ?ring, ?rings, ?channel, I.mute, ?waits, ?done, I.once, I.late, ?current, ?left, ?drained,
    ?fresh, ?ended, ?apart, ?nodup⟩
  case peer =>
    intro a x (host : peer a = some (.host x))
    show x < s.records ∧ (recs x).address = a ∧ (recs x).alive = true
    rcases way with ⟨same, live⟩ | ⟨off, same, -, -⟩
    · have old := I.peer a x ((same a).symm.trans host)
      by_cases own : x = r
      · subst own
        rw [address, live]
        exact old
      · rw [others x own]
        exact old
    · have ne : a ≠ (s.recs r).address := by
        intro same
        subst same
        rw [off] at host
        cases host
      have old := I.peer a x ((same a ne).symm.trans host)
      have own : x ≠ r := by
        intro same
        subst same
        exact ne old.2.1.symm
      rw [others x own]
      exact old
  case alive =>
    intro x (known' : x < s.records) (live' : (recs x).alive = true)
    show peer (recs x).address = some (.host x)
    rcases way with ⟨same, live⟩ | ⟨off, same, live, dead⟩
    · rw [same]
      by_cases own : x = r
      · subst own
        rw [address]
        exact I.alive x known (live.symm.trans live')
      · rw [others x own] at live' ⊢
        exact I.alive x known' live'
    · have own : x ≠ r := by
        intro same
        subst same
        rw [dead] at live'
        cases live'
      rw [others x own] at live' ⊢
      have old := I.alive x known' live'
      rw [same]
      · exact old
      · intro eq
        rw [eq, I.alive r known live] at old
        exact own (Peer.host.inj (Option.some.inj old)).symm
  case older =>
    have := I.older
    grind
  case ring =>
    have := I.ring
    grind
  case rings =>
    have := I.rings
    grind
  case channel =>
    have := I.channel
    grind
  case waits =>
    have := I.waits
    grind [runs_cons]
  case done =>
    have := I.done
    grind
  case current =>
    exact List.forall_mem_cons.mpr ⟨nofun, I.current⟩
  case left =>
    refine List.forall_mem_cons.mpr ⟨fun c mem => ⟨(quiet c mem).1, fun _ => (quiet c mem).2⟩, ?_⟩
    have := I.left
    grind
  case drained =>
    have := I.drained
    grind [has_cons]
  case fresh =>
    have := I.fresh
    grind [has_cons]
  case ended =>
    refine List.forall_mem_cons.mpr ⟨⟨known, ended⟩, ?_⟩
    have := I.ended
    grind
  case apart =>
    exact List.pairwise_cons.mpr ⟨fun f mem => (free f mem).symm, I.apart⟩
  case nodup =>
    exact List.forall_mem_cons.mpr ⟨I.rings r known, I.nodup⟩

omit [DecidableEq A] in
theorem Inv.fallBack {s : St A} (I : Inv s) {r : Nat} (may : r < s.records ∧ (s.recs r).alive ∧ ∀ f ∈ s.stack, f.record ≠ r) :
    Inv (fallBack s r) := by
  have here : (EndPoint.fallBack s r).recs r = { s.recs r with host := false } := update_self _ _ _
  have others : ∀ x, x ≠ r → (EndPoint.fallBack s r).recs x = s.recs x := fun x ne => update_of_ne ne _ _
  have same : EndPoint.fallBack s r = { s with recs := (EndPoint.fallBack s r).recs } := rfl
  rw [same]
  generalize (EndPoint.fallBack s r).recs = recs at here others
  have frame : ∀ x, (recs x).address = (s.recs x).address ∧ (recs x).alive = (s.recs x).alive ∧ (recs x).ring = (s.recs x).ring ∧
      (recs x).times = (s.recs x).times := by
    grind
  refine ⟨?_, ?_, ?_, ?_, ?_, ?_, I.mute, ?_, ?_, I.once, I.late, I.current, ?_, ?_, ?_, ?_, I.apart, I.nodup⟩
  · have := I.peer
    grind
  · have := I.alive
    grind
  · have := I.older
    grind
  · have := I.ring
    grind
  · have := I.rings
    grind
  · have := I.channel
    grind
  · have := I.waits
    grind
  · have := I.done
    grind
  · have := I.left
    grind
  · have := I.drained
    grind
  · have := I.fresh
    grind
  · have := I.ended
    grind

omit [DecidableEq A] in
theorem Inv.returns {s : St A} (I : Inv s) : Inv (returns s) := by
  unfold EndPoint.returns
  split
  · rename_i r answer c rest stack eq
    apply Inv.advance
    obtain ⟨current, currents⟩ := List.forall_mem_cons.mp (eq ▸ I.current)
    obtain ⟨left, lefts⟩ := List.forall_mem_cons.mp (eq ▸ I.left)
    obtain ⟨⟨known, done⟩, overs⟩ := List.forall_mem_cons.mp (eq ▸ I.ended)
    obtain ⟨nodup, nodups⟩ := List.forall_mem_cons.mp (eq ▸ I.nodup)
    obtain ⟨apart, aparts⟩ := List.pairwise_cons.mp (eq ▸ I.apart)
    have told := current c rfl
    have here : (setRing s r ((s.recs r).ring.filter (· ≠ c))).recs r = { s.recs r with ring := (s.recs r).ring.filter (· ≠ c) } :=
      update_self _ _ _
    have others : ∀ x, x ≠ r → (setRing s r ((s.recs r).ring.filter (· ≠ c))).recs x = s.recs x :=
      fun x ne => update_of_ne ne _ _
    generalize (setRing s r ((s.recs r).ring.filter (· ≠ c))).recs = recs at here others
    have ring : ∀ x, x ∈ (recs r).ring ↔ x ∈ (s.recs r).ring ∧ x ≠ c := by
      intro x
      rw [here]
      simp
    show Inv { s with recs := recs, stack := ⟨r, answer, none, rest⟩ :: stack }
    refine ⟨?_, ?_, ?_, ?_, ?_, ?_, I.mute, ?_, ?_, I.once, I.late, ?_, ?_, ?_, ?_, ?_, ?_, ?_⟩
    · have := I.peer
      grind
    · have := I.alive
      grind
    · have := I.older
      grind
    · have := I.ring
      grind
    · intro x (known : x < s.records)
      show (recs x).ring.Nodup
      by_cases same : x = r
      · rw [same, here]
        exact (I.rings r (same ▸ known)).filter _
      · rw [others x same]
        exact I.rings x known
    · have := I.channel
      grind
    · have := eq ▸ I.waits
      grind [runs_cons]
    · have := I.done
      grind
    · exact List.forall_mem_cons.mpr ⟨nofun, currents⟩
    · refine List.forall_mem_cons.mpr ⟨?_, ?_⟩
      · intro x mem
        exact ⟨(left x mem).1, fun inside => (left x mem).2 ((ring x).mp inside).1⟩
      · intro f mem x rest
        show x < s.made ∧ (x ∈ (recs f.record).ring → (s.contacts x).answers = [])
        rw [others f.record (apart f mem).symm]
        exact lefts f mem x rest
    · have := eq ▸ I.drained
      grind [has_cons]
    · have := eq ▸ I.fresh
      grind [has_cons]
    · refine List.forall_mem_cons.mpr ⟨⟨known, ?_⟩, ?_⟩
      · show (recs r).host = true ∨ (recs r).alive = false
        rw [here]
        exact done
      · intro f mem
        show f.record < s.records ∧ ((recs f.record).host = true ∨ (recs f.record).alive = false)
        rw [others f.record (apart f mem).symm]
        exact overs f mem
    · exact List.pairwise_cons.mpr ⟨apart, aparts⟩
    · exact List.forall_mem_cons.mpr ⟨(List.nodup_cons.mp nodup).2, nodups⟩
  · exact I

theorem Inv.step {s : St A} (I : Inv s) (e : Event A) (proper : Proper s e) : Inv (step s e) := by
  cases e with
  | contact a => exact I.contact a
  | abort c =>
    simp only [EndPoint.step]
    split
    · exact I.abort _ ‹_›
    · exact I
  | establish r =>
    simp only [EndPoint.step]
    split
    · rename_i new
      obtain ⟨known, alive, young⟩ := new
      have free : ∀ f ∈ s.stack, f.record ≠ r := by
        intro f mem same
        subst same
        rcases (I.ended f mem).2 with host | dead
        · exact young host
        · rw [alive] at dead
          cases dead
      apply Inv.advance
      rw [show (Function.update s.recs r { s.recs r with host := true, times := (s.recs r).times + 1 } r).ring = (s.recs r).ring by
        rw [update_self]]
      exact I.drain known free true (fun x ne => update_of_ne ne _ _) (by simp) (by simp) (by simp)
        (.inl ⟨fun _ => rfl, by simp⟩)
    · exact I
  | fallBack r =>
    simp only [EndPoint.step]
    split
    · exact I.fallBack ‹_›
    · exact I
  | killRecord r =>
    simp only [EndPoint.step]
    split
    · rename_i alive
      apply Inv.advance
      rw [show (Function.update s.recs r { s.recs r with alive := false } r).ring = (s.recs r).ring by rw [update_self]]
      exact I.drain alive.1 proper false (fun x ne => update_of_ne ne _ _) (by simp) (by simp) (by simp)
        (.inr ⟨by simp, fun x ne => update_of_ne ne _ _, alive.2, by simp⟩)
    · exact I
  | setNATLifeLine a =>
    simp only [EndPoint.step]
    split
    · rename_i free
      refine { I with peer := ?_, alive := ?_ }
      · have := I.peer
        grind [update_apply]
      · have := I.alive
        grind [update_apply]
    · exact I
  | clear a =>
    simp only [EndPoint.step]
    split
    · rename_i line
      refine { I with peer := ?_, alive := ?_ }
      · have := I.peer
        grind [update_apply]
      · have := I.alive
        grind [update_apply]
    · exact I
  | returns => exact I.returns

omit [DecidableEq A] in
theorem inv_new [Inhabited A] : Inv (new : St A) := by
  constructor
  all_goals simp [new]

/-- A run in which no channel is destroyed from a callback of its own ring. -/
def Tame [Inhabited A] (events : List (Event A)) : Prop := ∀ k e, events[k]? = some e → Proper (run (events.take k)) e

theorem inv_run [Inhabited A] (events : List (Event A)) (tame : Tame events) : Inv (run events) := by
  induction events using List.reverseRecOn with
  | nil => exact inv_new
  | append_singleton events e ih =>
    have before : Tame events := by
      intro k e' mem
      have short := (List.getElem?_eq_some_iff.mp mem).1
      have := tame k e' (by rw [List.getElem?_append_left short, mem])
      rwa [List.take_append_of_le_length (Nat.le_of_lt short)] at this
    have proper := tame events.length e (by simp)
    rw [List.take_left] at proper
    rw [run, List.foldl_append]
    exact (ih before).step e proper

omit [DecidableEq A] in
theorem Inv.right {s : St A} (I : Inv s) : Right s fun x => x.channel.isSome = true := by
  refine ⟨I.once, I.late, ?_⟩
  intro c made meant quiet ended live
  obtain ⟨r, channel⟩ := Option.isSome_iff_exists.mp meant
  obtain ⟨known, address, since⟩ := I.channel c made r channel
  obtain ⟨r', later, known', address', ended⟩ := ended
  rw [since] at later
  have reached : (s.recs r).host = true ∨ (s.contacts c).times < (s.recs r).times ∨ (s.recs r).alive = false := by
    rcases Nat.eq_or_lt_of_le later with rfl | later
    · exact ended
    · exact .inr (.inr (I.older r r' later known' (address.trans address'.symm)))
  have out : c ∉ (s.recs r).ring := by
    intro inside
    have idle : ¬ Has s.stack r c := by
      rintro ⟨f, mem, -⟩
      rw [quiet] at mem
      cases mem
    rcases reached with host | again | dead
    · exact idle (I.drained r known (.inl host) c inside)
    · rcases I.fresh r known c inside with same | has
      · exact Nat.lt_irrefl _ (same ▸ again)
      · exact idle has
    · exact idle (I.drained r known (.inr dead) c inside)
  rcases I.done c made r channel out with told | aborted
  · exact told
  · rw [live] at aborted
    cases aborted

/-- A channel that is established, falls back, is contacted and established again, and goes. -/
def again : List (Event Nat) :=
  [.contact 7, .establish 0, .returns, .fallBack 0, .contact 7, .establish 0, .returns, .killRecord 0]

/-- A life line that a channel replaces. -/
def never : List (Event Nat) := [.setNATLifeLine 7, .contact 7, .clear 7, .contact 7, .establish 0, .returns]

/-- A callback that destroys the end point. -/
def twice : List (Event Nat) := [.contact 7, .establish 0, .killRecord 0]

end BubbleStorm.Cusp.EndPoint
