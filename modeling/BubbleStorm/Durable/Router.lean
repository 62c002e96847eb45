/-
  BubbleStorm.Durable.Router — what a node of the durable replication sends to whom
  (`src/bubblestorm/durable/routing/router.sml`, `routing-metric.sml`, `onStore` of
  `service/service.sml`, `backend.sml`).

  A node stores an item it is responsible for and, if asked to, forwards it to the peers
  of its table that are responsible too. A new peer of the table is sent everything it is
  responsible for. When a measurement round ends, what a peer has become responsible for
  is sent to it, and the node drops what it is no longer responsible for itself.

  So a peer that is responsible for an item of the node was sent it by the node, or the
  node has it from the peer, or was asked not to forward it (`covered_run`). The round
  compares the new density with the old size over the *new* sum of capacities: a density
  that grows because the network shrinks is not seen, and the peer is sent nothing. So the
  rounds of a calm run do not shrink the sum.

  A data store is the entries of its hash table. A conversation that stores an item is
  two events: `opened` is `onStore` up to `accept`, `finished` is its `readShutdown`.
-/

import BubbleStorm.Durable.HashStore
import BubbleStorm.Durable.Responsibility
import BubbleStorm.Durable.RoutingTable

namespace BubbleStorm.Durable

open Function (update update_eq_self update_of_ne update_self)
open BubbleStorm.Util.Serial.Forms (Id)

/-! ## The data stores -/

/-- `DurableHashStore.t` of data that is a vector. -/
abbrev Datastore := AList fun _ : Id => Version × Option (List UInt8)

/-- `DurableHashStore.store` on the entries. -/
def Datastore.store (table : Datastore) (id : Id) (version : Version) (data : Option (List UInt8)) : Datastore × Bool :=
  match table.lookup id with
  | none => (table.insert id (version, data), true)
  | some (oldVersion, _) =>
    if Version.lessEq version oldVersion then (table, false) else (table.insert id (version, data), true)

/-- The map of the entries. -/
def Datastore.items (table : Datastore) : Items Id (List UInt8) := fun id => table.lookup id

theorem items_insert (table : Datastore) (id : Id) (x : Version × Option (List UInt8)) :
    Datastore.items (table.insert id x) = update table.items id (some x) := by
  funext id'
  by_cases same : id' = id
  · subst same
    rw [update_self]
    exact AList.lookup_insert table
  · rw [update_of_ne same]
    exact AList.lookup_insert_ne same

/-- The entries are stored to as the map is. -/
theorem items_store (table : Datastore) (id : Id) (version : Version) (data : Option (List UInt8)) :
    (table.store id version data).1.items = (table.items.store id version data).1 ∧
      (table.store id version data).2 = (table.items.store id version data).2 := by
  have hitems : table.items id = table.lookup id := rfl
  unfold Datastore.store Items.store
  rw [hitems]
  cases table.lookup id with
  | none => exact ⟨items_insert .., rfl⟩
  | some held =>
    dsimp only
    split
    · exact ⟨rfl, rfl⟩
    · exact ⟨items_insert .., rfl⟩

/-- `Backend.cleanup` of one bubble: what the filter does not take is removed, one after
    the other. -/
def Datastore.clean (table : Datastore) (filter : Id → Bool) : Datastore :=
  ((table.entries.map Sigma.fst).filter fun id => !filter id).foldl (fun table id => table.erase id) table

theorem mem_erases {ids : List Id} {table : Datastore} {id : Id} {x : Version × Option (List UInt8)} :
    (ids.foldl (fun table id => table.erase id) table).lookup id = some x ↔ id ∉ ids ∧ table.lookup id = some x := by
  induction ids generalizing table with
  | nil => simp
  | cons id' ids ih =>
    rw [List.foldl_cons, ih, List.mem_cons, not_or]
    by_cases same : id = id'
    · subst same
      simp
    · rw [AList.lookup_erase_ne same]
      simp [same]

/-- What is left are the entries that the filter takes. -/
theorem lookup_clean {table : Datastore} {filter : Id → Bool} {id : Id} {x : Version × Option (List UInt8)} :
    (table.clean filter).lookup id = some x ↔ table.lookup id = some x ∧ filter id = true := by
  rw [Datastore.clean, mem_erases]
  constructor
  · rintro ⟨hnot, hx⟩
    refine ⟨hx, ?_⟩
    by_contra hfilter
    refine hnot (List.mem_filter.mpr ⟨List.mem_map.mpr ⟨⟨id, x⟩, AList.mem_lookup_iff.mp hx, rfl⟩, ?_⟩)
    simpa using hfilter
  · rintro ⟨hx, hfilter⟩
    refine ⟨fun hmem => ?_, hx⟩
    have hgone := (List.mem_filter.mp hmem).2
    simp [hfilter] at hgone

namespace Router

variable {K Addr : Type} [Field K] [LinearOrder K] [IsStrictOrderedRing K] [FloorRing K] [DecidableEq Addr]

/-! ## The node -/

/-- `Service.stub`, without the entries of the conversations. -/
structure Stub (K Addr : Type) where
  address : Addr
  capacity : K
  deriving DecidableEq

/-- `Record.t`. -/
structure Record where
  version : Version
  id : Id
  bubble : Int
  deriving DecidableEq

/-- A `Service.store` that is called. -/
structure Sent (K Addr : Type) where
  stub : Stub K Addr
  record : Record
  data : List UInt8
  forward : Bool

/-- A store conversation whose data is read. -/
structure Reading (Addr : Type) where
  record : Record
  position : Int
  forward : Bool
  remoteAddress : Addr

/-- What does not change. -/
structure Attributes (K Addr : Type) where
  id : Id
  capacity : K
  /-- The durable bubbles that are registered. -/
  types : List Int
  giantComponentFraction : K
  /-- `CUSP.Address.invalid`. -/
  invalid : Addr

structure Node (K Addr : Type) where
  table : RoutingTable.T Id (Stub K Addr)
  store : Int → Datastore
  /-- `SystemStats.d1`. -/
  d1 : K
  targetSize : Int → K
  oldSize : Int → K
  online : Bool
  reading : Nat → Option (Reading Addr)
  /-- What was answered to whom. -/
  accepts : List (Nat × Bool)
  sent : List (Sent K Addr)
  /-- Bubble, position, id and data of what was matched. -/
  matched : List (Int × Int × Id × List UInt8)
  /-- The conversations whose item was stored. -/
  heard : List (Reading Addr)

/-- `RoutingTable.iterator`. -/
def iterator (table : RoutingTable.T Id (Stub K Addr)) : List (Id × Stub K Addr) :=
  table.table.entries.filterMap fun e => if e.2.alive then some (e.1, e.2.service) else none

/-- `Record.decode`: the bubble has to be a durable one. -/
def decode (this : Attributes K Addr) (record : Record) : Option Int :=
  if record.bubble ∈ this.types then some record.bubble else none

/-! ## Densities -/

def getDensity (this : Attributes K Addr) (n : Node K Addr) (getBubbleSize : Int → K) (btype : Int) : K :=
  let size : K := (⌈getBubbleSize btype / this.giantComponentFraction⌉ : Int)
  size / n.d1

def targetDensity (this : Attributes K Addr) (n : Node K Addr) : Int → K := getDensity this n n.targetSize

def previousDensity (this : Attributes K Addr) (n : Node K Addr) : Int → K := getDensity this n n.oldSize

def responsibleFor (this : Attributes K Addr) (n : Node K Addr) (bubble : Int) (id : Id) (x : Id × Stub K Addr) : Bool :=
  isResponsible (peerID x.1) x.2.capacity (targetDensity this n bubble) (docID id)

/-! ## Sending -/

/-- The store and the lookup iterator. -/
def findResponsible (this : Attributes K Addr) (n : Node K Addr) (bubble : Int) (id : Id) : List (Id × Stub K Addr) :=
  (iterator n.table).filter (responsibleFor this n bubble id)

/-- `Router.route`; a record of no durable bubble is an exception. -/
def route (this : Attributes K Addr) (n : Node K Addr) (record : Record) (data : List UInt8) (sender : Addr) : List (Sent K Addr) :=
  match decode this record with
  | none => []
  | some bubble =>
    ((findResponsible this n bubble record.id).filter fun x => sender ≠ x.2.address).map fun x => ⟨x.2, record, data, true⟩

/-- The items of one bubble, tombstones without data (`Backend.iterator`). -/
def itemSet (table : Datastore) : List (Id × Version × List UInt8) :=
  table.entries.map fun e => (e.1, e.2.1, e.2.2.getD [])

/-- Those items that are selected are sent to the peer, and not to be forwarded. -/
def send (this : Attributes K Addr) (n : Node K Addr) (stub : Stub K Addr) (select : Int → Id → Bool) : List (Sent K Addr) :=
  this.types.flatMap fun bubble =>
    ((itemSet (n.store bubble)).filter fun item => select bubble item.1).map fun item =>
      ⟨stub, ⟨item.2.1, item.1, bubble⟩, item.2.2, false⟩

/-- `Router.replicate`. -/
def replicate (this : Attributes K Addr) (n : Node K Addr) (x : Id × Stub K Addr) : List (Sent K Addr) :=
  send this n x.2 fun bubble id => responsibleFor this n bubble id x

/-- What the peer is responsible for now, but was not before. -/
def findNewlyResponsible (this : Attributes K Addr) (n : Node K Addr) (x : Id × Stub K Addr) : List (Sent K Addr) :=
  send this n x.2 fun bubble id =>
    responsibleFor this n bubble id x &&
      !isResponsible (peerID x.1) x.2.capacity (previousDensity this n bubble) (docID id)

/-! ## Events -/

inductive Event (K Addr : Type) where
  | table (e : RoutingTable.Event Id (Stub K Addr))
  | opened (conversation : Nat) (record : Record) (forward : Bool) (remoteAddress : Option Addr)
  | finished (conversation : Nat) (data : List UInt8)
  /-- A store bubble is received. -/
  | routed (record : Record) (data : List UInt8)
  | round (d1 : K) (size : Int → K)
  | status (online : Bool)

/-- What the table hands to the router. -/
def onCall (this : Attributes K Addr) (n : Node K Addr) : RoutingTable.Call Id (Stub K Addr) → List (Sent K Addr)
  | .replicate id service => replicate this n (id, service)
  | _ => []

def onTable (this : Attributes K Addr) (n : Node K Addr) (e : RoutingTable.Event Id (Stub K Addr)) : Node K Addr :=
  let table := RoutingTable.step { n.table with called := [] } e
  { n with table := table, sent := n.sent ++ table.called.flatMap (onCall this n) }

/-- `Backend.isNew`. -/
def isNew (table : Datastore) (id : Id) (version : Version) : Bool :=
  match table.lookup id with
  | none => true
  | some (currentVersion, _) => Version.less currentVersion version

/-- `Service.onStore` up to the answer. -/
def onStore (this : Attributes K Addr) (n : Node K Addr) (conversation : Nat) (record : Record) (forward : Bool)
    (remoteAddress : Option Addr) : Node K Addr :=
  match remoteAddress, decode this record with
  | some remoteAddress, some bubble =>
    let bubblesize := ⌈n.targetSize bubble⌉
    match iAmResponsible (peerID this.id) this.capacity (targetDensity this n bubble) bubblesize record.id with
    | none => n
    | some position =>
      if isNew (n.store bubble) record.id record.version then
        { n with reading := update n.reading conversation (some ⟨record, position, forward, remoteAddress⟩)
                 accepts := n.accepts ++ [(conversation, true)] }
      else { n with accepts := n.accepts ++ [(conversation, false)] }
  | _, _ => n

/-- `Service.readShutdown`: the item is stored and, if it is new and to be forwarded, routed. -/
def readShutdown (this : Attributes K Addr) (n : Node K Addr) (r : Reading Addr) (data : List UInt8) : Node K Addr :=
  let bubble := r.record.bubble
  let actualData := (Request.mk r.record.id r.record.version data).actualData
  let (table, success) := (n.store bubble).store r.record.id r.record.version actualData
  let n := { n with store := update n.store bubble table }
  if success then
    { n with heard := n.heard ++ [r]
             matched := n.matched ++ (actualData.map fun data => (bubble, r.position, r.record.id, data)).toList
             sent := n.sent ++ if r.forward then route this n r.record data r.remoteAddress else [] }
  else n

def onFinished (this : Attributes K Addr) (n : Node K Addr) (conversation : Nat) (data : List UInt8) : Node K Addr :=
  match n.reading conversation with
  | none => n
  | some r => readShutdown this { n with reading := update n.reading conversation none } r data

/-- `RoutingMetric.onRoundSwitch`. -/
def onRoundSwitch (this : Attributes K Addr) (n : Node K Addr) : Node K Addr :=
  let responsible bubble id := isResponsible (peerID this.id) this.capacity (targetDensity this n bubble) (docID id)
  { n with sent := n.sent ++ (iterator n.table).flatMap (findNewlyResponsible this n)
           store := fun bubble => if bubble ∈ this.types then (n.store bubble).clean (responsible bubble) else n.store bubble }

/-- The statistics are notified first, then the balancer, which sets the sizes, and then
    the replication. -/
def onRound (this : Attributes K Addr) (n : Node K Addr) (d1 : K) (size : Int → K) : Node K Addr :=
  let n := { n with d1 := d1, oldSize := n.targetSize, targetSize := size }
  if n.online then onRoundSwitch this n else n

def step (this : Attributes K Addr) (n : Node K Addr) : Event K Addr → Node K Addr
  | .table e => onTable this n e
  | .opened conversation record forward remoteAddress => onStore this n conversation record forward remoteAddress
  | .finished conversation data => onFinished this n conversation data
  | .routed record data => { n with sent := n.sent ++ route this n record data this.invalid }
  | .round d1 size => onRound this n d1 size
  | .status online => { n with online := online }

/-- The sum is the node's own degree until it is measured. -/
def new (this : Attributes K Addr) : Node K Addr where
  table := RoutingTable.new
  store := fun _ => ∅
  d1 := minDegree * this.capacity
  targetSize := fun _ => 0
  oldSize := fun _ => 0
  online := false
  reading := fun _ => none
  accepts := []
  sent := []
  matched := []
  heard := []

def run (this : Attributes K Addr) (n : Node K Addr) (events : List (Event K Addr)) : Node K Addr := events.foldl (step this) n

/-! ## Who is in the table -/

section Table

variable {ID Stub : Type} [DecidableEq ID]

open RoutingTable (remove perItem)

/-- The peer and the service that an event brings. -/
def announces : RoutingTable.Event ID Stub → Option (ID × Stub)
  | .insert id service _ => some (id, service)
  | .contact id service => some (id, service)
  | _ => none

/-- A peer that is in the table has the service that it has there. -/
def Steady (this : RoutingTable.T ID Stub) (e : RoutingTable.Event ID Stub) : Prop :=
  ∀ id service entry, announces e = some (id, service) → this.table.lookup id = some entry → entry.service = service

/-- The peer was in the table with this service, and it is not dead unless it was. -/
def Kept (this : RoutingTable.T ID Stub) (id : ID) (entry : RoutingTable.Entry Stub) : Prop :=
  ∃ old, this.table.lookup id = some old ∧ old.service = entry.service ∧ (old.alive = true → entry.alive = true)

theorem kept_of_lookup {this : RoutingTable.T ID Stub} {id : ID} {entry : RoutingTable.Entry Stub} (h : this.table.lookup id = some entry) :
    Kept this id entry := ⟨entry, h, rfl, fun h => h⟩

theorem lookup_set {this : RoutingTable.T ID Stub} {id id' : ID} {entry entry' : RoutingTable.Entry Stub}
    (h : (this.set id entry).table.lookup id' = some entry') : (id' = id ∧ entry = entry') ∨ this.table.lookup id' = some entry' := by
  rw [RoutingTable.T.set] at h
  by_cases same : id' = id
  · subst same
    rw [AList.lookup_insert] at h
    cases h
    exact .inl ⟨rfl, rfl⟩
  · rw [AList.lookup_insert_ne same] at h
    exact .inr h

theorem lookup_of_erase {table : RoutingTable.Table ID Stub} {id id' : ID} {entry : RoutingTable.Entry Stub}
    (h : (table.erase id).lookup id' = some entry) : table.lookup id' = some entry := by
  by_cases same : id' = id
  · subst same
    rw [AList.lookup_erase] at h
    cases h
  · rwa [AList.lookup_erase_ne same] at h

theorem lookup_remove {this : RoutingTable.T ID Stub} {id id' : ID} {entry entry' : RoutingTable.Entry Stub}
    (h : (remove this id entry).table.lookup id' = some entry') :
    (id' = id ∧ entry.service = entry'.service ∧ entry'.alive = true) ∨ this.table.lookup id' = some entry' := by
  unfold remove at h
  split at h
  · rcases lookup_set h with ⟨rfl, rfl⟩ | h
    · exact .inl ⟨rfl, rfl, rfl⟩
    · exact .inr h
  · exact .inr (lookup_of_erase h)

/-- A walk brings no one. -/
theorem kept_walk (filter : Bool → Bool) (this : RoutingTable.T ID Stub) (l : List ((_ : ID) × RoutingTable.Entry Stub))
    (hl : ∀ e ∈ l, this.table.lookup e.1 = some e.2) :
    ∀ t : RoutingTable.T ID Stub, (∀ id entry, t.table.lookup id = some entry → Kept this id entry) →
      ∀ id entry, (l.foldl (perItem filter) t).table.lookup id = some entry → Kept this id entry := by
  induction l with
  | nil => exact fun t ht => ht
  | cons e l ih =>
    intro t ht
    refine ih (fun e' he' => hl e' (List.mem_cons_of_mem _ he')) _ fun id entry h => ?_
    unfold perItem at h
    split at h
    · rcases lookup_remove h with ⟨rfl, hservice, halive⟩ | h
      · exact ⟨e.2, hl e (List.mem_cons_self ..), hservice, fun _ => halive⟩
      · exact ht id entry h
    · exact ht id entry h

/-- Who is new was announced, and is handed to `replicate`. -/
theorem lookup_step {this : RoutingTable.T ID Stub} {e : RoutingTable.Event ID Stub} (hsteady : Steady this e) {id : ID}
    {entry : RoutingTable.Entry Stub} (h : (RoutingTable.step this e).table.lookup id = some entry) :
    Kept this id entry ∨ (entry.alive = true ∧ announces e = some (id, entry.service) ∧
      .replicate id entry.service ∈ (RoutingTable.step this e).called) := by
  cases e with
  | insert id' service' bucket =>
    simp only [RoutingTable.step, RoutingTable.insert] at h ⊢
    cases hlookup : this.table.lookup id' with
    | none =>
      simp only [RoutingTable.T.call, hlookup] at h ⊢
      rcases lookup_set h with ⟨rfl, rfl⟩ | h
      · exact .inr ⟨rfl, rfl, by simp⟩
      · exact .inl (kept_of_lookup h)
    | some old =>
      simp only [RoutingTable.T.call, hlookup] at h ⊢
      rcases lookup_set h with ⟨rfl, rfl⟩ | h
      · exact .inl ⟨old, hlookup, hsteady _ _ _ rfl hlookup, fun _ => rfl⟩
      · exact .inl (kept_of_lookup h)
  | delete id' =>
    simp only [RoutingTable.step, RoutingTable.delete] at h
    cases hlookup : this.table.lookup id' with
    | none =>
      simp only [hlookup] at h
      exact .inl (kept_of_lookup h)
    | some old =>
      simp only [hlookup] at h
      rcases lookup_remove h with ⟨rfl, hservice, halive⟩ | h
      · exact .inl ⟨old, hlookup, hservice, fun _ => halive⟩
      · exact .inl (kept_of_lookup h)
  | flush filter =>
    refine .inl (kept_walk filter this _ (fun e he => ?_) this (fun _ _ h => kept_of_lookup h) id entry h)
    exact AList.mem_lookup_iff.mpr he
  | contact id' service' =>
    simp only [RoutingTable.step, RoutingTable.contact] at h ⊢
    cases hlookup : this.table.lookup id' with
    | none =>
      simp only [hlookup] at h ⊢
      rcases @lookup_set _ _ _ this _ _ _ _ h with ⟨rfl, rfl⟩ | h
      · exact .inr ⟨rfl, rfl, by simp [RoutingTable.T.call, RoutingTable.T.set]⟩
      · exact .inl (kept_of_lookup h)
    | some old =>
      simp only [hlookup] at h ⊢
      rcases lookup_set h with ⟨rfl, rfl⟩ | h
      · exact .inl ⟨old, hlookup, hsteady _ _ _ rfl hlookup, fun _ => rfl⟩
      · exact .inl (kept_of_lookup h)
  | quit id' =>
    simp only [RoutingTable.step, RoutingTable.quit] at h
    cases hlookup : this.table.lookup id' with
    | none =>
      simp only [hlookup] at h
      exact .inl (kept_of_lookup h)
    | some old =>
      simp only [hlookup] at h
      split at h
      · rcases lookup_set h with ⟨rfl, rfl⟩ | h
        · exact .inl ⟨old, hlookup, rfl, fun _ => rfl⟩
        · exact .inl (kept_of_lookup h)
      · exact .inl (kept_of_lookup (lookup_of_erase h))

end Table

omit [Field K] [LinearOrder K] [IsStrictOrderedRing K] [FloorRing K] [DecidableEq Addr] in
theorem mem_iterator {table : RoutingTable.T Id (Stub K Addr)} {x : Id × Stub K Addr} :
    x ∈ iterator table ↔ ∃ entry, table.table.lookup x.1 = some entry ∧ entry.alive = true ∧ entry.service = x.2 := by
  constructor
  · intro h
    obtain ⟨e, he, hx⟩ := List.mem_filterMap.mp h
    split at hx
    next halive =>
      cases hx
      exact ⟨e.2, AList.mem_lookup_iff.mpr he, halive, rfl⟩
    next => cases hx
  · rintro ⟨entry, hlookup, halive, hservice⟩
    refine List.mem_filterMap.mpr ⟨⟨x.1, entry⟩, AList.mem_lookup_iff.mp hlookup, ?_⟩
    rw [if_pos halive, hservice]

/-! ## Who was told what -/

/-- The item was sent to the peer, or it is from there, or it was not to be forwarded. -/
def Told (n : Node K Addr) (stub : Stub K Addr) (record : Record) (data : List UInt8) : Prop :=
  (∃ forward, ⟨stub, record, data, forward⟩ ∈ n.sent) ∨
    ∃ r ∈ n.heard, r.record = record ∧ (r.remoteAddress = stub.address ∨ r.forward = false)

/-- Every peer that is responsible for an item of the node was told of it. -/
def Covered (this : Attributes K Addr) (n : Node K Addr) : Prop :=
  ∀ bubble ∈ this.types, ∀ id version data, (n.store bubble).lookup id = some (version, data) →
    ∀ x ∈ iterator n.table, responsibleFor this n bubble id x = true → Told n x.2 ⟨version, id, bubble⟩ (data.getD [])

/-- What an event of a calm run keeps to: a peer does not change its service, and its
    capacity is none below zero; the node is online when a round ends, and the sum of the
    capacities has not shrunk. -/
def Calm (n : Node K Addr) : Event K Addr → Prop
  | .table e => Steady n.table e ∧ ∀ x, announces e = some x → 0 ≤ x.2.capacity
  | .round d1 size => n.online = true ∧ n.d1 ≤ d1 ∧ ∀ bubble, 0 ≤ size bubble
  | _ => True

def Calmly (this : Attributes K Addr) (n : Node K Addr) : List (Event K Addr) → Prop
  | [] => True
  | e :: events => Calm n e ∧ Calmly this (step this n e) events

structure Inv (this : Attributes K Addr) (n : Node K Addr) : Prop where
  covered : Covered this n
  alive : ∀ id entry, n.table.table.lookup id = some entry → entry.alive = true
  capacity : ∀ id entry, n.table.table.lookup id = some entry → 0 ≤ entry.service.capacity
  d1 : 0 < n.d1
  size : ∀ bubble, 0 ≤ n.targetSize bubble

omit [LinearOrder K] [IsStrictOrderedRing K] [FloorRing K] [Field K] [DecidableEq Addr] in
theorem Told.mono {n n' : Node K Addr} {stub : Stub K Addr} {record : Record} {data : List UInt8} (h : Told n stub record data)
    (hsent : n.sent ⊆ n'.sent) (hheard : n.heard ⊆ n'.heard) : Told n' stub record data := by
  rcases h with ⟨forward, hmem⟩ | ⟨r, hr, hrecord⟩
  · exact .inl ⟨forward, hsent hmem⟩
  · exact .inr ⟨r, hheard hr, hrecord⟩

omit [LinearOrder K] [IsStrictOrderedRing K] [FloorRing K] [Field K] [DecidableEq Addr] in
theorem mem_send {this : Attributes K Addr} {n : Node K Addr} {stub : Stub K Addr} {select : Int → Id → Bool} {bubble : Int} {id : Id}
    {version : Version} {data : Option (List UInt8)} (hbubble : bubble ∈ this.types)
    (hlookup : (n.store bubble).lookup id = some (version, data)) (hselect : select bubble id = true) :
    ⟨stub, ⟨version, id, bubble⟩, data.getD [], false⟩ ∈ send this n stub select := by
  refine List.mem_flatMap.mpr ⟨bubble, hbubble, List.mem_map.mpr ⟨(id, version, data.getD []), ?_, rfl⟩⟩
  refine List.mem_filter.mpr ⟨List.mem_map.mpr ⟨⟨id, version, data⟩, AList.mem_lookup_iff.mp hlookup, rfl⟩, hselect⟩

omit [IsStrictOrderedRing K] in
theorem mem_route {this : Attributes K Addr} {n : Node K Addr} {record : Record} (data : List UInt8) {sender : Addr}
    {x : Id × Stub K Addr} (hbubble : record.bubble ∈ this.types) (hx : x ∈ iterator n.table)
    (hresp : responsibleFor this n record.bubble record.id x = true) (hsender : sender ≠ x.2.address) :
    ⟨x.2, record, data, true⟩ ∈ route this n record data sender := by
  unfold route decode
  rw [if_pos hbubble]
  refine List.mem_map.mpr ⟨x, List.mem_filter.mpr ⟨List.mem_filter.mpr ⟨hx, hresp⟩, ?_⟩, rfl⟩
  exact decide_eq_true hsender

/-! ## The steps -/

theorem store_cases (table : Datastore) (id : Id) (version : Version) (data : Option (List UInt8)) :
    table.store id version data = (table.insert id (version, data), true) ∨ table.store id version data = (table, false) := by
  unfold Datastore.store
  cases table.lookup id with
  | none => exact .inl rfl
  | some held =>
    dsimp only
    split
    · exact .inr rfl
    · exact .inl rfl

theorem actualData_getD (r : Request Id) : r.actualData.getD [] = r.data := by
  unfold Request.actualData
  split
  next h => exact (List.length_eq_zero_iff.mp h).symm
  next => rfl

omit [IsStrictOrderedRing K] [DecidableEq Addr] in
theorem inv_table {this : Attributes K Addr} {n : Node K Addr} (h : Inv this n) {e : RoutingTable.Event Id (Stub K Addr)}
    (hsteady : Steady n.table e) (hcapacity : ∀ x, announces e = some x → 0 ≤ x.2.capacity) : Inv this (onTable this n e) := by
  have hstep : ∀ {id entry}, (onTable this n e).table.table.lookup id = some entry → Kept n.table id entry ∨
      (entry.alive = true ∧ announces e = some (id, entry.service) ∧
        .replicate id entry.service ∈ (onTable this n e).table.called) := fun hlookup =>
    @lookup_step _ _ _ { n.table with called := [] } e hsteady _ _ hlookup
  refine ⟨?_, ?_, ?_, h.d1, h.size⟩
  · intro bubble hbubble id version data hlookup x hx hresp
    obtain ⟨entry, hentry, -, hservice⟩ := mem_iterator.mp hx
    rcases hstep hentry with ⟨old, hold, hsame, -⟩ | ⟨-, -, hcalled⟩
    · have hmem : x ∈ iterator n.table := mem_iterator.mpr ⟨old, hold, h.alive _ _ hold, hsame.trans hservice⟩
      exact (h.covered bubble hbubble id version data hlookup x hmem hresp).mono (List.subset_append_left ..) (List.Subset.refl _)
    · rw [hservice] at hcalled
      refine .inl ⟨false, List.mem_append_right _ (List.mem_flatMap.mpr ⟨_, hcalled, ?_⟩)⟩
      show _ ∈ send this n x.2 fun bubble id => responsibleFor this n bubble id x
      exact mem_send hbubble hlookup hresp
  · intro id entry hlookup
    rcases hstep hlookup with ⟨old, hold, -, halive⟩ | ⟨halive, -⟩
    · exact halive (h.alive _ _ hold)
    · exact halive
  · intro id entry hlookup
    rcases hstep hlookup with ⟨old, hold, hsame, -⟩ | ⟨-, hannounced, -⟩
    · exact hsame ▸ h.capacity _ _ hold
    · exact hcapacity _ hannounced

omit [IsStrictOrderedRing K] in
theorem inv_read {this : Attributes K Addr} {n : Node K Addr} (h : Inv this n) (r : Reading Addr) (data : List UInt8) :
    Inv this (readShutdown this n r data) := by
  unfold readShutdown
  dsimp only
  generalize hactual : (Request.mk r.record.id r.record.version data).actualData = actual
  have hdata : actual.getD [] = data := by
    rw [← hactual]
    exact actualData_getD _
  rcases store_cases (n.store r.record.bubble) r.record.id r.record.version actual with hstore | hstore
  · rw [hstore]
    dsimp only
    rw [if_pos rfl]
    refine ⟨?_, h.alive, h.capacity, h.d1, h.size⟩
    intro bubble hbubble id version held hlookup x hx hresp
    dsimp only at hlookup
    by_cases hsame : bubble = r.record.bubble ∧ id = r.record.id
    · obtain ⟨rfl, rfl⟩ := hsame
      rw [update_self, AList.lookup_insert] at hlookup
      cases hlookup
      by_cases hforward : r.forward = true
      · by_cases hsender : r.remoteAddress = x.2.address
        · exact .inr ⟨r, by simp, rfl, .inl hsender⟩
        · have hmem := mem_route data hbubble hx hresp hsender
          refine .inl ⟨true, ?_⟩
          simp only [if_true, hforward, hdata]
          exact List.mem_append_right _ hmem
      · exact .inr ⟨r, by simp, rfl, .inr (Bool.not_eq_true _ ▸ hforward)⟩
    · have hold : (n.store bubble).lookup id = some (version, held) := by
        by_cases hb : bubble = r.record.bubble
        · subst hb
          have hid : id ≠ r.record.id := fun hid => hsame ⟨rfl, hid⟩
          rwa [update_self, AList.lookup_insert_ne hid] at hlookup
        · rwa [update_of_ne hb] at hlookup
      exact (h.covered bubble hbubble id version held hold x hx hresp).mono (List.subset_append_left ..) (List.subset_append_left ..)
  · rw [hstore]
    dsimp only
    rw [if_neg Bool.false_ne_true, update_eq_self]
    exact h

omit [DecidableEq Addr] in
/-- What a peer was responsible for by the old size over the new sum, it was responsible
    for before. -/
theorem responsible_before {this : Attributes K Addr} {n : Node K Addr} (hg : 0 < this.giantComponentFraction) {d1 capacity : K}
    {bubble : Int} (hpos : 0 < n.d1) (hgrown : n.d1 ≤ d1) (hsize : 0 ≤ n.targetSize bubble) (hcapacity : 0 ≤ capacity)
    {nodeID itemID : BitVec 64}
    (h : isResponsible nodeID capacity (getDensity this { n with d1 := d1 } n.targetSize bubble) itemID = true) :
    isResponsible nodeID capacity (targetDensity this n bubble) itemID = true := by
  have hceil : (0 : K) ≤ (⌈n.targetSize bubble / this.giantComponentFraction⌉ : Int) := by
    exact_mod_cast Int.ceil_nonneg (div_nonneg hsize hg.le)
  refine isResponsible_mono hcapacity le_rfl ?_ ?_ h
  · exact div_nonneg hceil (hpos.le.trans hgrown)
  · exact div_le_div_of_nonneg_left hceil hpos hgrown

omit [DecidableEq Addr] in
theorem inv_round {this : Attributes K Addr} {n : Node K Addr} (hg : 0 < this.giantComponentFraction) (h : Inv this n) {d1 : K}
    {size : Int → K} (honline : n.online = true) (hgrown : n.d1 ≤ d1) (hsize : ∀ bubble, 0 ≤ size bubble) :
    Inv this (onRound this n d1 size) := by
  unfold onRound
  rw [if_pos honline]
  refine ⟨?_, h.alive, h.capacity, h.d1.trans_le hgrown, hsize⟩
  intro bubble hbubble id version data hlookup x hx hresp
  have hold : (n.store bubble).lookup id = some (version, data) := by
    simp only [onRoundSwitch, if_pos hbubble] at hlookup
    exact (lookup_clean.mp hlookup).1
  let m : Node K Addr := { n with d1 := d1, oldSize := n.targetSize, targetSize := size }
  by_cases hbefore : isResponsible (peerID x.1) x.2.capacity (previousDensity this m bubble) (docID id) = true
  · have hcapacity : 0 ≤ x.2.capacity := by
      obtain ⟨entry, hentry, -, hservice⟩ := mem_iterator.mp hx
      exact hservice ▸ h.capacity _ _ hentry
    have htold := h.covered bubble hbubble id version data hold x hx
      (responsible_before hg h.d1 hgrown (h.size bubble) hcapacity hbefore)
    exact htold.mono (List.subset_append_left ..) (List.Subset.refl _)
  · refine .inl ⟨false, List.mem_append_right _ (List.mem_flatMap.mpr ⟨x, hx, ?_⟩)⟩
    refine mem_send (n := m) hbubble hold ?_
    rw [Bool.and_eq_true, Bool.not_eq_true']
    exact ⟨hresp, Bool.not_eq_true _ ▸ hbefore⟩

theorem inv_step {this : Attributes K Addr} {n : Node K Addr} (hg : 0 < this.giantComponentFraction) (h : Inv this n) {e : Event K Addr}
    (hcalm : Calm n e) : Inv this (step this n e) := by
  cases e with
  | table e => exact inv_table h hcalm.1 hcalm.2
  | opened conversation record forward remoteAddress =>
    show Inv this (onStore this n conversation record forward remoteAddress)
    unfold onStore
    split
    · dsimp only
      split
      · exact h
      · split <;> exact ⟨h.covered, h.alive, h.capacity, h.d1, h.size⟩
    · exact h
  | finished conversation data =>
    show Inv this (onFinished this n conversation data)
    unfold onFinished
    split
    next => exact h
    next r _ =>
      have hread : Inv this { n with reading := update n.reading conversation none } :=
        ⟨h.covered, h.alive, h.capacity, h.d1, h.size⟩
      exact inv_read hread r data
  | routed record data =>
    refine ⟨?_, h.alive, h.capacity, h.d1, h.size⟩
    intro bubble hbubble id version held hlookup x hx hresp
    exact (h.covered bubble hbubble id version held hlookup x hx hresp).mono (List.subset_append_left ..) (List.Subset.refl _)
  | round d1 size => exact inv_round hg h hcalm.1 hcalm.2.1 hcalm.2.2
  | status online => exact ⟨h.covered, h.alive, h.capacity, h.d1, h.size⟩

omit [DecidableEq Addr] in
theorem inv_new {this : Attributes K Addr} (hcapacity : 0 < this.capacity) : Inv this (new this) := by
  have hempty : ∀ id, (new this).table.table.lookup id = none := fun id => rfl
  refine ⟨?_, ?_, ?_, ?_, fun _ => le_rfl⟩
  · intro bubble hbubble id version data hlookup
    cases hlookup
  · intro id entry hlookup
    rw [hempty] at hlookup
    cases hlookup
  · intro id entry hlookup
    rw [hempty] at hlookup
    cases hlookup
  · have hdegree : (0 : K) < minDegree := by exact_mod_cast (by decide : 0 < minDegree)
    exact mul_pos hdegree hcapacity

theorem inv_run {this : Attributes K Addr} (hg : 0 < this.giantComponentFraction) (events : List (Event K Addr)) :
    ∀ n : Node K Addr, Inv this n → Calmly this n events → Inv this (run this n events) := by
  induction events with
  | nil => exact fun n h _ => h
  | cons e events ih =>
    intro n h hcalm
    exact ih _ (inv_step hg h hcalm.1) hcalm.2

/-- After a calm run, every peer of the table that is responsible for an item of the node
    was told of it. -/
theorem covered_run (this : Attributes K Addr) (hg : 0 < this.giantComponentFraction) (hcapacity : 0 < this.capacity)
    (events : List (Event K Addr)) (hcalm : Calmly this (new this) events) : Covered this (run this (new this) events) :=
  (inv_run hg events _ (inv_new hcapacity) hcalm).covered

/-- A node with one bubble. -/
def alone : Attributes ℚ Nat := ⟨List.replicate 20 0, 1, [0], 1 / 2, 0⟩

/-- It gets to know a peer, and stores an item that the peer is not responsible for while
    the sum of the capacities is 64. -/
def settled (d1 : ℚ) : List (Event ℚ Nat) :=
  [.status true, .round 64 fun _ => 1, .round 64 fun _ => 1, .table (.contact (List.replicate 20 192) ⟨9, 1⟩),
    .opened 3 ⟨⟨1, 0⟩, 1 :: List.replicate 19 0, 0⟩ true (some 7), .finished 3 [5], .round d1 fun _ => 1]

theorem covered_settled : Covered alone (run alone (new alone) (settled 128)) :=
  covered_run alone (by norm_num [alone]) (by norm_num [alone]) (settled 128)
    ⟨trivial, ⟨rfl, by norm_num [step, new, alone, minDegree], fun _ => zero_le_one⟩, ⟨rfl, le_rfl, fun _ => zero_le_one⟩,
      ⟨(fun _ _ _ _ h => nomatch h), fun x h => by cases h; exact zero_le_one⟩, trivial, trivial,
      ⟨by decide +kernel, by decide +kernel, fun _ => zero_le_one⟩, trivial⟩

end Router

end BubbleStorm.Durable
