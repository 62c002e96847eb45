/-
  BubbleStorm.Managed.Frontend — the maintainer of managed bubbles
  (`src/bubblestorm/managed/maintainer/frontend.sml` and the parts of
  `managed-replication.sml`, `storage-peer.sml` and `storage-stream.sml` it works through).

  A maintainer keeps its items of a bubble type in a cache and sends them to the storage
  peers whose density is below the bubble's size. `log` holds every action handed to a
  storage stream, in order; what a peer holds of a bubble is read off it.

  Sizes, system statistics and how densities come from them are parameters. A storage
  offer is given by its density, a connection that is being made by service and density.
-/

import BubbleStorm.Managed.StoragePool

namespace BubbleStorm.Managed

inductive Phase where
  | new
  | updated
  | stable
  deriving DecidableEq, Repr

/-- `Density`: `Size` is what the balancer sets, `Stats` the measured degree sums. -/
structure Densities (δ Size Stats : Type) where
  minVal : δ
  maxVal : δ
  /-- The density of a bubble of this size; `bubbleSize'` is the same of the last round. -/
  bubbleSize : Size → Stats → δ
  update : Stats → δ → δ
  phase : δ → Phase
  toPosition : Stats → δ → Int
  fromPosition : Stats → Int → δ

inductive Status where
  | joining
  | online
  | leaving
  | offline
  deriving DecidableEq, Repr

/-- `StorageRequest.t`; the bubble by its type id. -/
inductive Request (β ι α : Type) where
  | insert (bubble : β) (id : ι) (data : α)
  | update (bubble : β) (id : ι) (data : α)
  | delete (bubble : β) (id : ι)
  deriving DecidableEq, Repr

inductive Action (β ι α : Type) where
  | request (request : Request β ι α)
  | position (pos : Int)
  | shutdown
  deriving DecidableEq, Repr

structure BubbleType (β ι α Size : Type) where
  typeId : β
  cache : Table ι α
  currentSize : Size
  oldSize : Size

namespace Frontend

structure T (δ σ β ι α Size Stats : Type) where
  stats : Stats
  /-- The statistics of the round before. -/
  stats' : Stats
  status : Status
  types : List (BubbleType β ι α Size)
  pool : StoragePool.T δ σ
  bucket : Bool
  /-- Registrations under way. -/
  connecting : List (σ × δ)
  streams : Nat
  /-- Peers whose `removeFromFrontend` takes them out of the pool. -/
  registered : List (StoragePeer σ)
  isDead : List (StoragePeer σ)
  log : List (StoragePeer σ × Action β ι α)

variable {δ σ β ι α Size Stats : Type} [Preorder δ] [DecidableLT δ] [LinearOrder σ] [DecidableEq β] [DecidableEq ι]
variable (D : Densities δ Size Stats)

def bubbleSize (this : T δ σ β ι α Size Stats) (bubble : BubbleType β ι α Size) : δ :=
  D.bubbleSize bubble.currentSize this.stats

def bubbleSize' (this : T δ σ β ι α Size Stats) (bubble : BubbleType β ι α Size) : δ :=
  D.bubbleSize bubble.oldSize this.stats'

/-! ## Storage peers -/

def enqueue (this : T δ σ β ι α Size Stats) (storage : StoragePeer σ) (action : Action β ι α) : T δ σ β ι α Size Stats :=
  { this with log := this.log ++ [(storage, action)] }

def send (this : T δ σ β ι α Size Stats) (storage : StoragePeer σ) (request : Request β ι α) : T δ σ β ι α Size Stats :=
  enqueue this storage (.request request)

def sendAll (this : T δ σ β ι α Size Stats) (storage : StoragePeer σ) (requests : List (Request β ι α)) :
    T δ σ β ι α Size Stats :=
  requests.foldl (fun this request => send this storage request) this

def changePosition (this : T δ σ β ι α Size Stats) (storage : StoragePeer σ) (pos : Int) : T δ σ β ι α Size Stats :=
  enqueue this storage (.position pos)

/-- A stream dies once. -/
def die (this : T δ σ β ι α Size Stats) (storage : StoragePeer σ) : Except Exn (T δ σ β ι α Size Stats) := do
  if storage ∈ this.isDead then return this
  else
    let this := { this with isDead := storage :: this.isDead }
    if storage ∈ this.registered then return { this with pool := ← StoragePool.remove this.pool storage }
    else return this

def quit (this : T δ σ β ι α Size Stats) (storage : StoragePeer σ) : Except Exn (T δ σ β ι α Size Stats) :=
  die (enqueue this storage .shutdown) storage

/-! ## Requests -/

/-- To the peers of a range. -/
def requestRange (this : T δ σ β ι α Size Stats) (request : Request β ι α) (start stop : δ) :
    Except Exn (T δ σ β ι α Size Stats) := do
  let it ← StoragePool.range this.pool start stop
  return it.foldl (fun this e => send this e.2 request) this

/-- To the peers responsible for the bubble type, `Density.bubbleRange`. -/
def request (this : T δ σ β ι α Size Stats) (bubble : BubbleType β ι α Size) (request : Request β ι α) :
    Except Exn (T δ σ β ι α Size Stats) :=
  requestRange this request D.minVal (bubbleSize D this bubble)

def insertReqs (bubble : BubbleType β ι α Size) : List (Request β ι α) :=
  bubble.cache.entries.map fun e => .insert bubble.typeId e.1 e.2

def deleteReqs (bubble : BubbleType β ι α Size) : List (Request β ι α) :=
  bubble.cache.entries.map fun e => .delete bubble.typeId e.1

def sendOrDelete (this : T δ σ β ι α Size Stats) (storage : StoragePeer σ) (oldDensity newDensity : δ)
    (bubble : BubbleType β ι α Size) (oldSize newSize : δ) : T δ σ β ι α Size Stats :=
  match decide (oldDensity < oldSize), decide (newDensity < newSize) with
  | false, false => this
  | false, true => sendAll this storage (insertReqs bubble)
  | true, false => sendAll this storage (deleteReqs bubble)
  | true, true => this

/-- What the peer has to have at a new density, or must not have any more. -/
def sendItems (this : T δ σ β ι α Size Stats) (storage : StoragePeer σ) (newDensity oldDensity : δ) : T δ σ β ι α Size Stats :=
  this.types.foldl (fun t bubble =>
    sendOrDelete t storage oldDensity newDensity bubble (bubbleSize D t bubble) (bubbleSize D t bubble)) this

def updateDensity (this : T δ σ β ι α Size Stats) (storage : StoragePeer σ) (newDensity oldDensity : δ) :
    Except Exn (T δ σ β ι α Size Stats) := do
  let this := { this with pool := ← StoragePool.update this.pool newDensity storage }
  let this := changePosition this storage (D.toPosition this.stats newDensity)
  return sendItems D this storage newDensity oldDensity

/-! ## Storage peers coming and going -/

/-- A registration has gone through. -/
def onNewStorage (this : T δ σ β ι α Size Stats) (newDensity : δ) (storage : StoragePeer σ) :
    Except Exn (T δ σ β ι α Size Stats) := do
  match ← StoragePool.get this.pool storage.service with
  | none =>
    let this := { this with pool := ← StoragePool.add this.pool newDensity storage }
    let this := sendItems D this storage newDensity D.maxVal
    return { this with registered := storage :: this.registered }
  | some (oldDensity, oldStorage) =>
    -- two registrations at one peer: the new one is not needed
    let this ← quit this storage
    if ¬ newDensity < oldDensity then return this
    else updateDensity D this oldStorage newDensity oldDensity

def addStorage (this : T δ σ β ι α Size Stats) (service : σ) (density : δ) (filter : Bool → Bool) :
    Except Exn (T δ σ β ι α Size Stats) := do
  if ¬ filter this.bucket then return this
  else
    match ← StoragePool.get this.pool service with
    | none => return { this with connecting := this.connecting ++ [(service, density)] }
    | some (oldDensity, storage) =>
      if ¬ density < oldDensity then return this
      else updateDensity D this storage density oldDensity

def leavePeer (this : T δ σ β ι α Size Stats) (density : δ) (storage : StoragePeer σ) :
    Except Exn (T δ σ β ι α Size Stats) :=
  quit (sendItems D this storage D.maxVal density) storage

def onLeave (this : T δ σ β ι α Size Stats) : Except Exn (T δ σ β ι α Size Stats) := do
  let it ← StoragePool.iterator this.pool
  it.foldlM (fun this e => leavePeer D this e.1 e.2) this

/-- Quit the peers with too big positions. -/
def truncateStorage (this : T δ σ β ι α Size Stats) (pos : Int) : Except Exn (T δ σ β ι α Size Stats) := do
  let surplus ← StoragePool.range this.pool (D.fromPosition this.stats pos) D.maxVal
  (surplus.filter fun e => D.phase e.1 = .stable).foldlM (fun this e => quit this e.2) this

/-! ## Round switch -/

/-- A storage peer with its new and its old density. -/
structure Change (δ σ : Type) where
  storage : StoragePeer σ
  new : δ
  old : δ

def getChange (this : T δ σ β ι α Size Stats) (e : δ × StoragePeer σ) : Change δ σ :=
  ⟨e.2, D.update this.stats e.1, e.1⟩

def updatePool (pool : StoragePool.T δ σ) (changes : List (Change δ σ)) : Except Exn (StoragePool.T δ σ) :=
  (changes.filter fun c => c.new < c.old ∨ c.old < c.new).foldlM
    (fun pool c => StoragePool.update pool c.new c.storage) pool

def updatePos (this : T δ σ β ι α Size Stats) (c : Change δ σ) : T δ σ β ι α Size Stats :=
  if D.toPosition this.stats c.new = D.toPosition this.stats c.old then this
  else changePosition this c.storage (D.toPosition this.stats c.new)

def adjustBubble (this : T δ σ β ι α Size Stats) (changes : List (Change δ σ)) (bubble : BubbleType β ι α Size) :
    T δ σ β ι α Size Stats :=
  changes.foldl (fun t c =>
    sendOrDelete t c.storage c.old c.new bubble (bubbleSize' D t bubble) (bubbleSize D t bubble)) this

def onRoundSwitch (this : T δ σ β ι α Size Stats) (targetSize : Int) : Except Exn (T δ σ β ι α Size Stats) := do
  let changes := (← StoragePool.iterator this.pool).map (getChange D this)
  let this := { this with pool := ← updatePool this.pool changes }
  let this := changes.foldl (updatePos D) this
  let this := this.types.foldl (fun t bubble => adjustBubble D t changes bubble) this
  truncateStorage D this targetSize

/-! ## Managed replication -/

def find (this : T δ σ β ι α Size Stats) (typeId : β) : Except Exn (BubbleType β ι α Size) :=
  match this.types.find? fun b => b.typeId = typeId with
  | some b => .ok b
  | none => .error (.fail "cannot get data cache from non-maintained type")

def setCache (this : T δ σ β ι α Size Stats) (typeId : β) (cache : Table ι α) : T δ σ β ι α Size Stats :=
  { this with types := this.types.map fun b => if b.typeId = typeId then { b with cache := cache } else b }

def insert (this : T δ σ β ι α Size Stats) (typeId : β) (id : ι) (data : α) : Except Exn (T δ σ β ι α Size Stats) := do
  let bubble ← find this typeId
  let cache ← Table.add bubble.cache id data
  request D (setCache this typeId cache) bubble (.insert typeId id data)

def update (this : T δ σ β ι α Size Stats) (typeId : β) (id : ι) (data : α) : Except Exn (T δ σ β ι α Size Stats) := do
  let bubble ← find this typeId
  let cache ← Table.update bubble.cache id data
  request D (setCache this typeId cache) bubble (.update typeId id data)

def delete (this : T δ σ β ι α Size Stats) (typeId : β) (id : ι) : Except Exn (T δ σ β ι α Size Stats) := do
  let bubble ← find this typeId
  let (cache, _) ← Table.remove bubble.cache id
  request D (setCache this typeId cache) bubble (.delete typeId id)

def register (this : T δ σ β ι α Size Stats) (typeId : β) (size : Size) : Except Exn (T δ σ β ι α Size Stats) :=
  if this.types.any fun b => b.typeId = typeId then .error .bubbleIdInUse
  else .ok { this with types := ⟨typeId, ∅, size, size⟩ :: this.types }

/-- A measurement: `updateStats`, the balancer's `setNewSize`, and `onRoundSwitch`. -/
def round (this : T δ σ β ι α Size Stats) (stats : Stats) (size : β → Size) (targetSize : Int) :
    Except Exn (T δ σ β ι α Size Stats) :=
  let types := this.types.map fun b => { b with oldSize := b.currentSize, currentSize := size b.typeId }
  let this := { this with stats' := this.stats, stats := stats, types := types }
  if this.types.isEmpty || this.status != .online then .ok this
  else onRoundSwitch D this targetSize

def leave (this : T δ σ β ι α Size Stats) : Except Exn (T δ σ β ι α Size Stats) :=
  let this := { this with status := .leaving }
  if this.types.isEmpty then .ok this else onLeave D this

/-! ## Runs -/

inductive Event (δ σ β ι α Size Stats : Type) where
  | register (typeId : β) (size : Size)
  | insert (typeId : β) (id : ι) (data : α)
  | update (typeId : β) (id : ι) (data : α)
  | delete (typeId : β) (id : ι)
  /-- A storage offer. -/
  | offer (service : σ) (density : δ) (filter : Bool → Bool)
  /-- A registration goes through. -/
  | connected (i : Nat)
  /-- A storage stream ends. -/
  | died (storage : StoragePeer σ)
  | round (stats : Stats) (size : β → Size) (targetSize : Int)
  | status (status : Status)
  | leave

def step (this : T δ σ β ι α Size Stats) : Event δ σ β ι α Size Stats → Except Exn (T δ σ β ι α Size Stats)
  | .register typeId size => register this typeId size
  | .insert typeId id data => insert D this typeId id data
  | .update typeId id data => update D this typeId id data
  | .delete typeId id => delete D this typeId id
  | .offer service density filter => addStorage D this service density filter
  | .connected i =>
    match this.connecting[i]? with
    | none => .ok this
    | some (service, density) =>
      onNewStorage D { this with connecting := this.connecting.eraseIdx i, streams := this.streams + 1 } density
        ⟨service, this.streams⟩
  | .died storage => if storage ∈ this.registered then die this storage else .ok this
  | .round stats size targetSize => round D this stats size targetSize
  | .status status => .ok { this with status := status }
  | .leave => leave D this

def new (stats : Stats) (bucket : Bool) : T δ σ β ι α Size Stats :=
  ⟨stats, stats, .offline, [], StoragePool.new, bucket, [], 0, [], [], []⟩

/-- What raises does so before it changes anything. -/
def next (this : T δ σ β ι α Size Stats) (e : Event δ σ β ι α Size Stats) : T δ σ β ι α Size Stats :=
  match step D this e with
  | .ok this' => this'
  | .error _ => this

def run (this : T δ σ β ι α Size Stats) (events : List (Event δ σ β ι α Size Stats)) : T δ σ β ι α Size Stats :=
  events.foldl (next D) this

end Frontend

end BubbleStorm.Managed
