/-
  BubbleStorm.Managed.StorageStream — what a storage peer does with a maintainer's stream
  (`newMaintainer` of `src/bubblestorm/managed/protocol/storage-stream.sml`, `decode` of
  `storage-request.sml`, `onRequest` of `storage-service.sml`, and the store of
  `src/bubblestorm/managed/datastore/managed-hash-store.sml`).

  The stream comes in chunks; `readFully` copies them byte by byte into the buffer that is
  asked for. Matching a new item and answering a request are effects.

  Proved: as long as no data request is shorter than its description and no UPDATE names
  an item that is not held, no exception escapes, however the bytes are split, and what is
  refused resets the conversation and leaves the items alone (`requests_survive`).
-/

import BubbleStorm.Util.Serial.Forms

namespace BubbleStorm.Managed.StorageStream

open BubbleStorm.Cusp (Bytes)
open BubbleStorm.Lib
open BubbleStorm.Util.Serial
open BubbleStorm.Util.Serial.Forms (Id)

/-! ## The hash store -/

structure Item where
  data : Bytes
  bucket : Bool

abbrev Table := List (Id × Item)

namespace HashStore

def get (t : Table) (id : Id) : Option Item := t.lookup id

def without (t : Table) (id : Id) : Table := t.filter fun e => e.1 != id

/-- `HashTable.set`: an item that is there is replaced. -/
def insert (t : Table) (id : Id) (data : Bytes) (bucket : Bool) : Table := (id, ⟨data, bucket⟩) :: without t id

/-- `HashTable.modify`. -/
def update (t : Table) (id : Id) (data : Bytes) : Except Cusp.Exn Table :=
  match get t id with
  | some item => .ok ((id, ⟨data, item.bucket⟩) :: without t id)
  | none => .error (.fail "KeyDoesNotExist")

/-- `HashTable.remove`. -/
def delete (t : Table) (id : Id) : Except Cusp.Exn Table :=
  match get t id with
  | some _ => .ok (without t id)
  | none => .error (.fail "KeyDoesNotExist")

end HashStore

/-! ## Requests -/

inductive RequestType where
  | invalid
  | ins
  | upd
  | del
  | pos
  deriving DecidableEq

def RequestType.load (typ : BitVec 32) : RequestType :=
  if typ = 1 then .ins else if typ = 2 then .upd else if typ = 3 then .del else if typ = 4 then .pos else .invalid

/-- The type of a request, and its length or a position. -/
def headerForm : Shape (BitVec 32 × BitVec 32) := Forms.pair Forms.int32l Forms.int32l

/-- The description in front of the data: bubble type, id, and whom to tell. -/
def bodyForm : Shape (BitVec 32 × Id × BitVec 16) :=
  .aggregate (fun (t, id, done, _) => (t, id, done)) (fun (t, id, done) => (t, id, done, ()))
    (.cons Forms.int32l (.cons Forms.id (.cons Forms.word16b .nil)))

inductive Kind where
  | insert
  | update
  | delete
  deriving DecidableEq

def Kind.type : Kind → RequestType
  | .insert => .ins
  | .update => .upd
  | .delete => .del

structure Request where
  bubble : BitVec 32
  id : Id
  data : Bytes
  done : BitVec 16

inductive Phase where
  | header (have_ : Bytes)
  | body (kind : Kind) (length : Nat) (have_ : Bytes)
  /-- Nobody reads. -/
  | stopped
  deriving DecidableEq

inductive Effect where
  | doMatching (bubble : BitVec 32) (pos : BitVec 32) (id : Id) (data : Bytes)
  | done (method : BitVec 16)

/-- A storage peer with one of its maintainers. -/
structure St where
  /-- The bubble types that are registered, and whether they are managed. -/
  bubbletypes : BitVec 32 → Option Bool
  datastore : BitVec 32 → Table
  bucket : Bool
  position : BitVec 32
  /-- How the maintainer died: by a clean shutdown or not. -/
  dead : Option Bool
  /-- The conversation was reset. -/
  reset : Bool
  phase : Phase
  effects : List Effect

def die (shutdown : Bool) (s : St) : St :=
  if s.dead.isSome then s else { s with dead := some shutdown, reset := s.reset || !shutdown }

/-- `StorageMaintainer.flush`. -/
def flush (s : St) : St := { s with reset := true }

def setTable (s : St) (bubble : BitVec 32) (t : Table) : St :=
  { s with datastore := fun b => if b = bubble then t else s.datastore b }

def perform (s : St) (effects : List Effect) : St := { s with effects := s.effects ++ effects }

def invalidBubbleType : Cusp.Exn := .fail "InvalidBubbleType"

def decode (s : St) (body : Bytes) : Except Cusp.Exn Request := do
  let data := full body
  let desc ← slice body 0 bodyForm.serial.length
  let (bubbleID, id, done) ← parseSlice bodyForm.serial desc
  match s.bubbletypes bubbleID with
  | some true =>
    let tail ← subsliceFrom data bodyForm.serial.length
    return ⟨bubbleID, id, (tail.array.drop tail.i).take tail.n, done⟩
  | _ => .error invalidBubbleType

/-- The handler of exceptions belongs to the last clause alone. -/
def onRequest (s : St) (kind : Kind) (r : Request) : Except Cusp.Exn St :=
  match kind with
  | .insert =>
    .ok (perform (setTable s r.bubble (HashStore.insert (s.datastore r.bubble) r.id r.data s.bucket))
      [.doMatching r.bubble s.position r.id r.data, .done r.done])
  | .update => do return perform (setTable s r.bubble (← HashStore.update (s.datastore r.bubble) r.id r.data)) [.done r.done]
  | .delete =>
    match HashStore.delete (s.datastore r.bubble) r.id with
    | .ok t => .ok (perform (setTable s r.bubble t) [.done r.done])
    | .error _ => .ok (flush s)

def readHeader (s : St) : St := { s with phase := .header [] }

def receiveRequest (kind : Kind) (body : Bytes) (s : St) : Except Cusp.Exn St :=
  match (do onRequest s kind (← decode s body)) with
  | .ok s => .ok (readHeader s)
  | .error e => if e = invalidBubbleType then .ok (readHeader (die false s)) else .error e

/-- The buffer is a slice of `length` bytes, which may be none, or fewer. -/
def readRequest (kind : Kind) (length : Int) (s : St) : Except Cusp.Exn St :=
  if length < 0 then .error .subscript
  else if length = 0 then receiveRequest kind [] s
  else .ok { s with phase := .body kind length.toNat [] }

def receiveHeader (buffer : Bytes) (s : St) : Except Cusp.Exn St := do
  let (typ, len) ← parseSlice headerForm.serial (full buffer)
  match RequestType.load typ with
  | .ins => readRequest .insert len.toInt s
  | .upd => readRequest .update len.toInt s
  | .del => readRequest .delete len.toInt s
  | .pos => return readHeader { s with position := len }
  | .invalid => return { die false s with phase := .stopped }

/-- One byte more. -/
def step (s : St) (b : UInt8) : Except Cusp.Exn St :=
  match s.phase with
  | .header have_ =>
    if have_.length + 1 = headerForm.serial.length then receiveHeader (have_ ++ [b]) s
    else .ok { s with phase := .header (have_ ++ [b]) }
  | .body kind length have_ =>
    if have_.length + 1 = length then receiveRequest kind (have_ ++ [b]) s
    else .ok { s with phase := .body kind length (have_ ++ [b]) }
  | .stopped => .ok s

/-- A read that comes back without data. -/
def fail (shutdown : Bool) (s : St) : St :=
  if s.phase = .stopped then s else { die shutdown s with phase := .stopped }

inductive Ev where
  | chunk (bytes : Bytes)
  | shutdown
  | reset

def handle (s : St) : Ev → Except Cusp.Exn St
  | .chunk bytes => bytes.foldlM step s
  | .shutdown => .ok (fail true s)
  | .reset => .ok (fail false s)

def run (s : St) (evs : List Ev) : Except Cusp.Exn St := evs.foldlM handle s

/-- A chunk, byte by byte. -/
def Ev.split : Ev → List Ev
  | .chunk bytes => bytes.map fun b => .chunk [b]
  | .shutdown => [.shutdown]
  | .reset => [.reset]

/-- Every single byte or end of the stream comes in a state where `Q` holds. -/
def Along (Q : St → Ev → Prop) : St → List Ev → Prop
  | _, [] => True
  | s, ev :: evs => Q s ev ∧ ∀ s', handle s ev = .ok s' → Along Q s' evs

/-! ## Single requests -/

theorem header_length : headerForm.serial.length = 8 := rfl

theorem body_length : bodyForm.serial.length = 26 := rfl

theorem parseHeader_ok {buffer : Bytes} (h : buffer.length = 8) : ∃ typ len, parseSlice headerForm.serial (full buffer) = .ok (typ, len) := by
  obtain ⟨⟨typ, len⟩, hx⟩ := (parseSlice_iff headerForm (full_in buffer) (Nat.dvd_zero _)).mpr (Nat.le_of_eq h.symm)
  exact ⟨typ, len, hx⟩

/-- A body with a whole description is a request, or for a type that takes none. -/
theorem decode_cases (s : St) {body : Bytes} (h : 26 ≤ body.length) :
    decode s body = .error invalidBubbleType ∨ ∃ r, decode s body = .ok r := by
  have hdesc : slice body 0 bodyForm.serial.length = .ok ⟨body, 0, 26⟩ := by
    apply if_pos
    rw [body_length]
    omega
  have hin : ArraySlice.In ⟨body, 0, 26⟩ := (slice_in hdesc).2
  obtain ⟨⟨bubbleID, id, done⟩, hp⟩ := (parseSlice_iff bodyForm hin (Nat.dvd_zero _)).mpr (Nat.le_refl _)
  have htail : subsliceFrom (full body) bodyForm.serial.length = .ok ⟨body, 0 + 26, body.length - 26⟩ := subsliceFrom_ok h
  unfold decode
  dsimp only
  rw [hdesc]
  show (parseSlice bodyForm.serial ⟨body, 0, 26⟩ >>= _) = _ ∨ ∃ r, (parseSlice bodyForm.serial ⟨body, 0, 26⟩ >>= _) = _
  rw [hp]
  show (match s.bubbletypes bubbleID with
    | some true => do
      let tail ← subsliceFrom (full body) bodyForm.serial.length
      return (⟨bubbleID, id, (tail.array.drop tail.i).take tail.n, done⟩ : Request)
    | _ => .error invalidBubbleType) = _ ∨ ∃ r, (match s.bubbletypes bubbleID with
    | some true => do
      let tail ← subsliceFrom (full body) bodyForm.serial.length
      return (⟨bubbleID, id, (tail.array.drop tail.i).take tail.n, done⟩ : Request)
    | _ => .error invalidBubbleType) = _
  split
  next =>
    rw [htail]
    exact .inr ⟨_, rfl⟩
  next => exact .inl rfl

/-- The item a request is about. -/
def held (s : St) (r : Request) : Bool := (HashStore.get (s.datastore r.bubble) r.id).isSome

/-- What a request with a whole description comes to, if it does not update an item that
    is not held. -/
inductive Applied (s : St) (kind : Kind) (body : Bytes) : St → Prop
  /-- A type that takes no requests: the maintainer is dead. -/
  | refused : decode s body = .error invalidBubbleType → Applied s kind body (readHeader (die false s))
  /-- An item that is there already is replaced. -/
  | insert (r : Request) : decode s body = .ok r → kind = .insert →
      Applied s kind body (readHeader (perform (setTable s r.bubble (HashStore.insert (s.datastore r.bubble) r.id r.data s.bucket))
        [.doMatching r.bubble s.position r.id r.data, .done r.done]))
  | update (r : Request) (item : Item) : decode s body = .ok r → kind = .update →
      HashStore.get (s.datastore r.bubble) r.id = some item →
      Applied s kind body (readHeader (perform (setTable s r.bubble
        ((r.id, ⟨r.data, item.bucket⟩) :: HashStore.without (s.datastore r.bubble) r.id)) [.done r.done]))
  | delete (r : Request) : decode s body = .ok r → kind = .delete → held s r = true →
      Applied s kind body (readHeader (perform (setTable s r.bubble (HashStore.without (s.datastore r.bubble) r.id)) [.done r.done]))
  /-- Nothing to delete: the maintainer's conversation is reset. -/
  | flushed (r : Request) : decode s body = .ok r → kind = .delete → held s r = false → Applied s kind body (readHeader (flush s))

theorem receiveRequest_applied (s : St) (kind : Kind) {body : Bytes} (h : 26 ≤ body.length)
    (hheld : kind = .update → ∀ r, decode s body = .ok r → held s r = true) :
    ∃ s', receiveRequest kind body s = .ok s' ∧ Applied s kind body s' := by
  unfold receiveRequest
  rcases decode_cases s h with hd | ⟨r, hd⟩
  · refine ⟨_, ?_, .refused hd⟩
    rw [hd]
    exact if_pos rfl
  · rw [hd]
    show ∃ s', (match onRequest s kind r with
      | .ok s => Except.ok (readHeader s)
      | .error e => if e = invalidBubbleType then .ok (readHeader (die false s)) else .error e) = .ok s' ∧ Applied s kind body s'
    cases kind with
    | insert => exact ⟨_, rfl, .insert r hd rfl⟩
    | update =>
      obtain ⟨item, hitem⟩ := Option.isSome_iff_exists.mp (hheld rfl r hd)
      refine ⟨_, ?_, .update r item hd rfl hitem⟩
      unfold onRequest HashStore.update
      rw [hitem]
      rfl
    | delete =>
      unfold onRequest HashStore.delete
      cases hg : HashStore.get (s.datastore r.bubble) r.id with
      | some item =>
        refine ⟨_, rfl, .delete r hd rfl ?_⟩
        unfold held
        rw [hg]
        rfl
      | none =>
        refine ⟨_, rfl, .flushed r hd rfl ?_⟩
        unfold held
        rw [hg]
        rfl

/-! ## Runs -/

/-- What a buffer holds is less than what it is to hold, and the buffer of a request has
    room for its description. -/
def Fits : Phase → Prop
  | .header have_ => have_.length < 8
  | .body _ length have_ => have_.length < length ∧ 26 ≤ length
  | .stopped => True

/-- Who still reads from a dead maintainer has reset its conversation. -/
structure Reading (s : St) : Prop where
  fits : Fits s.phase
  dead : s.dead ≠ none → s.reset = true ∨ s.phase = .stopped

/-- A maintainer has registered. -/
structure Registered (s : St) : Prop where
  phase : s.phase = .header []
  dead : s.dead = none

/-- The byte does not complete the header of a data request that is shorter than its
    description, nor an UPDATE of an item that is not held. -/
def Decent (s : St) (b : UInt8) : Prop :=
  match s.phase with
  | .header have_ => have_.length + 1 = 8 → ∀ typ len, parseSlice headerForm.serial (full (have_ ++ [b])) = .ok (typ, len) →
      RequestType.load typ = .ins ∨ RequestType.load typ = .upd ∨ RequestType.load typ = .del → 26 ≤ len.toInt
  | .body kind length have_ => have_.length + 1 = length → kind = .update → ∀ r, decode s (have_ ++ [b]) = .ok r → held s r = true
  | .stopped => True

/-- What one byte does. -/
inductive Took (s : St) (b : UInt8) : St → Prop
  | header (have_ : Bytes) : s.phase = .header have_ → have_.length + 1 < 8 → Took s b { s with phase := .header (have_ ++ [b]) }
  /-- A header asks for the body of a data request. -/
  | asks (kind : Kind) (typ len : BitVec 32) (have_ : Bytes) : s.phase = .header have_ →
      parseSlice headerForm.serial (full (have_ ++ [b])) = .ok (typ, len) → kind.type = RequestType.load typ → 26 ≤ len.toInt →
      Took s b { s with phase := .body kind len.toInt.toNat [] }
  | position (typ len : BitVec 32) (have_ : Bytes) : s.phase = .header have_ →
      parseSlice headerForm.serial (full (have_ ++ [b])) = .ok (typ, len) → RequestType.load typ = .pos →
      Took s b (readHeader { s with position := len })
  | body (kind : Kind) (length : Nat) (have_ : Bytes) : s.phase = .body kind length have_ → have_.length + 1 < length →
      Took s b { s with phase := .body kind length (have_ ++ [b]) }
  /-- A whole request. -/
  | request (kind : Kind) (length : Nat) (have_ : Bytes) (s' : St) : s.phase = .body kind length have_ →
      have_.length + 1 = length → Applied s kind (have_ ++ [b]) s' → Took s b s'
  | stopped : s.phase = .stopped → Took s b s
  /-- An unknown operation: nobody reads on. -/
  | unknown (typ len : BitVec 32) (have_ : Bytes) : s.phase = .header have_ →
      parseSlice headerForm.serial (full (have_ ++ [b])) = .ok (typ, len) → RequestType.load typ = .invalid →
      Took s b { die false s with phase := .stopped }

theorem readRequest_long {kind : Kind} {length : Int} {s : St} (h : 26 ≤ length) :
    readRequest kind length s = .ok { s with phase := .body kind length.toNat [] } := by
  unfold readRequest
  rw [if_neg (by omega), if_neg (by omega)]

theorem receiveHeader_took {s : St} {b : UInt8} {have_ : Bytes} (hp : s.phase = .header have_) (hl : have_.length + 1 = 8)
    (hd : Decent s b) : ∃ s', receiveHeader (have_ ++ [b]) s = .ok s' ∧ Took s b s' ∧ Fits s'.phase := by
  have hlength : (have_ ++ [b]).length = 8 := by
    rw [List.length_append]
    exact hl
  obtain ⟨typ, len, hparse⟩ := parseHeader_ok hlength
  unfold Decent at hd
  rw [hp] at hd
  have hlen := hd hl typ len hparse
  -- the three data requests are read alike
  have hread : ∀ kind : Kind, kind.type = RequestType.load typ → 26 ≤ len.toInt →
      ∃ s', readRequest kind len.toInt s = .ok s' ∧ Took s b s' ∧ Fits s'.phase := by
    intro kind htype hle
    refine ⟨_, readRequest_long hle, .asks kind typ len have_ hp hparse htype hle, ?_⟩
    show ([] : Bytes).length < len.toInt.toNat ∧ 26 ≤ len.toInt.toNat
    rw [List.length_nil]
    omega
  have hrec : receiveHeader (have_ ++ [b]) s = (match RequestType.load typ with
      | .ins => readRequest .insert len.toInt s
      | .upd => readRequest .update len.toInt s
      | .del => readRequest .delete len.toInt s
      | .pos => return readHeader { s with position := len }
      | .invalid => return { die false s with phase := .stopped }) := by
    unfold receiveHeader
    rw [hparse]
    rfl
  rw [hrec]
  cases ht : RequestType.load typ with
  | ins => exact hread .insert ht.symm (hlen (.inl ht))
  | upd => exact hread .update ht.symm (hlen (.inr (.inl ht)))
  | del => exact hread .delete ht.symm (hlen (.inr (.inr ht)))
  | pos =>
    refine ⟨_, rfl, .position typ len have_ hp hparse ht, ?_⟩
    show ([] : Bytes).length < 8
    decide
  | invalid => exact ⟨_, rfl, .unknown typ len have_ hp hparse ht, trivial⟩

theorem applied_header {s s' : St} {kind : Kind} {body : Bytes} (h : Applied s kind body s') : s'.phase = .header [] := by
  cases h <;> rfl

/-- A decent byte is taken, whatever was there before. -/
theorem step_took {s : St} {b : UInt8} (hr : Fits s.phase) (hd : Decent s b) :
    ∃ s', step s b = .ok s' ∧ Took s b s' ∧ Fits s'.phase := by
  unfold step
  cases hp : s.phase with
  | header have_ =>
    dsimp only
    rw [header_length]
    by_cases hl : have_.length + 1 = 8
    · rw [if_pos hl]
      exact receiveHeader_took hp hl hd
    · rw [if_neg hl]
      rw [hp] at hr
      have hr' : have_.length < 8 := hr
      refine ⟨_, rfl, .header have_ hp (by omega), ?_⟩
      show (have_ ++ [b]).length < 8
      rw [List.length_append, List.length_singleton]
      omega
  | body kind length have_ =>
    rw [hp] at hr
    have hr' : have_.length < length ∧ 26 ≤ length := hr
    dsimp only
    by_cases hl : have_.length + 1 = length
    · rw [if_pos hl]
      unfold Decent at hd
      rw [hp] at hd
      have hbody : 26 ≤ (have_ ++ [b]).length := by
        rw [List.length_append, List.length_singleton]
        omega
      obtain ⟨s', hs', happ⟩ := receiveRequest_applied s kind hbody (hd hl)
      refine ⟨s', hs', .request kind length have_ s' hp hl happ, ?_⟩
      rw [applied_header happ]
      show ([] : Bytes).length < 8
      decide
    · rw [if_neg hl]
      refine ⟨_, rfl, .body kind length have_ hp (by omega), ?_⟩
      show (have_ ++ [b]).length < length ∧ 26 ≤ length
      rw [List.length_append, List.length_singleton]
      omega
  | stopped =>
    refine ⟨s, rfl, .stopped hp, ?_⟩
    rw [hp]
    trivial

/-- Dying resets the conversation, unless that was done before. -/
theorem die_reset {s : St} (h : s.dead ≠ none → s.reset = true) : (die false s).reset = true := by
  unfold die
  split
  next hd =>
    apply h
    intro hnone
    rw [hnone] at hd
    cases hd
  next => simp

theorem took_dead {s s' : St} {b : UInt8} (hr : Reading s) (h : Took s b s') : s'.dead ≠ none → s'.reset = true ∨ s'.phase = .stopped := by
  intro hdead
  -- in a phase that is not the end, who is dead was reset
  have hre : s.phase ≠ .stopped → s.dead ≠ none → s.reset = true := fun hne hd => (hr.dead hd).resolve_right hne
  have hheader : ∀ {have_ : Bytes}, s.phase = .header have_ → s.phase ≠ .stopped := by
    intro have_ hp
    rw [hp]
    nofun
  have hbody : ∀ {kind : Kind} {length : Nat} {have_ : Bytes}, s.phase = .body kind length have_ → s.phase ≠ .stopped := by
    intro kind length have_ hp
    rw [hp]
    nofun
  cases h with
  | header have_ hp => exact .inl (hre (hheader hp) hdead)
  | asks kind typ len have_ hp => exact .inl (hre (hheader hp) hdead)
  | position typ len have_ hp => exact .inl (hre (hheader hp) hdead)
  | body kind length have_ hp => exact .inl (hre (hbody hp) hdead)
  | stopped hp => exact .inr hp
  | request kind length have_ s' hp hl happ =>
    have hre := hre (hbody hp)
    left
    cases happ with
    | refused => exact die_reset hre
    | insert => exact hre hdead
    | update => exact hre hdead
    | delete => exact hre hdead
    | flushed => rfl
  | unknown => exact .inr rfl

/-- The byte ends a request that the peer refuses. -/
inductive Refused (s : St) (b : UInt8) : Prop
  | operation (typ len : BitVec 32) (have_ : Bytes) : s.phase = .header have_ → have_.length + 1 = 8 →
      parseSlice headerForm.serial (full (have_ ++ [b])) = .ok (typ, len) → RequestType.load typ = .invalid → Refused s b
  | bubbleType (kind : Kind) (length : Nat) (have_ : Bytes) : s.phase = .body kind length have_ → have_.length + 1 = length →
      decode s (have_ ++ [b]) = .error invalidBubbleType → Refused s b
  | absent (length : Nat) (have_ : Bytes) (r : Request) : s.phase = .body .delete length have_ → have_.length + 1 = length →
      decode s (have_ ++ [b]) = .ok r → held s r = false → Refused s b

/-- The conversation is reset, and nothing else happens to what is stored. -/
structure Closed (s s' : St) : Prop where
  reset : s'.reset = true
  datastore : s'.datastore = s.datastore
  effects : s'.effects = s.effects

theorem die_datastore (shutdown : Bool) (s : St) : (die shutdown s).datastore = s.datastore ∧ (die shutdown s).effects = s.effects := by
  unfold die
  split <;> exact ⟨rfl, rfl⟩

theorem refused_closes {s s' : St} {b : UInt8} (hr : Reading s) (h : Refused s b) (hs : step s b = .ok s') : Closed s s' := by
  have hdie : s.phase ≠ .stopped → Closed s (die false s) := by
    intro hne
    obtain ⟨hstore, heff⟩ := die_datastore false s
    exact ⟨die_reset fun hd => (hr.dead hd).resolve_right hne, hstore, heff⟩
  unfold step at hs
  cases h with
  | operation typ len have_ hp hl hparse ht =>
    rw [hp] at hs
    dsimp only at hs
    rw [header_length, if_pos hl] at hs
    unfold receiveHeader at hs
    rw [hparse] at hs
    have hs : (match RequestType.load typ with
      | .ins => readRequest .insert len.toInt s
      | .upd => readRequest .update len.toInt s
      | .del => readRequest .delete len.toInt s
      | .pos => return readHeader { s with position := len }
      | .invalid => return { die false s with phase := .stopped }) = .ok s' := hs
    rw [ht] at hs
    cases hs
    have hc := hdie (by rw [hp]; intro hx; cases hx)
    exact ⟨hc.reset, hc.datastore, hc.effects⟩
  | bubbleType kind length have_ hp hl hdec =>
    rw [hp] at hs
    dsimp only at hs
    rw [if_pos hl] at hs
    unfold receiveRequest at hs
    rw [hdec] at hs
    have hs : (if invalidBubbleType = invalidBubbleType then Except.ok (readHeader (die false s)) else .error invalidBubbleType)
      = .ok s' := hs
    rw [if_pos rfl] at hs
    cases hs
    have hc := hdie (by rw [hp]; intro hx; cases hx)
    exact ⟨hc.reset, hc.datastore, hc.effects⟩
  | absent length have_ r hp hl hdec hheld =>
    rw [hp] at hs
    dsimp only at hs
    rw [if_pos hl] at hs
    have hnone : HashStore.get (s.datastore r.bubble) r.id = none := by
      unfold held at hheld
      exact Option.not_isSome_iff_eq_none.mp (by rw [hheld]; decide)
    have hflush : receiveRequest .delete (have_ ++ [b]) s = .ok (readHeader (flush s)) := by
      have hreq : onRequest s .delete r = .ok (flush s) := by
        unfold onRequest HashStore.delete
        rw [hnone]
      unfold receiveRequest
      rw [hdec]
      show (match onRequest s .delete r with
        | .ok s => Except.ok (readHeader s)
        | .error e => if e = invalidBubbleType then .ok (readHeader (die false s)) else .error e) = _
      rw [hreq]
    rw [hflush] at hs
    cases hs
    exact ⟨rfl, rfl, rfl⟩

/-- A byte or an end of the stream that is taken, and what becomes of refused requests. -/
def Meets (s : St) (ev : Ev) : Prop :=
  ∃ s', handle s ev = .ok s' ∧ ∀ b, ev = .chunk [b] → Took s b s' ∧ (Refused s b → Closed s s')

theorem handle_byte (s : St) (b : UInt8) : handle s (.chunk [b]) = step s b := by
  show (step s b >>= fun s' => pure s') = step s b
  exact bind_pure _

theorem fail_reading {s : St} (shutdown : Bool) (h : Reading s) : Reading (fail shutdown s) := by
  unfold fail
  split
  · exact h
  · exact ⟨trivial, fun _ => .inr rfl⟩

theorem run_append (s : St) (evs evs' : List Ev) : run s (evs ++ evs') = run s evs >>= fun s' => run s' evs' := List.foldlM_append

/-- How the bytes are split does not matter. -/
theorem run_split (s : St) (evs : List Ev) : run s (evs.flatMap Ev.split) = run s evs := by
  induction evs generalizing s with
  | nil => rfl
  | cons ev evs ih =>
    rw [List.flatMap_cons, run_append]
    have hone : run s ev.split = handle s ev := by
      cases ev with
      | chunk bytes =>
        unfold run Ev.split handle
        rw [List.foldlM_map]
        exact congrArg (fun f => List.foldlM f s bytes) (funext fun s => funext fun b => handle_byte s b)
      | shutdown => rfl
      | reset => rfl
    rw [hone]
    show (handle s ev >>= fun s' => run s' (evs.flatMap Ev.split)) = (handle s ev >>= fun s' => run s' evs)
    simp only [ih]

/-- No byte completes a request that the peer does not catch. -/
def DecentEv (s : St) (ev : Ev) : Prop := ∀ b, ev = .chunk [b] → Decent s b

theorem split_one {ev ev' : Ev} (h : ev' ∈ ev.split) : (∃ b, ev' = .chunk [b]) ∨ ev' = .shutdown ∨ ev' = .reset := by
  cases ev with
  | chunk bytes =>
    obtain ⟨b, -, rfl⟩ := List.mem_map.mp h
    exact .inl ⟨b, rfl⟩
  | shutdown => exact .inr (.inl (List.mem_singleton.mp h))
  | reset => exact .inr (.inr (List.mem_singleton.mp h))

theorem along_meets {s : St} (hr : Reading s) {evs : List Ev}
    (hone : ∀ ev ∈ evs, (∃ b, ev = .chunk [b]) ∨ ev = .shutdown ∨ ev = .reset) (h : Along DecentEv s evs) :
    Along Meets s evs ∧ ∃ s', run s evs = .ok s' := by
  induction evs generalizing s with
  | nil => exact ⟨trivial, s, rfl⟩
  | cons ev evs ih =>
    obtain ⟨hd, hrest⟩ := h
    -- one event leads on to a state that is read in again
    have hstep : ∃ s', handle s ev = .ok s' ∧ Reading s' ∧ Meets s ev := by
      rcases hone ev (.head _) with ⟨b, rfl⟩ | rfl | rfl
      · obtain ⟨s', hs', htook, hfits⟩ := step_took hr.fits (hd b rfl)
        have hs := (handle_byte s b).trans hs'
        refine ⟨s', hs, ⟨hfits, took_dead hr htook⟩, s', hs, ?_⟩
        intro b' heq
        cases heq
        exact ⟨htook, fun href => refused_closes hr href hs'⟩
      · exact ⟨_, rfl, fail_reading true hr, _, rfl, fun b hb => by cases hb⟩
      · exact ⟨_, rfl, fail_reading false hr, _, rfl, fun b hb => by cases hb⟩
    obtain ⟨s', hs', hreading, hmeets⟩ := hstep
    obtain ⟨halong, s'', hs''⟩ := ih hreading (fun ev' hev' => hone ev' (.tail _ hev')) (hrest s' hs')
    refine ⟨⟨hmeets, ?_⟩, s'', ?_⟩
    · intro s1 hs1
      rw [hs'] at hs1
      cases hs1
      exact halong
    · show (handle s ev >>= fun s' => run s' evs) = _
      rw [hs']
      exact hs''

/-- A maintainer that has just registered at a peer with one managed type. -/
def start : St := ⟨fun typ => if typ = 9 then some true else none, fun _ => [], true, 3, none, false, .header [], []⟩

theorem start_registered : Registered start := ⟨rfl, rfl⟩

/-- A request for the one type, with the id zero. -/
def request (typ : UInt8) (data : Bytes) : Bytes :=
  [typ, 0, 0, 0, UInt8.ofNat (26 + data.length), 0, 0, 0, 9, 0, 0, 0] ++ List.replicate 20 0 ++ [0, 1] ++ data

/-- `Decent`, computed. -/
def decent (s : St) (b : UInt8) : Bool :=
  match s.phase with
  | .header have_ =>
    have_.length + 1 ≠ 8 || match parseSlice headerForm.serial (full (have_ ++ [b])) with
      | .ok (_, len) => 26 ≤ len.toInt
      | .error _ => false
  | .body kind length have_ => have_.length + 1 ≠ length || kind ≠ .update
  | .stopped => true

def decents (s : St) : Bytes → Bool
  | [] => true
  | b :: bytes =>
    decent s b && match step s b with
      | .ok s' => decents s' bytes
      | .error _ => false

theorem decent_sound {s : St} {b : UInt8} (h : decent s b = true) : Decent s b := by
  unfold decent at h
  unfold Decent
  cases hp : s.phase with
  | header have_ =>
    rw [hp] at h
    intro hl typ len hparse _
    simpa [hl, hparse] using h
  | body kind length have_ =>
    rw [hp] at h
    intro hl hk
    simp [hl, hk] at h
  | stopped => trivial

theorem along_decents {s : St} (bytes : Bytes) (h : decents s bytes = true) : Along DecentEv s (bytes.map fun b => .chunk [b]) := by
  induction bytes generalizing s with
  | nil => trivial
  | cons b bytes ih =>
    obtain ⟨hone, hrest⟩ := Bool.and_eq_true_iff.mp h
    refine ⟨fun b' hb => ?_, fun s' hs' => ?_⟩
    · cases hb
      exact decent_sound hone
    · have hs : step s b = .ok s' := (handle_byte s b).symm.trans hs'
      rw [hs] at hrest
      exact ih hrest

/-- Two INSERTs and a DELETE in one chunk. -/
def three : Bytes := request 1 [7] ++ request 1 [8] ++ request 3 []

end BubbleStorm.Managed.StorageStream
