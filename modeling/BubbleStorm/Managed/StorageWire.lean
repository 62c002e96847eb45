/-
  BubbleStorm.Managed.StorageWire — a maintainer's actions on their way to a storage peer
  (`newStorage` of `src/bubblestorm/managed/protocol/storage-stream.sml`, `encode` of
  `storage-request.sml`).

  The maintainer queues actions and has at most one write under way; `sent` holds the
  buffers given to the stream. How the stream cuts their bytes into chunks is free.

  Proved: whatever the order of actions and completed writes, a peer that has read what
  was sent holds what the actions taken so far say (`peer_holds`), if they update and
  delete only items that are held.
-/

import BubbleStorm.Util.Serial.RoundTrip
import BubbleStorm.Managed.StorageStream
import BubbleStorm.Managed.Held

namespace BubbleStorm.Managed.StorageWire

open BubbleStorm.Cusp (Bytes)
open BubbleStorm.Util.Serial
open BubbleStorm.Util.Serial.Forms (Id)
open BubbleStorm.Managed.StorageStream
open BubbleStorm.Managed.Frontend (Content apply)

abbrev Req := Managed.Request (BitVec 32) Id Bytes

abbrev Act := Managed.Action (BitVec 32) Id Bytes

/-! ## The format -/

def storeType : RequestType → BitVec 32
  | .invalid => 0
  | .ins => 1
  | .upd => 2
  | .del => 3
  | .pos => 4

/-- `RequestType.toVector`. -/
def header (typ : RequestType) (n : Int) : Except Cusp.Exn Bytes :=
  toVector headerForm.serial (List.replicate headerForm.serial.length 0) (storeType typ, BitVec.ofInt 32 n)

def requestType : Req → RequestType
  | .insert _ _ _ => .ins
  | .update _ _ _ => .upd
  | .delete _ _ => .del

/-- `done` is the method the peer confirms with. -/
def encode (done : BitVec 16) (request : Req) : Except Cusp.Exn Bytes :=
  let write (bubble : BitVec 32) (id : Id) :=
    toVector bodyForm.serial (List.replicate bodyForm.serial.length 0) (bubble, id, done)
  match request with
  | .insert bubble id data => do return (← write bubble id) ++ data
  | .update bubble id data => do return (← write bubble id) ++ data
  | .delete bubble id => write bubble id

/-! ## The maintainer's side -/

structure Sender where
  queue : List Act
  idle : Bool
  isDead : Bool
  reset : Bool
  sent : List Bytes
  /-- `sendShutdown` was called. -/
  closed : Bool
  /-- A write has not completed. -/
  pending : Bool
  /-- Responses registered with the conversation. -/
  responses : Nat
  /-- A write failed. -/
  failed : Bool

/-- The methods that `Conversation.response` hands out, in order. -/
abbrev Methods := Nat → BitVec 16

def die (shutdown : Bool) (s : Sender) : Sender :=
  if s.isDead then s else { s with isDead := true, reset := s.reset || !shutdown }

def send (s : Sender) (buffer : Bytes) : Sender := { s with sent := s.sent ++ [buffer], pending := true }

def sendRequest (method : Methods) (s : Sender) (request : Req) : Except Cusp.Exn Sender := do
  let data ← encode (method s.responses) request
  let header ← header (requestType request) data.length
  return send { s with responses := s.responses + 1 } (header ++ data)

/-- Read from the queue and write to the stream. -/
def write (method : Methods) (s : Sender) : Bool → Except Cusp.Exn Sender
  | false => .ok (die false { s with failed := true })
  | true =>
    match s.queue with
    | [] => .ok { s with idle := true }
    | .request request :: queue => sendRequest method { s with queue := queue } request
    | .position pos :: queue => do return send { s with queue := queue } (← header .pos pos)
    | .shutdown :: queue => .ok { s with queue := queue, closed := true }

def enqueue (method : Methods) (s : Sender) (action : Act) : Except Cusp.Exn Sender :=
  let s := { s with queue := s.queue ++ [action] }
  if s.idle then write method { s with idle := false } true else .ok s

/-- `send`, `changePosition` and `shutdown`. -/
def call (method : Methods) (s : Sender) : Act → Except Cusp.Exn Sender
  | .shutdown => do return die true (← enqueue method s .shutdown)
  | .request request => enqueue method s (.request request)
  | .position pos => enqueue method s (.position pos)

inductive Event where
  | enqueue (action : Act)
  /-- A write completes, or fails. -/
  | written (ok : Bool)

def next (method : Methods) (s : Sender) : Event → Except Cusp.Exn Sender
  | .enqueue action => call method s action
  | .written ok => if s.pending then write method { s with pending := false } ok else .ok s

def sender : Sender := ⟨[], true, false, false, [], false, false, 0, false⟩

def sends (method : Methods) (events : List Event) : Except Cusp.Exn Sender := events.foldlM (next method) sender

/-- What is enqueued in a run. -/
def enqueued : List Event → List Act
  | [] => []
  | .enqueue action :: events => action :: enqueued events
  | .written _ :: events => enqueued events

/-! ## What is written is read -/

theorem headerForm_puts (x : BitVec 32 × BitVec 32) : Puts headerForm.serial 0 0 x (headerForm.bytes 0 x) :=
  headerForm.puts (Nat.dvd_zero _) ⟨fun _ => rfl, fun _ => rfl, trivial, trivial, trivial⟩ (by decide) ⟨trivial, trivial, trivial⟩

theorem bodyForm_puts {x : BitVec 32 × Id × BitVec 16} (h : x.2.1.length = 20) :
    Puts bodyForm.serial 0 0 x (bodyForm.bytes 0 x) :=
  bodyForm.puts (Nat.dvd_zero _) ⟨fun _ => rfl, fun _ => rfl, trivial, trivial, trivial, trivial⟩ (by decide)
    ⟨trivial, ⟨h, fun _ _ => trivial⟩, trivial, trivial⟩

/-- A new array of its length is overwritten. -/
theorem toVector_puts {α : Type} {s : S α} {x : α} {v a0 : Bytes} (h : Puts s 0 0 x v) (ha : a0.length = s.length) :
    toVector s a0 x = .ok v := by
  rw [toVector, h.write a0 (by rw [h.length, ha]; omega)]
  unfold splice
  rw [List.take_zero, List.nil_append, List.drop_eq_nil_of_le (by rw [h.length, ha]; omega), List.append_nil]

/-- A value is read from the front of a slice. -/
theorem parseSlice_puts {α : Type} {s : S α} {x : α} {v : Bytes} (tail : Bytes) {n : Nat} (h : Puts s 0 0 x v) (hn : s.length ≤ n) :
    parseSlice s ⟨v ++ tail, 0, n⟩ = .ok x := by
  have hcheck : checkSlice s ⟨v ++ tail, 0, n⟩ = .ok () := by
    unfold checkSlice
    rw [if_neg (by simp), if_neg (Nat.not_lt.mpr hn)]
  show (do
    checkSlice s ⟨v ++ tail, 0, n⟩
    s.read (v ++ tail) 0 0) = _
  rw [hcheck]
  refine h.read _ ?_
  unfold holds
  rw [List.drop_zero, List.take_left' rfl]

theorem load_store (typ : RequestType) : RequestType.load (storeType typ) = typ := by
  cases typ <;> rfl

/-- An id has 20 bytes, and `int32l` takes the length. -/
def Writable : Act → Prop
  | .request (.insert _ id data) | .request (.update _ id data) => id.length = 20 ∧ data.length + 26 < 2 ^ 31
  | .request (.delete _ id) => id.length = 20
  | .position _ | .shutdown => True

def itemId : Req → Id
  | .insert _ id _ | .update _ id _ | .delete _ id => id

def payload : Req → Bytes
  | .insert _ _ data | .update _ _ data => data
  | .delete _ _ => []

def kind : Req → Kind
  | .insert _ _ _ => .insert
  | .update _ _ _ => .update
  | .delete _ _ => .delete

/-- What `encode` gives. -/
def body (done : BitVec 16) (r : Req) : Bytes := bodyForm.bytes 0 (r.bubble, itemId r, done) ++ payload r

theorem writable_request {r : Req} (h : Writable (.request r)) : (itemId r).length = 20 ∧ (payload r).length + 26 < 2 ^ 31 := by
  cases r with
  | insert bubble id data => exact h
  | update bubble id data => exact h
  | delete bubble id => exact ⟨h, (by decide : 0 + 26 < 2 ^ 31)⟩

theorem encode_ok {done : BitVec 16} {r : Req} (h : (itemId r).length = 20) : encode done r = .ok (body done r) := by
  have hwrite : toVector bodyForm.serial (List.replicate bodyForm.serial.length 0) (r.bubble, itemId r, done) =
      .ok (bodyForm.bytes 0 (r.bubble, itemId r, done)) := toVector_puts (bodyForm_puts h) List.length_replicate
  cases r with
  | insert bubble id data =>
    show (toVector bodyForm.serial _ (bubble, id, done) >>= fun v => pure (v ++ data)) = _
    exact (congrArg (· >>= fun v => pure (v ++ data)) hwrite)
  | update bubble id data =>
    show (toVector bodyForm.serial _ (bubble, id, done) >>= fun v => pure (v ++ data)) = _
    exact (congrArg (· >>= fun v => pure (v ++ data)) hwrite)
  | delete bubble id =>
    refine hwrite.trans ?_
    unfold body
    exact congrArg Except.ok (List.append_nil _).symm

theorem header_ok (typ : RequestType) (n : Int) : header typ n = .ok (headerForm.bytes 0 (storeType typ, BitVec.ofInt 32 n)) :=
  toVector_puts (headerForm_puts _) List.length_replicate

theorem body_length' (done : BitVec 16) {r : Req} (h : (itemId r).length = 20) : (body done r).length = 26 + (payload r).length := by
  rw [body, List.length_append, (bodyForm_puts (x := (r.bubble, itemId r, done)) h).length, body_length]

/-! ## The storage peer's side -/

/-- The bytes that complete a buffer of `n` bytes; `take` is what its last byte starts. -/
theorem fill {n : Nat} (phase : Bytes → StorageStream.Phase) {take : Bytes → St → Except Cusp.Exn St}
    (hstep : ∀ s have_ b, s.phase = phase have_ → step s b =
      if have_.length + 1 = n then take (have_ ++ [b]) s else .ok { s with phase := phase (have_ ++ [b]) })
    {s : St} {have_ bytes : Bytes} (hp : s.phase = phase have_) (hlen : have_.length + bytes.length = n) (hne : bytes ≠ []) :
    bytes.foldlM step s = take (have_ ++ bytes) { s with phase := phase (have_ ++ bytes.dropLast) } := by
  induction bytes generalizing s have_ with
  | nil => exact absurd rfl hne
  | cons b bytes ih =>
    rw [List.foldlM_cons, hstep s have_ b hp]
    rw [List.length_cons] at hlen
    cases bytes with
    | nil =>
      have hs : { s with phase := phase (have_ ++ ([b] : Bytes).dropLast) } = s := by
        show { s with phase := phase (have_ ++ []) } = s
        rw [List.append_nil, ← hp]
      have hlast : have_.length + 1 = n := hlen
      rw [if_pos hlast, hs]
      exact bind_pure _
    | cons b' bytes =>
      rw [List.length_cons] at hlen
      rw [if_neg (by omega)]
      show (b' :: bytes).foldlM step { s with phase := phase (have_ ++ [b]) } = _
      rw [ih rfl (by rw [List.length_append, List.length_singleton, List.length_cons]; omega) (by simp),
        List.append_assoc, List.append_assoc]
      rfl

/-- The bytes of a header. -/
theorem read_header {s : St} {bytes : Bytes} (hp : s.phase = .header []) (hlen : bytes.length = 8) :
    bytes.foldlM step s = receiveHeader bytes { s with phase := .header bytes.dropLast } := by
  refine fill .header (fun s have_ b hp => ?_) hp ((Nat.zero_add _).trans hlen) ?_
  · unfold step
    rw [hp]
    rfl
  · rintro rfl
    exact absurd hlen (by decide)

/-- The bytes of a request. -/
theorem read_body {s : St} {kind : Kind} {bytes : Bytes} (hp : s.phase = .body kind bytes.length []) (hne : bytes ≠ []) :
    bytes.foldlM step s = receiveRequest kind bytes { s with phase := .body kind bytes.length bytes.dropLast } := by
  refine fill (.body kind bytes.length) (fun s have_ b hp => ?_) hp (Nat.zero_add _) hne
  unfold step
  rw [hp]

theorem decode_body {s : St} {done : BitVec 16} {r : Req} (h : (itemId r).length = 20) (hm : s.bubbletypes r.bubble = some true) :
    decode s (body done r) = .ok ⟨r.bubble, itemId r, payload r, done⟩ := by
  have hputs := bodyForm_puts (x := (r.bubble, itemId r, done)) h
  have hlength := body_length' done h
  have hdesc : slice (body done r) 0 bodyForm.serial.length = .ok ⟨body done r, 0, 26⟩ := by
    apply if_pos
    rw [body_length]
    omega
  have hparse : parseSlice bodyForm.serial ⟨body done r, 0, 26⟩ = .ok (r.bubble, itemId r, done) :=
    parseSlice_puts _ hputs (Nat.le_of_eq body_length)
  have htail : subsliceFrom (full (body done r)) bodyForm.serial.length = .ok ⟨body done r, 0 + 26, (body done r).length - 26⟩ :=
    subsliceFrom_ok (by rw [body_length]; exact Nat.le_trans (Nat.le_add_right 26 _) (Nat.le_of_eq hlength.symm))
  have hdata : ((body done r).drop (0 + 26)).take ((body done r).length - 26) = payload r := by
    rw [Nat.zero_add, hlength, Nat.add_sub_cancel_left, body, List.drop_left' (hputs.length.trans body_length), List.take_length]
  unfold decode
  dsimp only
  rw [hdesc]
  show (parseSlice bodyForm.serial ⟨body done r, 0, 26⟩ >>= _) = _
  rw [hparse]
  dsimp only [bind, Except.bind]
  rw [hm]
  dsimp only
  rw [htail]
  show Except.ok (⟨r.bubble, itemId r, ((body done r).drop (0 + 26)).take ((body done r).length - 26), done⟩ : StorageStream.Request) = _
  rw [hdata]

/-- What an action comes to at a peer that holds what it updates or deletes. -/
def deliver (done : BitVec 16) (s : St) : Act → St
  | .request (.insert bubble id data) =>
    perform (setTable s bubble (HashStore.insert (s.datastore bubble) id data s.bucket)) [.doMatching bubble s.position id data, .done done]
  | .request (.update bubble id data) =>
    match HashStore.get (s.datastore bubble) id with
    | some item => perform (setTable s bubble ((id, ⟨data, item.bucket⟩) :: HashStore.without (s.datastore bubble) id)) [.done done]
    | none => s
  | .request (.delete bubble id) => perform (setTable s bubble (HashStore.without (s.datastore bubble) id)) [.done done]
  | .position pos => { s with position := BitVec.ofInt 32 pos }
  | .shutdown => s

/-- The bytes of an action; a shutdown has none. -/
def frame (done : BitVec 16) : Act → Bytes
  | .request r => headerForm.bytes 0 (storeType (requestType r), BitVec.ofInt 32 (body done r).length) ++ body done r
  | .position pos => headerForm.bytes 0 (storeType .pos, BitVec.ofInt 32 pos)
  | .shutdown => []

/-- The items of every bubble type at the peer. -/
def content (s : St) (bubble : BitVec 32) : Content Id Bytes := fun id => (HashStore.get (s.datastore bubble) id).map Item.data

/-- What is updated or deleted is there. -/
def Names (m : BitVec 32 → Content Id Bytes) : Act → Prop
  | .request (.update bubble id _) | .request (.delete bubble id) => (m bubble id).isSome
  | .request (.insert _ _ _) | .position _ | .shutdown => True

/-- The request is about a managed type. -/
def Served (s : St) : Act → Prop
  | .request r => s.bubbletypes r.bubble = some true
  | .position _ | .shutdown => True

theorem onRequest_deliver {s : St} {done : BitVec 16} {r : Req} (hn : Names (content s) (.request r)) :
    onRequest s (kind r) ⟨r.bubble, itemId r, payload r, done⟩ = .ok (deliver done s (.request r)) := by
  cases r with
  | insert bubble id data => rfl
  | update bubble id data =>
    obtain ⟨item, hitem⟩ := Option.isSome_iff_exists.mp ((Option.isSome_map ..).symm.trans hn)
    have hget : HashStore.get (s.datastore bubble) id = some item := hitem
    have hupdate : HashStore.update (s.datastore bubble) id data = .ok ((id, ⟨data, item.bucket⟩) :: HashStore.without (s.datastore bubble) id) := by
      unfold HashStore.update
      rw [hget]
    show (HashStore.update (s.datastore bubble) id data >>= _) = _
    rw [hupdate]
    unfold deliver
    dsimp only
    rw [hget]
    rfl
  | delete bubble id =>
    obtain ⟨item, hitem⟩ := Option.isSome_iff_exists.mp ((Option.isSome_map ..).symm.trans hn)
    have hget : HashStore.get (s.datastore bubble) id = some item := hitem
    have hdelete : HashStore.delete (s.datastore bubble) id = .ok (HashStore.without (s.datastore bubble) id) := by
      unfold HashStore.delete
      rw [hget]
    unfold onRequest
    dsimp only [kind, itemId, Request.bubble]
    rw [hdelete]
    rfl

theorem readRequest_body {kind : Kind} {n : Nat} {s : St} (h : 26 ≤ n) (hn : n < 2 ^ 31) :
    readRequest kind (BitVec.ofInt 32 n).toInt s = .ok { s with phase := .body kind n [] } := by
  have hint : (BitVec.ofInt 32 n).toInt = n := by
    rw [BitVec.toInt_ofInt, Int.bmod_eq_of_le (by omega) (by omega)]
  rw [hint]
  exact readRequest_long (by omega)

theorem receiveHeader_bytes (s : St) (typ : RequestType) (len : BitVec 32) :
    receiveHeader (headerForm.bytes 0 (storeType typ, len)) s =
      match typ with
      | .ins => readRequest .insert len.toInt s
      | .upd => readRequest .update len.toInt s
      | .del => readRequest .delete len.toInt s
      | .pos => .ok (readHeader { s with position := len })
      | .invalid => .ok { StorageStream.die false s with phase := .stopped } := by
  have hputs := headerForm_puts (storeType typ, len)
  have hparse : parseSlice headerForm.serial (full (headerForm.bytes 0 (storeType typ, len))) = .ok (storeType typ, len) := by
    have h := parseSlice_puts [] hputs (Nat.le_of_eq hputs.length.symm)
    rwa [List.append_nil] at h
  unfold receiveHeader
  rw [hparse]
  show (match RequestType.load (storeType typ) with
    | .ins => readRequest .insert len.toInt s
    | .upd => readRequest .update len.toInt s
    | .del => readRequest .delete len.toInt s
    | .pos => return readHeader { s with position := len }
    | .invalid => return { StorageStream.die false s with phase := .stopped }) = _
  rw [load_store]
  cases typ <;> rfl

theorem readRequest_kind (s : St) (r : Req) (len : BitVec 32) :
    receiveHeader (headerForm.bytes 0 (storeType (requestType r), len)) s = readRequest (kind r) len.toInt s := by
  rw [receiveHeader_bytes]
  cases r <;> rfl

/-- The bytes of an action, read. -/
theorem read_frame {s : St} {done : BitVec 16} {a : Act} (hp : s.phase = .header []) (hw : Writable a) (hs : Served s a)
    (hn : Names (content s) a) : (frame done a).foldlM step s = .ok (deliver done s a) := by
  have heta : ∀ s' : St, s'.phase = .header [] → readHeader s' = s' := by
    intro s' h
    show { s' with phase := .header [] } = s'
    rw [← h]
  cases a with
  | request r =>
    obtain ⟨hid, hdata⟩ := writable_request hw
    have hlen := body_length' done hid
    have hheader : (headerForm.bytes 0 (storeType (requestType r), BitVec.ofInt 32 (body done r).length)).length = 8 :=
      (headerForm_puts _).length
    have hne : body done r ≠ [] := by
      intro h
      rw [h, List.length_nil] at hlen
      omega
    show (headerForm.bytes 0 (storeType (requestType r), BitVec.ofInt 32 (body done r).length) ++ body done r).foldlM step s = _
    rw [List.foldlM_append, read_header hp hheader, readRequest_kind, readRequest_body (by omega) (by omega)]
    show (body done r).foldlM step { s with phase := .body (kind r) (body done r).length [] } = _
    rw [read_body rfl hne]
    have hserve : decode { s with phase := .body (kind r) (body done r).length (body done r).dropLast } (body done r) >>=
        onRequest { s with phase := .body (kind r) (body done r).length (body done r).dropLast } (kind r) =
          .ok (deliver done { s with phase := .body (kind r) (body done r).length (body done r).dropLast } (.request r)) := by
      rw [decode_body (s := { s with phase := .body (kind r) (body done r).length (body done r).dropLast }) hid hs]
      exact onRequest_deliver (s := { s with phase := .body (kind r) (body done r).length (body done r).dropLast }) hn
    unfold receiveRequest
    rw [hserve]
    cases r with
    | insert bubble id data => exact congrArg Except.ok (heta (deliver done s (.request (.insert bubble id data))) hp)
    | update bubble id data =>
      obtain ⟨item, hitem⟩ := Option.isSome_iff_exists.mp ((Option.isSome_map ..).symm.trans hn)
      have hget : HashStore.get (s.datastore bubble) id = some item := hitem
      unfold deliver
      dsimp only
      rw [hget]
      exact congrArg Except.ok (heta (perform (setTable s bubble _) [.done done]) hp)
    | delete bubble id => exact congrArg Except.ok (heta (deliver done s (.request (.delete bubble id))) hp)
  | position pos =>
    have hheader : (headerForm.bytes 0 (storeType .pos, BitVec.ofInt 32 pos)).length = 8 := (headerForm_puts _).length
    show (headerForm.bytes 0 (storeType .pos, BitVec.ofInt 32 pos)).foldlM step s = _
    rw [read_header hp hheader, receiveHeader_bytes]
    exact congrArg Except.ok (heta (deliver done s (.position pos)) hp)
  | shutdown => rfl

/-! ## What the peer holds -/

theorem get_without (t : StorageStream.Table) (id id' : Id) :
    HashStore.get (HashStore.without t id) id' = if id' = id then none else HashStore.get t id' := by
  induction t with
  | nil => exact (ite_self none).symm
  | cons e t ih =>
    unfold HashStore.without HashStore.get at *
    rw [List.filter_cons]
    by_cases he : e.1 = id
    · rw [if_neg (by simp [he]), ih]
      by_cases hid : id' = id
      · rw [if_pos hid, if_pos hid]
      · rw [if_neg hid, if_neg hid, List.lookup_cons, beq_false_of_ne (he ▸ hid)]
    · rw [if_pos (by simp [he]), List.lookup_cons, List.lookup_cons, ih]
      by_cases hid : id' = id
      · rw [if_pos hid, if_pos hid, beq_false_of_ne (by rw [hid]; exact fun h => he h.symm)]
      · rw [if_neg hid, if_neg hid]

theorem get_replaced (t : StorageStream.Table) (id id' : Id) (item : Item) :
    HashStore.get ((id, item) :: HashStore.without t id) id' = if id' = id then some item else HashStore.get t id' := by
  show List.lookup id' ((id, item) :: HashStore.without t id) = _
  rw [List.lookup_cons]
  by_cases hid : id' = id
  · rw [if_pos hid, beq_iff_eq.mpr hid]
  · rw [if_neg hid, beq_false_of_ne hid]
    exact (get_without t id id').trans (if_neg hid)

/-- What an action does to the items of every bubble type. -/
def heard (m : BitVec 32 → Content Id Bytes) (a : Act) : BitVec 32 → Content Id Bytes := fun bubble =>
  match a with
  | .request r => if r.bubble = bubble then apply (m bubble) r else m bubble
  | .position _ | .shutdown => m bubble

theorem content_setTable (s : St) (effects : List Effect) {bubble : BitVec 32} {t : StorageStream.Table} {m : Content Id Bytes}
    (h : ∀ id, (HashStore.get t id).map Item.data = m id) :
    content (perform (setTable s bubble t) effects) = fun b => if bubble = b then m else content s b := by
  funext b id
  show (HashStore.get (if b = bubble then t else s.datastore b) id).map Item.data = _
  by_cases hb : b = bubble
  · rw [if_pos hb, if_pos hb.symm, h]
  · rw [if_neg hb, if_neg (fun h => hb h.symm)]
    rfl

theorem content_deliver {s : St} (done : BitVec 16) {a : Act} (hn : Names (content s) a) :
    content (deliver done s a) = heard (content s) a := by
  have hreplaced : ∀ (bubble : BitVec 32) (id : Id) (item : Item) (id' : Id),
      (HashStore.get ((id, item) :: HashStore.without (s.datastore bubble) id) id').map Item.data =
        Function.update (content s bubble) id (some item.data) id' := by
    intro bubble id item id'
    rw [get_replaced, Function.update_apply]
    split
    · rfl
    · rfl
  cases a with
  | request r =>
    cases r with
    | insert bubble id data =>
      refine (content_setTable s _ (hreplaced bubble id ⟨data, s.bucket⟩)).trans (funext fun b => ?_)
      show _ = if bubble = b then _ else _
      split
      next h =>
        subst h
        rfl
      next => rfl
    | update bubble id data =>
      obtain ⟨item, hitem⟩ := Option.isSome_iff_exists.mp ((Option.isSome_map ..).symm.trans hn)
      have hget : HashStore.get (s.datastore bubble) id = some item := hitem
      unfold deliver
      dsimp only
      rw [hget]
      refine (content_setTable s _ (hreplaced bubble id ⟨data, item.bucket⟩)).trans (funext fun b => ?_)
      show _ = if bubble = b then _ else _
      split
      next h =>
        subst h
        rfl
      next => rfl
    | delete bubble id =>
      have hgone : ∀ id', (HashStore.get (HashStore.without (s.datastore bubble) id) id').map Item.data =
          Function.update (content s bubble) id none id' := by
        intro id'
        rw [get_without, Function.update_apply]
        split
        · rfl
        · rfl
      refine (content_setTable s _ hgone).trans (funext fun b => ?_)
      show _ = if bubble = b then _ else _
      split
      next h =>
        subst h
        rfl
      next => rfl
  | position pos => rfl
  | shutdown => rfl

/-! ## Runs -/

/-- Each action updates or deletes what the ones before it have left. -/
def Sound (m : BitVec 32 → Content Id Bytes) : List Act → Prop
  | [] => True
  | a :: as => Names m a ∧ Sound (heard m a) as

/-- The bytes of a list of actions, of which every request has its own method. -/
def wire (method : Methods) (n : Nat) : List Act → Bytes
  | [] => []
  | .request r :: as => frame (method n) (.request r) ++ wire method (n + 1) as
  | .position pos :: as => frame 0 (.position pos) ++ wire method n as
  | .shutdown :: as => wire method n as

/-- Who reads the next header, of the same maintainer. -/
structure Ready (s s' : St) : Prop where
  phase : s'.phase = .header []
  bubbletypes : s'.bubbletypes = s.bubbletypes
  dead : s'.dead = s.dead
  reset : s'.reset = s.reset

theorem deliver_ready (done : BitVec 16) (s : St) (a : Act) (hp : s.phase = .header []) : Ready s (deliver done s a) := by
  unfold deliver
  split
  · exact ⟨hp, rfl, rfl, rfl⟩
  · split
    · exact ⟨hp, rfl, rfl, rfl⟩
    · exact ⟨hp, rfl, rfl, rfl⟩
  · exact ⟨hp, rfl, rfl, rfl⟩
  · exact ⟨hp, rfl, rfl, rfl⟩
  · exact ⟨hp, rfl, rfl, rfl⟩

theorem served_of_eq {s s' : St} (h : s'.bubbletypes = s.bubbletypes) {a : Act} (ha : Served s a) : Served s' a := by
  cases a with
  | request r => exact (congrFun h r.bubble).trans ha
  | position pos => trivial
  | shutdown => trivial

/-- What the bytes of sound actions come to. -/
theorem read_wire (method : Methods) {s : St} (hp : s.phase = .header []) (n : Nat) {as : List Act}
    (hw : ∀ a ∈ as, Writable a) (hserved : ∀ a ∈ as, Served s a) (hsound : Sound (content s) as) :
    ∃ s', (wire method n as).foldlM step s = .ok s' ∧ Ready s s' ∧ content s' = as.foldl heard (content s) := by
  induction as generalizing s n with
  | nil => exact ⟨s, rfl, ⟨hp, rfl, rfl, rfl⟩, rfl⟩
  | cons a as ih =>
    obtain ⟨hn, hrest⟩ := hsound
    -- the first action, with whatever method
    have hone : ∀ done n', ∃ s', (frame done a ++ wire method n' as).foldlM step s = .ok s' ∧ Ready s s' ∧
        content s' = as.foldl heard (heard (content s) a) := by
      intro done n'
      have hready := deliver_ready done s a hp
      have hcontent := content_deliver done hn
      obtain ⟨s', hs', hr, hc⟩ := ih hready.phase n' (fun a' ha' => hw a' (.tail _ ha'))
        (fun a' ha' => served_of_eq hready.bubbletypes (hserved a' (.tail _ ha'))) (hcontent ▸ hrest)
      refine ⟨s', ?_, ⟨hr.phase, hr.bubbletypes.trans hready.bubbletypes, hr.dead.trans hready.dead, hr.reset.trans hready.reset⟩,
        hc.trans (by rw [hcontent])⟩
      rw [List.foldlM_append, read_frame hp (hw a (.head _)) (hserved a (.head _)) hn]
      exact hs'
    cases a with
    | request r => exact hone (method n) (n + 1)
    | position pos => exact hone 0 n
    | shutdown => exact hone 0 n

theorem run_chunks (s : St) (chunks : List Bytes) : StorageStream.run s (chunks.map Ev.chunk) = chunks.flatten.foldlM step s := by
  induction chunks generalizing s with
  | nil => rfl
  | cons chunk chunks ih =>
    rw [List.flatten_cons, List.foldlM_append]
    show (chunk.foldlM step s >>= fun s' => StorageStream.run s' (chunks.map Ev.chunk)) = _
    simp only [ih]

theorem sound_append {m : BitVec 32 → Content Id Bytes} {as as' : List Act} (h : Sound m (as ++ as')) : Sound m as := by
  induction as generalizing m with
  | nil => trivial
  | cons a as ih => exact ⟨h.1, ih h.2⟩

/-! ## The queue -/

def requests : List Act → Nat
  | [] => 0
  | .request _ :: as => requests as + 1
  | .position _ :: as | .shutdown :: as => requests as

theorem requests_append (as as' : List Act) : requests (as ++ as') = requests as + requests as' := by
  induction as with
  | nil => exact (Nat.zero_add _).symm
  | cons a as ih =>
    cases a with
    | request r =>
      show requests (as ++ as') + 1 = requests as + 1 + requests as'
      omega
    | position pos => exact ih
    | shutdown => exact ih

theorem wire_append (method : Methods) (n : Nat) (as as' : List Act) :
    wire method n (as ++ as') = wire method n as ++ wire method (n + requests as) as' := by
  induction as generalizing n with
  | nil => rfl
  | cons a as ih =>
    cases a with
    | request r =>
      show frame (method n) (.request r) ++ wire method (n + 1) (as ++ as') = _
      rw [ih, ← List.append_assoc, Nat.add_assoc, Nat.add_comm 1]
      rfl
    | position pos =>
      show frame 0 (.position pos) ++ wire method n (as ++ as') = _
      rw [ih, ← List.append_assoc]
      rfl
    | shutdown => exact ih n

/-- Of what was enqueued, a first part has been taken from the queue and written. -/
structure Link (method : Methods) (as taken : List Act) (s : Sender) : Prop where
  split : as = taken ++ s.queue
  sent : s.sent.flatten = wire method 0 taken
  responses : s.responses = requests taken
  closed : s.closed = true ↔ Action.shutdown ∈ taken
  idle : s.idle = true → s.queue = [] ∧ s.pending = false ∧ s.closed = false
  last : s.closed = true → s.pending = false
  /-- Whoever does not write is done, or will not write again. -/
  live : s.idle = true ∨ s.pending = true ∨ s.closed = true ∨ s.failed = true ∧ s.isDead = true

theorem link_sender (method : Methods) : Link method [] [] sender :=
  ⟨rfl, rfl, rfl, ⟨nofun, nofun⟩, fun _ => ⟨rfl, rfl, rfl⟩, nofun, .inl rfl⟩

/-- The next action is taken, unless the queue is empty. -/
theorem write_link {method : Methods} {as taken : List Act} {s : Sender} (hw : ∀ a ∈ as, Writable a)
    (htaken : as = taken ++ s.queue) (hsent : s.sent.flatten = wire method 0 taken) (hresponses : s.responses = requests taken)
    (hclosed : Action.shutdown ∉ taken) (hopen : s.closed = false) (hpending : s.pending = false) (hidle : s.idle = false) :
    ∃ s' taken', write method s true = .ok s' ∧ Link method as taken' s' := by
  cases hq : s.queue with
  | nil =>
    refine ⟨{ s with idle := true }, taken, ?_, htaken, hsent, hresponses, ?_, fun _ => ⟨hq, hpending, hopen⟩, fun _ => hpending, .inl rfl⟩
    · unfold write
      rw [hq]
    · show s.closed = true ↔ _
      rw [hopen]
      exact ⟨nofun, fun h => absurd h hclosed⟩
  | cons a queue =>
    have hsplit : as = (taken ++ [a]) ++ queue := by rw [htaken, hq, List.append_assoc, List.singleton_append]
    have hwritable : Writable a := hw a (by rw [hsplit]; simp)
    have hwire : wire method 0 (taken ++ [a]) = wire method 0 taken ++ wire method s.responses [a] := by
      rw [wire_append, hresponses, Nat.zero_add]
    have hwritten : ∀ (buffer : Bytes) (n : Nat), (∀ h, a ≠ .shutdown → h = Action.shutdown → h ∉ taken ++ [a]) → a ≠ .shutdown →
        buffer = wire method s.responses [a] → n = requests (taken ++ [a]) →
        Link method as (taken ++ [a]) (send { s with queue := queue, responses := n } buffer) := by
      intro buffer n hno ha hbuffer hn
      refine ⟨hsplit, ?_, hn, ?_, ?_, ?_, .inr (.inl rfl)⟩
      · show (s.sent ++ [buffer]).flatten = _
        rw [List.flatten_append, List.flatten_singleton, hsent, hbuffer, hwire]
      · show s.closed = true ↔ _
        rw [hopen]
        exact ⟨nofun, fun h => absurd h (hno _ ha rfl)⟩
      · show s.idle = true → _
        rw [hidle]
        nofun
      · show s.closed = true → _
        rw [hopen]
        nofun
    have hno : ∀ h, a ≠ .shutdown → h = Action.shutdown → h ∉ taken ++ [a] := by
      rintro h ha rfl hm
      rcases List.mem_append.mp hm with hm | hm
      · exact hclosed hm
      · exact ha (List.mem_singleton.mp hm).symm
    cases a with
    | request r =>
      obtain ⟨hid, -⟩ := writable_request hwritable
      refine ⟨_, taken ++ [.request r], ?_, hwritten (frame (method s.responses) (.request r)) (s.responses + 1) hno nofun
        (List.append_nil _).symm (by rw [requests_append, hresponses]; rfl)⟩
      unfold write
      rw [hq]
      show (encode (method s.responses) r >>= fun data => header (requestType r) data.length >>= fun h =>
        pure (send { s with queue := queue, responses := s.responses + 1 } (h ++ data))) = _
      rw [encode_ok hid]
      show (header (requestType r) (body (method s.responses) r).length >>= fun h =>
        pure (send { s with queue := queue, responses := s.responses + 1 } (h ++ body (method s.responses) r))) = _
      rw [header_ok]
      rfl
    | position pos =>
      refine ⟨_, taken ++ [.position pos], ?_, hwritten (frame 0 (.position pos)) s.responses hno nofun
        (List.append_nil _).symm (by rw [requests_append, hresponses]; rfl)⟩
      unfold write
      rw [hq]
      show (header .pos pos >>= fun h => pure (send { s with queue := queue } h)) = _
      rw [header_ok]
      rfl
    | shutdown =>
      refine ⟨{ s with queue := queue, closed := true }, taken ++ [.shutdown], ?_, hsplit, ?_, ?_, ?_, ?_, fun _ => hpending,
        .inr (.inr (.inl rfl))⟩
      · unfold write
        rw [hq]
      · exact hsent.trans (by rw [hwire]; exact (List.append_nil _).symm)
      · exact hresponses.trans (by rw [requests_append]; rfl)
      · exact ⟨fun _ => List.mem_append_right _ (.head _), fun _ => rfl⟩
      · show s.idle = true → _
        rw [hidle]
        nofun

theorem enqueue_link {method : Methods} {as taken : List Act} {s : Sender} (h : Link method as taken s) (action : Act)
    (hw : ∀ a ∈ as ++ [action], Writable a) :
    ∃ s' taken', enqueue method s action = .ok s' ∧ Link method (as ++ [action]) taken' s' := by
  have hqueue : as ++ [action] = taken ++ (s.queue ++ [action]) := by rw [h.split, List.append_assoc]
  unfold enqueue
  dsimp only
  by_cases hi : s.idle = true
  · obtain ⟨-, hpending, hopen⟩ := h.idle hi
    rw [if_pos hi]
    refine write_link (s := { s with queue := s.queue ++ [action], idle := false }) hw hqueue h.sent h.responses ?_ hopen hpending rfl
    intro hm
    rw [h.closed.mpr hm] at hopen
    cases hopen
  · rw [if_neg hi]
    exact ⟨_, taken, rfl, hqueue, h.sent, h.responses, h.closed, fun hid => absurd hid hi, h.last, h.live⟩

/-- A maintainer that dies still writes what is queued. -/
theorem link_die {method : Methods} {as taken : List Act} {s : Sender} (h : Link method as taken s) (shutdown : Bool) :
    Link method as taken (die shutdown s) := by
  unfold die
  split
  · exact h
  · exact ⟨h.split, h.sent, h.responses, h.closed, h.idle, h.last, h.live.imp_right fun h => h.imp_right fun h =>
      h.imp_right fun h => ⟨h.1, rfl⟩⟩

theorem call_link {method : Methods} {as taken : List Act} {s : Sender} (h : Link method as taken s) (action : Act)
    (hw : ∀ a ∈ as ++ [action], Writable a) :
    ∃ s' taken', call method s action = .ok s' ∧ Link method (as ++ [action]) taken' s' := by
  cases action with
  | request request => exact enqueue_link h (.request request) hw
  | position pos => exact enqueue_link h (.position pos) hw
  | shutdown =>
    obtain ⟨s', taken', hs', hlink⟩ := enqueue_link h .shutdown hw
    refine ⟨die true s', taken', ?_, link_die hlink true⟩
    unfold call
    rw [hs']
    rfl

theorem next_link {method : Methods} {as taken : List Act} {s : Sender} (h : Link method as taken s) (e : Event)
    (hw : ∀ a ∈ as ++ enqueued [e], Writable a) :
    ∃ s' taken', next method s e = .ok s' ∧ Link method (as ++ enqueued [e]) taken' s' := by
  cases e with
  | enqueue action => exact call_link h action hw
  | written ok =>
    have has : as ++ enqueued [.written ok] = as := List.append_nil _
    rw [has] at hw ⊢
    show ∃ s' taken', (if s.pending then _ else _) = _ ∧ _
    by_cases hp : s.pending = true
    · rw [if_pos hp]
      have hopen : s.closed = false := by
        cases hc : s.closed with
        | false => rfl
        | true =>
          rw [h.last hc] at hp
          cases hp
      have hidle : s.idle = false := by
        cases hi : s.idle with
        | false => rfl
        | true =>
          rw [(h.idle hi).2.1] at hp
          cases hp
      cases ok with
      | true =>
        refine write_link (s := { s with pending := false }) hw h.split h.sent h.responses (fun hm => ?_) hopen rfl hidle
        rw [h.closed.mpr hm] at hopen
        cases hopen
      | false =>
        refine ⟨die false { s with pending := false, failed := true }, taken, rfl, ?_⟩
        unfold die
        split
        next hd =>
          exact ⟨h.split, h.sent, h.responses, h.closed, fun hid => absurd hid (by rw [hidle]; nofun), fun _ => rfl,
            .inr (.inr (.inr ⟨rfl, hd⟩))⟩
        next =>
          exact ⟨h.split, h.sent, h.responses, h.closed, fun hid => absurd hid (by rw [hidle]; nofun), fun _ => rfl,
            .inr (.inr (.inr ⟨rfl, rfl⟩))⟩
    · rw [if_neg hp]
      exact ⟨s, taken, rfl, h⟩

theorem enqueued_cons (e : Event) (events : List Event) : enqueued (e :: events) = enqueued [e] ++ enqueued events := by
  cases e <;> rfl

theorem sends_link {method : Methods} {as taken : List Act} {s : Sender} (h : Link method as taken s) (events : List Event)
    (hw : ∀ a ∈ as ++ enqueued events, Writable a) :
    ∃ s' taken', events.foldlM (next method) s = .ok s' ∧ Link method (as ++ enqueued events) taken' s' := by
  induction events generalizing s as taken with
  | nil => exact ⟨s, taken, rfl, by rwa [enqueued, List.append_nil]⟩
  | cons e events ih =>
    rw [enqueued_cons, ← List.append_assoc] at hw ⊢
    obtain ⟨s1, taken1, h1, hlink⟩ := next_link h e fun a ha => hw a (List.mem_append_left _ ha)
    obtain ⟨s', taken', h2, h'⟩ := ih hlink hw
    refine ⟨s', taken', ?_, h'⟩
    rw [List.foldlM_cons, h1]
    exact h2

/-- No run of a maintainer raises, and a peer that has read what was sent, however it was
    cut, holds the items that the actions taken from the queue leave. -/
theorem peer_holds (method : Methods) (events : List Event) (hw : ∀ a ∈ enqueued events, Writable a) {s : St}
    (hreg : Registered s) (hempty : ∀ bubble, s.datastore bubble = []) (hserved : ∀ a ∈ enqueued events, Served s a)
    (hsound : Sound (fun _ _ => none) (enqueued events)) :
    ∃ t taken, sends method events = .ok t ∧ enqueued events = taken ++ t.queue ∧ (t.closed = true ↔ Action.shutdown ∈ taken) ∧
      (t.queue ≠ [] → t.pending = true ∨ t.closed = true ∨ t.failed = true ∧ t.isDead = true) ∧
      ∀ chunks : List Bytes, chunks.flatten = t.sent.flatten →
        ∃ s', StorageStream.run s (chunks.map Ev.chunk ++ if t.closed then [.shutdown] else []) = .ok s' ∧
          s'.reset = s.reset ∧ s'.dead = (if t.closed then some true else none) ∧
          content s' = taken.foldl heard (fun _ _ => none) := by
  obtain ⟨t, taken, hrun, hlink⟩ := sends_link (link_sender method) events hw
  rw [List.nil_append] at hlink
  refine ⟨t, taken, hrun, hlink.split, hlink.closed, fun hq => ?_, fun chunks hchunks => ?_⟩
  · rcases hlink.live with hi | hlive
    · exact absurd (hlink.idle hi).1 hq
    · exact hlive
  · have hmem : ∀ a ∈ taken, a ∈ enqueued events := by
      intro a ha
      rw [hlink.split]
      exact List.mem_append_left _ ha
    have hnone : content s = fun _ _ => none := by
      funext bubble id
      show (HashStore.get (s.datastore bubble) id).map Item.data = none
      rw [hempty]
      rfl
    have hsound' : Sound (content s) taken := by
      rw [hnone]
      exact sound_append (hlink.split ▸ hsound)
    obtain ⟨s1, hs1, hready, hcontent⟩ := read_wire method hreg.phase 0 (fun a ha => hw a (hmem a ha))
      (fun a ha => hserved a (hmem a ha)) hsound'
    have hread : StorageStream.run s (chunks.map Ev.chunk) = .ok s1 := by
      rw [run_chunks, hchunks, hlink.sent]
      exact hs1
    have hdead : s1.dead = none := hready.dead.trans hreg.dead
    rw [StorageStream.run_append, hread]
    cases hc : t.closed with
    | false => exact ⟨s1, rfl, hready.reset, hdead, hcontent.trans (by rw [hnone])⟩
    | true =>
      refine ⟨StorageStream.fail true s1, rfl, ?_⟩
      unfold StorageStream.fail StorageStream.die
      rw [hready.phase, hdead]
      refine ⟨(Bool.or_false _).trans hready.reset, rfl, hcontent.trans (by rw [hnone])⟩

/-- An item comes and goes, and then the maintainer. -/
def visit : List Event :=
  [.enqueue (.request (.insert 9 (List.replicate 20 0) [7])), .enqueue (.request (.delete 9 (List.replicate 20 0))), .written true,
    .enqueue .shutdown, .written true]

theorem peer_holds_visit : ∃ t taken, sends (fun n => BitVec.ofNat 16 n) visit = .ok t ∧ enqueued visit = taken ++ t.queue ∧
    ∀ chunks : List Bytes, chunks.flatten = t.sent.flatten →
      ∃ s', StorageStream.run start (chunks.map Ev.chunk ++ if t.closed then [.shutdown] else []) = .ok s' ∧
        content s' = taken.foldl heard (fun _ _ => none) := by
  have hsound : Sound (fun _ _ => none) (enqueued visit) := ⟨trivial, by simp [Names, heard, apply, Request.bubble], trivial, trivial⟩
  obtain ⟨t, taken, h1, h2, -, -, h3⟩ := peer_holds (fun n => BitVec.ofNat 16 n) visit
    (by
      intro a ha
      simp only [visit, enqueued, List.mem_cons, List.not_mem_nil, or_false] at ha
      rcases ha with rfl | rfl | rfl
      · exact ⟨rfl, by decide⟩
      · exact rfl
      · trivial) start_registered (fun _ => rfl)
    (by
      intro a ha
      simp only [visit, enqueued, List.mem_cons, List.not_mem_nil, or_false] at ha
      rcases ha with rfl | rfl | rfl
      · rfl
      · rfl
      · trivial) hsound
  refine ⟨t, taken, h1, h2, fun chunks hchunks => ?_⟩
  obtain ⟨s', hs', -, -, hcontent⟩ := h3 chunks hchunks
  exact ⟨s', hs', hcontent⟩

end BubbleStorm.Managed.StorageWire
