/-
  BubbleStorm.Cusp.Channel.Handshake — how a channel comes to be ESTABLISHED
  (`src/cusp/channel/negotiation.fun`).

  Two endpoints, each with any number of channels, and a network that delivers whatever
  it likes. The cryptography is ideal. A half negotiation is its public-key suite, the
  static key and the ephemeral key, which is a number no other one has. A MAC is the term
  of what went into it: the two halves in their direction, the symmetric suite, the nonce
  and the text. The network can make any MAC it has seen, and any one under a static key
  that is no endpoint's.

  Retransmission, forwarding and ICMP messages leave the state alone and are left out, as
  are addresses. The last 16 bytes of a packet are given by its MAC.
-/

import BubbleStorm.Cusp.Channel.Negotiation
import BubbleStorm.Cusp.Channel.Suite

namespace BubbleStorm.Cusp.Channel.Handshake

open BubbleStorm.Cusp (Exn Bytes)
open Negotiation (Side)
open Suite (Mask)

structure Bits where
  publickey : Mask
  symmetric : Mask
  noEncrypt : Bool
  resume : Bool
  deriving DecidableEq, Repr

/-! ## Crypto -/

variable {κ : Type}

structure Half (κ : Type) where
  suite : Mask
  static : κ
  ephemeral : Nat
  deriving DecidableEq, Repr

/-- What a MAC is over. -/
inductive Text (κ : Type) where
  | welcome (remote : Bits) (B : κ) (Y : Nat)
  | data (finish : Bool) (body : Bytes)
  deriving DecidableEq, Repr

structure Mac (κ : Type) where
  src : Half κ
  dst : Half κ
  suite : Mask
  nonce : Int
  text : Text κ
  deriving DecidableEq, Repr

/-- `full_negotiation`; without encryption the cipher only makes MACs. -/
structure Full (κ : Type) where
  own : Half κ
  remote : Half κ
  suite : Mask
  noEncrypt : Bool
  deriving DecidableEq, Repr

/-- `half.symmetric`: the remote keys are read in the half's own public-key suite. -/
def symmetric (half : Half κ) (suite : Mask) (B : κ) (Y : Nat) : Full κ :=
  ⟨half, ⟨half.suite, B, Y⟩, suite, false⟩

def encipher (full : Full κ) (sn : Int) (text : Text κ) : Mac κ := ⟨full.own, full.remote, full.suite, sn, text⟩

def decipher (full : Full κ) (sn : Int) (text : Text κ) : Mac κ := ⟨full.remote, full.own, full.suite, sn, text⟩

def loopback (full : Full κ) [DecidableEq κ] : Bool := full.own = full.remote

/-! ## States and packets -/

inductive State (κ : Type) where
  | closed (noState : Option (Mac κ))
  | sent (agreed : Bits) (half : Half κ) (noState : Option (Mac κ))
  | received (agreed : Bits) (key : κ) (half : Half κ) (full : Full κ) (tail : Option (Mac κ))
  /-- `resume`: the host's state was kept. -/
  | established (full : Full κ) (host : κ) (resume : Bool) (tail : Option (Mac κ)) (tsn asn : Int)
  deriving DecidableEq, Repr

inductive Packet (κ : Type) where
  | corrupt
  | fail (remote : Bits)
  | noState (tail : Option (Mac κ))
  | hello (remote : Bits) (B : κ) (Y : Nat)
  | welcome (remote : Bits) (B : κ) (Y : Nat) (mac : Mac κ)
  /-- The number is the one the receiver reads. -/
  | data (tsn : Int) (finish : Bool) (body : Bytes) (mac : Mac κ)
  deriving DecidableEq, Repr

def extractTail : Packet κ → Option (Mac κ)
  | .welcome _ _ _ mac => some mac
  | .data _ _ _ mac => some mac
  | .corrupt | .fail _ | .noState _ | .hello _ _ _ => none

/-- An endpoint: its preferences, and its static key of each public-key suite. -/
structure Args (κ : Type) where
  bits : Bits
  key : Mask → κ

variable (args : Args κ) (entropy : Nat)

def publickey (suite : Mask) : Half κ := ⟨suite, args.key suite, entropy⟩

def valOf {α : Type} : Option α → Except Exn α
  | some x => .ok x
  | none => .error (.fail "Option")

/-! ## Negotiation -/

def goFAIL : State κ := .closed none

def goSENT (bits : Bits) (half : Option (Half κ)) : Except Exn (State κ) :=
  match half with
  | some half => .ok (.sent bits half none)
  | none => do
    let suite ← valOf (← Suite.PublicKey.cheapest bits.publickey)
    return .sent bits (publickey args entropy suite) none

def goRECEIVED (bits : Bits) (half : Half κ) (full : Full κ) (key : κ) : State κ := .received bits key half full none

def goESTABLISHED (full : Full κ) (key : κ) (noEncrypt resume : Bool) : State κ :=
  .established (if noEncrypt then { full with noEncrypt := true } else full) key resume none 0 0

/-- Our half, if they can use our key. -/
def rekey (agreed remote : Bits) : Option (Half κ) → Except Exn (Option (Half κ))
  | none => .ok none
  | some half => do
    let cheapest ← valOf (← Suite.PublicKey.cheapest agreed.publickey)
    return if Suite.contains remote.publickey cheapest then some half else none

/-- `exist` answers whether a host is known. -/
def processHELLO (exist : κ → Bool) (agreed : Bits) (half : Option (Half κ)) (remote : Bits) (B : κ) (Y : Nat) :
    Except Exn (State κ) := do
  let ip := Suite.intersect agreed.publickey remote.publickey
  let is := Suite.intersect agreed.symmetric remote.symmetric
  let ie := agreed.noEncrypt && remote.noEncrypt
  let half ← rekey agreed remote half
  let suite := (← Suite.PublicKey.cheapest remote.publickey).bind fun x =>
    if Suite.contains agreed.publickey x then some x else none
  let known := (suite.map fun _ => exist B).getD false
  let isect : Bits := { publickey := ip, symmetric := is, noEncrypt := ie, resume := known }
  if Suite.isEmpty ip || Suite.isEmpty is then return goFAIL
  else
    match suite with
    | none => goSENT args entropy isect half
    | some suite =>
      if known && !remote.resume then goSENT args entropy isect half
      else
        let half := half.getD (publickey args entropy suite)
        let symmetricSuite ← valOf (← Suite.Symmetric.cheapest is)
        return goRECEIVED isect half (symmetric half symmetricSuite B Y) B

/-- Not stronger than what was agreed, and with the same first public-key suite. -/
def confirmWELCOME (agreed remote : Bits) : Except Exn Bool := do
  if Suite.isEmpty remote.publickey || Suite.isEmpty remote.symmetric then return false
  else if !Suite.isEmpty (Suite.subtract remote.publickey agreed.publickey) then return false
  else if !Suite.isEmpty (Suite.subtract remote.symmetric agreed.symmetric) then return false
  else
    let rp ← Suite.PublicKey.cheapest remote.publickey
    let sp ← Suite.PublicKey.cheapest agreed.publickey
    return rp = sp && (agreed.noEncrypt || !remote.noEncrypt) && (agreed.resume || !remote.resume)

variable [DecidableEq κ]

def badMAC (full : Full κ) (mac : Mac κ) (text : Text κ) (sn : Int) : Bool := mac ≠ decipher full sn text

/-- SENT and a WELCOME; `none` where the source raises. -/
def acceptWELCOME (half : Half κ) (agreed remote : Bits) (B : κ) (Y : Nat) (mac : Mac κ) : Option (State κ) :=
  match confirmWELCOME agreed remote with
  | .error _ => none
  | .ok confirmed =>
    if !confirmed then none
    else
      match Suite.Symmetric.cheapest remote.symmetric with
      | .error _ => none
      | .ok none => none
      | .ok (some rs) =>
        let full := symmetric half rs B Y
        if badMAC full mac (.welcome remote B Y) 0 then none
        else some (goESTABLISHED full B remote.noEncrypt remote.resume)

def processWELCOME (half : Half κ) (agreed remote : Bits) (B : κ) (Y : Nat) (mac : Mac κ) : State κ :=
  (acceptWELCOME half agreed remote B Y mac).getD (.sent agreed half (some mac))

/-- `zombie` answers whether the host has nothing left to do. -/
def processDATA (zombie : Bool) (full : Full κ) (host : κ) (resume : Bool) (tail : Option (Mac κ)) (tsn asn rtsn : Int)
    (finish : Bool) (body : Bytes) (mac : Mac κ) : State κ :=
  if mac ≠ decipher full rtsn (.data finish body) then .established full host resume tail tsn asn
  else if (finish || loopback full) && zombie then .closed (some mac)
  else .established full host resume tail tsn rtsn

def recv (exist : κ → Bool) (zombie : Bool) (state : State κ) (packet : Packet κ) : Except Exn (State κ) :=
  match state, packet with
  | s, .corrupt => .ok s
  | .closed s, .noState _ => .ok (.closed s)
  | .closed s, .fail _ => .ok (.closed s)
  | .closed _, .hello remote B Y => processHELLO args entropy exist args.bits none remote B Y
  | .closed _, .welcome remote B Y mac => .ok (.closed (extractTail (.welcome remote B Y mac)))
  | .closed _, .data tsn finish body mac => .ok (.closed (extractTail (.data tsn finish body mac)))
  | .sent agreed half s, .noState _ => .ok (.sent agreed half s)
  | .sent agreed half s, .fail _ => .ok (.sent agreed half s)
  | .sent agreed half _, .hello remote B Y => processHELLO args entropy exist agreed (some half) remote B Y
  | .sent agreed half _, .welcome remote B Y mac => .ok (processWELCOME half agreed remote B Y mac)
  | .sent agreed half _, .data tsn finish body mac => .ok (.sent agreed half (extractTail (.data tsn finish body mac)))
  | .received agreed key half full my, .noState tail =>
    if my = none ∨ my ≠ tail then .ok (.received agreed key half full my)
    else goSENT args entropy args.bits none
  | .received agreed key half full my, .fail _ => .ok (.received agreed key half full my)
  | .received agreed key half full my, .hello _ _ _ => .ok (.received agreed key half full my)
  | .received agreed key half full my, .welcome remote B Y mac => do
    if !(← confirmWELCOME agreed remote) then return .received agreed key half full my
    else if badMAC full mac (.welcome remote B Y) 0 then return .received agreed key half full my
    else return goESTABLISHED full key remote.noEncrypt remote.resume
  | .received agreed key half full my, .data tsn finish body mac =>
    if badMAC full mac (.data finish body) tsn then .ok (.received agreed key half full my)
    else
      match goESTABLISHED full key agreed.noEncrypt agreed.resume with
      | .established full host resume tail tsn' asn =>
        .ok (processDATA zombie full host resume tail tsn' asn tsn finish body mac)
      | s => .ok s
  | .established full host resume my tsn asn, .noState tail =>
    if my = none ∨ my ≠ tail then .ok (.established full host resume my tsn asn)
    else if zombie then .ok (.established full host resume my tsn asn)
    else goSENT args entropy args.bits none
  | .established full host resume my tsn asn, .fail _ => .ok (.established full host resume my tsn asn)
  | .established full host resume my tsn asn, .hello _ _ _ => .ok (.established full host resume my tsn asn)
  | .established full host resume my tsn asn, .welcome _ _ _ _ => .ok (.established full host resume my tsn asn)
  | .established full host resume my tsn asn, .data rtsn finish body mac =>
    .ok (processDATA zombie full host resume my tsn asn rtsn finish body mac)

def connect (state : State κ) : Except Exn (State κ) :=
  match state with
  | .closed _ => goSENT args entropy args.bits none
  | s => .ok s

/-- What is sent next. -/
def pull (finish : Bool) (body : Bytes) (state : State κ) : Packet κ × State κ :=
  match state with
  | .closed none => (.fail args.bits, .closed none)
  | .closed (some tail) => (.noState (some tail), .closed (some tail))
  | .sent agreed half (some tail) => (.noState (some tail), .sent agreed half none)
  | .sent agreed half none => (.hello agreed half.static half.ephemeral, .sent agreed half none)
  | .received agreed key half full _ =>
    let mac := encipher full 0 (.welcome agreed half.static half.ephemeral)
    (.welcome agreed half.static half.ephemeral mac, .received agreed key half full (some mac))
  | .established full host resume _ tsn asn =>
    let mac := encipher full (tsn + 1) (.data finish body)
    (.data (tsn + 1) finish body mac, .established full host resume (some mac) (tsn + 1) asn)

/-! ## Two endpoints -/

structure St (κ : Type) where
  chan : Side → Nat → State κ
  entropy : Nat
  /-- The packets that were sent. -/
  sent : List (Packet κ)

inductive Ev (κ : Type) where
  | connect (x : Side) (i : Nat)
  | destroy (x : Side) (i : Nat)
  | pull (x : Side) (i : Nat) (finish : Bool) (body : Bytes)
  | recv (x : Side) (i : Nat) (packet : Packet κ) (exist : κ → Bool) (zombie : Bool)

def St.set (s : St κ) (x : Side) (i : Nat) (state : State κ) : St κ :=
  { s with chan := Function.update s.chan x (Function.update (s.chan x) i state), entropy := s.entropy + 1 }

/-- What raises leaves the channel as it is. -/
def step (endpoint : Side → Args κ) (s : St κ) : Ev κ → St κ
  | .connect x i =>
    match connect (endpoint x) s.entropy (s.chan x i) with
    | .ok state => s.set x i state
    | .error _ => s
  | .destroy x i => s.set x i (.closed none)
  | .pull x i finish body =>
    let (packet, state) := pull (endpoint x) finish body (s.chan x i)
    { s.set x i state with sent := packet :: s.sent }
  | .recv x i packet exist zombie =>
    match recv (endpoint x) s.entropy exist zombie (s.chan x i) packet with
    | .ok state => s.set x i state
    | .error _ => s

/-- A static key of an endpoint. -/
def Honest (endpoint : Side → Args κ) (half : Half κ) : Prop := ∃ x suite, half.static = (endpoint x).key suite

/-- The network has seen the MAC, or knows a key it is under. -/
def Makes (endpoint : Side → Args κ) (s : St κ) (mac : Mac κ) : Prop :=
  (∃ p ∈ s.sent, extractTail p = some mac) ∨ ¬ Honest endpoint mac.src ∨ ¬ Honest endpoint mac.dst

def Feasible (endpoint : Side → Args κ) (s : St κ) : Ev κ → Prop
  | .recv _ _ (.welcome _ _ _ mac) _ _ => Makes endpoint s mac
  | .recv _ _ (.data _ _ _ mac) _ _ => Makes endpoint s mac
  | .recv _ _ _ _ _ => True
  | .connect _ _ | .destroy _ _ | .pull _ _ _ _ => True

def start : St κ := ⟨fun _ _ => .closed none, 0, []⟩

inductive Reach (endpoint : Side → Args κ) : St κ → Prop
  | start : Reach endpoint start
  | step {s : St κ} (e : Ev κ) : Reach endpoint s → Feasible endpoint s e → Reach endpoint (step endpoint s e)

end BubbleStorm.Cusp.Channel.Handshake
