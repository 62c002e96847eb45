/-
  BubbleStorm.Cusp.Channel.Datagram — what a channel does with the bytes of a datagram
  (`parse` of `src/cusp/channel/packet-format.fun`, `recv` of
  `src/cusp/channel/negotiation.fun`).

  Of the layers between a channel and its host, `DelayedAck` drops a body or hands it on; a
  number as far off as half of all raises, as `Int` has 32 bits. The two below it are a
  parameter: they fire the callbacks of what is acknowledged, in which nothing is raised
  but by the application (`FastRetransmit.fired_once`, `Reno.in_flight`), and hand every
  body to the host in some state that a host can be in. Callbacks of the endpoint are left
  out, as are timers, signals and the queue of forwarding requests. An exception comes
  with the state that is left behind.
-/

import BubbleStorm.Cusp.Channel.DelayedAck
import BubbleStorm.Cusp.Channel.Handshake
import BubbleStorm.Cusp.Crypto.PublicKey
import BubbleStorm.Cusp.Stream.HostTotality

namespace BubbleStorm.Cusp.Channel.Datagram

open BubbleStorm.Cusp (Exn Bytes)
open BubbleStorm.Cusp.Crypto
open BubbleStorm.Lib
open BubbleStorm.Util.Serial
open BubbleStorm.Util.Crypto (Hash)
open Handshake (Bits valOf)
open PacketFormat (DATA)
open Suite (Mask)

/-! ## Packets -/

structure Keys where
  remote : Bits
  B : ArraySlice
  Y : ArraySlice
  address : Forms.Address

inductive Message where
  | hello (keys : Keys)
  | welcome (keys : Keys)
  | fail (remote : Bits)
  | data (d : DATA)
  | forwardReq (destination : Forms.Address) (hello : Bytes)
  | forwardAck
  | icmpAck
  | noState (tail : Bytes)
  | corrupt

def header : Shape (BitVec 32 × BitVec 32) := Forms.pair Forms.word32b Forms.word32b

/-- `vector` of a slice. -/
def bytes (s : ArraySlice) : Bytes := (s.array.drop s.i).take s.n

/-- `subslice (packet, i, SOME n)` of a packet that begins its array. -/
def subslice (packet : Bytes) (i n : Nat) : Except Exn ArraySlice := slice packet i n

/-- The address, its bytes turned round while it is read. -/
def parseAddress (s : ArraySlice) : Except Exn Forms.Address :=
  parseSlice Forms.address.serial { s with array := s.array.map fun b => ~~~b }

/-- `bits ()`. -/
def bits (w1 w2 : BitVec 32) : Bits where
  publickey := UInt16.ofNat (w2.toNat / 2 ^ 16)
  symmetric := UInt16.ofNat w2.toNat
  resume := w1 &&& 1 ≠ 0
  noEncrypt := w1 &&& 2 ≠ 0

/-- `keys ()`. -/
def keys (packet : Bytes) (remote : Bits) : Except Exn Keys := do
  let suite ← valOf (← Suite.PublicKey.cheapest remote.publickey)
  let length ← publicLength suite
  let B ← subslice packet 8 length
  let Y ← subslice packet (8 + length) length
  let address ← parseAddress (← subslice packet (8 + length + length) Forms.address.serial.length)
  return { remote := remote, B := B, Y := Y, address := address }

/-- `tail ()`. -/
def tail (packet : Bytes) : Except Exn Bytes := do
  let out := bytes (← sliceFrom packet 8)
  if out.length = 0 then .error .subscript else return out

/-- `forward ()`. -/
def forward (packet : Bytes) : Except Exn Message := do
  let address ← parseAddress (← subslice packet 8 Forms.address.serial.length)
  let hello := bytes (← sliceFrom packet (8 + Forms.address.serial.length))
  if hello.length < 8 then .error .subscript else return .forwardReq address hello

def parseWords (packet : Bytes) (seqs : Int × Int) : Except Exn Message := do
  let (w1, w2) ← parseSlice header.serial (full packet)
  match w1.toNat / 2 ^ 28 with
  | 0 => return .noState (← tail packet)
  | 1 => return .fail (bits w1 w2)
  | 2 => return .hello (← keys packet (bits w1 w2))
  | 3 => return .welcome (← keys packet (bits w1 w2))
  | 8 => forward packet
  | 9 => return .forwardAck
  | 10 => return .icmpAck
  | _ =>
    match PacketFormat.parse (w1.toNat, w2.toNat) seqs with
    | .data d => return .data d
    | .other _ => return .corrupt

/-- `handle _ => CORRUPT`. -/
def parse (packet : Bytes) (seqs : Int × Int) : Message :=
  match parseWords packet seqs with
  | .ok m => m
  | .error _ => .corrupt

def extractTail (data : Bytes) : Bytes := data.drop (data.length - 16)

/-! ## Channels -/

variable {F β : Type}

/-- `ChannelStack`: `DelayedAck`, and what is below it. -/
structure Stack (β : Type) where
  ack : DelayedAck.T
  base : β

/-- `asn` is the number of the last packet that was received. -/
inductive State (F β : Type) where
  | closed (noState : Option Bytes)
  | sent (agreed : Bits) (half : Half F) (noState : Option Bytes)
  | received (agreed : Bits) (half : Half F) (full : Full) (key : Mask × Bytes) (tail : Bytes)
      (localAddress : Forms.Address)
  | established (base : Stack β) (full : Full) (tail : Bytes) (asn tsn : Int)

/-- A host in a state that it can come to, and what happens in it while it takes a packet. -/
structure Host where
  global : Nat → Bool
  st : Stream.HostDispatch.St
  reach : Stream.HostDispatch.Runs global (fun _ _ => True) st
  reacts : List Stream.HostDispatch.React

/-- The layers between `DelayedAck` and the host. -/
structure Layers (β : Type) where
  /-- `wipeState`, unless the host resumes; `new`. -/
  new : Mask × Bytes → Bool → Bool → β
  /-- The host a body is handed to. -/
  host : β → DATA → Bytes → Host
  recv : β → DATA → Bytes → β
  isZombie : β → Bool

/-- A preference of the endpoint; its suites are those there are. -/
structure Preference extends Bits where
  publickey_all : publickey ≤ 3
  symmetric_all : symmetric ≤ 3

structure Args (F : Type) where
  key : PrivateKey F
  bits : Preference
  entropy : Entropy
  exist : Mask × Bytes → Bool
  haveICMP : Bool

/-- A computation that leaves the state `s` behind when it raises. -/
def leaving {α : Type} (s : State F β) : Except Exn α → Except (Exn × State F β) α
  | .ok a => .ok a
  | .error e => .error (e, s)

variable [DecidableEq F] [Zero F] (C : Curve F) (H : Hash (Point F)) (ciphers : Ciphers) (layers : Layers β) (args : Args F)

/-- A packet that is too short for a MAC raises, which is handled. -/
def badMAC (full : Full) (data : Bytes) (sn : Int) : Bool :=
  if data.length < full.macLen then true
  else data.drop (data.length - full.macLen) ≠ (full.decipher sn).mac (data.take (data.length - full.macLen))

def goNOSTATE (data : Bytes) : State F β := .closed (some (extractTail data))

def goSENT (bits : Bits) (half : Option (Half F)) : Except Exn (State F β) :=
  match half with
  | some half => .ok (.sent bits half none)
  | none => do
    let suite ← valOf (← Suite.PublicKey.cheapest bits.publickey)
    return .sent bits (← publickey C args.key args.entropy suite) none

/-- Without encryption only the MACs are left. -/
def agreedFull (full : Full) (noEncrypt : Bool) : Full :=
  if noEncrypt then
    { full with
      encipher := fun x => ⟨id, (full.encipher x).mac⟩
      decipher := fun x => ⟨id, (full.decipher x).mac⟩ }
  else full

def goESTABLISHED (full : Full) (key : Mask × Bytes) (noEncrypt resume ack : Bool) : State F β :=
  .established ⟨DelayedAck.new, layers.new key resume ack⟩ (agreedFull full noEncrypt) [] 0 0

/-- Our half, if they can use our key. -/
def rekey (agreed remote : Bits) : Option (Half F) → Except Exn (Option (Half F))
  | none => .ok none
  | some half => do
    let cheapest ← valOf (← Suite.PublicKey.cheapest agreed.publickey)
    return if Suite.contains remote.publickey cheapest then some half else none

/-- Their suite, if we can use their key. -/
def theirs (agreed remote : Bits) : Except Exn (Option Mask) := do
  return (← Suite.PublicKey.cheapest remote.publickey).bind fun x =>
    if Suite.contains agreed.publickey x then some x else none

def intersect (agreed remote : Bits) (known : Bool) : Bits where
  publickey := Suite.intersect agreed.publickey remote.publickey
  symmetric := Suite.intersect agreed.symmetric remote.symmetric
  noEncrypt := agreed.noEncrypt && remote.noEncrypt
  resume := known

/-- The half of a key computation: ours, or a new one. -/
def half (suite : Mask) : Option (Half F) → Except Exn (Half F)
  | some half => .ok half
  | none => publickey C args.key args.entropy suite

def processHELLO (agreed : Bits) (own : Option (Half F)) (h : Keys) : Except Exn (State F β) := do
  let own ← rekey agreed h.remote own
  let suite ← theirs agreed h.remote
  let known := (suite.map fun suite => args.exist (suite, bytes h.B)).getD false
  let isect := intersect agreed h.remote known
  if Suite.isEmpty isect.publickey || Suite.isEmpty isect.symmetric then return .closed none
  else
    match suite with
    | none => goSENT C args isect own
    | some suite =>
      if known && !h.remote.resume then goSENT C args isect own
      else
        let half ← half C args suite own
        let symmetricSuite ← valOf (← Suite.Symmetric.cheapest isect.symmetric)
        let full ← half.symmetric C H ciphers symmetricSuite h.B h.Y
        return .received isect half full (suite, bytes h.B) [] h.address

/-- SENT and a WELCOME, up to `handle _`. -/
def acceptWELCOME (own : Half F) (agreed : Bits) (data : Bytes) (w : Keys) : Except Exn (State F β) := do
  if !(← Handshake.confirmWELCOME agreed w.remote) then .error (.fail "NoGood")
  else
    let rp ← valOf (← Suite.PublicKey.cheapest w.remote.publickey)
    let rs ← valOf (← Suite.Symmetric.cheapest w.remote.symmetric)
    let full ← own.symmetric C H ciphers rs w.B w.Y
    if badMAC full data 0 then .error (.fail "NoGood")
    else return goESTABLISHED layers full (rp, bytes w.B) w.remote.noEncrypt w.remote.resume true

def processWELCOME (own : Half F) (agreed : Bits) (data : Bytes) (w : Keys) : State F β :=
  match acceptWELCOME C H ciphers layers own agreed data w with
  | .ok s => s
  | .error _ => .sent agreed own (some (extractTail data))

/-- The text of a DATA packet, deciphered behind its header, if its MAC is right. -/
def body (full : Full) (data : Bytes) (sn : Int) : Option Bytes :=
  if badMAC full data sn then none
  else if data.length - full.macLen < 8 then none
  else some ((full.decipher sn).f ((data.take (data.length - full.macLen)).drop 8))

/-- What `wrap` runs at the end, whether `Base.recv` raises or not. -/
def settle (base : Stack β) (full : Full) (tail : Bytes) (tsn rtsn : Int) (finish : Bool) (data : Bytes) : State F β :=
  if (finish || full.loopback) && layers.isZombie base.base then goNOSTATE data
  else .established base full tail rtsn tsn

/-- The host's `recv`: whether the packet is acknowledged. -/
def receive (host : Host) (text : Bytes) : Except Exn Bool := do
  return (← Stream.HostDispatch.recvPacket host.st.host ⟨8, text⟩ host.reacts).2

/-- `Base.recv`, with `DelayedAck.recv` about the rest. -/
def Stack.recv (stack : Stack β) (d : DATA) (text : Bytes) : Except (Exn × Stack β) (Stack β) :=
  -- `Word32.toInt (tsn - rasn)`
  if Stream.word32 (d.tsn - stack.ack.new.rasn) = 2 ^ 31 then .error (.overflow, stack)
  else if DelayedAck.takes stack.ack d.tsn then
    match receive (layers.host stack.base d text) text with
    | .error e => .error (e, { stack with base := layers.recv stack.base d text })
    | .ok doAck =>
      let (ack, base) := DelayedAck.recv stack.ack (fun base => (layers.recv base d text, doAck)) stack.base text.isEmpty d.tsn
      .ok ⟨ack, base⟩
  else .ok stack

def processDATA (base : Stack β) (full : Full) (tail : Bytes) (asn tsn : Int) (data : Bytes) (d : DATA) :
    Except (Exn × State F β) (State F β) :=
  match body full data d.tsn with
  | none => .ok (.established base full tail asn tsn)
  | some text =>
    match base.recv layers d text with
    | .ok base => .ok (settle layers base full tail tsn d.tsn d.finish data)
    | .error (e, base) => .error (e, settle layers base full tail tsn d.tsn d.finish data)

def seqs : State F β → Int × Int
  | .established _ _ _ asn tsn => (tsn, asn)
  | _ => (0, 0)

def recv (state : State F β) (data : Bytes) : Except (Exn × State F β) (State F β) :=
  match state, parse data (seqs state) with
  | s, .corrupt => .ok s
  | s, .forwardReq _ _ => .ok s
  | s, .forwardAck => .ok s
  | s, .icmpAck => .ok s
  | .closed s, .noState _ => .ok (.closed s)
  | .closed s, .fail _ => .ok (.closed s)
  | .closed s, .hello h => leaving (.closed s) (processHELLO C H ciphers args args.bits.toBits none h)
  | .closed _, .welcome _ => .ok (goNOSTATE data)
  | .closed _, .data _ => .ok (goNOSTATE data)
  | .sent agreed half s, .noState _ => .ok (.sent agreed half s)
  | .sent agreed half s, .fail _ => .ok (.sent agreed half s)
  | .sent agreed half s, .hello h => leaving (.sent agreed half s) (processHELLO C H ciphers args agreed (some half) h)
  | .sent agreed half _, .welcome w => .ok (processWELCOME C H ciphers layers half agreed data w)
  | .sent agreed half _, .data _ => .ok (.sent agreed half (some (extractTail data)))
  | .received agreed half full key my address, .noState tail =>
    if my ≠ tail then .ok (.received agreed half full key my address)
    else leaving (.received agreed half full key my address) (goSENT C args args.bits.toBits none)
  | .received agreed half full key my address, .fail _ => .ok (.received agreed half full key my address)
  | .received agreed half full key my address, .hello _ => .ok (.received agreed half full key my address)
  | .received agreed half full key my address, .welcome w => do
    let s := .received agreed half full key my address
    if !(← leaving s (Handshake.confirmWELCOME agreed w.remote)) then return s
    else if badMAC full data 0 then return s
    else return goESTABLISHED layers full key w.remote.noEncrypt w.remote.resume true
  | .received agreed half full key my address, .data d =>
    if badMAC full data d.tsn then .ok (.received agreed half full key my address)
    else processDATA layers ⟨DelayedAck.new, layers.new key agreed.resume false⟩ (agreedFull full agreed.noEncrypt) [] 0 0 data d
  | .established base full my asn tsn, .noState tail =>
    if my ≠ tail then .ok (.established base full my asn tsn)
    else if layers.isZombie base.base then .ok (.established base full my asn tsn)
    else leaving (.established base full my asn tsn) (goSENT C args args.bits.toBits none)
  | .established base full my asn tsn, .fail _ => .ok (.established base full my asn tsn)
  | .established base full my asn tsn, .hello _ => .ok (.established base full my asn tsn)
  | .established base full my asn tsn, .welcome _ => .ok (.established base full my asn tsn)
  | .established base full my asn tsn, .data d => processDATA layers base full my asn tsn data d

def connect (state : State F β) : Except Exn (State F β) :=
  match state with
  | .closed _ => goSENT C args args.bits.toBits none
  | s => .ok s

end BubbleStorm.Cusp.Channel.Datagram
