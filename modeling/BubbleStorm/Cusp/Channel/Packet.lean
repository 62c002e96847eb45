/-
  BubbleStorm.Cusp.Channel.Packet — the packets of a channel in the buffers they are
  written to and parsed from (`src/cusp/channel/packet-format.fun`).

  `Datagram` reads packets as values. Here every function runs on the array the packet's
  slice lies in, since the parser turns the bytes of an address round in place, and an
  exception leaves the array as it is by then.
-/

import BubbleStorm.Cusp.Channel.DatagramProofs

namespace BubbleStorm.Cusp.Channel.Packet

open BubbleStorm.Cusp (Exn Bytes)
open BubbleStorm.Cusp.Crypto
open BubbleStorm.Util.Serial
open Handshake (Bits valOf)
open PacketFormat (DATA)

/-! ## Buffers -/

/-- A computation on an array: what it returns or raises, and the array it leaves. -/
def Buffer (α : Type) : Type := Bytes → Except Exn α × Bytes

namespace Buffer

variable {α β : Type}

def bind (m : Buffer α) (f : α → Buffer β) : Buffer β := fun a =>
  match m a with
  | (.ok x, a') => f x a'
  | (.error e, a') => (.error e, a')

instance : Monad Buffer where
  pure x := fun a => (.ok x, a)
  bind := bind

/-- What does not touch the array. -/
def lift (r : Except Exn α) : Buffer α := fun a => (r, a)

/-- What reads the array. -/
def reading (f : Bytes → Except Exn α) : Buffer α := fun a => (f a, a)

/-- What changes it. -/
def updating (f : Bytes → Except Exn Bytes) : Buffer Unit := fun a =>
  match f a with
  | .ok a' => (.ok (), a')
  | .error e => (.error e, a)

end Buffer

/-- A slice of the array: `n` bytes from index `i`. -/
structure View where
  i : Nat
  n : Nat
  deriving DecidableEq, Repr

namespace View

def on (v : View) (a : Bytes) : ArraySlice := ⟨a, v.i, v.n⟩

/-- `subslice (v, i, SOME n)`. -/
def subslice (v : View) (i n : Nat) : Except Exn View :=
  if i + n ≤ v.n then .ok ⟨v.i + i, n⟩ else .error .subscript

/-- `subslice (v, i, NONE)`. -/
def subsliceFrom (v : View) (i : Nat) : Except Exn View :=
  if i ≤ v.n then .ok ⟨v.i + i, v.n - i⟩ else .error .subscript

/-- `vector`. -/
def vector (v : View) (a : Bytes) : Bytes := (a.drop v.i).take v.n

/-- `Word8ArraySlice.modify Word8.notb`. -/
def notb (v : View) (a : Bytes) : Bytes :=
  a.take v.i ++ ((a.drop v.i).take v.n).map (~~~ ·) ++ a.drop (v.i + v.n)

end View

def notb (v : View) : Buffer Unit := .updating fun a => .ok (v.notb a)

def parseSlice {α : Type} (s : Shape α) (v : View) : Buffer α := .reading fun a => Util.Serial.parseSlice s.serial (v.on a)

def writeSlice {α : Type} (s : Shape α) (v : View) (x : α) : Buffer Unit :=
  .updating fun a => Util.Serial.writeSlice s.serial (v.on a) x

/-- `Array.copyVec`: a bound of the slice is not looked at. -/
def copyVec (src : Bytes) (di : Nat) : Buffer Unit :=
  .updating fun a => if di + src.length ≤ a.length then .ok (splice a di src) else .error .subscript

/-- `ArraySlice.slice (a, i, SOME n)`. -/
def arraySlice (i n : Nat) : Buffer View :=
  .reading fun a => if i + n ≤ a.length then .ok ⟨i, n⟩ else .error .subscript

/-! ## Messages -/

/-- `α` holds a key: a slice of the packet when parsed, a vector when written. -/
inductive Message (α : Type) where
  | hello (remote : Bits) (B Y : α) (address : Forms.Address)
  | welcome (remote : Bits) (B Y : α) (address : Forms.Address)
  | fail (remote : Bits)
  | data (d : DATA)
  | forwardReq (destination : Forms.Address) (hello : Bytes)
  | forwardAck
  | icmpAck
  | noState (tail : Bytes)
  | corrupt
  deriving DecidableEq

def Message.map {α β : Type} (f : α → β) : Message α → Message β
  | .hello remote B Y address => .hello remote (f B) (f Y) address
  | .welcome remote B Y address => .welcome remote (f B) (f Y) address
  | .fail remote => .fail remote
  | .data d => .data d
  | .forwardReq destination bytes => .forwardReq destination bytes
  | .forwardAck => .forwardAck
  | .icmpAck => .icmpAck
  | .noState tail => .noState tail
  | .corrupt => .corrupt

def addressLength : Nat := Forms.address.serial.length

/-! ## Parsing -/

/-- `keys ()`; `mk` is `HELLO` or `WELCOME`. -/
def keys (packet : View) (remote : Bits) (mk : Bits → View → View → Forms.Address → Message View) : Buffer (Message View) := do
  let suite ← .lift (do valOf (← Suite.PublicKey.cheapest remote.publickey))
  let publicLength ← .lift (publicLength suite)
  let B ← .lift (packet.subslice 8 publicLength)
  let Y ← .lift (packet.subslice (8 + publicLength) publicLength)
  let slice ← .lift (packet.subslice (8 + publicLength + publicLength) addressLength)
  notb slice
  let address ← parseSlice Forms.address slice
  notb slice
  return mk remote B Y address

/-- `tail ()`. -/
def tail (packet : View) : Buffer (Message View) := do
  let rest ← .lift (packet.subsliceFrom 8)
  let out ← .reading fun a => .ok (rest.vector a)
  .lift (if out.length = 0 then .error .subscript else .ok (.noState out))

/-- `forward ()`: the address is left turned round. -/
def forward (packet : View) : Buffer (Message View) := do
  let slice ← .lift (packet.subslice 8 addressLength)
  notb slice
  let address ← parseSlice Forms.address slice
  let rest ← .lift (packet.subsliceFrom (8 + addressLength))
  let hello ← .reading fun a => .ok (rest.vector a)
  .lift (if hello.length < 8 then .error .subscript else .ok (.forwardReq address hello))

def parseTag (packet : View) (seqs : Int × Int) (w1 w2 : BitVec 32) : Buffer (Message View) :=
  match w1.toNat / 2 ^ 28 with
  | 0 => tail packet
  | 1 => return .fail (Datagram.bits w1 w2)
  | 2 => keys packet (Datagram.bits w1 w2) .hello
  | 3 => keys packet (Datagram.bits w1 w2) .welcome
  | 8 => forward packet
  | 9 => return .forwardAck
  | 10 => return .icmpAck
  | _ =>
    match PacketFormat.parse (w1.toNat, w2.toNat) seqs with
    | .data d => return .data d
    | .other _ => return .corrupt

def parseWords (packet : View) (seqs : Int × Int) : Buffer (Message View) := do
  let (w1, w2) ← parseSlice Datagram.header packet
  parseTag packet seqs w1 w2

/-- `handle _ => CORRUPT`. -/
def parse (packet : View) (seqs : Int × Int) : Buffer (Message View) := fun a =>
  match parseWords packet seqs a with
  | (.ok m, a') => (.ok m, a')
  | (.error _, a') => (.ok .corrupt, a')

/-! ## Writing -/

def word32 (n : Nat) : BitVec 32 := BitVec.ofNat 32 n

def typ (packet : View) (t : Nat) : Buffer Unit := writeSlice Datagram.header packet (word32 t <<< 28, word32 0)

def writeBits (packet : View) (ty : Nat) (b : Bits) : Buffer Nat := do
  let w1 := word32 ty <<< 28
  let w1 := w1 ||| (if b.resume then word32 1 else word32 0)
  let w1 := w1 ||| (if b.noEncrypt then word32 2 else word32 0)
  let w2 := word32 b.publickey.toNat <<< 16 ||| word32 b.symmetric.toNat
  writeSlice Datagram.header packet (w1, w2)
  return 8

def writeKeys (packet : View) (ty : Nat) (remote : Bits) (B Y : Bytes) (address : Forms.Address) : Buffer Nat := do
  let off ← writeBits packet ty remote
  copyVec B (packet.i + off)
  copyVec Y (packet.i + off + B.length)
  let s ← arraySlice (packet.i + off + B.length + Y.length) addressLength
  writeSlice Forms.address s address
  notb s
  return off + B.length + Y.length + addressLength

def writeData (packet : View) (d : DATA) : Buffer Nat := do
  let (w1, w2) := PacketFormat.write d
  writeSlice Datagram.header packet (word32 w1, word32 w2)
  return 8

def nostate (packet : View) (tail : Bytes) : Buffer Nat := do
  typ packet 0
  copyVec tail (packet.i + 8)
  return tail.length + 8

def forwardReq (packet : View) (destination : Forms.Address) (hello : Bytes) : Buffer Nat := do
  typ packet 8
  let address ← .lift (packet.subslice 8 addressLength)
  writeSlice Forms.address address destination
  notb address
  copyVec hello (packet.i + 8 + addressLength)
  return 8 + addressLength + hello.length

def forwardAck (packet : View) : Buffer Nat := do
  typ packet 9
  return 8

def icmpAck (packet : View) : Buffer Nat := do
  typ packet 10
  return 8

def write (packet : View) : Message Bytes → Buffer Nat
  | .noState tail => nostate packet tail
  | .fail remote => writeBits packet 1 remote
  | .hello remote B Y address => writeKeys packet 2 remote B Y address
  | .welcome remote B Y address => writeKeys packet 3 remote B Y address
  | .data d => writeData packet d
  | .forwardReq destination hello => forwardReq packet destination hello
  | .forwardAck => forwardAck packet
  | .icmpAck => icmpAck packet
  | .corrupt => .lift (.error (.fail "Asked to serialize a corrupt packet??"))

end BubbleStorm.Cusp.Channel.Packet
