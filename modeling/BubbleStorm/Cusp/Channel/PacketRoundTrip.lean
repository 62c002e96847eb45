/-
  BubbleStorm.Cusp.Channel.PacketRoundTrip — what is written of a packet is parsed as it
  was, and parsing gives the buffer back.

  `encode` is the layout of a packet: the parser and the writer, which compute it apart,
  both follow it (`write_encode`, `parse_encode`). The parser takes what is behind a
  packet for more of its tail, so a NOSTATE or a FORWARD request is read with all that
  follows (`Message.extend`). Proved (`packet_format`): the round trip, whatever follows;
  every byte string is parsed, if only as CORRUPT; and the buffer is changed by a FORWARD
  request only. A NOSTATE without a tail and a FORWARD request with a HELLO shorter than
  its header are refused (`refused_tails`).
-/

import BubbleStorm.Cusp.Channel.Packet

namespace BubbleStorm.Cusp.Channel.Packet

open Buffer (lift reading updating)
open List (append_assoc append_nil drop_left' getElem?_eq_none length_append length_drop length_map length_take replicate take_left')
open Datagram (bits header publicLength_ok)
open BubbleStorm.Cusp (Exn Bytes)
open BubbleStorm.Cusp.Crypto
open BubbleStorm.Util.Serial
open Handshake (Bits valOf)
open PacketFormat (DATA)

/-! ## Buffers -/

section

variable {α β : Type} {a a' : Bytes}

@[simp] theorem run_pure (x : α) (a : Bytes) : (pure x : Buffer α) a = (.ok x, a) := rfl

theorem run_bind (m : Buffer α) (f : α → Buffer β) (a : Bytes) : (m >>= f) a = Buffer.bind m f a := rfl

/-- A step that returns goes on. -/
theorem run_ok {m : Buffer α} {x : α} (f : α → Buffer β) (h : m a = (.ok x, a')) : (m >>= f) a = f x a' := by
  rw [run_bind, Buffer.bind, h]

/-- A computation that returns did all its steps. -/
theorem ok_run {m : Buffer α} {f : α → Buffer β} {y : β} {c : Bytes} (h : (m >>= f) a = (.ok y, c)) :
    ∃ x b, m a = (.ok x, b) ∧ f x b = (.ok y, c) := by
  rw [run_bind, Buffer.bind] at h
  split at h
  · rename_i x b e
    exact ⟨x, b, e, h⟩
  · cases h

theorem ok_lift {r : Except Exn α} {x : α} (h : lift r a = (.ok x, a')) : r = .ok x ∧ a' = a := by
  cases h
  exact ⟨rfl, rfl⟩

theorem run_reading {f : Bytes → Except Exn α} {x : α} (h : f a = .ok x) : reading f a = (.ok x, a) := by
  rw [reading, h]

theorem run_updating {f : Bytes → Except Exn Bytes} (h : f a = .ok a') : updating f a = (.ok (), a') := by
  rw [updating, h]

theorem ok_updating {f : Bytes → Except Exn Bytes} {u : Unit} (h : updating f a = (.ok u, a')) : f a = .ok a' := by
  unfold updating at h
  split at h
  · rename_i b e
    cases h
    exact e
  · cases h

end

/-! ## What a form stores -/

section

variable {α : Type} {s : Shape α} {x : α}

theorem straight_at (hs : ∀ w ∈ s.words 0 0, w.Straight) {i : Nat} (hi : s.serial.align + 1 ∣ i) :
    ∀ w ∈ s.words 0 i, w.Straight := by
  have h := s.straight_add (i := 0) (j := 0) hi hs
  rwa [Nat.zero_add] at h

theorem dvd_of_and (s : Shape α) {i : Nat} (h : i &&& s.serial.align = 0) : s.serial.align + 1 ∣ i := by
  obtain ⟨k, -, hk⟩ := s.mask
  rw [show s.serial.align = 2 ^ k - 1 by omega, Nat.and_two_pow_sub_one_eq_mod] at h
  rw [hk]
  exact Nat.dvd_of_mod_eq_zero h

/-- A write that returns wrote the form's bytes at the start of an aligned slice. -/
theorem ok_writeSlice (hl : s.Lawful) (hs : ∀ w ∈ s.words 0 0, w.Straight) (hx : s.Dom x) {v : View} {a a' : Bytes}
    {u : Unit} (hin : v.i + v.n ≤ a.length) (h : writeSlice s v x a = (.ok u, a')) :
    s.serial.align + 1 ∣ v.i ∧ s.serial.length ≤ v.n ∧ a' = splice a v.i (s.bytes 0 x) := by
  have hw := ok_updating h
  unfold Util.Serial.writeSlice checkSlice at hw
  split at hw
  · cases hw
  · rename_i halign
    have hdvd := dvd_of_and s (not_not.mp halign)
    split at hw
    · cases hw
    · rename_i hn
      have hp := s.puts (Nat.dvd_zero _) hl (straight_at hs hdvd) hx
      have hlen := hp.length
      have hroom : 0 + v.i + (s.bytes 0 x).length ≤ a.length := by
        simp only [View.on] at hn
        omega
      have hput := hp.write a hroom
      rw [Nat.zero_add] at hput
      exact ⟨hdvd, Nat.not_lt.mp hn, Except.ok.inj (hw.symm.trans hput)⟩

/-- Where the bytes are, the value is read. -/
theorem parseSlice_holds (hl : s.Lawful) (hs : ∀ w ∈ s.words 0 0, w.Straight) (hx : s.Dom x) {v : View} {a : Bytes}
    (hdvd : s.serial.align + 1 ∣ v.i) (hn : s.serial.length ≤ v.n) (ha : holds a v.i (s.bytes 0 x)) :
    parseSlice s v a = (.ok x, a) := by
  have hp := s.puts (Nat.dvd_zero _) hl (straight_at hs hdvd) hx
  have hread : Util.Serial.parseSlice s.serial (v.on a) = .ok x := by
    unfold Util.Serial.parseSlice checkSlice
    rw [if_neg (fun h => h (and_align s.mask hdvd)), if_neg (show ¬ (v.on a).n < s.serial.length from Nat.not_lt.mpr hn)]
    exact hp.read a (by rw [Nat.zero_add]; exact ha)
  simp only [parseSlice, reading, hread]

theorem bytes_length (hl : s.Lawful) (hs : ∀ w ∈ s.words 0 0, w.Straight) (hx : s.Dom x) :
    (s.bytes 0 x).length = s.serial.length := (s.puts (Nat.dvd_zero _) hl hs hx).length

end

theorem header_lawful : Datagram.header.Lawful := ⟨fun _ => rfl, fun _ => rfl, trivial, trivial, trivial⟩
theorem header_straight : ∀ w ∈ Datagram.header.words 0 0, w.Straight := by decide
theorem header_dom (w : BitVec 32 × BitVec 32) : Datagram.header.Dom w := ⟨trivial, trivial, trivial⟩
theorem address_lawful : Forms.address.Lawful := ⟨fun _ => rfl, fun _ => rfl, trivial, trivial, trivial⟩
theorem address_straight : ∀ w ∈ Forms.address.words 0 0, w.Straight := by decide

/-- Four bytes of host. -/
theorem address_dom {x : Forms.Address} (h : x.1.length = 4) : Forms.address.Dom x := ⟨⟨h, fun _ _ => trivial⟩, trivial, trivial⟩

/-! ## Turning bytes round -/

theorem notb_length (v : View) (a : Bytes) : (v.notb a).length = a.length := by
  simp only [View.notb, length_append, length_map, length_take, length_drop]
  omega

theorem holds_notb {a v : Bytes} {p : Nat} (h : holds a p v) (hv : p + v.length ≤ a.length) :
    holds (View.notb ⟨p, v.length⟩ a) p (v.map (~~~ ·)) := by
  unfold holds at h ⊢
  simp only [View.notb, h, length_map]
  rw [append_assoc, drop_left' (by rw [length_take]; omega), take_left' (by simp)]

theorem notb_getElem? (v : View) (a : Bytes) (j : Nat) :
    (v.notb a)[j]? = if v.i ≤ j ∧ j < v.i + v.n then a[j]?.map (~~~ ·) else a[j]? := by
  simp only [View.notb, List.getElem?_append, length_append, length_take, length_map, length_drop,
    List.getElem?_map, List.getElem?_take, List.getElem?_drop]
  by_cases hlen : v.i ≤ a.length
  · rw [Nat.min_eq_left hlen]
    by_cases h1 : j < v.i
    · rw [if_pos (by omega), if_pos h1, if_pos h1, if_neg (by omega)]
    · rw [if_neg h1, show v.i + (j - v.i) = j by omega]
      by_cases h2 : j < v.i + v.n
      · by_cases h3 : j < a.length
        · rw [if_pos (by omega), if_pos (by omega), if_pos (by omega)]
        · have hn : a[j]? = none := getElem?_eq_none (by omega)
          rw [if_neg (by omega), if_pos (by omega), hn]
          exact getElem?_eq_none (by omega)
      · rw [if_neg (by omega), if_neg (by omega)]
        by_cases h3 : v.i + v.n ≤ a.length
        · rw [show v.i + v.n + (j - (v.i + min v.n (a.length - v.i))) = j by omega]
        · rw [getElem?_eq_none (by omega), getElem?_eq_none (by omega)]
  · have hout : a.length ≤ j → a[j]? = none := getElem?_eq_none
    by_cases h1 : j < a.length
    · rw [if_pos (by omega), if_pos (by omega), if_pos (by omega), if_neg (by omega)]
    · rw [if_neg (by omega), hout (by omega)]
      have h2 : (if v.i ≤ j ∧ j < v.i + v.n then Option.map (~~~ ·) (none : Option UInt8) else none) = none := by
        split
        all_goals rfl
      rw [h2]
      exact getElem?_eq_none (by omega)

theorem notb_drop (v : View) (a : Bytes) (h : v.i + v.n ≤ a.length) : (v.notb a).drop (v.i + v.n) = a.drop (v.i + v.n) := by
  refine drop_left' ?_
  rw [length_append, length_map, length_take, length_take, length_drop]
  omega

/-- Turned round twice, a slice is as it was. -/
theorem notb_twice (v : View) (a : Bytes) : v.notb (v.notb a) = a := by
  apply List.ext_getElem?
  intro j
  rw [notb_getElem?, notb_getElem?]
  split
  · simp [Option.map_map, Function.comp_def]
  · rfl

/-- Bytes turned round where they were written. -/
theorem notb_splice {a v : Bytes} {p : Nat} (h : p + v.length ≤ a.length) :
    View.notb ⟨p, v.length⟩ (splice a p v) = splice a p (v.map (~~~ ·)) := by
  have hp : (a.take p).length = p := by rw [length_take]; omega
  have hdrop : (splice a p v).drop p = v ++ a.drop (p + v.length) := by
    rw [splice, append_assoc, drop_left' hp]
  have htake : (splice a p v).take p = a.take p := by rw [splice, append_assoc, take_left' hp]
  have htail : (splice a p v).drop (p + v.length) = a.drop (p + v.length) := by
    rw [← List.drop_drop, hdrop, List.drop_left]
  unfold View.notb
  dsimp only
  rw [htake, hdrop, htail, List.take_left, splice, length_map]

/-! ## Steps of the writer -/

theorem ok_copyVec {src : Bytes} {p : Nat} {a a' : Bytes} {u : Unit} (h : copyVec src p a = (.ok u, a')) :
    p + src.length ≤ a.length ∧ a' = splice a p src := by
  have hc := ok_updating h
  split at hc
  · rename_i hle
    exact ⟨hle, (Except.ok.inj hc).symm⟩
  · cases hc

theorem ok_arraySlice {p n : Nat} {a a' : Bytes} {v : View} (h : arraySlice p n a = (.ok v, a')) :
    p + n ≤ a.length ∧ v = ⟨p, n⟩ ∧ a' = a := by
  dsimp only [arraySlice, reading] at h
  split at h
  · rename_i hle
    cases h
    exact ⟨hle, rfl, rfl⟩
  · cases h

theorem run_notb (v : View) (a : Bytes) : notb v a = (.ok (), v.notb a) := rfl

theorem ok_notb {v : View} {a a' : Bytes} {u : Unit} (h : notb v a = (.ok u, a')) : a' = v.notb a :=
  (Except.ok.inj (ok_updating h)).symm

theorem ok_subslice {v w : View} {i n : Nat} (h : v.subslice i n = .ok w) : i + n ≤ v.n ∧ w = ⟨v.i + i, n⟩ := by
  unfold View.subslice at h
  split at h
  · rename_i hle
    exact ⟨hle, (Except.ok.inj h).symm⟩
  · cases h

/-! ## Layout -/

def bitsWords (ty : Nat) (b : Bits) : BitVec 32 × BitVec 32 :=
  (word32 ty <<< 28 ||| (if b.resume then word32 1 else word32 0) ||| (if b.noEncrypt then word32 2 else word32 0),
    word32 b.publickey.toNat <<< 16 ||| word32 b.symmetric.toNat)

/-- The words of a packet's header. -/
def words : Message Bytes → BitVec 32 × BitVec 32
  | .noState _ => (word32 0 <<< 28, word32 0)
  | .fail remote => bitsWords 1 remote
  | .hello remote _ _ _ => bitsWords 2 remote
  | .welcome remote _ _ _ => bitsWords 3 remote
  | .data d => (word32 (PacketFormat.write d).1, word32 (PacketFormat.write d).2)
  | .forwardReq _ _ => (word32 8 <<< 28, word32 0)
  | .forwardAck => (word32 9 <<< 28, word32 0)
  | .icmpAck => (word32 10 <<< 28, word32 0)
  | .corrupt => (word32 0, word32 0)

/-- An address as it is sent. -/
def turned (x : Forms.Address) : Bytes := (Forms.address.bytes 0 x).map (~~~ ·)

/-- What follows the header. -/
def content : Message Bytes → Bytes
  | .noState tail => tail
  | .hello _ B Y address => B ++ (Y ++ turned address)
  | .welcome _ B Y address => B ++ (Y ++ turned address)
  | .forwardReq destination bytes => turned destination ++ bytes
  | _ => []

def encode (m : Message Bytes) : Bytes := Datagram.header.bytes 0 (words m) ++ content m

/-- The hosts of addresses have four bytes. -/
def Dom : Message Bytes → Prop
  | .hello _ _ _ address => address.1.length = 4
  | .welcome _ _ _ address => address.1.length = 4
  | .forwardReq destination _ => destination.1.length = 4
  | _ => True

theorem header_bytes_length (w : BitVec 32 × BitVec 32) : (Datagram.header.bytes 0 w).length = 8 :=
  bytes_length header_lawful header_straight (header_dom w)

theorem turned_length {x : Forms.Address} (h : x.1.length = 4) : (turned x).length = addressLength := by
  rw [turned, length_map]
  exact bytes_length address_lawful address_straight (address_dom h)

variable {packet : View} {a a' : Bytes} {n : Nat} {m : Message Bytes}

/-- The header is written, at an aligned place. -/
theorem ok_header {w : BitVec 32 × BitVec 32} {u : Unit} (hin : packet.i + packet.n ≤ a.length)
    (h : writeSlice header packet w a = (.ok u, a')) :
    4 ∣ packet.i ∧ 8 ≤ packet.n ∧ a' = splice a packet.i (Datagram.header.bytes 0 w) :=
  ok_writeSlice header_lawful header_straight (header_dom w) hin h

theorem ok_typ {t : Nat} {u : Unit} (hin : packet.i + packet.n ≤ a.length) (h : typ packet t a = (.ok u, a')) :
    4 ∣ packet.i ∧ 8 ≤ packet.n ∧ a' = splice a packet.i (Datagram.header.bytes 0 (word32 t <<< 28, word32 0)) :=
  ok_header hin h

theorem ok_writeBits {ty : Nat} {b : Bits} (hin : packet.i + packet.n ≤ a.length) (h : writeBits packet ty b a = (.ok n, a')) :
    n = 8 ∧ 4 ∣ packet.i ∧ 8 ≤ packet.n ∧ a' = splice a packet.i (Datagram.header.bytes 0 (bitsWords ty b)) := by
  obtain ⟨u, c, h1, h2⟩ := ok_run h
  obtain ⟨hd, hn, rfl⟩ := ok_header hin h1
  cases h2
  exact ⟨rfl, hd, hn, rfl⟩

/-- The header, and then more. -/
theorem after_header {w : BitVec 32 × BitVec 32} {v : Bytes} {p : Nat} (h : p + 8 ≤ a.length) :
    splice (splice a p (Datagram.header.bytes 0 w)) (p + 8) v = splice a p (Datagram.header.bytes 0 w ++ v) := by
  have hs := splice_splice (w := v) (v := Datagram.header.bytes 0 w) (p := p) (a := a) (by rw [header_bytes_length]; exact h)
  rwa [header_bytes_length] at hs

/-- An address is written, and turned round where it is. -/
theorem ok_address {v : View} {x : Forms.Address} {u u' : Unit} {c : Bytes} (hv : v.n = addressLength) (hx : x.1.length = 4)
    (hin : v.i + v.n ≤ a.length) (h : writeSlice Forms.address v x a = (.ok u, c)) (h' : notb v c = (.ok u', a')) :
    a' = splice a v.i (turned x) := by
  obtain ⟨-, -, rfl⟩ := ok_writeSlice address_lawful address_straight (address_dom hx) hin h
  have hlen : (Forms.address.bytes 0 x).length = v.n := by
    rw [hv]
    exact bytes_length address_lawful address_straight (address_dom hx)
  rw [ok_notb h']
  obtain ⟨i, k⟩ := v
  subst hlen
  exact notb_splice hin

theorem ok_writeKeys {ty : Nat} {remote : Bits} {B Y : Bytes} {address : Forms.Address} (hin : packet.i + packet.n ≤ a.length)
    (hx : address.1.length = 4) (h : writeKeys packet ty remote B Y address a = (.ok n, a')) :
    n = 8 + (B ++ (Y ++ turned address)).length ∧ 4 ∣ packet.i ∧
      a' = splice a packet.i (Datagram.header.bytes 0 (bitsWords ty remote) ++ (B ++ (Y ++ turned address))) := by
  obtain ⟨off, a1, h1, h⟩ := ok_run h
  obtain ⟨rfl, hd, hn, rfl⟩ := ok_writeBits hin h1
  have hroom : packet.i + 8 ≤ a.length := by omega
  obtain ⟨u2, a2, h2, h⟩ := ok_run h
  obtain ⟨hB, rfl⟩ := ok_copyVec h2
  obtain ⟨u3, a3, h3, h⟩ := ok_run h
  obtain ⟨hY, rfl⟩ := ok_copyVec h3
  obtain ⟨v, a4, h4, h⟩ := ok_run h
  obtain ⟨hA, rfl, rfl⟩ := ok_arraySlice h4
  obtain ⟨u5, a5, h5, h⟩ := ok_run h
  obtain ⟨u6, a6, h6, h⟩ := ok_run h
  have ha := ok_address rfl hx hA h5 h6
  cases h
  rw [after_header hroom] at hY hA ha
  have hh := header_bytes_length (bitsWords ty remote)
  have hB' : packet.i + 8 + B.length ≤ a.length := by rwa [length_splice (by rw [hh]; exact hroom)] at hB
  have hY' : packet.i + 8 + B.length + Y.length ≤ a.length := by
    rwa [length_splice (by rw [length_append, hh]; omega)] at hY
  have eY := splice_splice (w := Y) (v := Datagram.header.bytes 0 (bitsWords ty remote) ++ B) (p := packet.i) (a := a)
    (by rw [length_append, hh]; omega)
  rw [length_append, hh, ← Nat.add_assoc] at eY
  rw [eY] at ha
  have eA := splice_splice (w := turned address) (v := Datagram.header.bytes 0 (bitsWords ty remote) ++ B ++ Y) (p := packet.i)
    (a := a) (by rw [length_append, length_append, hh]; omega)
  rw [length_append, length_append, hh, ← Nat.add_assoc, ← Nat.add_assoc] at eA
  rw [eA] at ha
  refine ⟨?_, hd, by rw [ha, append_assoc, append_assoc]⟩
  rw [length_append, length_append, turned_length hx]
  omega

theorem ok_nostate {tail : Bytes} (hin : packet.i + packet.n ≤ a.length) (h : nostate packet tail a = (.ok n, a')) :
    n = 8 + tail.length ∧ 4 ∣ packet.i ∧
      a' = splice a packet.i (Datagram.header.bytes 0 (word32 0 <<< 28, word32 0) ++ tail) := by
  obtain ⟨u1, a1, h1, h⟩ := ok_run h
  obtain ⟨hd, hn, rfl⟩ := ok_typ hin h1
  obtain ⟨u2, a2, h2, h⟩ := ok_run h
  obtain ⟨-, rfl⟩ := ok_copyVec h2
  cases h
  exact ⟨Nat.add_comm _ _, hd, after_header (by omega)⟩

theorem ok_forwardReq {destination : Forms.Address} {bytes : Bytes} (hin : packet.i + packet.n ≤ a.length)
    (hx : destination.1.length = 4) (h : forwardReq packet destination bytes a = (.ok n, a')) :
    n = 8 + (turned destination ++ bytes).length ∧ 4 ∣ packet.i ∧
      a' = splice a packet.i (Datagram.header.bytes 0 (word32 8 <<< 28, word32 0) ++ (turned destination ++ bytes)) := by
  obtain ⟨u1, a1, h1, h⟩ := ok_run h
  obtain ⟨hd, hn, rfl⟩ := ok_typ hin h1
  obtain ⟨v, a2, h2, h⟩ := ok_run h
  obtain ⟨hsub, rfl⟩ := ok_lift h2
  obtain ⟨hfit, rfl⟩ := ok_subslice hsub
  obtain ⟨u3, a3, h3, h⟩ := ok_run h
  obtain ⟨u4, a4, h4, h⟩ := ok_run h
  have hh := header_bytes_length (word32 8 <<< 28, word32 0)
  have hroom : packet.i + 8 ≤ a.length := by omega
  have ha := ok_address rfl hx (by rw [length_splice (by rw [hh]; exact hroom)]; simp only; omega) h3 h4
  obtain ⟨u5, a5, h5, h⟩ := ok_run h
  obtain ⟨-, rfl⟩ := ok_copyVec h5
  cases h
  have hlen := turned_length hx
  rw [after_header hroom] at ha
  have eA := splice_splice (w := bytes) (v := Datagram.header.bytes 0 (word32 8 <<< 28, word32 0) ++ turned destination)
    (p := packet.i) (a := a) (by rw [length_append, hh, hlen]; omega)
  rw [length_append, hh, hlen, ← Nat.add_assoc] at eA
  refine ⟨by rw [length_append, hlen]; omega, hd, ?_⟩
  rw [ha, eA, append_assoc]

/-- The writer follows the layout. -/
theorem write_encode (hin : packet.i + packet.n ≤ a.length) (hm : Dom m) (h : write packet m a = (.ok n, a')) :
    n = (encode m).length ∧ 4 ∣ packet.i ∧ a' = splice a packet.i (encode m) := by
  have hlen : (encode m).length = 8 + (content m).length := by rw [encode, length_append, header_bytes_length]
  rw [hlen]
  have bare : ∀ {t : Nat} {m : Message Bytes} {b : Buffer Nat}, words m = (word32 t <<< 28, word32 0) → content m = [] →
      b = (do typ packet t; return 8) → b a = (.ok n, a') →
        n = 8 + (content m).length ∧ 4 ∣ packet.i ∧ a' = splice a packet.i (encode m) := by
    intro t m b hw hc hb h
    subst hb
    obtain ⟨u1, a1, h1, h⟩ := ok_run h
    obtain ⟨hd, hn, rfl⟩ := ok_typ hin h1
    cases h
    exact ⟨by rw [hc]; rfl, hd, by rw [encode, hw, hc, append_nil]⟩
  cases m with
  | hello remote B Y address => exact ok_writeKeys hin hm h
  | welcome remote B Y address => exact ok_writeKeys hin hm h
  | fail remote =>
    obtain ⟨rfl, hd, -, rfl⟩ := ok_writeBits hin h
    have he : encode (.fail remote) = Datagram.header.bytes 0 (bitsWords 1 remote) := append_nil _
    exact ⟨rfl, hd, by rw [he]⟩
  | data d =>
    obtain ⟨u1, a1, h1, h⟩ := ok_run h
    obtain ⟨hd, hn, rfl⟩ := ok_header hin h1
    cases h
    have he : encode (.data d) = Datagram.header.bytes 0 (words (.data d)) := append_nil _
    exact ⟨rfl, hd, by rw [he]; rfl⟩
  | forwardReq destination bytes => exact ok_forwardReq hin hm h
  | forwardAck => exact bare (t := 9) rfl rfl rfl h
  | icmpAck => exact bare (t := 10) rfl rfl rfl h
  | noState tail => exact ok_nostate hin h
  | corrupt => cases h

/-! ## Reading the layout -/

/-- With what follows a packet, a tail is longer. -/
def Message.extend (rest : Bytes) : Message Bytes → Message Bytes
  | .noState tail => .noState (tail ++ rest)
  | .forwardReq destination bytes => .forwardReq destination (bytes ++ rest)
  | m => m

/-- Keys of the length of the suite that the parser takes them to be of. -/
def SuiteKeys (remote : Bits) (B Y : Bytes) : Prop :=
  ∃ suite len, Suite.PublicKey.cheapest remote.publickey = .ok (some suite) ∧ publicLength suite = .ok len ∧
    B.length = len ∧ Y.length = len

/-- What the parser can tell of a packet; `seqs` are the numbers it tells others by. -/
def Fits (seqs : Int × Int) : Message Bytes → Prop
  | .hello remote B Y address => address.1.length = 4 ∧ SuiteKeys remote B Y
  | .welcome remote B Y address => address.1.length = 4 ∧ SuiteKeys remote B Y
  | .fail _ => True
  | .data d => d.acklen ≤ 15 ∧ (-2 ^ 27 ≤ d.tsn - seqs.1 ∧ d.tsn - seqs.1 < 2 ^ 27) ∧
      -2 ^ 27 ≤ d.asn - seqs.2 ∧ d.asn - seqs.2 < 2 ^ 27
  | .forwardReq destination bytes => destination.1.length = 4 ∧ 8 ≤ bytes.length
  | .forwardAck => True
  | .icmpAck => True
  | .noState tail => tail ≠ []
  | .corrupt => False

theorem Fits.dom {seqs : Int × Int} (h : Fits seqs m) : Dom m := by
  cases m with
  | hello _ _ _ _ => exact h.1
  | welcome _ _ _ _ => exact h.1
  | forwardReq _ _ => exact h.1
  | _ => trivial

/-! ## Where there is room, it is written -/

/-- A computation that returns `x`, and leaves an array of the same length. -/
def Returns {α : Type} (m : Buffer α) (a : Bytes) (x : α) : Prop := ∃ a', m a = (.ok x, a') ∧ a'.length = a.length

section

variable {α β : Type}

theorem returns_bind {m : Buffer α} {f : α → Buffer β} {x : α} {y : β} (hm : Returns m a x)
    (hf : ∀ a', a'.length = a.length → Returns (f x) a' y) : Returns (m >>= f) a y := by
  obtain ⟨a1, h1, hlen1⟩ := hm
  obtain ⟨a2, h2, hlen2⟩ := hf a1 hlen1
  exact ⟨a2, by rw [run_ok _ h1, h2], hlen2.trans hlen1⟩

theorem returns_writeSlice {s : Shape α} {x : α} (hl : s.Lawful) (hs : ∀ w ∈ s.words 0 0, w.Straight) (hx : s.Dom x)
    (hd : s.serial.align + 1 ∣ packet.i) (hn : s.serial.length ≤ packet.n) (hin : packet.i + packet.n ≤ a.length) :
    Returns (writeSlice s packet x) a () := by
  have hp := s.puts (Nat.dvd_zero _) hl (straight_at hs hd) hx
  have hroom : 0 + packet.i + (s.bytes 0 x).length ≤ a.length := by
    rw [hp.length]
    omega
  have hw : Util.Serial.writeSlice s.serial (packet.on a) x = .ok (splice a (0 + packet.i) (s.bytes 0 x)) := by
    unfold Util.Serial.writeSlice checkSlice
    rw [if_neg (fun h => h (and_align s.mask hd)),
      if_neg (show ¬ (packet.on a).n < s.serial.length from Nat.not_lt.mpr hn)]
    exact hp.write a hroom
  exact ⟨_, run_updating hw, length_splice hroom⟩

theorem returns_copyVec {src : Bytes} {p : Nat} (h : p + src.length ≤ a.length) : Returns (copyVec src p) a () := by
  exact ⟨splice a p src, run_updating (if_pos h), length_splice h⟩

theorem returns_notb (v : View) : Returns (notb v) a () := ⟨_, run_notb v a, notb_length v a⟩

theorem returns_pure (x : α) : Returns (pure x) a x := ⟨a, rfl, rfl⟩

end

theorem returns_header {w : BitVec 32 × BitVec 32} (hd : 4 ∣ packet.i) (hn : 8 ≤ packet.n)
    (hin : packet.i + packet.n ≤ a.length) : Returns (writeSlice header packet w) a () :=
  returns_writeSlice header_lawful header_straight (header_dom w) hd hn hin

theorem returns_address {v : View} {x : Forms.Address} (hx : x.1.length = 4) (hd : 2 ∣ v.i) (hv : v.n = addressLength)
    (hin : v.i + v.n ≤ a.length) : Returns (writeSlice Forms.address v x) a () :=
  returns_writeSlice address_lawful address_straight (address_dom hx) hd (Nat.le_of_eq hv.symm) hin

theorem returns_writeKeys {ty : Nat} {remote : Bits} {B Y : Bytes} {address : Forms.Address} (hx : address.1.length = 4)
    (hd : 4 ∣ packet.i) (h2 : 2 ∣ B.length + Y.length) (hn : 8 + (B ++ (Y ++ turned address)).length ≤ packet.n)
    (hin : packet.i + packet.n ≤ a.length) :
    Returns (writeKeys packet ty remote B Y address) a (8 + B.length + Y.length + addressLength) := by
  rw [length_append, length_append, turned_length hx] at hn
  refine returns_bind (returns_bind (returns_header hd (by omega) hin) fun _ _ => returns_pure 8) fun a1 h1 => ?_
  refine returns_bind (returns_copyVec (by omega)) fun a2 h2 => ?_
  refine returns_bind (returns_copyVec (by omega)) fun a3 h3 => ?_
  have hs : Returns (arraySlice (packet.i + 8 + B.length + Y.length) addressLength) a3
      ⟨packet.i + 8 + B.length + Y.length, addressLength⟩ := by
    refine ⟨a3, run_reading (if_pos (by omega)), rfl⟩
  refine returns_bind hs fun a4 h4 => ?_
  refine returns_bind (returns_address hx (by simp only; omega) rfl (by simp only; omega)) fun a5 _ => ?_
  exact returns_bind (returns_notb _) fun a6 _ => returns_pure _

theorem returns_forwardReq {destination : Forms.Address} {bytes : Bytes} (hx : destination.1.length = 4) (hd : 4 ∣ packet.i)
    (hn : 8 + (turned destination ++ bytes).length ≤ packet.n) (hin : packet.i + packet.n ≤ a.length) :
    Returns (forwardReq packet destination bytes) a (8 + addressLength + bytes.length) := by
  rw [length_append, turned_length hx] at hn
  refine returns_bind (returns_header hd (by omega) hin) fun a1 h1 => ?_
  have hs : Returns (.lift (packet.subslice 8 addressLength)) a1 ⟨packet.i + 8, addressLength⟩ := by
    refine ⟨a1, ?_, rfl⟩
    rw [View.subslice, if_pos (by omega)]
    rfl
  refine returns_bind hs fun a2 h2 => ?_
  refine returns_bind (returns_address hx (by simp only; omega) rfl (by simp only; omega)) fun a3 h3 => ?_
  refine returns_bind (returns_notb _) fun a4 h4 => ?_
  exact returns_bind (returns_copyVec (by omega)) fun a5 _ => returns_pure _

/-- Where a message fits, it is written. -/
theorem write_ok {seqs : Int × Int} (hd : 4 ∣ packet.i) (hn : (encode m).length ≤ packet.n)
    (hin : packet.i + packet.n ≤ a.length) (hf : Fits seqs m) : ∃ n a', write packet m a = (.ok n, a') := by
  rw [encode, length_append, header_bytes_length] at hn
  have bare : ∀ w, ∃ n a', (writeSlice header packet w >>= fun _ => pure 8) a = (.ok (n : Nat), a') := by
    intro w
    obtain ⟨a', h, -⟩ := returns_bind (f := fun _ => pure 8) (returns_header (w := w) hd (by omega) hin) fun _ _ => returns_pure 8
    exact ⟨8, a', h⟩
  have even : ∀ {remote : Bits} {B Y : Bytes}, SuiteKeys remote B Y → 2 ∣ B.length + Y.length := by
    intro remote B Y h
    obtain ⟨suite, len, -, -, hB, hY⟩ := h
    omega
  cases m with
  | hello remote B Y address =>
    have hrun : Returns (writeKeys packet 2 remote B Y address) a _ := returns_writeKeys hf.1 hd (even hf.2) hn hin
    obtain ⟨a', h, -⟩ := hrun
    exact ⟨_, a', h⟩
  | welcome remote B Y address =>
    have hrun : Returns (writeKeys packet 3 remote B Y address) a _ := returns_writeKeys hf.1 hd (even hf.2) hn hin
    obtain ⟨a', h, -⟩ := hrun
    exact ⟨_, a', h⟩
  | fail remote => exact bare _
  | data d => exact bare _
  | forwardReq destination bytes =>
    obtain ⟨a', h, -⟩ := returns_forwardReq hf.1 hd hn hin
    exact ⟨_, a', h⟩
  | forwardAck => exact bare _
  | icmpAck => exact bare _
  | noState tail =>
    have hcopy : ∀ a', a'.length = a.length → Returns (copyVec tail (packet.i + 8)) a' () := by
      intro a' h
      refine returns_copyVec ?_
      have : (content (.noState tail)).length = tail.length := rfl
      omega
    have hrun : Returns (nostate packet tail) a (tail.length + 8) := by
      refine returns_bind (returns_header hd (by omega) hin) fun a1 h1 => ?_
      exact returns_bind (hcopy a1 h1) fun _ _ => returns_pure _
    obtain ⟨a', h, -⟩ := hrun
    exact ⟨_, a', h⟩
  | corrupt => exact hf.elim

/-! ## What is read of the layout -/

theorem bitsWords_fst {ty : Nat} (hty : ty = 1 ∨ ty = 2 ∨ ty = 3) (b : Bits) :
    (bitsWords ty b).1.toNat / 2 ^ 28 = ty ∧ ((bitsWords ty b).1 &&& 1 ≠ 0 ↔ b.resume = true) ∧
      ((bitsWords ty b).1 &&& 2 ≠ 0 ↔ b.noEncrypt = true) := by
  unfold bitsWords
  rcases hty with rfl | rfl | rfl
  all_goals
    dsimp only
    cases b.resume <;> cases b.noEncrypt
    all_goals decide

theorem bits_words {ty : Nat} (hty : ty = 1 ∨ ty = 2 ∨ ty = 3) (b : Bits) :
    bits (bitsWords ty b).1 (bitsWords ty b).2 = b := by
  obtain ⟨-, hr, hn⟩ := bitsWords_fst hty b
  have hpk := b.publickey.toNat_lt
  have hsy := b.symmetric.toNat_lt
  have hw : (bitsWords ty b).2.toNat = b.publickey.toNat * 2 ^ 16 + b.symmetric.toNat := by
    simp only [bitsWords, word32, BitVec.toNat_or, BitVec.toNat_shiftLeft, BitVec.toNat_ofNat]
    rw [Nat.mod_eq_of_lt (show b.publickey.toNat < 2 ^ 32 by omega), Nat.mod_eq_of_lt (show b.symmetric.toNat < 2 ^ 32 by omega),
      Nat.mod_eq_of_lt (by rw [Nat.shiftLeft_eq]; omega), ← Nat.shiftLeft_add_eq_or_of_lt (by omega), Nat.shiftLeft_eq]
  have hfst : UInt16.ofNat ((bitsWords ty b).2.toNat / 2 ^ 16) = b.publickey := by
    rw [hw, show (b.publickey.toNat * 2 ^ 16 + b.symmetric.toNat) / 2 ^ 16 = b.publickey.toNat by omega]
    exact UInt16.ofNat_toNat
  have hsnd : UInt16.ofNat (bitsWords ty b).2.toNat = b.symmetric := by
    apply UInt16.toNat_inj.mp
    rw [hw, UInt16.toNat_ofNat']
    omega
  simp only [bits, hfst, hsnd, hr, hn, Bool.decide_eq_true]

/-- The tag in the header. -/
def tag : Message Bytes → Nat
  | .noState _ => 0
  | .fail _ => 1
  | .hello _ _ _ _ => 2
  | .welcome _ _ _ _ => 3
  | .data d => if d.finish then 7 else 6
  | .forwardReq _ _ => 8
  | .forwardAck => 9
  | .icmpAck => 10
  | .corrupt => 0

theorem write_lt (d : DATA) : (PacketFormat.write d).1 < 2 ^ 32 ∧ (PacketFormat.write d).2 < 2 ^ 32 := by
  simp only [PacketFormat.write]
  split
  all_goals omega

theorem word32_toNat {x : Nat} (h : x < 2 ^ 32) : (word32 x).toNat = x := by
  rw [word32, BitVec.toNat_ofNat]
  exact Nat.mod_eq_of_lt h

theorem words_tag (m : Message Bytes) : (words m).1.toNat / 2 ^ 28 = tag m := by
  cases m with
  | fail remote => exact (bitsWords_fst (.inl rfl) remote).1
  | hello remote _ _ _ => exact (bitsWords_fst (.inr (.inl rfl)) remote).1
  | welcome remote _ _ _ => exact (bitsWords_fst (.inr (.inr rfl)) remote).1
  | data d =>
    show (word32 (PacketFormat.write d).1).toNat / 2 ^ 28 = _
    rw [word32_toNat (write_lt d).1]
    exact (PacketFormat.write_fst d).1
  | forwardReq _ _ => exact (by decide : (word32 8 <<< 28).toNat / 2 ^ 28 = 8)
  | forwardAck => exact (by decide : (word32 9 <<< 28).toNat / 2 ^ 28 = 9)
  | icmpAck => exact (by decide : (word32 10 <<< 28).toNat / 2 ^ 28 = 10)
  | noState _ => exact (by decide : (word32 0 <<< 28).toNat / 2 ^ 28 = 0)
  | corrupt => exact (by decide : (word32 0).toNat / 2 ^ 28 = 0)

section

variable {b : Bytes} {k : Nat} {seqs : Int × Int}

theorem sub_ok {v : View} {i n : Nat} (h : i + n ≤ v.n) : v.subslice i n = .ok ⟨v.i + i, n⟩ := if_pos h

/-- The parser takes the address as it was before it was turned round. -/
theorem address_read {v : View} {x : Forms.Address} (hx : x.1.length = 4) (hv : v.n = addressLength) (h2 : 2 ∣ v.i)
    (hb : holds b v.i (turned x)) (hin : v.i + v.n ≤ b.length) :
    parseSlice Forms.address v (v.notb b) = (.ok x, v.notb b) := by
  have hlen := turned_length hx
  have hback : (turned x).map (~~~ ·) = Forms.address.bytes 0 x := by
    simp [turned, List.map_map, Function.comp_def]
  have hh := holds_notb hb (by rw [hlen, ← hv]; exact hin)
  rw [hback, hlen, ← hv] at hh
  exact parseSlice_holds address_lawful address_straight (address_dom hx) h2 (by rw [hv]; exact Nat.le_refl _) hh

/-- The keys are where the writer put them, and the buffer is given back. -/
theorem keys_encode {w : BitVec 32 × BitVec 32} {remote : Bits} {B Y : Bytes} {address : Forms.Address}
    (mk : Bits → View → View → Forms.Address → Message View) (hx : address.1.length = 4) (hs : SuiteKeys remote B Y)
    (hd : 4 ∣ packet.i) (hn : packet.n = 8 + (B ++ (Y ++ turned address)).length + k) (hin : packet.i + packet.n ≤ b.length)
    (hb : holds b packet.i (Datagram.header.bytes 0 w ++ (B ++ (Y ++ turned address)))) :
    keys packet remote mk b =
      (.ok (mk remote ⟨packet.i + 8, B.length⟩ ⟨packet.i + (8 + B.length), Y.length⟩ address), b) ∧
      holds b (packet.i + 8) B ∧ holds b (packet.i + (8 + B.length)) Y := by
  obtain ⟨suite, len, hc, hp, hB, hY⟩ := hs
  have hlen := turned_length hx
  rw [length_append, length_append, hlen] at hn
  obtain ⟨-, hb⟩ := holds_append.mp hb
  rw [header_bytes_length] at hb
  obtain ⟨hb1, hb⟩ := holds_append.mp hb
  obtain ⟨hb2, hb3⟩ := holds_append.mp hb
  have hlen2 : len = 32 := publicLength_ok hp
  subst hlen2
  rw [hB, hY] at hn
  have h1 : lift (do valOf (← Suite.PublicKey.cheapest remote.publickey)) b = (.ok suite, b) := by
    rw [hc]
    rfl
  have h2 : lift (publicLength suite) b = (.ok 32, b) := by rw [hp]; rfl
  have h3 : lift (packet.subslice 8 32) b = (.ok ⟨packet.i + 8, 32⟩, b) := by
    rw [sub_ok (by omega)]
    rfl
  have h4 : lift (packet.subslice (8 + 32) 32) b = (.ok ⟨packet.i + (8 + 32), 32⟩, b) := by
    rw [sub_ok (by omega)]
    rfl
  have h5 : lift (packet.subslice (8 + 32 + 32) addressLength) b = (.ok ⟨packet.i + (8 + 32 + 32), addressLength⟩, b) := by
    rw [sub_ok (by omega)]
    rfl
  rw [hB, hY] at hb3
  have ha := address_read (v := ⟨packet.i + (8 + 32 + 32), addressLength⟩) hx rfl (by simp only; omega) hb3 (by simp only; omega)
  have hback : notb ⟨packet.i + (8 + 32 + 32), addressLength⟩ (View.notb ⟨packet.i + (8 + 32 + 32), addressLength⟩ b) =
      (.ok (), b) := by
    rw [run_notb, notb_twice]
  rw [hB] at hb2
  rw [hB, hY]
  refine ⟨?_, hb1, hb2⟩
  unfold keys
  rw [run_ok _ h1, run_ok _ h2, run_ok _ h3, run_ok _ h4, run_ok _ h5, run_ok _ (run_notb _ _), run_ok _ ha, run_ok _ hback]
  rfl

/-- A tail, with what follows it. -/
theorem vector_holds {p : Nat} {v : Bytes} (h : holds b p v) :
    View.vector ⟨p, v.length + k⟩ b = v ++ (b.drop (p + v.length)).take k := by
  rw [View.vector, List.take_add, h, List.drop_drop]

theorem tail_encode {w : BitVec 32 × BitVec 32} {v : Bytes} (hv : v ≠ []) (hn : packet.n = 8 + v.length + k)
    (hb : holds b packet.i (Datagram.header.bytes 0 w ++ v)) :
    tail packet b = (.ok (.noState (v ++ (b.drop (packet.i + (8 + v.length))).take k)), b) := by
  obtain ⟨-, hb⟩ := holds_append.mp hb
  rw [header_bytes_length] at hb
  have h1 : lift (packet.subsliceFrom 8) b = (.ok ⟨packet.i + 8, v.length + k⟩, b) := by
    rw [View.subsliceFrom, if_pos (by omega), show packet.n - 8 = v.length + k by omega]
    rfl
  have h2 : reading (fun a => .ok (View.vector ⟨packet.i + 8, v.length + k⟩ a)) b =
      (.ok (v ++ (b.drop (packet.i + 8 + v.length)).take k), b) := run_reading (congrArg Except.ok (vector_holds hb))
  unfold tail
  rw [run_ok _ h1, run_ok _ h2]
  have hne : ¬ (v ++ (b.drop (packet.i + 8 + v.length)).take k).length = 0 := by
    rw [length_append]
    have := List.length_pos_iff.mpr hv
    omega
  rw [if_neg hne, Nat.add_assoc]
  rfl

theorem forward_encode {w : BitVec 32 × BitVec 32} {destination : Forms.Address} {v : Bytes} (hx : destination.1.length = 4)
    (hv : 8 ≤ v.length) (hd : 4 ∣ packet.i) (hn : packet.n = 8 + (turned destination ++ v).length + k)
    (hin : packet.i + packet.n ≤ b.length) (hb : holds b packet.i (Datagram.header.bytes 0 w ++ (turned destination ++ v))) :
    ∃ b', forward packet b =
      (.ok (.forwardReq destination (v ++ (b.drop (packet.i + (8 + (turned destination ++ v).length))).take k)), b') := by
  have hlen := turned_length hx
  rw [length_append, hlen] at hn ⊢
  obtain ⟨-, hb⟩ := holds_append.mp hb
  rw [header_bytes_length] at hb
  obtain ⟨hb1, hb2⟩ := holds_append.mp hb
  rw [hlen] at hb2
  have h1 : lift (packet.subslice 8 addressLength) b = (.ok ⟨packet.i + 8, addressLength⟩, b) := by
    rw [sub_ok (by omega)]
    rfl
  have ha := address_read (v := ⟨packet.i + 8, addressLength⟩) hx rfl (by simp only; omega) hb1 (by simp only; omega)
  have hrest : lift (packet.subsliceFrom (8 + addressLength)) (View.notb ⟨packet.i + 8, addressLength⟩ b) =
      (.ok ⟨packet.i + (8 + addressLength), v.length + k⟩, View.notb ⟨packet.i + 8, addressLength⟩ b) := by
    rw [View.subsliceFrom, if_pos (by omega), show packet.n - (8 + addressLength) = v.length + k by omega]
    rfl
  have hdrop : (View.notb ⟨packet.i + 8, addressLength⟩ b).drop (packet.i + (8 + addressLength)) =
      b.drop (packet.i + (8 + addressLength)) := by
    rw [← Nat.add_assoc]
    exact notb_drop ⟨packet.i + 8, addressLength⟩ b (show packet.i + 8 + addressLength ≤ b.length by omega)
  have hvector : View.vector ⟨packet.i + (8 + addressLength), v.length + k⟩ (View.notb ⟨packet.i + 8, addressLength⟩ b) =
      v ++ (b.drop (packet.i + (8 + (addressLength + v.length)))).take k := by
    rw [Nat.add_assoc] at hb2
    have h := vector_holds (k := k) hb2
    rw [View.vector] at h ⊢
    dsimp only at h ⊢
    rw [hdrop, h, Nat.add_assoc, Nat.add_assoc]
  have hout : reading (fun a => .ok (View.vector ⟨packet.i + (8 + addressLength), v.length + k⟩ a))
      (View.notb ⟨packet.i + 8, addressLength⟩ b) = (.ok _, _) := run_reading (congrArg Except.ok hvector)
  refine ⟨View.notb ⟨packet.i + 8, addressLength⟩ b, ?_⟩
  unfold forward
  rw [run_ok _ h1, run_ok _ (run_notb _ _), run_ok _ ha, run_ok _ hrest, run_ok _ hout]
  have hge : ¬ (v ++ (b.drop (packet.i + (8 + (addressLength + v.length)))).take k).length < 8 := by
    rw [length_append]
    omega
  rw [if_neg hge]
  rfl

theorem parseTag_data {w1 w2 : BitVec 32} {d : DATA} (h : w1.toNat / 2 ^ 28 = 6 ∨ w1.toNat / 2 ^ 28 = 7)
    (hp : PacketFormat.parse (w1.toNat, w2.toNat) seqs = .data d) : parseTag packet seqs w1 w2 b = (.ok (.data d), b) := by
  unfold parseTag
  rcases h with h | h
  all_goals
    rw [h]
    simp only [hp]
    rfl

theorem data_encode {d : DATA} (h : Fits seqs (.data d)) :
    parseTag packet seqs (words (.data d)).1 (words (.data d)).2 b = (.ok (.data d), b) := by
  obtain ⟨hack, ht, hasn⟩ := h
  have hw : ((words (.data d)).1.toNat, (words (.data d)).2.toNat) = PacketFormat.write d :=
    Prod.ext (word32_toNat (write_lt d).1) (word32_toNat (write_lt d).2)
  have hp := PacketFormat.parse_write d seqs.1 seqs.2
  rw [Nat.min_eq_left hack, (PacketFormat.word28X_iff seqs.2 d.asn _ (PacketFormat.write_snd d).2).mpr hasn,
    (PacketFormat.word28X_iff seqs.1 d.tsn _ (PacketFormat.write_fst d).2).mpr ht] at hp
  have htag : (words (.data d)).1.toNat / 2 ^ 28 = if d.finish then 7 else 6 := words_tag (.data d)
  refine parseTag_data ?_ (by rw [hw]; exact hp)
  rw [htag]
  cases d.finish with
  | false => exact .inl rfl
  | true => exact .inr rfl

theorem header_encode (hd : 4 ∣ packet.i) (hn : 8 ≤ packet.n) (hb : holds b packet.i (encode m)) :
    parseWords packet seqs b = parseTag packet seqs (words m).1 (words m).2 b := by
  have hp : parseSlice header packet b = (.ok (words m), b) :=
    parseSlice_holds header_lawful header_straight (header_dom _) hd hn (holds_append.mp hb).1
  unfold parseWords
  rw [run_ok _ hp]

theorem parse_ok {x : Message View} {b' : Bytes} (h : parseWords packet seqs b = (.ok x, b')) :
    parse packet seqs b = (.ok x, b') := by
  unfold parse
  rw [h]

/-- The parser follows the layout. -/
theorem parse_encode (hd : 4 ∣ packet.i) (hn : packet.n = (encode m).length + k) (hin : packet.i + packet.n ≤ b.length)
    (hb : holds b packet.i (encode m)) (hf : Fits seqs m) :
    ∃ x b', parse packet seqs b = (.ok x, b') ∧
      x.map (fun v => v.vector b') = m.extend ((b.drop (packet.i + (encode m).length)).take k) := by
  have hlen : (encode m).length = 8 + (content m).length := by rw [encode, length_append, header_bytes_length]
  rw [hlen] at hn ⊢
  have htag := words_tag m
  have hw : parseWords packet seqs b = parseTag packet seqs (words m).1 (words m).2 b := header_encode hd (by omega) hb
  have keys_ok : ∀ {ty : Nat} {remote : Bits} {B Y : Bytes} {address : Forms.Address}
      (mk : Bits → View → View → Forms.Address → Message View),
      ty = 1 ∨ ty = 2 ∨ ty = 3 → words m = bitsWords ty remote → content m = B ++ (Y ++ turned address) →
      parseTag packet seqs (words m).1 (words m).2 b = keys packet (bits (words m).1 (words m).2) mk b →
      address.1.length = 4 → SuiteKeys remote B Y →
      ∃ b', parse packet seqs b = (.ok (mk remote ⟨packet.i + 8, B.length⟩ ⟨packet.i + (8 + B.length), Y.length⟩ address), b') ∧
        View.vector ⟨packet.i + 8, B.length⟩ b' = B ∧ View.vector ⟨packet.i + (8 + B.length), Y.length⟩ b' = Y := by
    intro ty remote B Y address mk hty hwords hc hp hx hs
    have hb' := hb
    rw [encode, hwords, hc] at hb'
    rw [hc] at hn
    obtain ⟨hk, hB, hY⟩ := keys_encode mk hx hs hd hn hin hb'
    rw [hp, hwords, bits_words hty, hk] at hw
    exact ⟨b, parse_ok hw, hB, hY⟩
  cases m with
  | hello remote B Y address =>
    obtain ⟨b', hp, hB, hY⟩ := keys_ok .hello (.inr (.inl rfl)) rfl rfl
      (by unfold parseTag; rw [htag]; rfl) hf.1 hf.2
    exact ⟨_, b', hp, by rw [Message.map, hB, hY]; rfl⟩
  | welcome remote B Y address =>
    obtain ⟨b', hp, hB, hY⟩ := keys_ok .welcome (.inr (.inr rfl)) rfl rfl
      (by unfold parseTag; rw [htag]; rfl) hf.1 hf.2
    exact ⟨_, b', hp, by rw [Message.map, hB, hY]; rfl⟩
  | fail remote =>
    have hp : parseWords packet seqs b = (.ok (.fail (bits (bitsWords 1 remote).1 (bitsWords 1 remote).2)), b) := by
      rw [hw]
      unfold parseTag
      rw [htag]
      rfl
    rw [bits_words (.inl rfl)] at hp
    exact ⟨_, b, parse_ok hp, rfl⟩
  | data d => exact ⟨_, b, parse_ok (hw.trans (data_encode hf)), rfl⟩
  | forwardReq destination bytes =>
    obtain ⟨b', hp⟩ := forward_encode hf.1 hf.2 hd hn hin hb
    have hp' : parseWords packet seqs b = forward packet b := by
      rw [hw]
      unfold parseTag
      rw [htag]
      rfl
    exact ⟨_, b', parse_ok (hp'.trans hp), rfl⟩
  | forwardAck =>
    have hp : parseWords packet seqs b = (.ok .forwardAck, b) := by
      rw [hw]
      unfold parseTag
      rw [htag]
      rfl
    exact ⟨_, b, parse_ok hp, rfl⟩
  | icmpAck =>
    have hp : parseWords packet seqs b = (.ok .icmpAck, b) := by
      rw [hw]
      unfold parseTag
      rw [htag]
      rfl
    exact ⟨_, b, parse_ok hp, rfl⟩
  | noState tail =>
    have hp : parseWords packet seqs b = Packet.tail packet b := by
      rw [hw]
      unfold parseTag
      rw [htag]
      rfl
    exact ⟨_, b, parse_ok (hp.trans (tail_encode hf hn hb)), rfl⟩
  | corrupt => exact hf.elim

end

/-! ## The buffer is given back -/

section

variable {α β : Type} {seqs : Int × Int}

/-- A computation that leaves the array as it is. -/
def Keeps (a : Bytes) (m : Buffer α) : Prop := (m a).2 = a

theorem keeps_bind {m : Buffer α} {f : α → Buffer β} (hm : Keeps a m) (hf : ∀ x, m a = (.ok x, a) → Keeps a (f x)) :
    Keeps a (m >>= f) := by
  unfold Keeps at hm ⊢
  rw [run_bind, Buffer.bind]
  split
  · rename_i x b h
    have hb : b = a := by rw [← hm, h]
    subst hb
    exact hf x h
  · rename_i e b h
    rw [← hm, h]

/-- A slice that was read is aligned, and long enough. -/
theorem parseSlice_aligned {s : Shape α} {v : View} {x : α} (h : parseSlice s v a = (.ok x, a')) :
    s.serial.align + 1 ∣ v.i ∧ s.serial.length ≤ v.n := by
  have hr : Util.Serial.parseSlice s.serial (v.on a) = .ok x := congrArg Prod.fst h
  unfold Util.Serial.parseSlice checkSlice at hr
  split at hr
  · cases hr
  · rename_i halign
    split at hr
    · cases hr
    · rename_i hn
      exact ⟨dvd_of_and s (not_not.mp halign), Nat.not_lt.mp hn⟩

/-- Whatever an address holds, its bytes are turned round twice. -/
theorem keys_kept (remote : Bits) (mk : Bits → View → View → Forms.Address → Message View) (hd : 4 ∣ packet.i)
    (hin : packet.i + packet.n ≤ a.length) : Keeps a (keys packet remote mk) := by
  unfold keys
  refine keeps_bind rfl fun suite _ => keeps_bind rfl fun len hlen => ?_
  have hl : len = 32 := publicLength_ok (congrArg Prod.fst hlen)
  subst hl
  refine keeps_bind rfl fun B _ => keeps_bind rfl fun Y _ => keeps_bind rfl fun slice hs => ?_
  obtain ⟨hfit, rfl⟩ := ok_subslice (congrArg Prod.fst hs)
  have hroom : (View.on ⟨packet.i + (8 + 32 + 32), addressLength⟩
      (View.notb ⟨packet.i + (8 + 32 + 32), addressLength⟩ a)).In := by
    show packet.i + (8 + 32 + 32) + addressLength ≤ (View.notb ⟨packet.i + (8 + 32 + 32), addressLength⟩ a).length
    rw [notb_length]
    omega
  have heven : 2 ∣ packet.i + (8 + 32 + 32) := by omega
  obtain ⟨x, hx⟩ := (parseSlice_iff Forms.address hroom heven).mpr (Nat.le_refl _)
  have hp : parseSlice Forms.address ⟨packet.i + (8 + 32 + 32), addressLength⟩
      (View.notb ⟨packet.i + (8 + 32 + 32), addressLength⟩ a) = (.ok x, _) := run_reading hx
  unfold Keeps
  rw [run_ok _ (run_notb _ _), run_ok _ hp, run_ok _ (run_notb _ _), notb_twice]
  rfl

theorem tail_kept : Keeps a (tail packet) := by
  unfold tail
  exact keeps_bind rfl fun _ _ => keeps_bind rfl fun _ _ => rfl

theorem parseTag_kept {w1 w2 : BitVec 32} (h : w1.toNat / 2 ^ 28 ≠ 8) (hd : 4 ∣ packet.i)
    (hin : packet.i + packet.n ≤ a.length) : Keeps a (parseTag packet seqs w1 w2) := by
  unfold parseTag
  split
  · exact tail_kept
  · rfl
  · exact keys_kept _ _ hd hin
  · exact keys_kept _ _ hd hin
  · exact absurd ‹_› h
  · rfl
  · rfl
  · split
    · rfl
    · rfl

theorem forward_read {x : Message View} (h : forward packet a = (.ok x, a')) :
    ∃ destination bytes, x = .forwardReq destination bytes := by
  obtain ⟨v, a1, -, h⟩ := ok_run h
  obtain ⟨u, a2, -, h⟩ := ok_run h
  obtain ⟨destination, a3, -, h⟩ := ok_run h
  obtain ⟨rest, a4, -, h⟩ := ok_run h
  obtain ⟨bytes, a5, -, h⟩ := ok_run h
  obtain ⟨h, -⟩ := ok_lift h
  split at h
  · cases h
  · exact ⟨destination, bytes, (Except.ok.inj h).symm⟩

theorem parseWords_kept (hin : packet.i + packet.n ≤ a.length)
    (h : ∀ w, parseSlice header packet a = (.ok w, a) → w.1.toNat / 2 ^ 28 ≠ 8) :
    Keeps a (parseWords packet seqs) := by
  unfold parseWords
  refine keeps_bind rfl fun w hw => ?_
  exact parseTag_kept (h w hw) (parseSlice_aligned hw).1 hin

/-- The buffer is changed by a FORWARD request only. -/
theorem parse_kept {x : Message View} (hin : packet.i + packet.n ≤ a.length) (hp : parse packet seqs a = (.ok x, a'))
    (hne : a' ≠ a) : ∃ w, parseSlice header packet a = (.ok w, a) ∧ w.1.toNat / 2 ^ 28 = 8 ∧
      (x = .corrupt ∨ ∃ destination bytes, x = .forwardReq destination bytes) := by
  have hres : (parseWords packet seqs a = (.ok x, a') ∨ x = .corrupt) ∧ (parseWords packet seqs a).2 = a' := by
    unfold parse at hp
    split at hp
    · rename_i y c hw
      cases hp
      exact ⟨.inl hw, by rw [hw]⟩
    · rename_i e c hw
      cases hp
      exact ⟨.inr rfl, by rw [hw]⟩
  obtain ⟨hres, ha⟩ := hres
  have htag : ¬ ∀ w, parseSlice header packet a = (.ok w, a) → w.1.toNat / 2 ^ 28 ≠ 8 := by
    intro h
    exact hne (ha.symm.trans (parseWords_kept hin h))
  simp only [not_forall, not_not] at htag
  obtain ⟨w, hw, ht⟩ := htag
  refine ⟨w, hw, ht, ?_⟩
  rcases hres with h | h
  · unfold parseWords at h
    rw [run_ok _ hw] at h
    have hf : parseTag packet seqs w.1 w.2 = forward packet := by
      unfold parseTag
      rw [ht]
      rfl
    exact .inr (forward_read ((congrFun hf a).symm.trans h))
  · exact .inl h

/-- Every packet is read, if only as CORRUPT. -/
theorem parse_total (packet : View) (seqs : Int × Int) (a : Bytes) : ∃ x a', parse packet seqs a = (.ok x, a') := by
  unfold parse
  split
  · rename_i x a' h
    exact ⟨x, a', rfl⟩
  · exact ⟨.corrupt, _, rfl⟩

end

/-! ## The format -/

/-- What fits is written, and parsed as it was wherever it arrives; every packet is
    parsed; and the buffer is changed by a FORWARD request only. -/
theorem packet_format (seqs : Int × Int) :
    (∀ (m : Message Bytes) (packet : View) (a : Bytes), Fits seqs m → packet.i + packet.n ≤ a.length →
      (4 ∣ packet.i → (encode m).length ≤ packet.n → ∃ n a', write packet m a = (.ok n, a')) ∧
      ∀ n a', write packet m a = (.ok n, a') →
        ∀ (v : View) (b : Bytes), 4 ∣ v.i → v.i + v.n ≤ b.length → n ≤ v.n →
          (b.drop v.i).take n = (a'.drop packet.i).take n →
          ∃ x b', parse v seqs b = (.ok x, b') ∧ x.map (fun w => w.vector b') = m.extend ((b.drop (v.i + n)).take (v.n - n))) ∧
    (∀ (v : View) (b : Bytes), ∃ x b', parse v seqs b = (.ok x, b')) ∧
    ∀ (v : View) (b : Bytes), v.i + v.n ≤ b.length → ∀ x b', parse v seqs b = (.ok x, b') → b' ≠ b →
      ∃ w, parseSlice header v b = (.ok w, b) ∧ w.1.toNat / 2 ^ 28 = 8 ∧
        (x = .corrupt ∨ ∃ destination bytes, x = .forwardReq destination bytes) := by
  refine ⟨?_, fun v b => parse_total v seqs b, fun v b hin x b' hp hne => parse_kept hin hp hne⟩
  intro m packet a hf hin
  refine ⟨fun hd hn => write_ok hd hn hin hf, ?_⟩
  intro n a' hw v b hd hvin hn hb
  obtain ⟨rfl, hpd, rfl⟩ := write_encode hin hf.dom hw
  have hp : (a.take packet.i).length = packet.i := List.length_take_of_le (by omega)
  have hholds : holds b v.i (encode m) := by
    unfold holds
    rw [hb, splice, append_assoc, drop_left' hp, take_left' rfl]
  exact parse_encode hd (by omega) hvin hholds hf

/-- A DATA header whose numbers are in different turns of the 28 bits, and a byte behind
    it. -/
theorem packet_format_data : (parse ⟨0, 9⟩ (2 ^ 28, 2 ^ 28) ([127, 255, 255, 255, 48, 0, 0, 5] ++ [7])).1 =
    .ok (.data { acklen := 3, finish := true, asn := 2 ^ 28 + 5, tsn := 2 ^ 28 - 1 }) := by
  have hw : write ⟨0, 8⟩ (.data { acklen := 3, finish := true, asn := 2 ^ 28 + 5, tsn := 2 ^ 28 - 1 }) (replicate 8 0) =
      (.ok 8, [127, 255, 255, 255, 48, 0, 0, 5]) := rfl
  have hf : Fits (2 ^ 28, 2 ^ 28) (.data { acklen := 3, finish := true, asn := 2 ^ 28 + 5, tsn := 2 ^ 28 - 1 }) := by
    unfold Fits
    decide
  obtain ⟨x, b', hp, hx⟩ := ((packet_format (2 ^ 28, 2 ^ 28)).1 _ ⟨0, 8⟩ (replicate 8 0) hf (by decide)).2 8 _ hw ⟨0, 9⟩
    ([127, 255, 255, 255, 48, 0, 0, 5] ++ [7]) (Nat.dvd_zero 4) (by decide) (by decide) rfl
  rw [hp]
  cases x with
  | data d =>
    cases hx
    rfl
  | _ => cases hx

/-- Without a tail a NOSTATE is refused, as is a FORWARD request without a HELLO. -/
theorem refused_tails :
    (∃ a', write ⟨0, 8⟩ (.noState []) (replicate 8 0) = (.ok 8, a') ∧ parse ⟨0, 8⟩ (0, 0) a' = (.ok .corrupt, a')) ∧
    ∃ a' b', write ⟨0, 14⟩ (.forwardReq ([127, 0, 0, 1], 80) []) (replicate 14 0) = (.ok 14, a') ∧
      parse ⟨0, 14⟩ (0, 0) a' = (.ok .corrupt, b') :=
  ⟨⟨_, rfl, rfl⟩, _, _, rfl, rfl⟩

end BubbleStorm.Cusp.Channel.Packet
