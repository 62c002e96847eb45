/-
  BubbleStorm.Cusp.Stream.Pair — one stream: an OutStreamQueue, an InStreamQueue and the
  segments between them.

  A pulled segment stays in the network for good: it may be delivered any number of
  times, in any order, or never. Its acknowledgement callback runs at most once.
  `Reach P` are the states of the runs whose every step meets `P`: each result names
  what it asks of the transport and of the callers there.
-/

import BubbleStorm.Cusp.Stream.InStreamQueue
import BubbleStorm.Cusp.Stream.OutStreamQueue

namespace BubbleStorm.Cusp.Stream.Pair

open InStreamQueue (ack amRTS exec new pull recvDATA)
open OutStreamQueue (ack amRTS dataSegment exec lens makeProgress new payload pull pullOffset recv)
open PacketFormat (Segment Reader Writer)

/-- A segment as the host puts it into a packet: the header and what the queue wrote. -/
def wire (msg : Segment) (body : Bytes) : Slice :=
  match PacketFormat.write msg with
  | .ok header => ⟨0, header ++ body⟩
  | .error _ => ⟨0, []⟩

/-- A segment the sender pulled; `offset` is the position its data starts at. -/
structure Copy where
  pulled : OutStreamQueue.Pulled
  offset : Int
  /-- Its acknowledgement callback has not run. -/
  pending : Bool
  /-- The receiver's `recv` took it. -/
  accepted : Bool
  deriving DecidableEq, Repr

namespace Copy

def segments (c : Copy) : List OutStreamQueue.Seg :=
  match c.pulled.ack with
  | .data segments _ => segments
  | .reset => []

def eof (c : Copy) : Bool :=
  match c.pulled.ack with
  | .data _ eof => eof
  | .reset => false

def stop (c : Copy) : Int := c.offset + lens c.segments

end Copy

/-- A segment the receiver pulled. -/
structure Update where
  pulled : InStreamQueue.Pulled
  pending : Bool
  delivered : Bool
  deriving DecidableEq, Repr

structure St where
  snd : OutStreamQueue.T
  rcv : InStreamQueue.T
  copies : List Copy
  updates : List Update
  deriving DecidableEq, Repr

inductive Ev where
  | write (op : OutStreamQueue.Op)
  | pull (room : Nat) (react : List (List OutStreamQueue.Op))
  | ack (i : Nat) (ok : Bool)
  | deliver (i : Nat) (react : List InStreamQueue.Op)
  | read (op : InStreamQueue.Op)
  | announce
  | announced (j : Nat) (ok : Bool)
  | update (j : Nat)
  deriving DecidableEq, Repr

/-- The id the hosts gave the stream. -/
def streamId : Nat := 0

def start : St := ⟨new, new streamId, [], []⟩

/-- A pulled segment reaches the receiving queue. -/
def deliver (s : St) (c : Copy) (react : List InStreamQueue.Op) : InStreamQueue.T × Bool :=
  let data := wire c.pulled.msg c.pulled.body
  match PacketFormat.parse data with
  | .ok (.reader x _) =>
    match InStreamQueue.recv s.rcv data x react with
    | .ok (rcv, n) => (rcv, n ≠ -1)
    | .error _ => (s.rcv, false)
  | _ => (s.rcv, false)

/-- A pulled segment reaches the sending queue. -/
def update (s : St) (u : Update) : OutStreamQueue.T :=
  let data := wire u.pulled.msg u.pulled.body
  match PacketFormat.parse data with
  | .ok (.writer x _ _) =>
    match recv s.snd data x with
    | .ok (snd, _) => snd
    | .error _ => s.snd
  | _ => s.snd

def step (s : St) : Ev → St
  | .write op => { s with snd := exec s.snd op }
  | .pull room react =>
    let (pulled, snd) := pull s.snd streamId room react
    { s with snd := snd, copies := s.copies ++ [⟨pulled, pullOffset s.snd, true, false⟩] }
  | .ack i ok =>
    match s.copies[i]? with
    | some c =>
      if c.pending then
        { s with snd := ack s.snd c.pulled.ack ok, copies := s.copies.set i { c with pending := false } }
      else s
    | none => s
  | .deliver i react =>
    match s.copies[i]? with
    | some c =>
      let (rcv, ok) := deliver s c react
      { s with rcv := rcv, copies := s.copies.set i { c with accepted := c.accepted || ok } }
    | none => s
  | .read op => { s with rcv := exec s.rcv op }
  | .announce =>
    match pull s.rcv streamId 0 with
    | .ok (pulled, rcv) => { s with rcv := rcv, updates := s.updates ++ [⟨pulled, true, false⟩] }
    | .error _ => s
  | .announced j ok =>
    match s.updates[j]? with
    | some u =>
      if u.pending then
        { s with rcv := ack s.rcv u.pulled.ack ok, updates := s.updates.set j { u with pending := false } }
      else s
    | none => s
  | .update j =>
    match s.updates[j]? with
    | some u => { s with snd := update s u, updates := s.updates.set j { u with delivered := true } }
    | none => s

inductive Reach (P : St → Ev → Prop) : St → Prop
  | start : Reach P start
  | step {s : St} (e : Ev) : Reach P s → P s e → Reach P (step s e)

theorem Reach.mono {P Q : St → Ev → Prop} (h : ∀ s e, P s e → Q s e) {s : St} (hs : Reach P s) : Reach Q s := by
  induction hs with
  | start => exact .start
  | step e _ he ih => exact .step e ih (h _ e he)

def run (s : St) (es : List Ev) : St := es.foldl step s

/-- Every step of the run meets `P`. -/
def checks (P : St → Ev → Prop) [∀ s e, Decidable (P s e)] : St → List Ev → Bool
  | _, [] => true
  | s, e :: es => decide (P s e) && checks P (step s e) es

theorem Reach.run {P : St → Ev → Prop} [∀ s e, Decidable (P s e)] {s : St} (h : Reach P s) {es : List Ev}
    (hes : checks P s es = true) : Reach P (run s es) := by
  induction es generalizing s with
  | nil => exact h
  | cons e es ih =>
    simp only [checks, Bool.and_eq_true, decide_eq_true_eq] at hes
    exact ih (.step e h hes.1) hes.2

/-! ## What the queues are called with -/

/-- The callers' side: a room that is a multiple of the word size and holds a header, an
    acknowledgement only of what the other side took, and no reset on either side. -/
def Calls (s : St) : Ev → Prop
  | .write op => op ≠ .reset
  | .pull room react => 8 ≤ room ∧ room % 4 = 0 ∧ ∀ ops ∈ react, OutStreamQueue.Op.reset ∉ ops
  | .ack i ok => ∀ c ∈ s.copies[i]?, ok = true → c.accepted = true
  | .deliver _ react => InStreamQueue.Op.reset ∉ react
  | .read op => op ≠ .reset
  | .announce => True
  | .announced j ok => ∀ u ∈ s.updates[j]?, ok = true → u.delivered = true
  | .update _ => True

instance (s : St) : (e : Ev) → Decidable (Calls s e)
  | .write _ => inferInstanceAs (Decidable (_ ≠ _))
  | .pull _ _ => inferInstanceAs (Decidable (_ ∧ _ ∧ ∀ ops ∈ _, _ ∉ ops))
  | .ack i ok => inferInstanceAs (Decidable (∀ c ∈ s.copies[i]?, ok = true → c.accepted = true))
  | .deliver _ _ => inferInstanceAs (Decidable (_ ∉ _))
  | .read _ => inferInstanceAs (Decidable (_ ≠ _))
  | .announce => inferInstanceAs (Decidable True)
  | .announced j ok => inferInstanceAs (Decidable (∀ u ∈ s.updates[j]?, ok = true → u.delivered = true))
  | .update _ => inferInstanceAs (Decidable True)

/-- Segments arrive within half the offset space of the receiver's offset. -/
def Near (s : St) : Ev → Prop
  | .deliver i _ => ∀ c ∈ s.copies[i]?, c.offset ≤ s.rcv.offset + 2 ^ 31 ∧ s.rcv.offset < c.offset + 2 ^ 31
  | _ => True

instance (s : St) (e : Ev) : Decidable (Near s e) :=
  match e with
  | .deliver i _ => inferInstanceAs (Decidable (∀ c ∈ s.copies[i]?, _ ∧ _))
  | .write _ | .pull _ _ | .ack _ _ | .read _ | .announce | .announced _ _ | .update _ => .isTrue trivial

/-- The end of what was ever pulled. -/
def high (s : St) : Int := (s.copies.map Copy.stop).foldl max 0

/-- A loss is reported before half the offset space has been sent past the copy. -/
def Prompt (s : St) : Ev → Prop
  | .ack i false => ∀ c ∈ s.copies[i]?, high s < c.offset + 2 ^ 31
  | _ => True

instance (s : St) (e : Ev) : Decidable (Prompt s e) :=
  match e with
  | .ack i false => inferInstanceAs (Decidable (∀ c ∈ s.copies[i]?, high s < c.offset + 2 ^ 31))
  | .ack _ true => .isTrue trivial
  | .write _ | .pull _ _ | .deliver _ _ | .read _ | .announce | .announced _ _ | .update _ => .isTrue trivial

/-- The steps of a run in which losses are reported promptly. -/
def Timely (s : St) (e : Ev) : Prop := Calls s e ∧ Near s e ∧ Prompt s e

instance (s : St) (e : Ev) : Decidable (Timely s e) := inferInstanceAs (Decidable (_ ∧ _))

/-- The host pulls a queue only while it is ready to send. -/
def Gated (s : St) : Ev → Prop
  | .pull _ _ => amRTS s.snd = true
  | .announce => amRTS s.rcv = true
  | _ => True

instance (s : St) (e : Ev) : Decidable (Gated s e) :=
  match e with
  | .pull _ _ | .announce => inferInstanceAs (Decidable (_ = true))
  | .write _ | .ack _ _ | .deliver _ _ | .read _ | .announced _ _ | .update _ => .isTrue trivial

def Regular (s : St) (e : Ev) : Prop := Timely s e ∧ Gated s e

instance (s : St) (e : Ev) : Decidable (Regular s e) := inferInstanceAs (Decidable (_ ∧ _))

/-! ## Segments on the wire -/

theorem wire_eq {msg : Segment} (h : PacketFormat.Valid msg) (body : Bytes) :
    ∃ header, header.length = 4 ∧ wire msg body = ⟨0, header ++ body⟩ ∧ PacketFormat.parse (wire msg body) = .ok msg := by
  obtain ⟨word, hlt, hw, he⟩ := ofWord_toWord h
  have e : wire msg body = ⟨0, toBe32 word ++ body⟩ := by
    simp only [wire, PacketFormat.write, hw]
    rfl
  refine ⟨toBe32 word, rfl, e, ?_⟩
  rw [e]
  have hp : parseSlice ⟨0, toBe32 word ++ body⟩ = .ok word := by
    simp only [parseSlice, Slice.length, List.length_append, length_toBe32, be32_toBe32 word body hlt]
    rw [if_neg (by decide), if_neg (by omega)]
  simp only [PacketFormat.parse, Slice.length, List.length_append, length_toBe32, hp]
  rw [if_neg (by omega)]
  exact congrArg Except.ok he

theorem subslice_middle {base i n : Nat} {pre mid post : Bytes} (hi : pre.length = i) (hn : mid.length = n) :
    Slice.subslice ⟨base, pre ++ mid ++ post⟩ i n = .ok ⟨base + i, mid⟩ := by
  subst hi hn
  simp only [Slice.subslice, Slice.length, List.length_append]
  rw [if_neg (by omega), List.append_assoc, List.drop_left, List.take_left]

theorem word32_lt (x : Int) : (word32 x).toNat < 2 ^ 32 := by unfold word32; omega

theorem word32_toNat (x : Int) : ((word32 x).toNat : Int) = word32 x := by unfold word32; omega

theorem parser_word {base : Nat} (hb : base % 4 = 0) {pre : Bytes} (hp : pre.length = 4) (x : Int) (post : Bytes) :
    parser ⟨base, pre ++ toBe32 (word32 x).toNat ++ post⟩ = .ok (word32 x).toNat := by
  have hbe := be32_toBe32 (word32 x).toNat [] (word32_lt x)
  rw [List.append_nil] at hbe
  simp only [parser, subslice_middle hp (length_toBe32 _), bind, Except.bind, parseSlice, Slice.length, length_toBe32,
    hbe]
  rw [if_neg (by omega), if_neg (by omega)]

/-- The receiving queue reads back what the sending queue wrote. -/
theorem recv_dataSegment (q : InStreamQueue.T) {header : Bytes} (hh : header.length = 4) (id : Nat) (eof : Bool)
    (offset : Int) (segments : List OutStreamQueue.Seg) (react : List InStreamQueue.Op) :
    ∃ n : Nat, InStreamQueue.recv q ⟨0, header ++ (dataSegment id eof offset segments).body⟩
      (.data eof (word32 offset ≠ 0) (payload segments).length) react =
      (let r := recvDATA q eof (word32 offset) (payload segments) react
       .ok (r.1, if r.2 then (n : Int) else -1)) := by
  generalize hpad : List.replicate (PacketFormat.align (payload segments).length -
    (payload segments).length) (0 : UInt8) = pad
  have hal := le_align (payload segments).length
  have hpl : pad.length = PacketFormat.align (payload segments).length -
    (payload segments).length := by rw [← hpad, List.length_replicate]
  by_cases h0 : word32 offset = 0
  · have hbody : header ++ (dataSegment id eof offset segments).body =
        header ++ payload segments ++ pad := by
      simp [dataSegment, h0, hpad]
    refine ⟨PacketFormat.align (payload segments).length + 4, ?_⟩
    rw [hbody]
    simp only [InStreamQueue.recv, h0, ne_eq, not_true_eq_false, decide_false, Bool.false_eq_true, if_false]
    rw [if_neg (by simp only [Slice.length, List.length_append]; omega)]
    simp only [pure, Except.pure, bind, Except.bind, subslice_middle hh rfl]
    rfl
  · have hbody : header ++ (dataSegment id eof offset segments).body =
        header ++ toBe32 (word32 offset).toNat ++ payload segments ++ pad := by
      simp [dataSegment, h0, hpad]
    have hparse := parser_word (show (0 : Nat) % 4 = 0 from rfl) hh offset (payload segments ++ pad)
    rw [← List.append_assoc] at hparse
    refine ⟨PacketFormat.align (payload segments).length + 8, ?_⟩
    rw [hbody]
    simp only [InStreamQueue.recv, h0, ne_eq, not_false_eq_true, decide_true, if_true]
    rw [if_neg (by simp only [Slice.length, List.length_append, length_toBe32]; omega)]
    simp only [pure, Except.pure, bind, Except.bind, hparse,
      subslice_middle (show (header ++ toBe32 (word32 offset).toNat).length = 8 by
        rw [List.length_append, hh, length_toBe32]) rfl, word32_toNat]

theorem deliver_eq {s : St} {c : Copy} {id : Nat} (hid : id < 2 ^ 16) {eof : Bool} {offset : Int}
    {segments : List OutStreamQueue.Seg} (hlen : (payload segments).length < 4096)
    (hc : c.pulled = dataSegment id eof offset segments) (react : List InStreamQueue.Op) :
    deliver s c react =
      recvDATA s.rcv eof (word32 offset) (payload segments) react := by
  obtain ⟨header, hh, hw, hp⟩ := wire_eq (show PacketFormat.Valid c.pulled.msg by rw [hc]; exact ⟨hlen, hid⟩) c.pulled.body
  have hmsg : c.pulled.msg = .reader (.data eof (word32 offset ≠ 0) (payload segments).length) id := by
    rw [hc]; rfl
  obtain ⟨n, hn⟩ := recv_dataSegment s.rcv hh id eof offset segments react
  rw [hmsg] at hp hw
  have hbody : c.pulled.body = (dataSegment id eof offset segments).body := by rw [hc]
  simp only [deliver, hmsg, hp]
  rw [hw, hbody, hn]
  cases h : recvDATA s.rcv eof (word32 offset) (payload segments) react with
  | mk q ok => cases ok <;> simp

/-- What `announce` pulls while the receiver is connected. -/
def barrierSegment (oldOffset barrier lastBarrier : Int) : InStreamQueue.Pulled :=
  ⟨.writer .readerBarrier streamId 0, toBe32 (word32 barrier).toNat, .barrier oldOffset barrier lastBarrier⟩

/-- The sending queue reads the barrier the receiving queue wrote. -/
theorem update_eq {s : St} {u : Update} {o b l : Int} (hu : u.pulled = barrierSegment o b l) :
    update s u = makeProgress { s.snd with barrier := word32 b } := by
  obtain ⟨header, hh, hw, hp⟩ := wire_eq (show PacketFormat.Valid (.writer .readerBarrier streamId 0) by exact ⟨by decide, by decide⟩)
    (toBe32 (word32 b).toNat)
  have hparse := parser_word (show (0 : Nat) % 4 = 0 from rfl) hh b []
  rw [List.append_nil] at hparse
  simp only [update, hu, barrierSegment, hp]
  simp only [hw, recv, hparse, bind, Except.bind, pure, Except.pure, word32_toNat]

end BubbleStorm.Cusp.Stream.Pair
