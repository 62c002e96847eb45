/-
  BubbleStorm.Cusp.Channel.Negotiation — two ESTABLISHED channels
  (`src/cusp/channel/negotiation.fun`).

  A packet is enciphered under its sequence number, of which it carries 28 bits. The
  cipher is a parameter: `verifies p n` is the test of the packet's MAC under nonce `n`.
  A packet stays in the network for good, so it may arrive at any time, any number of
  times, or never.
-/

import BubbleStorm.Cusp.Channel.DelayedAck
import BubbleStorm.Cusp.Channel.PacketFormat

namespace BubbleStorm.Cusp.Channel.Negotiation

open PacketFormat (parse parse_write parse_write_iff word28X_iff write write_fst)
open Function (update_of_ne update_self)
open PacketFormat (DATA)

/-- A DATA packet; `full` is what was written of which the header holds a part. -/
structure Packet where
  header : Nat × Nat
  full : DATA
  empty : Bool
  /-- What the body is enciphered under. -/
  nonce : Int

/-- The state ESTABLISHED; `tsn` is the number of the last packet sent, `asn` of the last
    one received. -/
structure T where
  base : DelayedAck.T
  tsn : Int
  asn : Int

def goESTABLISHED : T := ⟨DelayedAck.new, 0, 0⟩

/-- The numbers `recv` tells the sequence numbers of a header by. -/
def seqs (s : T) : Int × Int := (s.tsn, s.asn)

variable (verifies : Packet → Int → Bool)

/-- `doAck` is the answer of the layers above. -/
def processDATA (s : T) (p : Packet) (d : DATA) (doAck : Bool) : T :=
  if verifies p d.tsn then
    ⟨(DelayedAck.recv s.base (fun u => (u, doAck)) () p.empty d.tsn).1, s.tsn, d.tsn⟩
  else s

def recv (s : T) (p : Packet) (doAck : Bool) : T :=
  match parse p.header (seqs s) with
  | .data d => processDATA verifies s p d doAck
  | .other _ => s

def pull (s : T) (finish empty : Bool) : Packet × T :=
  let tsn := s.tsn + 1
  let (base, asn, acklen) := DelayedAck.pull s.base
  let d : DATA := { acklen := acklen, finish := finish, asn := asn, tsn := tsn }
  (⟨write d, d, empty, tsn⟩, { s with base := base, tsn := tsn })

/-! ## Two channels -/

inductive Side where
  | near
  | far
  deriving DecidableEq

def Side.peer : Side → Side
  | near => far
  | far => near

structure St where
  chan : Side → T
  sent : Side → List Packet

inductive Ev where
  | pull (x : Side) (finish empty : Bool)
  | recv (x : Side) (i : Nat) (doAck : Bool)

def start : St := ⟨fun _ => goESTABLISHED, fun _ => []⟩

def step (s : St) : Ev → St
  | .pull x finish empty =>
    let (p, t) := pull (s.chan x) finish empty
    ⟨Function.update s.chan x t, Function.update s.sent x (s.sent x ++ [p])⟩
  | .recv x i doAck =>
    match (s.sent x.peer)[i]? with
    | some p => { s with chan := Function.update s.chan x (recv verifies (s.chan x) p doAck) }
    | none => s

inductive Reach : St → Prop
  | start : Reach start
  | step {s : St} (e : Ev) : Reach s → Reach (step verifies s e)

variable {verifies} {s : St}

/-- A packet's header and nonce are those of the numbers it was sent with. -/
def Written (p : Packet) : Prop := p.header = write p.full ∧ p.nonce = p.full.tsn

theorem step_written (h : ∀ x, ∀ p ∈ s.sent x, Written p) (e : Ev) : ∀ x, ∀ p ∈ (step verifies s e).sent x, Written p := by
  cases e with
  | pull y finish empty =>
    intro x p hp
    simp only [step] at hp
    by_cases hx : x = y
    · subst hx
      rw [update_self, List.mem_append, List.mem_singleton] at hp
      rcases hp with hp | rfl
      · exact h x p hp
      · exact ⟨rfl, rfl⟩
    · rw [update_of_ne hx] at hp
      exact h x p hp
  | recv y i doAck =>
    simp only [step]
    split
    · exact h
    · exact h

theorem reach_written (h : Reach verifies s) : ∀ x, ∀ p ∈ s.sent x, Written p := by
  induction h with
  | start => exact nofun
  | step e _ ih => exact step_written ih e

/-- A channel reads the numbers a packet was sent with, and deciphers it under the nonce
    it was enciphered under, exactly if the packet's number is near the last one the
    channel itself sent, and the number it acknowledges near the last one the channel
    received. -/
theorem reads_iff (h : Reach verifies s) (x : Side) (p : Packet) (hp : p ∈ s.sent x.peer) :
    (∃ d, parse p.header (seqs (s.chan x)) = .data d ∧ d.tsn = p.full.tsn ∧ d.asn = p.full.asn ∧
      d.tsn = p.nonce) ↔
      (-2 ^ 27 ≤ p.full.tsn - (s.chan x).tsn ∧ p.full.tsn - (s.chan x).tsn < 2 ^ 27) ∧
        -2 ^ 27 ≤ p.full.asn - (s.chan x).asn ∧ p.full.asn - (s.chan x).asn < 2 ^ 27 := by
  obtain ⟨hh, hn⟩ := reach_written h x.peer p hp
  rw [← parse_write_iff, hh, hn]
  constructor
  · intro h
    obtain ⟨d, hd, ht, ha, -⟩ := h
    exact ⟨d, hd, ht, ha⟩
  · intro h
    obtain ⟨d, hd, ht, ha⟩ := h
    exact ⟨d, hd, ht, ha, ht⟩

/-- A MAC that only fits under the nonce it was made with. -/
def fits (p : Packet) (nonce : Int) : Bool := p.nonce = nonce

/-- A packet without a body, of a channel that has received nothing. -/
def bare (tsn : Int) : Packet := ⟨write ⟨0, false, 0, tsn⟩, ⟨0, false, 0, tsn⟩, true, tsn⟩

/-- One side sends `n` packets, and nothing arrives. -/
theorem pulled_many (n : Nat) : ∃ s, Reach fits s ∧ s.chan .near = goESTABLISHED ∧ s.chan .far = ⟨DelayedAck.new, n, 0⟩ ∧
    (s.sent .far).length = n ∧ ∀ k < n, (s.sent .far)[k]? = some (bare (k + 1)) := by
  induction n with
  | zero => exact ⟨start, .start, rfl, rfl, rfl, nofun⟩
  | succ n ih =>
    obtain ⟨s, hr, hn, hf, hl, hp⟩ := ih
    have hpull : pull (s.chan .far) false true = (bare (n + 1), ⟨DelayedAck.new, n + 1, 0⟩) := by
      have h0 : DelayedAck.pull DelayedAck.new = (DelayedAck.new, 0, 0) := by decide
      rw [hf]
      simp only [pull, h0, bare]
    refine ⟨_, .step (.pull .far false true) hr, ?_, ?_, ?_, fun k hk => ?_⟩
    · simp only [step]
      rw [update_of_ne (by decide)]
      exact hn
    · simp only [step, hpull, update_self]
      rfl
    · simp only [step, update_self, List.length_append, List.length_singleton, hl]
    · simp only [step, update_self, hpull]
      by_cases e : k < n
      · rw [List.getElem?_append_left (by omega)]
        exact hp k e
      · obtain rfl : k = n := by omega
        rw [List.getElem?_append_right (by omega), hl, Nat.sub_self]
        rfl

theorem reads_iff_example : ∃ d, parse (bare 1).header (seqs goESTABLISHED) = .data d ∧
    d.tsn = (bare 1).full.tsn ∧ d.asn = (bare 1).full.asn ∧ d.tsn = (bare 1).nonce := by
  obtain ⟨s, hr, hn, -, -, hp⟩ := pulled_many 1
  have h := reads_iff hr .near (bare 1) (List.mem_of_getElem? (hp 0 Nat.one_pos))
  rw [hn] at h
  refine h.mpr ?_
  show (-2 ^ 27 ≤ (1 : Int) - 0 ∧ (1 : Int) - 0 < 2 ^ 27) ∧ -2 ^ 27 ≤ (0 : Int) - 0 ∧ (0 : Int) - 0 < 2 ^ 27
  omega

/-- A channel that has sent nothing reads the packets up to the middle of the 28 bits. -/
theorem recv_bare {tsn : Int} (h0 : 0 ≤ tsn) (h : tsn < 2 ^ 27) :
    ∃ base, recv fits goESTABLISHED (bare tsn) true = ⟨base, 0, tsn⟩ := by
  have ht := (word28X_iff 0 tsn _ (write_fst ⟨0, false, 0, tsn⟩).2).mpr ⟨by omega, by omega⟩
  have hf : fits (bare tsn) tsn = true := decide_eq_true rfl
  refine ⟨(DelayedAck.recv DelayedAck.new (fun u => (u, true)) () true tsn).1, ?_⟩
  have hp := parse_write ⟨0, false, 0, tsn⟩ 0 0
  rw [ht] at hp
  show recv fits goESTABLISHED (bare tsn) true = _
  simp only [recv, seqs, goESTABLISHED, show (bare tsn).header = write ⟨0, false, 0, tsn⟩ from rfl, hp, processDATA]
  rw [if_pos hf]
  rfl

/-- After 2^27 packets one way and none the other, the next packet is misread, although
    its number follows the last one received. -/
theorem imbalance_misreads :
    ∃ s x p, Reach fits s ∧ p ∈ s.sent (Side.peer x) ∧
      (p.full.tsn - (s.chan x).asn).natAbs < 2 ^ 27 ∧ (p.full.asn - (s.chan x).tsn).natAbs < 2 ^ 27 ∧
      ¬ ∃ d, parse p.header (seqs (s.chan x)) = .data d ∧ d.tsn = p.full.tsn ∧ d.asn = p.full.asn := by
  obtain ⟨s, hr, hn, -, -, hp⟩ := pulled_many (2 ^ 27)
  obtain ⟨k, hk⟩ : ∃ k, k + 2 = 2 ^ 27 := ⟨2 ^ 27 - 2, rfl⟩
  have hlast := hp k (by omega)
  have hnext := hp (k + 1) (by omega)
  -- the last packet before the middle is read, and moves `asn` there
  obtain ⟨base, ht⟩ := recv_bare (show (0 : Int) ≤ k + 1 by omega) (by omega)
  have hstep : step fits s (.recv .near k true) = { s with chan := Function.update s.chan .near ⟨base, 0, k + 1⟩ } := by
    simp only [step, Side.peer, hlast, hn, ht]
  have hr' := Reach.step (.recv .near k true) hr
  rw [hstep] at hr'
  refine ⟨_, .near, bare (k + 2), hr', ?_, ?_, ?_, ?_⟩
  · have e : ((k + 1 : Nat) : Int) + 1 = k + 2 := by omega
    rw [e] at hnext
    exact List.mem_of_getElem? hnext
  · simp only [update_self]
    show ((k + 2 : Int) - (k + 1)).natAbs < 2 ^ 27
    omega
  · simp only [update_self]
    show ((0 : Int) - 0).natAbs < 2 ^ 27
    omega
  · simp only [update_self]
    show ¬ ∃ d, parse (write ⟨0, false, 0, k + 2⟩) (0, k + 1) = .data d ∧ d.tsn = k + 2 ∧ d.asn = 0
    intro h
    have hb := (parse_write_iff ⟨0, false, 0, k + 2⟩ 0 (k + 1)).mp h
    have : (k + 2 : Int) - 0 < 2 ^ 27 := hb.1.2
    omega

end BubbleStorm.Cusp.Channel.Negotiation
