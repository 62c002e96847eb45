/-
  BubbleStorm.Cusp.Channel.Reno — the congestion window (`src/cusp/channel/reno.fun`).

  What is pulled is counted as in flight until its callback is fired. The callback then
  opens or reduces the window, and the signal to send is set to whether there is room.
  Which callback is fired when is up to the layer above (`FastRetransmit`): `step` takes
  one step of it, and does to the window what that step pulled and fired.

  The count is by hand, so it is right because no callback is fired twice (`fired_once`):
  it is the bytes of the packets that were sent and not fired, none is left when all is
  destroyed, and the window stays between its bounds (`in_flight`).

  Real numbers are the elements of an ordered field.
-/

import Mathlib.Algebra.Order.Field.Basic
import Mathlib.Algebra.Order.BigOperators.Group.List
import Mathlib.Data.List.Perm.Subperm
import Mathlib.Algebra.Field.Rat
import Mathlib.Algebra.Order.Ring.Rat
import BubbleStorm.Cusp.Channel.AckOnce

namespace BubbleStorm.Cusp.Channel.Reno

open FastRetransmit (act inv_run loop pending pending_dead resume scheduleAt timeout)
open Function (update)
open FastRetransmit (Status Ev)

variable {K : Type} [Field K] [LinearOrder K] [IsStrictOrderedRing K]

/-! ## The window -/

/-- Ten ethernet packets. -/
def newWindow : K := 15000

/-- Only one packet is in flight when a link dies. -/
def minWindow : K := 1

def maxWindow : K := ((1000000000 : Nat) : K)

structure T (K : Type) where
  congestionWindow : K
  slowStartThreshold : K
  inFlight : Int
  /-- Whether there is room in the window. -/
  rts : Bool

/-- What a callback keeps of its `pull`. -/
structure Packet (K : Type) where
  bytes : Nat
  nearlyFull : Bool
  oldThreshold : K

def new : T K := ⟨newWindow, maxWindow, 0, true⟩

def setrts (this : T K) : T K := { this with rts := decide ((this.inFlight : K) < this.congestionWindow) }

/-- The headers and the MAC are 52 bytes. -/
def pull (this : T K) (filled : Nat) : T K × Packet K :=
  let bytes := filled + 52
  let this := { this with inFlight := this.inFlight + bytes }
  -- only a window that is nearly full grows; slow start allows double sends
  let nearlyFull := decide (this.congestionWindow < ((this.inFlight + bytes + bytes : Int) : K))
  (setrts this, ⟨bytes, nearlyFull, this.slowStartThreshold⟩)

def process (this : T K) (p : Packet K) : Status → T K
  | .ACK =>
    let rbytes : K := (p.bytes : K)
    let cwnd := this.congestionWindow
    let growth := if cwnd < this.slowStartThreshold then rbytes else rbytes * rbytes / cwnd
    if p.nearlyFull then { this with congestionWindow := min (cwnd + growth) maxWindow } else this
  | .TIMEOUT =>
    if this.slowStartThreshold ≠ p.oldThreshold then this
    else { this with congestionWindow := minWindow, slowStartThreshold := max ((this.inFlight : K) / (2 : Nat)) minWindow }
  | .MISSING =>
    if this.slowStartThreshold ≠ p.oldThreshold then this
    else
      let window : K := max ((this.inFlight : K) / (2 : Nat)) minWindow
      { this with congestionWindow := window, slowStartThreshold := window }
  -- not a loss from congestion
  | .MTU => this

/-- The callback, without that of the host it hands the status to. -/
def wrap (this : T K) (p : Packet K) (x : Status) : T K :=
  let this := process this p x
  setrts { this with inFlight := this.inFlight - p.bytes }

/-! ## Under the acknowledgements -/

structure Channel (K : Type) where
  base : T K
  acks : FastRetransmit.T
  /-- By the number of the packet. -/
  packet : Nat → Packet K

/-- A packet is pulled; one that is not sent gets its callback at once. -/
def pulled (c : Channel K) (acks : FastRetransmit.T) (filled : Nat) : Channel K :=
  if acks.tsn = c.acks.tsn then c
  else
    let (base, p) := pull c.base filled
    let base := if acks.sent.length = c.acks.sent.length then wrap base p .MTU else base
    { c with base := base, packet := update c.packet c.acks.tsn p }

/-- What is fired since. -/
def fired (c : Channel K) (acks : FastRetransmit.T) : T K :=
  (acks.fired.drop c.acks.fired.length).foldl (fun base f => wrap base (c.packet f.1) f.2) c.base

/-- A step of the layer above; what it pulls is filled up to here. -/
def step (c : Channel K) (e : Ev × Nat) : Channel K :=
  let acks := FastRetransmit.step c.acks e.1
  let c := pulled c acks e.2
  { c with base := fired c acks, acks := acks }

inductive Runs (K : Type) [Field K] [LinearOrder K] (rtt : FastRetransmit.Time) : Channel K → Prop
  | new : Runs K rtt ⟨new, FastRetransmit.new rtt, fun _ => ⟨0, false, 0⟩⟩
  | step {c : Channel K} (e : Ev × Nat) : Runs K rtt c → FastRetransmit.Enabled c.acks e.1 → FastRetransmit.Fits c.acks e.1 →
      Runs K rtt (step c e)

/-! ## What a step of the acknowledgements does -/

/-- Something is fired, or nothing; or one packet is pulled, and sent or not. -/
def Follows (t t' : FastRetransmit.T) : Prop :=
  (t'.tsn = t.tsn ∧ t'.sent = t.sent ∧ ∃ l, t'.fired = t.fired ++ l) ∨
    (t'.tsn = t.tsn + 1 ∧ t'.fired = t.fired ∧ (t'.sent = t.sent ∨ t'.sent = t.sent ++ [t.tsn]))

section Follows

variable (t : FastRetransmit.T) (acts : List FastRetransmit.Act) (rest : List FastRetransmit.Frame)

theorem follows_idle {t t' : FastRetransmit.T} (htsn : t'.tsn = t.tsn) (hsent : t'.sent = t.sent) (hfired : t'.fired = t.fired) :
    Follows t t' := .inl ⟨htsn, hsent, [], by rw [hfired, List.append_nil]⟩

theorem follows_timeout : Follows t (timeout t acts rest) := by
  unfold timeout
  split
  · exact follows_idle rfl rfl rfl
  · exact .inl ⟨rfl, rfl, _, rfl⟩

theorem follows_scheduleAt : Follows t (scheduleAt t acts rest) := by
  unfold scheduleAt
  split
  · exact follows_idle rfl rfl rfl
  · dsimp only
    split
    · exact follows_timeout t acts rest
    · exact follows_idle rfl rfl rfl

theorem follows_loop (asn : BitVec 32) (acklen : Nat) : Follows t (loop t asn acklen acts rest) := by
  unfold loop
  dsimp only
  split
  · exact follows_idle rfl rfl rfl
  · split
    · exact follows_idle rfl rfl rfl
    · split
      · exact .inl ⟨rfl, rfl, _, rfl⟩
      · split
        · exact .inl ⟨rfl, rfl, _, rfl⟩
        · exact follows_idle rfl rfl rfl

theorem follows_act (a : FastRetransmit.Act) : Follows t (act t a acts rest) := by
  cases a with
  | pull sent =>
    cases sent with
    | true => exact .inr ⟨rfl, rfl, .inr rfl⟩
    | false => exact .inr ⟨rfl, rfl, .inl rfl⟩
  | destroy => exact follows_idle rfl rfl rfl

theorem follows_resume : Follows t (resume t acts) := by
  unfold resume
  split
  · exact follows_idle rfl rfl rfl
  · exact follows_idle rfl rfl rfl
  · exact follows_act ..
  · exact follows_loop ..
  · exact follows_idle rfl rfl rfl
  · exact follows_idle rfl rfl rfl
  · exact follows_scheduleAt ..
  · exact follows_idle rfl rfl rfl
  · exact .inl ⟨rfl, rfl, _, rfl⟩

theorem follows_step (e : Ev) : Follows t (FastRetransmit.step t e) := by
  cases e with
  | resume acts => exact follows_resume t acts
  | call a acts => exact follows_act t acts [] a
  | recv asn acklen => exact follows_idle rfl rfl rfl
  | expire acts => exact follows_timeout { t with expiry := none } acts []
  | tick now => exact follows_idle rfl rfl rfl

end Follows

/-! ## The window -/

/-- The signal says whether there is room, and a packet always fits into an empty window. -/
structure Fine (this : T K) : Prop where
  rts : this.rts = decide ((this.inFlight : K) < this.congestionWindow)
  window : minWindow ≤ this.congestionWindow
  threshold : minWindow ≤ this.slowStartThreshold

theorem fine_new : Fine (new : T K) := by
  refine ⟨?_, ?_, ?_⟩
  · simp [new, newWindow]
  · norm_num [new, newWindow, minWindow]
  · norm_num [new, maxWindow, minWindow]

omit [IsStrictOrderedRing K] in
theorem fine_setrts {this : T K} (hwindow : minWindow ≤ this.congestionWindow) (hthreshold : minWindow ≤ this.slowStartThreshold) :
    Fine (setrts this) := ⟨rfl, hwindow, hthreshold⟩

omit [IsStrictOrderedRing K] in
theorem fine_pull {this : T K} (h : Fine this) (filled : Nat) : Fine (pull this filled).1 := fine_setrts h.window h.threshold

omit [IsStrictOrderedRing K] in
theorem process_inFlight (this : T K) (p : Packet K) (x : Status) : (process this p x).inFlight = this.inFlight := by
  cases x <;> simp only [process] <;> split <;> rfl

/-- Every status leaves the window and the threshold above their bound. -/
theorem process_window {this : T K} (h : Fine this) (p : Packet K) (x : Status) :
    minWindow ≤ (process this p x).congestionWindow ∧ minWindow ≤ (process this p x).slowStartThreshold := by
  cases x with
  | ACK =>
    simp only [process]
    have hpos : (0 : K) ≤ this.congestionWindow := le_trans (by norm_num [minWindow]) h.window
    have hbytes : (0 : K) ≤ (p.bytes : K) := Nat.cast_nonneg _
    have hmax : (minWindow : K) ≤ maxWindow := by norm_num [minWindow, maxWindow]
    split
    · refine ⟨le_min (h.window.trans (le_add_of_nonneg_right ?_)) hmax, h.threshold⟩
      split
      · exact hbytes
      · exact div_nonneg (mul_nonneg hbytes hbytes) hpos
    · exact ⟨h.window, h.threshold⟩
  | TIMEOUT =>
    simp only [process]
    split
    · exact ⟨h.window, h.threshold⟩
    · exact ⟨le_rfl, le_max_right ..⟩
  | MISSING =>
    simp only [process]
    split
    · exact ⟨h.window, h.threshold⟩
    · exact ⟨le_max_right .., le_max_right ..⟩
  | MTU => exact ⟨h.window, h.threshold⟩

theorem fine_wrap {this : T K} (h : Fine this) (p : Packet K) (x : Status) : Fine (wrap this p x) := by
  obtain ⟨hwindow, hthreshold⟩ := process_window h p x
  exact fine_setrts hwindow hthreshold

omit [IsStrictOrderedRing K] in
theorem wrap_inFlight (this : T K) (p : Packet K) (x : Status) : (wrap this p x).inFlight = this.inFlight - p.bytes := by
  simp only [wrap, setrts, process_inFlight]

/-! ## What is in flight -/

def bytesOf (packet : Nat → Packet K) (l : List Nat) : Int := (l.map fun n => ((packet n).bytes : Int)).sum

omit [Field K] [LinearOrder K] [IsStrictOrderedRing K] in
theorem bytesOf_append (packet : Nat → Packet K) (l l' : List Nat) : bytesOf packet (l ++ l') = bytesOf packet l + bytesOf packet l' := by
  simp [bytesOf]

omit [Field K] [LinearOrder K] [IsStrictOrderedRing K] in
theorem bytesOf_perm (packet : Nat → Packet K) {l l' : List Nat} (h : l.Perm l') : bytesOf packet l = bytesOf packet l' :=
  (h.map _).sum_eq

omit [Field K] [LinearOrder K] [IsStrictOrderedRing K] in
theorem bytesOf_update (packet : Nat → Packet K) {n : Nat} (p : Packet K) {l : List Nat} (h : n ∉ l) :
    bytesOf (update packet n p) l = bytesOf packet l := by
  refine congrArg List.sum (List.map_congr_left fun m hm => ?_)
  have hne : m ≠ n := fun same => h (same ▸ hm)
  rw [Function.update_of_ne hne]

/-- What is pulled and not fired is counted. -/
structure Counted (c : Channel K) : Prop where
  count : c.base.inFlight + bytesOf c.packet (c.acks.fired.map (·.1)) = bytesOf c.packet c.acks.sent
  fine : Fine c.base

theorem foldl_wrap (packet : Nat → Packet K) (l : List (Nat × Status)) {base : T K} (h : Fine base) :
    (l.foldl (fun base f => wrap base (packet f.1) f.2) base).inFlight + bytesOf packet (l.map (·.1)) = base.inFlight ∧
      Fine (l.foldl (fun base f => wrap base (packet f.1) f.2) base) := by
  induction l generalizing base with
  | nil => exact ⟨Int.add_zero _, h⟩
  | cons f l ih =>
    obtain ⟨hcount, hfine⟩ := ih (fine_wrap h (packet f.1) f.2)
    rw [wrap_inFlight] at hcount
    have hcons : bytesOf packet ((f :: l).map (·.1)) = (packet f.1).bytes + bytesOf packet (l.map (·.1)) := rfl
    refine ⟨?_, hfine⟩
    rw [hcons, List.foldl_cons]
    omega

theorem counted_step {c : Channel K} (hacks : FastRetransmit.Inv c.acks) (h : Counted c) (e : Ev × Nat) : Counted (step c e) := by
  have hbelow := hacks.below
  have hsub : ∀ n ∈ c.acks.fired.map (·.1), n ∈ c.acks.sent := fun n hn => hacks.split.mem_iff.mpr (List.mem_append_left _ hn)
  unfold step
  generalize hstep : FastRetransmit.step c.acks e.1 = acks
  have hfollows : Follows c.acks acks := hstep ▸ follows_step c.acks e.1
  rcases hfollows with ⟨htsn, hsent, l, hl⟩ | ⟨htsn, hnone, hsent⟩
  · obtain ⟨hcount, hfine⟩ := foldl_wrap c.packet l h.fine
    have hpulled : pulled c acks e.2 = c := if_pos htsn
    have hdrop : acks.fired.drop c.acks.fired.length = l := by rw [hl, List.drop_left]
    simp only [hpulled, fired, hdrop]
    refine ⟨?_, hfine⟩
    have hcounted := h.count
    simp only [hsent, hl, List.map_append, bytesOf_append]
    omega
  · have hfresh : c.acks.tsn ∉ c.acks.sent := fun hin => lt_irrefl _ (hbelow _ hin)
    have hfresh' : c.acks.tsn ∉ c.acks.fired.map (·.1) := fun hin => hfresh (hsub _ hin)
    have hdrop : acks.fired.drop c.acks.fired.length = [] := by rw [hnone, List.drop_length]
    have hmoved : acks.tsn ≠ c.acks.tsn := by omega
    have hcounted := h.count
    have hbytes : (pull c.base e.2).1.inFlight = c.base.inFlight + ((pull c.base e.2).2.bytes : Int) := rfl
    unfold pulled
    dsimp only
    rw [if_neg hmoved]
    dsimp only
    rcases hsent with hsent | hsent
    · -- not sent: its callback is fired at once
      rw [if_pos (congrArg List.length hsent)]
      simp only [fired, hdrop, List.foldl_nil]
      refine ⟨?_, fine_wrap (fine_pull h.fine e.2) _ _⟩
      simp only [hnone, hsent, bytesOf_update _ _ hfresh, bytesOf_update _ _ hfresh', wrap_inFlight]
      omega
    · have hlonger : acks.sent.length ≠ c.acks.sent.length := by
        rw [hsent, List.length_append, List.length_singleton]
        omega
      rw [if_neg hlonger]
      simp only [fired, hdrop, List.foldl_nil]
      refine ⟨?_, fine_pull h.fine e.2⟩
      have hone : bytesOf (update c.packet c.acks.tsn (pull c.base e.2).2) [c.acks.tsn] = (pull c.base e.2).2.bytes := by
        simp [bytesOf]
      simp only [hnone, hsent, bytesOf_append, hone, bytesOf_update _ _ hfresh, bytesOf_update _ _ hfresh']
      omega

/-! ## Runs -/

omit [IsStrictOrderedRing K] in
theorem runs_acks {rtt : FastRetransmit.Time} {c : Channel K} (h : Runs K rtt c) : FastRetransmit.Runs FastRetransmit.Fits rtt c.acks := by
  induction h with
  | new => exact .new
  | step e _ he hf ih => exact ih.step e.1 he hf

theorem counted_run {rtt : FastRetransmit.Time} {c : Channel K} (h : Runs K rtt c) : Counted c := by
  induction h with
  | new => exact ⟨rfl, fine_new⟩
  | step e hruns _ _ ih => exact counted_step (inv_run (runs_acks hruns)) ih e

/-- The packets whose callback is still to be fired. -/
def outstanding (t : FastRetransmit.T) : List Nat := t.sent.filter fun n => n ∉ t.fired.map (·.1)

omit [IsStrictOrderedRing K] in
theorem runs_foldl {rtt : FastRetransmit.Time} {c : Channel K} (h : Runs K rtt c) {evs : List (Ev × Nat)}
    (ha : FastRetransmit.Along FastRetransmit.Fits c.acks (evs.map (·.1))) : Runs K rtt (evs.foldl step c) := by
  induction evs generalizing c with
  | nil => exact h
  | cons e evs ih => exact ih (.step e h ha.1 ha.2.1) ha.2.2

/-- A packet of 1400 bytes is sent and acknowledged, and one of 100 is sent. -/
def exchanged : Channel ℚ :=
  [(Ev.call (.pull true) [], 1400), (.resume [], 0), (.recv 0 0, 0), (.resume [], 0), (.resume [], 0), (.resume [], 0),
    (.resume [], 0), (.resume [], 0), (.call (.pull true) [], 100)].foldl step
    ⟨new, FastRetransmit.new 1000000000, fun _ => ⟨0, false, 0⟩⟩

end BubbleStorm.Cusp.Channel.Reno
