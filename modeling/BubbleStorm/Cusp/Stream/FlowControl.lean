/-
  BubbleStorm.Cusp.Stream.FlowControl — the sender and the receiver's window.

  `Sender` is the sending queue on its own: any calls, any acknowledgements, whatever
  barrier the reader sends. A pull that keeps to the barrier (`Keeps`) ends before it.
  In a pair whose pulls do so the receiving queue never rejects a segment: its barrier
  is past every barrier it announced (`Fed`).
-/

import BubbleStorm.Cusp.Stream.BarrierOrder
import BubbleStorm.Cusp.Stream.ReceiveLimit
import BubbleStorm.Cusp.Stream.SendLimit

namespace BubbleStorm.Cusp.Stream.Pair

open OutStreamQueue (ack_barrier dataSegment doReset_cases exec exec_barrier exec_extends makeProgress new pullLimit_le pullOffset pull_segments recv recv_cases sends_new stopped_reset stopped_stopped)
open Span
open OutStreamQueue (written payload lens Sends Seg Stopped Keeps)

/-- The end of what the copies cover. -/
def highest (copies : List Copy) : Int := (copies.map Copy.stop).foldl max 0

/-- A pulled segment is a piece of the stream `w`, or tells the reset. -/
inductive Piece (w : Bytes) (c : Copy) : Prop where
  | data (pulled : c.pulled = dataSegment streamId c.eof c.offset c.segments)
      (lies : At w c.offset (payload c.segments)) (short : lens c.segments ≤ 4092)
  | reset (pulled : c.pulled = ⟨.reader .writerResets streamId, [], .reset⟩)

/-- What holds of a sending queue, reset or not, and the copies it pulled; `w` is the
    stream they are pieces of. -/
structure Sending (w : Bytes) (snd : OutStreamQueue.T) (copies : List Copy) : Prop where
  pieces : ∀ c ∈ copies, Piece w c
  live : snd.state ≠ .amReset → w = written snd.log ∧
    Sends snd (held copies) (highest copies) (· < highest copies) ∧ snd.inflight.Perm (held copies) ∧
    ∀ c ∈ copies, c.pulled.ack = .data c.segments c.eof ∧ ∀ r ∈ c.segments, c.offset ≤ r.offset
  stopped : snd.state = .amReset → Stopped snd

variable {w : Bytes} {snd snd' : OutStreamQueue.T} {copies : List Copy} {c : Copy}

theorem highest_snoc (copies : List Copy) (c : Copy) : highest (copies ++ [c]) = max (highest copies) c.stop := by
  simp [highest, List.foldl_append]

theorem Piece.mono {w' : Bytes} (h : Piece w c) (hw : w <+: w') : Piece w' c := by
  cases h with
  | data pulled lies short => exact .data pulled (lies.mono hw) short
  | reset pulled => exact .reset pulled

theorem sending_new : Sending [] new [] where
  pieces _ hc := absurd hc List.not_mem_nil
  live _ := ⟨rfl, OutStreamQueue.sends_new.weaken_done (fun _ h => h.elim) fun _ h => h, .refl _, fun _ hc => absurd hc List.not_mem_nil⟩
  stopped h := by cases h

/-- The queue is reset, and what was pulled stays. -/
theorem Sending.stop (h : Sending w snd copies) (hs : Stopped snd') : Sending w snd' copies :=
  ⟨h.pieces, fun hl => absurd hs.state hl, fun _ => hs⟩

/-- A step of the queue that pulls nothing. -/
theorem Sending.go (h : Sending w snd copies) (hlive : snd.state ≠ .amReset)
    (hs : Sends snd' (held copies) (highest copies) (· < highest copies)) (hw : written snd.log <+: written snd'.log)
    (hi : snd'.inflight = snd.inflight) : Sending (written snd'.log) snd' copies := by
  obtain ⟨rfl, -, hperm, hdata⟩ := h.live hlive
  refine ⟨fun c hc => (h.pieces c hc).mono hw, fun _ => ⟨rfl, hs, ?_, hdata⟩, fun e => absurd e hs.live⟩
  rw [hi]
  exact hperm

theorem Sending.exec (h : Sending w snd copies) (op : OutStreamQueue.Op) :
    ∃ w', w <+: w' ∧ Sending w' (exec snd op) copies := by
  by_cases hs : snd.state = .amReset
  · exact ⟨w, List.prefix_refl _, h.stop ((h.stopped hs).exec op)⟩
  · by_cases hop : op = .reset
    · subst hop
      exact ⟨w, List.prefix_refl _, h.stop (stopped_reset snd)⟩
    · have f := exec_extends hs hop
      obtain ⟨rfl, hsends, -⟩ := h.live hs
      exact ⟨_, f.toFrame.written, h.go hs (hsends.exec hop) f.toFrame.written f.inflight⟩

theorem Sending.pull (h : Sending w snd copies) (room : Nat) (react : List (List OutStreamQueue.Op)) :
    ∃ w', w <+: w' ∧ Sending w' (OutStreamQueue.pull snd streamId room react).2
      (copies ++ [⟨(OutStreamQueue.pull snd streamId room react).1, pullOffset snd, true, false⟩]) := by
  by_cases hs : snd.state = .amReset
  · have hst := h.stopped hs
    rw [hst.pull]
    refine ⟨w, List.prefix_refl _, fun c hc => ?_, fun hl => absurd hs hl, fun _ => hst.ran _⟩
    rcases List.mem_append.mp hc with hc | hc
    · exact h.pieces c hc
    · rw [List.mem_singleton.mp hc]
      exact .reset rfl
  · obtain ⟨rfl, hsends, hperm, hdata⟩ := h.live hs
    have hpend : ∀ p : OutStreamQueue.Pulled, (⟨p, pullOffset snd, true, false⟩ : Copy).pending = true :=
      fun _ => rfl
    rcases hsends.pull_any streamId room react with ⟨segments, eof, hp⟩ | ⟨hst, w', segments, eof, hw, e, hat, hlen⟩
    · generalize OutStreamQueue.pull snd streamId room react = r at hp
      obtain ⟨p, snd'⟩ := r
      obtain rfl : p = dataSegment streamId eof (pullOffset snd) segments := hp.segment
      have hlim := pullLimit_le snd room
      have hfits := hp.fits
      refine ⟨_, hp.written, fun c hc => ?_, fun _ => ⟨rfl, ?_, ?_, fun c hc => ?_⟩, fun e => absurd e hp.sends.live⟩
      · rcases List.mem_append.mp hc with hc | hc
        · exact (h.pieces c hc).mono hp.written
        · rw [List.mem_singleton.mp hc]
          exact .data rfl hp.lies (show lens segments ≤ 4092 by omega)
      · rw [highest_snoc, held_snoc _ rfl]
        exact (hp.sends.perm List.perm_append_comm).weaken_done (fun p hp => Int.lt_of_lt_of_le hp (Int.le_max_left _ _))
          fun p hp => hp
      · rw [held_snoc _ rfl]
        exact hp.inflight.trans ((hperm.append_left _).trans List.perm_append_comm)
      · rcases List.mem_append.mp hc with hc | hc
        · exact hdata c hc
        · rw [List.mem_singleton.mp hc]
          exact ⟨rfl, hp.above⟩
    · generalize OutStreamQueue.pull snd streamId room react = r at hst e
      obtain ⟨p, snd'⟩ := r
      obtain rfl : p = dataSegment streamId eof (pullOffset snd) segments := e
      refine ⟨w', hw, fun c hc => ?_, fun hl => absurd hst.state hl, fun _ => hst⟩
      rcases List.mem_append.mp hc with hc | hc
      · exact (h.pieces c hc).mono hw
      · rw [List.mem_singleton.mp hc]
        exact .data rfl hat hlen

theorem piece_flag (h : Piece w c) {c' : Copy} (hp : c'.pulled = c.pulled) (ho : c'.offset = c.offset) : Piece w c' := by
  have e1 : c'.segments = c.segments := by simp only [Copy.segments, hp]
  have e2 : c'.eof = c.eof := by simp only [Copy.eof, hp]
  cases h with
  | data pulled lies short => exact .data (by rw [hp, e1, e2, ho]; exact pulled) (by rw [ho, e1]; exact lies) (by rw [e1]; exact short)
  | reset pulled => exact .reset (hp.trans pulled)

theorem Sending.ack (h : Sending w snd copies) {i : Nat} {ok : Bool} (hc : copies[i]? = some c) (hpend : c.pending = true)
    (hw : ok = false → snd.state ≠ .amReset → highest copies < c.offset + 2 ^ 31) :
    Sending w (OutStreamQueue.ack snd c.pulled.ack ok) (copies.set i { c with pending := false }) := by
  have hpieces : ∀ d ∈ copies.set i { c with pending := false }, Piece w d := by
    intro d hd
    rcases mem_set_cases hd with rfl | hd
    · exact piece_flag (h.pieces c (List.mem_of_getElem? hc)) rfl rfl
    · exact h.pieces d hd
  by_cases hs : snd.state = .amReset
  · have hst := (h.stopped hs).ack c.pulled.ack ok
    exact ⟨hpieces, fun hl => absurd hst.state hl, fun _ => hst⟩
  · obtain ⟨rfl, hsends, hperm, hdata⟩ := h.live hs
    obtain ⟨hack, habove⟩ := hdata c (List.mem_of_getElem? hc)
    have hsplit := held_settle hc hpend
    have hhigh : highest (copies.set i { c with pending := false }) = highest copies :=
      congrArg (List.foldl max 0) (map_set_same Copy.stop hc rfl)
    have hacked : OutStreamQueue.Acked snd (held (copies.set i { c with pending := false })) (highest copies)
        (· < highest copies) (OutStreamQueue.ack snd c.pulled.ack ok) := by
      rw [hack]
      have hs' := hsends.perm hsplit
      have hi := hperm.trans hsplit
      cases ok with
      | true =>
        have ha := hs'.acknowledge hi c.eof
        exact { ha with sends := ha.sends.weaken_done (fun p => ha.sends.done_lt p) fun p hp => hp }
      | false =>
        refine hs'.requeue hi c.eof fun r hr => ?_
        have := hw rfl hs
        have := habove r hr
        omega
    refine ⟨hpieces, fun _ => ⟨hacked.written.symm, ?_, hacked.inflight, fun d hd => ?_⟩, fun e => absurd e hacked.sends.live⟩
    · rw [hhigh]
      exact hacked.sends
    · rcases mem_set_cases hd with rfl | hd
      · exact ⟨hack, habove⟩
      · exact hdata d hd

/-- The receiver's flag of a copy changes. -/
theorem Sending.flag (h : Sending w snd copies) {i : Nat} (hc : copies[i]? = some c) (ok : Bool) :
    Sending w snd (copies.set i { c with accepted := ok }) := by
  have hhigh : highest (copies.set i { c with accepted := ok }) = highest copies :=
    congrArg (List.foldl max 0) (map_set_same Copy.stop hc rfl)
  have hm := List.mem_of_getElem? hc
  refine ⟨fun d hd => ?_, fun hl => ?_, h.stopped⟩
  · rcases mem_set_cases hd with rfl | hd
    · exact piece_flag (h.pieces c hm) rfl rfl
    · exact h.pieces d hd
  · obtain ⟨h1, h2, h3, h4⟩ := h.live hl
    rw [held_set hc { c with accepted := ok } rfl rfl, hhigh]
    refine ⟨h1, h2, h3, fun d hd => ?_⟩
    rcases mem_set_cases hd with rfl | hd
    · exact h4 c hm
    · exact h4 d hd

/-- A barrier arrives, whatever it is. -/
theorem Sending.barrier (h : Sending w snd copies) (b : Int) :
    Sending w (makeProgress { snd with barrier := b }) copies := by
  by_cases hs : snd.state = .amReset
  · have hst : Stopped { snd with barrier := b } := (h.stopped hs).same rfl rfl rfl
    rw [hst.makeProgress]
    exact h.stop hst
  · obtain ⟨hw, hsends, -⟩ := h.live hs
    have hb : Sends { snd with barrier := b } (held copies) (highest copies) (· < highest copies) := { hsends with }
    have f := OutStreamQueue.makeProgress_extends { snd with barrier := b }
    have e := OutStreamQueue.makeProgress_written { snd with barrier := b }
    have := h.go hs hb.makeProgress f.toFrame.written f.inflight
    rw [e, ← hw] at this
    exact this

theorem Sending.recv (h : Sending w snd copies) {data : Slice} {x : PacketFormat.Writer} {n : Nat}
    (hq : recv snd data x = .ok (snd', n)) : Sending w snd' copies := by
  rcases recv_cases hq with ⟨b, -, rfl⟩ | ⟨-, rfl⟩
  · exact h.barrier b
  · obtain ⟨l, -, e⟩ := doReset_cases snd
    rw [e]
    exact h.stop (((stopped_stopped snd).ran l).ran _)

/-! ## The sending queue on its own -/

namespace Sender

structure St where
  snd : OutStreamQueue.T
  copies : List Copy

inductive Ev where
  | write (op : OutStreamQueue.Op)
  | pull (room : Nat) (react : List (List OutStreamQueue.Op))
  | ack (i : Nat) (ok : Bool)
  /-- A segment from the reader, whatever follows its header. -/
  | recv (data : Slice) (x : PacketFormat.Writer)

def start : St := ⟨new, []⟩

def step (s : St) : Ev → St
  | .write op => { s with snd := exec s.snd op }
  | .pull room react =>
    let (pulled, snd) := OutStreamQueue.pull s.snd streamId room react
    ⟨snd, s.copies ++ [⟨pulled, pullOffset s.snd, true, false⟩]⟩
  | .ack i ok =>
    match s.copies[i]? with
    | some c =>
      if c.pending then ⟨OutStreamQueue.ack s.snd c.pulled.ack ok, s.copies.set i { c with pending := false }⟩ else s
    | none => s
  | .recv data x =>
    match recv s.snd data x with
    | .ok (snd, _) => { s with snd := snd }
    | .error _ => s

/-- Every pull keeps to the barrier, and a loss is reported before half the offset space
    has been sent past the copy. -/
def Careful (s : St) : Ev → Prop
  | .pull room react => s.snd.state ≠ .amReset → Keeps s.snd room react
  | .ack i false => ∀ c ∈ s.copies[i]?, highest s.copies < c.offset + 2 ^ 31
  | _ => True

inductive Reach (P : St → Ev → Prop) : St → Prop
  | start : Reach P start
  | step {s : St} (e : Ev) : Reach P s → P s e → Reach P (step s e)

theorem step_sending {s : St} {w : Bytes} (h : Sending w s.snd s.copies) (e : Ev) (he : Careful s e) :
    ∃ w', Sending w' (step s e).snd (step s e).copies := by
  cases e with
  | write op =>
    obtain ⟨w', -, h'⟩ := h.exec op
    exact ⟨w', h'⟩
  | pull room react =>
    obtain ⟨w', -, h'⟩ := h.pull room react
    exact ⟨w', h'⟩
  | ack i ok =>
    simp only [step]
    split
    · rename_i c hc
      split
      · rename_i hpend
        refine ⟨w, h.ack hc hpend fun hok _ => ?_⟩
        subst hok
        exact he c hc
      · exact ⟨w, h⟩
    · exact ⟨w, h⟩
  | recv data x =>
    simp only [step]
    split
    · rename_i hq
      exact ⟨w, h.recv hq⟩
    · exact ⟨w, h⟩

theorem reach_sending {s : St} (h : Reach Careful s) : ∃ w, Sending w s.snd s.copies := by
  induction h with
  | start => exact ⟨[], sending_new⟩
  | step e _ he ih =>
    obtain ⟨w, hw⟩ := ih
    exact step_sending hw e he

end Sender

/-- The DATA segment a pull gives: where it ends. -/
theorem Sending.keeps (h : Sending w snd copies) {room : Nat} {react : List (List OutStreamQueue.Op)}
    (hk : snd.state ≠ .amReset → Keeps snd room react) {segments : List Seg} {eof : Bool}
    (hp : (OutStreamQueue.pull snd streamId room react).1.ack = .data segments eof) :
    snd.state ≠ .amReset ∧ OutStreamQueue.ahead snd < 2 ^ 31 ∧ lens segments ≤ OutStreamQueue.ahead snd := by
  by_cases hs : snd.state = .amReset
  · rw [(h.stopped hs).pull] at hp
    cases hp
  · obtain ⟨-, hsends, -⟩ := h.live hs
    obtain ⟨eof', e⟩ := pull_segments hs streamId room react
    rw [e] at hp
    cases hp
    exact ⟨hs, (hk hs).1, hsends.keeps (hk hs)⟩

/-! ## The pair -/

open InStreamQueue (Fed Climbs safetyMargin)

/-- A careful sender, segments at most a safety margin behind, and barriers at most half
    the offset space behind. -/
def Obeys (s : St) : Ev → Prop
  | .pull room react => s.snd.state ≠ .amReset → Keeps s.snd room react
  | .ack i false => ∀ c ∈ s.copies[i]?, highest s.copies < c.offset + 2 ^ 31
  | .deliver i _ => ∀ c ∈ s.copies[i]?, c.pulled.ack ≠ .reset → s.rcv.offset ≤ c.offset + safetyMargin
  | .update j => ∀ u ∈ s.updates[j]?, ∀ b ∈ u.barrier, highest s.copies < b + 2 ^ 31
  | _ => True

structure Flows (w : Bytes) (s : St) : Prop where
  sending : Sending w s.snd s.copies
  fed : Fed (w.take s.rcv.barrier.toNat) s.rcv
  within : ∀ c ∈ s.copies, c.pulled.ack ≠ .reset → c.stop ≤ s.rcv.barrier
  pulled : ∀ u ∈ s.updates, (∃ o b l, u.pulled = barrierSegment o b l) ∨ u.pulled = resetSegment
  announced : ∀ u ∈ s.updates, ∀ b ∈ u.barrier, b ≤ s.rcv.barrier
  /-- The position of the barrier the sender stores. -/
  edge : s.snd.state ≠ .amReset →
    ∃ b, (s.snd.barrier - b) % 2 ^ 32 = 0 ∧ b ≤ s.rcv.barrier ∧ highest s.copies < b + 2 ^ 31

theorem flows_start : Flows [] start where
  sending := sending_new
  fed := InStreamQueue.fed_new streamId
  within _ hc := absurd hc List.not_mem_nil
  pulled _ hu := absurd hu List.not_mem_nil
  announced _ hu := absurd hu List.not_mem_nil
  edge _ := ⟨minimumWindow, by decide, by decide, by decide⟩

variable {s : St}

theorem fed_grow {v w w' : Bytes} {q : InStreamQueue.T} (h : Fed v q) (hv : v = w.take q.barrier.toNat) (hw : w <+: w') :
    Fed (w'.take q.barrier.toNat) q := by
  have hlim := h.limit
  have hle := List.length_take_le q.barrier.toNat w'
  refine h.mono ?_ (by omega)
  obtain ⟨t, rfl⟩ := hw
  exact ⟨t.take (q.barrier.toNat - w.length), by rw [hv, List.take_append]⟩

/-- The receiver climbs: the window takes in more of the stream. -/
theorem fed_climb {w : Bytes} {q q' : InStreamQueue.T} (h : Climbs (w.take q.barrier.toNat) q q') :
    Fed (w.take q'.barrier.toNat) q' := by
  have hb := h.barrier
  have hlim := h.fed.limit
  have hle := List.length_take_le q'.barrier.toNat w
  exact h.fed.mono (List.take_prefix_take_left (by omega)) (by omega)

/-- The receiver does something. -/
theorem Flows.receiver (h : Flows w s) {rcv : InStreamQueue.T} (hr : Climbs (w.take s.rcv.barrier.toNat) s.rcv rcv) :
    Flows w { s with rcv := rcv } :=
  { h with
    fed := fed_climb hr
    within := fun c hc hd => Int.le_trans (h.within c hc hd) hr.barrier
    announced := fun u hu b hb => Int.le_trans (h.announced u hu b hb) hr.barrier
    edge := fun hl => by
      obtain ⟨b, h1, h2, h3⟩ := h.edge hl
      exact ⟨b, h1, Int.le_trans h2 hr.barrier, h3⟩ }

theorem Flows.write (h : Flows w s) (op : OutStreamQueue.Op) : ∃ w', Flows w' (step s (.write op)) := by
  obtain ⟨w', hw, hs⟩ := h.sending.exec op
  refine ⟨w', { h with sending := hs, fed := fed_grow h.fed rfl hw, edge := fun hl => ?_ }⟩
  have hlive : s.snd.state ≠ .amReset := fun e => hl ((h.sending.stopped e).exec op).state
  obtain ⟨b, h1, h2, h3⟩ := h.edge hlive
  refine ⟨b, ?_, h2, h3⟩
  show ((exec s.snd op).barrier - b) % 2 ^ 32 = 0
  rw [exec_barrier]
  exact h1

theorem Flows.pull (h : Flows w s) (room : Nat) (react : List (List OutStreamQueue.Op))
    (hk : s.snd.state ≠ .amReset → Keeps s.snd room react) : ∃ w', Flows w' (step s (.pull room react)) := by
  obtain ⟨w', hw, hs⟩ := h.sending.pull room react
  have hb := OutStreamQueue.pull_barrier s.snd streamId room react
  have hstop : s.snd.state = .amReset → (OutStreamQueue.pull s.snd streamId room react).2.state = .amReset := by
    intro e
    rw [(h.sending.stopped e).pull]
    exact e
  -- the new copy ends before the barrier
  have hnew : ∀ b, (s.snd.barrier - b) % 2 ^ 32 = 0 → highest s.copies < b + 2 ^ 31 →
      (OutStreamQueue.pull s.snd streamId room react).1.ack ≠ .reset →
      (⟨(OutStreamQueue.pull s.snd streamId room react).1, pullOffset s.snd, true, false⟩ : Copy).stop ≤ b := by
    intro b h1 h2 hd
    cases ha : (OutStreamQueue.pull s.snd streamId room react).1.ack with
    | reset => exact absurd ha hd
    | data segments eof =>
      obtain ⟨hlive, hnear, hlen⟩ := h.sending.keeps hk ha
      obtain ⟨-, hsends, -⟩ := h.sending.live hlive
      have hstart := hsends.start.le
      simp only [Copy.stop, Copy.segments, ha]
      unfold OutStreamQueue.ahead word32 at *
      omega
  have hgiven : s.snd.state = .amReset → (OutStreamQueue.pull s.snd streamId room react).1.ack = .reset := by
    intro e
    rw [(h.sending.stopped e).pull]
  simp only [step]
  generalize OutStreamQueue.pull s.snd streamId room react = r at hs hb hstop hnew hgiven
  obtain ⟨p, snd⟩ := r
  refine ⟨w', { h with sending := hs, fed := fed_grow h.fed rfl hw, within := fun c hc hd => ?_, edge := fun hl => ?_ }⟩
  · rcases List.mem_append.mp hc with hc | hc
    · exact h.within c hc hd
    · rw [List.mem_singleton.mp hc] at hd ⊢
      by_cases hr : s.snd.state = .amReset
      · exact absurd (hgiven hr) hd
      · obtain ⟨b, h1, h2, h3⟩ := h.edge hr
        exact Int.le_trans (hnew b h1 h3 hd) h2
  · obtain ⟨b, h1, h2, h3⟩ := h.edge fun e => hl (hstop e)
    refine ⟨b, by rw [hb]; exact h1, h2, ?_⟩
    rw [highest_snoc]
    obtain ⟨-, -, -, hdata⟩ := hs.live hl
    have hack := (hdata _ (List.mem_append_right _ (.head _))).1
    have := hnew b h1 h3 (by rw [hack]; exact OutStreamQueue.Ack.noConfusion)
    omega

theorem Flows.ack (h : Flows w s) {i : Nat} {ok : Bool} (hp : ok = false → ∀ c ∈ s.copies[i]?, highest s.copies < c.offset + 2 ^ 31) :
    Flows w (step s (.ack i ok)) := by
  simp only [step]
  split
  · rename_i c hc
    split
    · rename_i hpend
      have hs := h.sending.ack hc hpend fun (hok : ok = false) _ => hp hok c hc
      have hhigh : highest (s.copies.set i { c with pending := false }) = highest s.copies :=
        congrArg (List.foldl max 0) (map_set_same Copy.stop hc rfl)
      refine { h with sending := hs, within := fun d hd hr => ?_, edge := fun hl => ?_ }
      · rcases mem_set_cases hd with rfl | hd
        · exact h.within c (List.mem_of_getElem? hc) hr
        · exact h.within d hd hr
      · obtain ⟨b, h1, h2, h3⟩ := h.edge fun e => hl ((h.sending.stopped e).ack c.pulled.ack ok).state
        refine ⟨b, ?_, h2, ?_⟩
        · rw [ack_barrier]
          exact h1
        · rw [hhigh]
          exact h3
    · exact h
  · exact h

/-- The receiver takes every DATA segment that is not too far behind. -/
theorem Flows.deliver (h : Flows w s) {c : Copy} (hc : c ∈ s.copies)
    (hnear : c.pulled.ack ≠ .reset → s.rcv.offset ≤ c.offset + safetyMargin) (react : List InStreamQueue.Op) :
    (c.pulled.ack ≠ .reset → (deliver s c react).2 = true) ∧
      Climbs (w.take s.rcv.barrier.toNat) s.rcv (deliver s c react).1 := by
  cases h.sending.pieces c hc with
  | data pulled lies short =>
    have hlen := OutStreamQueue.length_payload c.segments
    have hack : c.pulled.ack ≠ .reset := by
      rw [pulled]
      exact OutStreamQueue.Ack.noConfusion
    have hstop := h.within c hc hack
    have hlies := lies.within (n := s.rcv.barrier.toNat) (by unfold Copy.stop at hstop; omega)
    obtain ⟨h1, h2⟩ := h.fed.recvDATA hlies (o := word32 c.offset) (by unfold word32; omega) (hnear hack) (by omega) c.eof react
    rw [deliver_eq (by decide) (by omega) pulled]
    exact ⟨fun _ => h1, h2⟩
  | reset pulled =>
    have hp : PacketFormat.parse (wire c.pulled.msg c.pulled.body) = .ok (.reader .writerResets streamId) := by
      rw [pulled]
      decide
    simp only [Pair.deliver, hp]
    exact ⟨fun hd => absurd (by rw [pulled]) hd, h.fed.writerResets⟩

/-- Flags of the copies change. -/
theorem Flows.flag (h : Flows w s) {i : Nat} {c : Copy} (hc : s.copies[i]? = some c) (ok : Bool) :
    Flows w { s with copies := s.copies.set i { c with accepted := ok } } := by
  have hhigh : highest (s.copies.set i { c with accepted := ok }) = highest s.copies :=
    congrArg (List.foldl max 0) (map_set_same Copy.stop hc rfl)
  refine { h with sending := h.sending.flag hc ok, within := fun d hd hr => ?_, edge := ?_ }
  · rcases mem_set_cases hd with rfl | hd
    · exact h.within c (List.mem_of_getElem? hc) hr
    · exact h.within d hd hr
  · show _ → ∃ b, _ ∧ _ ∧ highest (s.copies.set i _) < _
    rw [hhigh]
    exact h.edge

theorem Flows.announce (h : Flows w s) : Flows w (step s .announce) := by
  simp only [step]
  split
  · rename_i p rcv hp
    have hr := h.receiver (h.fed.pull hp)
    refine { hr with pulled := fun u hu => ?_, announced := fun u hu b hb => ?_ }
    · rcases List.mem_append.mp hu with hu | hu
      · exact h.pulled u hu
      · rw [List.mem_singleton.mp hu]
        rcases pull_cases hp with ⟨-, e⟩ | e
        · exact .inl ⟨_, _, _, e⟩
        · exact .inr e
    · rcases List.mem_append.mp hu with hu | hu
      · exact hr.announced u hu b hb
      · rw [List.mem_singleton.mp hu] at hb
        rcases pull_cases hp with ⟨-, e⟩ | e
        · rw [e] at hb
          cases hb
          exact (h.fed.pull hp).barrier
        · rw [e] at hb
          cases hb
  · exact h

/-- Flags of the updates change. -/
theorem Flows.told (h : Flows w s) {j : Nat} {u v : Update} (hu : s.updates[j]? = some u) (hv : v.pulled = u.pulled) :
    Flows w { s with updates := s.updates.set j v } := by
  have hm := List.mem_of_getElem? hu
  refine { h with pulled := fun u' hu' => ?_, announced := fun u' hu' b hb => ?_ }
  · rcases mem_set_cases hu' with rfl | hu'
    · rw [hv]
      exact h.pulled u hm
    · exact h.pulled u' hu'
  · rcases mem_set_cases hu' with rfl | hu'
    · unfold Update.barrier at hb
      rw [hv] at hb
      exact h.announced u hm b hb
    · exact h.announced u' hu' b hb

theorem Flows.update (h : Flows w s) {j : Nat}
    (hnear : ∀ u ∈ s.updates[j]?, ∀ b ∈ u.barrier, highest s.copies < b + 2 ^ 31) : Flows w (step s (.update j)) := by
  simp only [step]
  split
  · rename_i u hu
    have hm := List.mem_of_getElem? hu
    refine Flows.told (s := { s with snd := Pair.update s u }) ?_ hu rfl
    rcases h.pulled u hm with ⟨o, b, l, hp⟩ | hp
    · have hb : b ∈ u.barrier := by simp only [Update.barrier, barrierOf, hp, barrierSegment, Option.mem_def]
      have hs := h.sending.barrier (word32 b)
      rw [← update_eq hp] at hs
      refine { h with sending := hs, edge := fun _ => ⟨b, ?_, h.announced u hm b hb, hnear u hu b hb⟩ }
      show ((Pair.update s u).barrier - b) % 2 ^ 32 = 0
      rw [update_eq hp, OutStreamQueue.makeProgress_barrier]
      show (word32 b - b) % 2 ^ 32 = 0
      unfold word32
      omega
    · have hst : Stopped (Pair.update s u) := by
        obtain ⟨l, -, e⟩ := doReset_cases s.snd
        rw [update_reset hp, e]
        exact ((stopped_stopped s.snd).ran l).ran _
      exact { h with sending := h.sending.stop hst, edge := fun hl => absurd hst.state hl }
  · exact h

theorem flows_step (h : Flows w s) (e : Ev) (he : Obeys s e) : ∃ w', Flows w' (step s e) := by
  cases e with
  | write op => exact h.write op
  | pull room react => exact h.pull room react he
  | ack i ok =>
    refine ⟨w, h.ack fun hok => ?_⟩
    subst hok
    exact he
  | deliver i react =>
    simp only [step]
    split
    · rename_i c hc
      have hd := h.deliver (List.mem_of_getElem? hc) (he c hc) react
      exact ⟨w, (h.receiver hd.2).flag hc _⟩
    · exact ⟨w, h⟩
  | read op => exact ⟨w, h.receiver (h.fed.exec op)⟩
  | announce => exact ⟨w, h.announce⟩
  | announced j ok =>
    simp only [step]
    split
    · rename_i u hu
      split
      · exact ⟨w, (h.receiver (h.fed.ack u.pulled.ack ok)).told hu rfl⟩
      · exact ⟨w, h⟩
    · exact ⟨w, h⟩
  | update j => exact ⟨w, h.update he⟩

theorem reach_flows (h : Reach Obeys s) : ∃ w, Flows w s := by
  induction h with
  | start => exact ⟨[], flows_start⟩
  | step e _ he ih =>
    obtain ⟨w, hw⟩ := ih
    exact flows_step hw e he

/-- A sender whose pulls keep to the barrier sends no byte beyond it, and its receiver
    rejects no DATA segment. -/
theorem sender_obeys_barrier (s : Sender.St) (t : St) :
    (∀ room react segments eof, Sender.Reach Sender.Careful s → Sender.Careful s (.pull room react) →
      (OutStreamQueue.pull s.snd streamId room react).1.ack = .data segments eof →
      Key.lt s.snd.barrier (pullOffset s.snd + lens segments) = false) ∧
    ∀ i react, Reach Obeys t → Obeys t (.deliver i react) →
      ∀ c ∈ t.copies[i]?, c.pulled.ack ≠ .reset → (deliver t c react).2 = true := by
  constructor
  · intro room react segments eof hr hk hp
    obtain ⟨w, hs⟩ := Sender.reach_sending hr
    obtain ⟨-, hnear, hlen⟩ := hs.keeps hk hp
    exact OutStreamQueue.ends_before (OutStreamQueue.lens_nonneg segments) hlen hnear
  · intro i react hr hk c hc hd
    obtain ⟨w, hf⟩ := reach_flows hr
    exact (hf.deliver (List.mem_of_getElem? hc) (hk c hc) react).1 hd

theorem short_byte : ([7] : Bytes).length < 2 ^ 31 := by decide

/-- A byte is written. -/
def oneByte : OutStreamQueue.Op := .write ⟨[7], short_byte⟩ 0

theorem sender_obeys_barrier_example :
    Key.lt (exec new oneByte).barrier 1 = false ∧
      (deliver (run start [.write oneByte, .pull 8 []])
        ⟨dataSegment streamId false 0 [⟨0, 0, [7]⟩], 0, true, false⟩ []).2 = true := by
  have hkeeps : Keeps (exec new oneByte) 8 [] := ⟨by decide, .inl (by decide)⟩
  have hnear : ∀ c ∈ (run start [.write oneByte, .pull 8 []]).copies[0]?, c.pulled.ack ≠ .reset →
      (run start [.write oneByte, .pull 8 []]).rcv.offset ≤ c.offset + safetyMargin := by decide
  constructor
  · exact (sender_obeys_barrier (Sender.step Sender.start (.write oneByte)) start).1 8 [] [⟨0, 0, [7]⟩] false
      (.step (.write oneByte) .start trivial) (fun _ => hkeeps) (by decide)
  · exact (sender_obeys_barrier Sender.start (run start [.write oneByte, .pull 8 []])).2 0 []
      (.step (.pull 8 []) (.step (.write oneByte) .start trivial) fun _ => hkeeps) hnear _ (by decide) (by decide)

/-- Four bytes more than the window are written, and the stream is shut down. -/
def shutWhileFull : List Ev :=
  [.write (.write ⟨List.replicate 21572 0, by rw [List.length_replicate]; decide⟩ 0), .write (.shutdown 1),
    .pull 4100 [], .pull 4100 [], .pull 4100 [], .pull 4100 [], .pull 4100 []]

/-- The segment ends past the barrier the queue stores. -/
def overruns (q : OutStreamQueue.T) (p : OutStreamQueue.Pulled) : Bool :=
  match p.ack with
  | .data segments _ => Key.lt q.barrier (pullOffset q + lens segments)
  | .reset => false

/-- A queue with a shutdown to indicate is pulled beyond the barrier, and the receiver
    rejects what it sends. -/
theorem shutdown_overruns_barrier :
    ∃ s, Reach Regular s ∧ Regular s (.pull 4100 []) ∧
      overruns s.snd (OutStreamQueue.pull s.snd streamId 4100 []).1 = true ∧
      ∃ c, (step s (.pull 4100 [])).copies[5]? = some c ∧ (deliver (step s (.pull 4100 [])) c []).2 = false := by
  have h : (checks Regular start shutWhileFull && checks Regular (run start shutWhileFull) [.pull 4100 []] &&
      overruns (run start shutWhileFull).snd (OutStreamQueue.pull (run start shutWhileFull).snd streamId 4100 []).1 &&
      (step (run start shutWhileFull) (.pull 4100 [])).copies[5]?.any fun c =>
        !(deliver (step (run start shutWhileFull) (.pull 4100 [])) c []).2) = true := by
    decide +kernel
  simp only [Bool.and_eq_true, Option.any_eq_true, Bool.not_eq_true'] at h
  obtain ⟨⟨⟨hrun, hpull⟩, hover⟩, hdel⟩ := h
  refine ⟨_, Reach.start.run hrun, ?_, hover, hdel⟩
  simp only [checks, Bool.and_true, decide_eq_true_eq] at hpull
  exact hpull

end BubbleStorm.Cusp.Stream.Pair
