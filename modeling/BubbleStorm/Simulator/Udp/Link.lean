/-
  BubbleStorm.Simulator.Udp.Link — nodes that send to one node, through their upload queues
  (`src/simulator/udp/out-queue.fun`), the network (`send` and `route` of
  `src/simulator/udp/message-router.fun`) and its download queue.

  A message is on its way once its node has uploaded it and what it sent before; it is
  dropped if that is more than the send buffer holds. The network's model gives a delay for
  every copy of it that arrives.

  Nothing is raised, and the line is kept: no message is there before it was uploaded and
  downloaded, and neither end is faster than its bandwidth (`line_kept`).

  The receiver stays online and keeps its port.
-/

import BubbleStorm.Simulator.Udp.InQueue

namespace BubbleStorm.Simulator.Udp

/-! ## The upload queue -/

inductive Exn where
  | badSendTime
  /-- The network model gave a negative delay. -/
  | negativeDelay
  | inQueue (raised : InQueue.Raised)
  deriving DecidableEq

structure Upload where
  upstream : Int
  sendBuffer : Int

namespace OutQueue

/-- When the message is on its way, and the queue's `congestion` then; none if it is dropped. -/
def send (c : Upload) (now congestion : Int) (when_ size : Int) : Except Exn (Option Int) :=
  if when_ = now then
    let sendStart := if now < congestion then congestion else now
    let threshold := now + delay c.upstream c.sendBuffer
    let sendEnd := sendStart + delay c.upstream size
    if sendEnd < threshold then .ok (some sendEnd) else .ok none
  else .error .badSendTime

end OutQueue

namespace Link

open InQueue (Entry Sane)

variable {Addr Data : Type} [DecidableEq Addr]

/-! ## The network -/

structure Sent (Addr Data : Type) where
  now : Int
  sendEnd : Int
  message : Message Addr Data

structure Net (Addr Data : Type) where
  congestion : Addr → Int
  receiver : InQueue.T Addr Data
  sent : List (Sent Addr Data)

/-- The copies of a message, by their delays. -/
def route (c : Connection) (message : Message Addr Data) (when_ : Int) : List Int → InQueue.T Addr Data → Except Exn (InQueue.T Addr Data)
  | [], t => .ok t
  | delay :: delays, t =>
    if 0 ≤ delay then
      match InQueue.addMessage c t (when_ + delay) message with
      | .ok t => route c message when_ delays t
      | .error raised => .error (.inQueue raised)
    else .error .negativeDelay

inductive Ev (Addr Data : Type) where
  | send (message : Message Addr Data) (when_ : Int) (delays : List Int)
  | run
  | tick (now : Int)

/-- A node sends with the time of the event it is in. -/
def Enabled (n : Net Addr Data) : Ev Addr Data → Prop
  | .send message when_ delays => when_ = n.receiver.now ∧ 0 ≤ message.size ∧ ∀ delay ∈ delays, 0 ≤ delay
  | .run => n.receiver.event ≠ none
  | .tick now => n.receiver.now ≤ now ∧ ∀ date ∈ n.receiver.event, now ≤ date

def receive (c : Connection) (n : Net Addr Data) (e : InQueue.Ev Addr Data) : Except Exn (Net Addr Data) :=
  match InQueue.step c n.receiver e with
  | .ok receiver => .ok { n with receiver := receiver }
  | .error raised => .error (.inQueue raised)

def step (line : Addr → Upload) (c : Connection) (n : Net Addr Data) : Ev Addr Data → Except Exn (Net Addr Data)
  | .send message when_ delays => do
    match ← OutQueue.send (line message.sender) n.receiver.now (n.congestion message.sender) when_ message.size with
    | none => return n
    | some sendEnd =>
      let receiver ← route c message sendEnd delays n.receiver
      return {
        congestion := fun a => if a = message.sender then sendEnd else n.congestion a
        receiver := receiver
        sent := n.sent ++ [⟨n.receiver.now, sendEnd, message⟩] }
  | .run => receive c n .run
  | .tick now => receive c n (.tick now)

def bind (now : Int) : Net Addr Data := ⟨fun _ => now, InQueue.bind now, []⟩

inductive Reach (line : Addr → Upload) (c : Connection) : Net Addr Data → Prop
  | bind (now : Int) : Reach line c (bind now)
  | step {n n' : Net Addr Data} (e : Ev Addr Data) : Reach line c n → Enabled n e → step line c n e = .ok n' → Reach line c n'

/-! ## Runs -/

/-- What came in was sent before, and a node's uploads take their time, one after another. -/
structure Sound (line : Addr → Upload) (c : Connection) (n : Net Addr Data) (l : List (Entry Addr Data)) : Prop where
  queue : Sane c n.receiver l
  entered : ∀ e ∈ l, ∃ s ∈ n.sent, s.message = e.2 ∧ s.sendEnd ≤ e.1
  waits : ∀ s ∈ n.sent, s.now + delay (line s.message.sender).upstream s.message.size ≤ s.sendEnd ∧
    s.sendEnd < s.now + delay (line s.message.sender).upstream (line s.message.sender).sendBuffer
  spaced : n.sent.Pairwise fun a b => a.message.sender = b.message.sender →
    a.sendEnd + delay (line b.message.sender).upstream b.message.size ≤ b.sendEnd
  congestion : ∀ s ∈ n.sent, s.sendEnd ≤ n.congestion s.message.sender

theorem send_cases {c : Upload} {now congestion when_ size : Int} (h : when_ = now) :
    OutQueue.send c now congestion when_ size = .ok none ∨
    ∃ sendEnd, OutQueue.send c now congestion when_ size = .ok (some sendEnd) ∧ now + delay c.upstream size ≤ sendEnd ∧
      congestion + delay c.upstream size ≤ sendEnd ∧ sendEnd < now + delay c.upstream c.sendBuffer := by
  have hstart : now ≤ (if now < congestion then congestion else now) ∧ congestion ≤ (if now < congestion then congestion else now) := by
    split <;> omega
  unfold OutQueue.send
  rw [if_pos h]
  dsimp only
  by_cases hfits : (if now < congestion then congestion else now) + delay c.upstream size < now + delay c.upstream c.sendBuffer
  · rw [if_pos hfits]
    exact .inr ⟨_, rfl, by omega, by omega, hfits⟩
  · rw [if_neg hfits]
    exact .inl rfl

omit [DecidableEq Addr] in
theorem sane_route {c : Connection} (hband : 0 < c.downstream) {message : Message Addr Data} (hsize : 0 ≤ message.size) {when_ : Int}
    {delays : List Int} (hdelays : ∀ delay ∈ delays, 0 ≤ delay) {t : InQueue.T Addr Data} {l : List (Entry Addr Data)} (h : Sane c t l)
    (hwhen : t.now ≤ when_) :
    ∃ t', route c message when_ delays t = .ok t' ∧ Sane c t' (l ++ delays.map fun delay => (when_ + delay, message)) := by
  induction delays generalizing t l with
  | nil =>
    rw [List.map_nil, List.append_nil]
    exact ⟨t, rfl, h⟩
  | cons delay delays ih =>
    have hdelay := hdelays delay (List.mem_cons_self ..)
    obtain ⟨t', hok, hsane, hnow⟩ := InQueue.sane_add hband h (show t.now ≤ when_ + delay by omega) hsize
    obtain ⟨t'', hroute, hlast⟩ := ih (fun d hd => hdelays d (List.mem_cons_of_mem _ hd)) hsane (by omega)
    refine ⟨t'', ?_, ?_⟩
    · rw [route, if_pos hdelay, hok]
      exact hroute
    · rw [List.append_assoc] at hlast
      exact hlast

theorem sound_send {line : Addr → Upload} {c : Connection} (hline : ∀ a, 0 < (line a).upstream) (hband : 0 < c.downstream) {n : Net Addr Data}
    {l : List (Entry Addr Data)} (h : Sound line c n l) {message : Message Addr Data} {when_ : Int} {delays : List Int}
    (he : Enabled n (.send message when_ delays)) : ∃ n' l', step line c n (.send message when_ delays) = .ok n' ∧ Sound line c n' l' := by
  obtain ⟨hnow, hsize, hdelays⟩ := he
  rcases @send_cases (line message.sender) _ (n.congestion message.sender) _ message.size hnow with hnone | ⟨sendEnd, hsome, hsent, hafter, hbuffer⟩
  · refine ⟨n, l, ?_, h⟩
    show (OutQueue.send (line message.sender) _ _ _ _ >>= _) = _
    rw [hnone]
    rfl
  · have hnonneg := InQueue.delay_nonneg (hline message.sender) hsize
    obtain ⟨receiver, hroute, hsane⟩ := sane_route hband hsize hdelays h.queue (show n.receiver.now ≤ sendEnd by omega)
    let n' : Net Addr Data := {
      congestion := fun a => if a = message.sender then sendEnd else n.congestion a
      receiver := receiver
      sent := n.sent ++ [⟨n.receiver.now, sendEnd, message⟩] }
    refine ⟨n', l ++ delays.map fun delay => (sendEnd + delay, message), ?_, hsane, ?_, ?_, ?_, ?_⟩
    · show (OutQueue.send (line message.sender) _ _ _ _ >>= _) = _
      rw [hsome]
      show (route c message sendEnd delays n.receiver >>= _) = _
      rw [hroute]
      rfl
    · intro e he
      rcases List.mem_append.mp he with he | he
      · obtain ⟨s, hs, hsame⟩ := h.entered e he
        exact ⟨s, List.mem_append_left _ hs, hsame⟩
      · obtain ⟨delay, hdelay, rfl⟩ := List.mem_map.mp he
        have := hdelays delay hdelay
        refine ⟨_, List.mem_append_right _ (List.mem_singleton_self _), rfl, ?_⟩
        dsimp only
        omega
    · intro s hs
      rcases List.mem_append.mp hs with hs | hs
      · exact h.waits s hs
      · rw [List.mem_singleton] at hs
        subst hs
        exact ⟨hsent, hbuffer⟩
    · refine List.pairwise_append.mpr ⟨h.spaced, List.pairwise_singleton _ _, fun a ha b hb hsame => ?_⟩
      rw [List.mem_singleton] at hb
      subst hb
      have hup := h.congestion a ha
      rw [show a.message.sender = message.sender from hsame] at hup
      dsimp only
      omega
    · intro s hs
      show s.sendEnd ≤ if s.message.sender = message.sender then sendEnd else n.congestion s.message.sender
      rcases List.mem_append.mp hs with hs | hs
      · have hup := h.congestion s hs
        split
        next hsame =>
          rw [hsame] at hup
          omega
        next => exact hup
      · rw [List.mem_singleton] at hs
        subst hs
        exact Int.le_of_eq (if_pos rfl).symm

omit [DecidableEq Addr] in
theorem sound_receive {line : Addr → Upload} {c : Connection} (hband : 0 < c.downstream) {n : Net Addr Data} {l : List (Entry Addr Data)}
    (h : Sound line c n l) (e : InQueue.Ev Addr Data) (he : InQueue.Enabled n.receiver e) (hcame : InQueue.came l e = l) :
    ∃ n', receive c n e = .ok n' ∧ Sound line c n' l := by
  obtain ⟨t', hok, hsane⟩ := InQueue.sane_step hband h.queue he
  rw [hcame] at hsane
  refine ⟨{ n with receiver := t' }, ?_, hsane, h.entered, h.waits, h.spaced, h.congestion⟩
  unfold receive
  rw [hok]

theorem sound_step {line : Addr → Upload} {c : Connection} (hline : ∀ a, 0 < (line a).upstream) (hband : 0 < c.downstream) {n : Net Addr Data}
    {l : List (Entry Addr Data)} (h : Sound line c n l) {e : Ev Addr Data} (he : Enabled n e) :
    ∃ n' l', step line c n e = .ok n' ∧ Sound line c n' l' := by
  cases e with
  | send message when_ delays => exact sound_send hline hband h he
  | run =>
    obtain ⟨n', hok, hsound⟩ := sound_receive hband h .run he rfl
    exact ⟨n', l, hok, hsound⟩
  | tick now =>
    obtain ⟨n', hok, hsound⟩ := sound_receive hband h (.tick now) he rfl
    exact ⟨n', l, hok, hsound⟩

/-- In every run nothing is raised; what is delivered was sent, its upload and its download
    ago at least; and neither a sender nor the receiver is faster than its bandwidth. -/
theorem line_kept {line : Addr → Upload} {c : Connection} (hline : ∀ a, 0 < (line a).upstream) (hband : 0 < c.downstream) {n : Net Addr Data}
    (h : Reach line c n) :
    (∀ e, Enabled n e → ∃ n', step line c n e = .ok n') ∧
    (∀ a ∈ n.receiver.delivered, ∃ s ∈ n.sent, s.message = a.2 ∧
      s.now + delay (line a.2.sender).upstream a.2.size + delay c.downstream a.2.size ≤ a.1) ∧
    n.receiver.delivered.Pairwise (fun a b => a.1 + delay c.downstream b.2.size ≤ b.1) ∧
    n.sent.Pairwise (fun a b => a.message.sender = b.message.sender →
      a.sendEnd + delay (line b.message.sender).upstream b.message.size ≤ b.sendEnd) := by
  obtain ⟨l, hsound⟩ : ∃ l, Sound line c n l := by
    induction h with
    | bind now =>
      exact ⟨[], InQueue.sane_bind c now, (fun _ h => nomatch h), (fun _ h => nomatch h), .nil, (fun _ h => nomatch h)⟩
    | step e _ he hok ih =>
      obtain ⟨l, hsound⟩ := ih
      obtain ⟨n'', l', hok', hnext⟩ := sound_step hline hband hsound he
      rw [hok] at hok'
      cases hok'
      exact ⟨l', hnext⟩
  refine ⟨fun e he => ?_, fun a ha => ?_, hsound.queue.spaced, hsound.spaced⟩
  · obtain ⟨n', -, hok, -⟩ := sound_step hline hband hsound he
    exact ⟨n', hok⟩
  · obtain ⟨e, he, hsame, htook⟩ := hsound.queue.took a ha
    obtain ⟨s, hs, hmessage, hend⟩ := hsound.entered e he
    have hwait := (hsound.waits s hs).1
    rw [hmessage, hsame] at hwait
    rw [hsame] at htook
    exact ⟨s, hs, hmessage.trans hsame, by omega⟩

/-- Three bytes at a byte a nanosecond, five on the way. -/
theorem line_kept_delivered :
    let line : Nat → Upload := fun _ => ⟨1000000000, 100⟩
    let message : Message Nat Nat := ⟨0, 1, 7, 3⟩
    let n : Net Nat Nat := ⟨fun a => if a = 0 then 3 else 0, ⟨11, 11, [], none, [(11, message)], []⟩, [⟨0, 3, message⟩]⟩
    ∀ a ∈ n.receiver.delivered, ∃ s ∈ n.sent, s.message = a.2 ∧
      s.now + delay (line a.2.sender).upstream a.2.size + delay 1000000000 a.2.size ≤ a.1 := by
  intro line message n
  have hbind : Reach line ⟨1000000000, 100⟩ (@bind Nat Nat 0) := .bind 0
  have hsend : Reach line ⟨1000000000, 100⟩ ⟨fun a => if a = 0 then 3 else 0, ⟨0, 0, [(8, message)], some 11, [], []⟩, [⟨0, 3, message⟩]⟩ :=
    hbind.step (.send message 0 [5]) ⟨rfl, by decide, by decide⟩ rfl
  have hrun : Reach line ⟨1000000000, 100⟩ n := hsend.step .run (fun h => nomatch h) rfl
  exact (line_kept (fun _ => by decide) (by decide) hrun).2.1

end Link

end BubbleStorm.Simulator.Udp
