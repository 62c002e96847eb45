/-
  BubbleStorm.Simulator.Udp.InQueue — what a simulated node downloads
  (`src/simulator/udp/in-queue.fun`, `Bandwidth.delay` of `src/simulator/nodes/bandwidth.sml`).

  A message enters the queue at a time that the network gave it, which may lie ahead, so a
  later one may overtake it. One message is downloaded at a time; the event is set to when
  the first of the queue will be there, and one that would wait too long is dropped.

  The event is pending exactly as long as there is a message, and for the first one, so it
  is never received from the empty queue, nor scheduled for the past (`in_queue`). No
  message is lost or delivered twice, and the line is not faster than its bandwidth.

  The node's connection does not change. Times do not overflow.
-/

import Mathlib.Data.List.Pairwise
import Mathlib.Data.List.Perm.Basic
import BubbleStorm.Lib.BinHeap

namespace BubbleStorm.Simulator.Udp

/-- The `delay` of `Bandwidth`, in nanoseconds at so many bytes per second. -/
def delay (bandwidth bytes : Int) : Int := bytes * 1000000000 / bandwidth

structure Connection where
  downstream : Int
  receiveBuffer : Int

structure Message (Addr Data : Type) where
  sender : Addr
  port : BitVec 16
  data : Data
  size : Int

namespace InQueue

variable {Addr Data : Type}

/-! ## The queue -/

inductive Raised where
  /-- Cannot receive from empty inqueue. -/
  | fail
  | pastEventScheduled
  deriving DecidableEq

abbrev Entry (Addr Data : Type) := Int × Message Addr Data

structure T (Addr Data : Type) where
  now : Int
  /-- When the last message was there. -/
  lastDownload : Int
  msgQueue : List (Entry Addr Data)
  /-- When `msgReceivedEvent` is set to. -/
  event : Option Int
  delivered : List (Int × Message Addr Data)
  dropped : List (Message Addr Data)

def less (a b : Entry Addr Data) : Bool := decide (a.1 < b.1)

def maxDelay (c : Connection) : Int := delay c.downstream c.receiveBuffer

def arrival (c : Connection) (lastDownload : Int) (e : Entry Addr Data) : Int :=
  max lastDownload e.1 + delay c.downstream e.2.size

def bind (now : Int) : T Addr Data := ⟨now, now, [], none, [], []⟩

/-- `Event.scheduleAt`. -/
def scheduleAt (t : T Addr Data) (date : Int) : Except Raised (T Addr Data) :=
  if date < t.now then .error .pastEventScheduled else .ok { t with event := some date }

/-- `scheduleNext` of a queue that has so many messages. -/
def scheduleNext (c : Connection) : Nat → T Addr Data → Except Raised (T Addr Data)
  | 0, t => .ok t
  | n + 1, t =>
    match BinHeap.pop less t.msgQueue with
    | none => .ok t
    | some (e, msgQueue) =>
      if arrival c t.lastDownload e - e.1 < maxDelay c then scheduleAt t (arrival c t.lastDownload e)
      else scheduleNext c n { t with msgQueue := msgQueue, dropped := t.dropped ++ [e.2] }

/-- The event is run. -/
def receive (c : Connection) (t : T Addr Data) : Except Raised (T Addr Data) :=
  match BinHeap.pop less t.msgQueue with
  | none => .error .fail
  | some (e, msgQueue) => do
    let t := { t with msgQueue := msgQueue, lastDownload := t.now }
    let t ← scheduleNext c msgQueue.length t
    return { t with delivered := t.delivered ++ [(t.now, e.2)] }

def addMessage (c : Connection) (t : T Addr Data) (when_ : Int) (message : Message Addr Data) : Except Raised (T Addr Data) :=
  let t := { t with msgQueue := BinHeap.push less t.msgQueue (when_, message) }
  scheduleNext c t.msgQueue.length t

inductive Ev (Addr Data : Type) where
  | add (when_ : Int) (message : Message Addr Data)
  | run
  | tick (now : Int)

/-- A message comes in now or later, and time does not pass by a pending event. -/
def Enabled (t : T Addr Data) : Ev Addr Data → Prop
  | .add when_ message => t.now ≤ when_ ∧ 0 ≤ message.size
  | .run => t.event ≠ none
  | .tick now => t.now ≤ now ∧ ∀ date ∈ t.event, now ≤ date

def step (c : Connection) (t : T Addr Data) : Ev Addr Data → Except Raised (T Addr Data)
  | .add when_ message => addMessage c t when_ message
  | .run =>
    match t.event with
    | none => .ok t
    | some date => receive c { t with now := date, event := none }
  | .tick now => .ok { t with now := now }

/-- What came in. -/
def came (l : List (Entry Addr Data)) : Ev Addr Data → List (Entry Addr Data)
  | .add when_ message => l ++ [(when_, message)]
  | _ => l

/-- The runs, and what came in. -/
inductive Runs (c : Connection) : T Addr Data → List (Entry Addr Data) → Prop
  | bind (now : Int) : Runs c (bind now) []
  | step {t t' : T Addr Data} {l : List (Entry Addr Data)} (e : Ev Addr Data) : Runs c t l → Enabled t e → step c t e = .ok t' →
      Runs c t' (came l e)

/-! ## The first of the queue -/

theorem weak : BinHeap.Weak (@less Addr Data) fun _ => True :=
  BinHeap.weak_lt (fun e => e.1) fun _ _ => rfl

theorem pop_cons {l : List (Entry Addr Data)} (h : l ≠ []) :
    ∃ e q, BinHeap.pop less l = some (e, q) ∧ l.head? = some e ∧ l.Perm (e :: q) ∧ q.length + 1 = l.length := by
  obtain ⟨e, he⟩ : ∃ e, l.head? = some e := by
    cases l with
    | nil => exact absurd rfl h
    | cons e l => exact ⟨e, rfl⟩
  obtain ⟨q, hq⟩ := BinHeap.pop_isSome less he
  have hperm := BinHeap.pop_perm less hq
  exact ⟨e, q, hq, he, hperm, hperm.length_eq.symm⟩

theorem fixTooSmall_root (fuel : Nat) {a : List (Entry Addr Data)} {hole : Nat} {root r : Entry Addr Data} (hhole : 0 < hole)
    (hroot : a[0]? = some root) (hless : less root r = true) : (BinHeap.fixTooSmall less fuel a hole r)[0]? = some root := by
  induction fuel generalizing a hole with
  | zero =>
    show (a.set hole r)[0]? = some root
    rw [List.getElem?_set_ne (by omega), hroot]
  | succ fuel ih =>
    rw [BinHeap.fixTooSmall, if_neg (by omega)]
    split
    next parent hparent =>
      split
      next => rw [List.getElem?_set_ne (by omega), hroot]
      next hno =>
        refine ih ?_ (by rw [List.getElem?_set_ne (by omega), hroot])
        by_contra hzero
        have hindex : (hole - 1) / 2 = 0 := by omega
        rw [hindex, hroot] at hparent
        cases hparent
        exact hno hless
    next => rw [List.getElem?_set_ne (by omega), hroot]

/-- A message that comes after the first one does not take its place. -/
theorem push_root {l : List (Entry Addr Data)} {root r : Entry Addr Data} (hroot : l.head? = some root) (hless : less root r = true) :
    (BinHeap.push less l r).head? = some root := by
  rw [List.head?_eq_getElem?] at hroot ⊢
  have hlen := (List.getElem?_eq_some_iff.mp hroot).1
  exact fixTooSmall_root _ hlen (by rw [List.getElem?_append_left hlen, hroot]) hless

/-! ## Scheduling -/

/-- The message does not wait too long. -/
def Fits (c : Connection) (lastDownload : Int) (e : Entry Addr Data) : Prop := arrival c lastDownload e - e.1 < maxDelay c

/-- What `scheduleNext` leaves: the messages it dropped do not fit, and the event is set to
    the first one that does. -/
structure Next (c : Connection) (t t' : T Addr Data) : Prop where
  now : t'.now = t.now
  last : t'.lastDownload = t.lastDownload
  delivered : t'.delivered = t.delivered
  ordered : BinHeap.Ordered less t'.msgQueue
  sub : ∀ e ∈ t'.msgQueue, e ∈ t.msgQueue
  all : (t.dropped ++ t.msgQueue.map (·.2)).Perm (t'.dropped ++ t'.msgQueue.map (·.2))
  keeps : ∀ e ∈ t.msgQueue, Fits c t.lastDownload e → e ∈ t'.msgQueue
  event : (t'.msgQueue = [] ∧ t'.event = t.event) ∨
    ∃ e, t'.msgQueue.head? = some e ∧ Fits c t.lastDownload e ∧ t'.event = some (arrival c t.lastDownload e)

theorem scheduleNext_next {c : Connection} (n : Nat) : ∀ t : T Addr Data, t.msgQueue.length = n → BinHeap.Ordered less t.msgQueue →
    (∀ e ∈ t.msgQueue, t.now ≤ arrival c t.lastDownload e) → ∃ t', scheduleNext c n t = .ok t' ∧ Next c t t' := by
  induction n with
  | zero =>
    intro t hlen hordered _
    have hnil := List.length_eq_zero_iff.mp hlen
    refine ⟨t, rfl, rfl, rfl, rfl, hordered, fun e he => he, .refl _, fun e he _ => he, .inl ⟨hnil, rfl⟩⟩
  | succ n ih =>
    intro t hlen hordered hready
    obtain ⟨e, q, hpop, hhead, hperm, hq⟩ := pop_cons (List.ne_nil_of_length_pos (by omega : 0 < t.msgQueue.length))
    have he : e ∈ t.msgQueue := hperm.mem_iff.mpr (List.mem_cons_self ..)
    rw [scheduleNext, hpop]
    dsimp only
    split
    next hfits =>
      refine ⟨{ t with event := some (arrival c t.lastDownload e) }, if_neg (Int.not_lt.mpr (hready e he)), ?_⟩
      exact ⟨rfl, rfl, rfl, hordered, fun e he => he, .refl _, fun e he _ => he, .inr ⟨e, hhead, hfits, rfl⟩⟩
    next hlate =>
      have hsub : ∀ x ∈ q, x ∈ t.msgQueue := fun x hx => hperm.mem_iff.mpr (List.mem_cons_of_mem _ hx)
      obtain ⟨t', hok, hnext⟩ := ih { t with msgQueue := q, dropped := t.dropped ++ [e.2] } (by dsimp only; omega)
        (BinHeap.pop_ordered weak (fun _ _ => trivial) hordered hpop) fun x hx => hready x (hsub x hx)
      refine ⟨t', hok, hnext.now, hnext.last, hnext.delivered, hnext.ordered, fun x hx => hsub x (hnext.sub x hx), ?_, ?_, hnext.event⟩
      · refine List.Perm.trans ?_ hnext.all
        have hmap := hperm.map (·.2)
        rw [List.append_assoc]
        exact hmap.append_left _
      · intro x hx hfits
        rcases List.mem_cons.mp (hperm.mem_iff.mp hx) with rfl | hx
        · exact absurd hfits hlate
        · exact hnext.keeps x hx hfits

/-! ## Runs -/

/-- The event is pending for the first message, which fits; without one there is none. -/
structure Ready (c : Connection) (t : T Addr Data) : Prop where
  ordered : BinHeap.Ordered less t.msgQueue
  idle : t.event = none → t.msgQueue = []
  pending : ∀ date, t.event = some date → t.now ≤ date ∧
    ∃ e, t.msgQueue.head? = some e ∧ Fits c t.lastDownload e ∧ arrival c t.lastDownload e = date
  last : t.lastDownload ≤ t.now
  sizes : ∀ e ∈ t.msgQueue, 0 ≤ e.2.size

/-- Every message that came in was delivered, dropped, or is in the queue. A download takes
    its time, after the message came in and after the download before. -/
structure Books (c : Connection) (t : T Addr Data) (l : List (Entry Addr Data)) : Prop where
  all : (l.map (·.2)).Perm (t.delivered.map (·.2) ++ (t.dropped ++ t.msgQueue.map (·.2)))
  sub : ∀ e ∈ t.msgQueue, e ∈ l
  took : ∀ a ∈ t.delivered, ∃ e ∈ l, e.2 = a.2 ∧ e.1 + delay c.downstream e.2.size ≤ a.1
  spaced : t.delivered.Pairwise fun a b => a.1 + delay c.downstream b.2.size ≤ b.1
  before : ∀ a ∈ t.delivered, a.1 ≤ t.lastDownload

structure Sane (c : Connection) (t : T Addr Data) (l : List (Entry Addr Data)) : Prop extends Ready c t, Books c t l

theorem delay_nonneg {bandwidth bytes : Int} (hband : 0 < bandwidth) (h : 0 ≤ bytes) : 0 ≤ delay bandwidth bytes :=
  Int.ediv_nonneg (Int.mul_nonneg h (by decide)) (Int.le_of_lt hband)

theorem le_arrival {c : Connection} (hband : 0 < c.downstream) (last : Int) {e : Entry Addr Data} (hsize : 0 ≤ e.2.size) :
    last ≤ arrival c last e ∧ e.1 ≤ arrival c last e := by
  have := delay_nonneg hband hsize
  unfold arrival
  omega

theorem sane_bind (c : Connection) (now : Int) : Sane c (@bind Addr Data now) [] where
  ordered := BinHeap.ordered_nil
  idle _ := rfl
  pending _ h := nomatch h
  last := Int.le_refl now
  sizes _ h := nomatch h
  all := .refl _
  sub _ h := h
  took _ h := nomatch h
  spaced := .nil
  before _ h := nomatch h

theorem Next.ready {c : Connection} {s t' : T Addr Data} (h : Next c s t')
    (hready : ∀ e, t'.msgQueue.head? = some e → s.now ≤ arrival c s.lastDownload e) (hidle : t'.msgQueue = [] → s.event = none)
    (hlast : s.lastDownload ≤ s.now) (hsizes : ∀ e ∈ s.msgQueue, 0 ≤ e.2.size) : Ready c t' := by
  refine ⟨h.ordered, fun hnone => ?_, fun date hdate => ?_, ?_, fun e he => hsizes e (h.sub e he)⟩
  · rcases h.event with ⟨hnil, -⟩ | ⟨e, -, -, hsome⟩
    · exact hnil
    · rw [hnone] at hsome
      cases hsome
  · rcases h.event with ⟨hnil, hevent⟩ | ⟨e, hhead, hfits, hsome⟩
    · rw [hevent, hidle hnil] at hdate
      cases hdate
    · rw [hdate, Option.some.injEq] at hsome
      rw [h.now, h.last, hsome]
      exact ⟨hready e hhead, e, hhead, hfits, rfl⟩
  · rw [h.last, h.now]
    exact hlast

theorem Next.books {c : Connection} {s t' : T Addr Data} {l : List (Entry Addr Data)} (h : Next c s t') (hbooks : Books c s l) :
    Books c t' l := by
  refine ⟨?_, fun e he => hbooks.sub e (h.sub e he), ?_, ?_, ?_⟩
  · rw [h.delivered]
    exact hbooks.all.trans (h.all.append_left _)
  · rw [h.delivered]
    exact hbooks.took
  · rw [h.delivered]
    exact hbooks.spaced
  · rw [h.delivered, h.last]
    exact hbooks.before

/-- A message comes in. If the first one stays the first, nothing changes for it; else all
    of the queue is still to come. -/
theorem sane_add {c : Connection} (hband : 0 < c.downstream) {t : T Addr Data} {l : List (Entry Addr Data)} (h : Sane c t l)
    {when_ : Int} {message : Message Addr Data} (hwhen : t.now ≤ when_) (hsize : 0 ≤ message.size) :
    ∃ t', addMessage c t when_ message = .ok t' ∧ Sane c t' (l ++ [(when_, message)]) ∧ t'.now = t.now := by
  let s : T Addr Data := { t with msgQueue := BinHeap.push less t.msgQueue (when_, message) }
  have hperm : s.msgQueue.Perm ((when_, message) :: t.msgQueue) := BinHeap.push_perm less t.msgQueue (when_, message)
  have hordered : BinHeap.Ordered less s.msgQueue := BinHeap.push_ordered weak (fun _ _ => trivial) trivial h.ordered
  have hsizes : ∀ e ∈ s.msgQueue, 0 ≤ e.2.size := by
    intro e he
    rcases List.mem_cons.mp (hperm.mem_iff.mp he) with rfl | he
    · exact hsize
    · exact h.sizes e he
  have hall : ((l ++ [(when_, message)]).map (·.2)).Perm (s.delivered.map (·.2) ++ (s.dropped ++ s.msgQueue.map (·.2))) := by
    have hmap : (s.msgQueue.map (·.2)).Perm (t.msgQueue.map (·.2) ++ [message]) :=
      (hperm.map (·.2)).trans (List.perm_append_singleton _ _).symm
    have hadd := (h.all.append_right [message]).trans (.of_eq (List.append_assoc ..))
    rw [List.append_assoc] at hadd
    rw [List.map_append]
    exact hadd.trans ((hmap.symm.append_left _).append_left _)
  have hbooks : Books c s (l ++ [(when_, message)]) := by
    refine ⟨hall, fun e he => ?_, fun a ha => ?_, h.spaced, h.before⟩
    · rcases List.mem_cons.mp (hperm.mem_iff.mp he) with rfl | he
      · exact List.mem_append_right _ (List.mem_singleton_self _)
      · exact List.mem_append_left _ (h.sub e he)
    · obtain ⟨e, he, htook⟩ := h.took a ha
      exact ⟨e, List.mem_append_left _ he, htook⟩
  have hfinish : ∀ t', Next c s t' → (∀ e, t'.msgQueue.head? = some e → s.now ≤ arrival c s.lastDownload e) →
      (t'.msgQueue = [] → s.event = none) → Sane c t' (l ++ [(when_, message)]) ∧ t'.now = t.now := fun t' hnext hready hidle =>
    ⟨⟨hnext.ready hready hidle h.last hsizes, hnext.books hbooks⟩, hnext.now⟩
  -- the others are ready if none is before the new one
  have hlate : (∀ e ∈ t.msgQueue, when_ ≤ e.1) → ∀ e ∈ s.msgQueue, s.now ≤ arrival c s.lastDownload e := by
    intro hall e he
    have hle := (le_arrival hband s.lastDownload (hsizes e he)).2
    rcases List.mem_cons.mp (hperm.mem_iff.mp he) with rfl | he
    · exact Int.le_trans hwhen hle
    · exact Int.le_trans (Int.le_trans hwhen (hall e he)) hle
  cases hevent : t.event with
  | none =>
    have hnil := h.idle hevent
    have hready := hlate fun e he => by rw [hnil] at he; cases he
    obtain ⟨t', hok, hnext⟩ := scheduleNext_next s.msgQueue.length s rfl hordered hready
    refine ⟨t', hok, hfinish t' hnext (fun e he => hready e (hnext.sub e (List.mem_of_mem_head? he))) fun _ => hevent⟩
  | some date =>
    obtain ⟨hnow, root, hroot, hfits, harrival⟩ := h.pending date hevent
    by_cases hafter : root.1 < when_
    · have hhead : s.msgQueue.head? = some root := push_root hroot (decide_eq_true hafter)
      have hne : s.msgQueue ≠ [] := by
        intro hnil
        rw [hnil] at hhead
        cases hhead
      obtain ⟨e, q, hpop, hhead', -, hlen⟩ := pop_cons hne
      have hsame : e = root := Option.some.inj (hhead'.symm.trans hhead)
      subst hsame
      have hready : s.now ≤ arrival c s.lastDownload e := harrival ▸ hnow
      refine ⟨{ s with event := some (arrival c s.lastDownload e) }, ?_, ?_⟩
      · show scheduleNext c s.msgQueue.length s = _
        rw [← hlen, scheduleNext, hpop]
        dsimp only
        rw [if_pos (show arrival c s.lastDownload e - e.1 < maxDelay c from hfits)]
        exact if_neg (Int.not_lt.mpr hready)
      · refine hfinish _ ⟨rfl, rfl, rfl, hordered, fun e he => he, .refl _, fun e he _ => he, .inr ⟨e, hhead, hfits, rfl⟩⟩ ?_ ?_
        · intro e' he'
          have heq : e' = e := Option.some.inj (he'.symm.trans hhead)
          exact heq ▸ hready
        · exact fun hnil => absurd hnil hne
    · have hmin : ∀ e ∈ t.msgQueue, when_ ≤ e.1 := by
        intro e he
        have hle : less e root = false := BinHeap.top_min weak (fun _ _ => trivial) h.ordered hroot he
        have := of_decide_eq_false hle
        omega
      have hready := hlate hmin
      obtain ⟨t', hok, hnext⟩ := scheduleNext_next s.msgQueue.length s rfl hordered hready
      refine ⟨t', hok, hfinish t' hnext (fun e he => hready e (hnext.sub e (List.mem_of_mem_head? he))) fun hnil => ?_⟩
      have hin : root ∈ s.msgQueue := hperm.mem_iff.mpr (List.mem_cons_of_mem _ (List.mem_of_mem_head? hroot))
      have := hnext.keeps root hin hfits
      rw [hnil] at this
      cases this

/-- The first message is there. -/
theorem sane_run {c : Connection} (hband : 0 < c.downstream) {t : T Addr Data} {l : List (Entry Addr Data)} (h : Sane c t l)
    {date : Int} (hdate : t.event = some date) :
    ∃ t', receive c { t with now := date, event := none } = .ok t' ∧ Sane c t' l := by
  obtain ⟨hnow, root, hroot, -, harrival⟩ := h.pending date hdate
  have hne : t.msgQueue ≠ [] := by
    intro hnil
    rw [hnil] at hroot
    cases hroot
  obtain ⟨e, q, hpop, hhead, hperm, -⟩ := pop_cons hne
  have hsame : e = root := Option.some.inj (hhead.symm.trans hroot)
  subst hsame
  have hmem : ∀ x ∈ q, x ∈ t.msgQueue := fun x hx => hperm.mem_iff.mpr (List.mem_cons_of_mem _ hx)
  have hsizes : ∀ x ∈ q, 0 ≤ x.2.size := fun x hx => h.sizes x (hmem x hx)
  let s : T Addr Data := { t with now := date, event := none, msgQueue := q, lastDownload := date }
  have hready : ∀ x ∈ q, s.now ≤ arrival c s.lastDownload x := fun x hx => (le_arrival hband _ (hsizes x hx)).1
  obtain ⟨t', hok, hnext⟩ := scheduleNext_next q.length s rfl (BinHeap.pop_ordered weak (fun _ _ => trivial) h.ordered hpop) hready
  have hwait : t.lastDownload + delay c.downstream e.2.size ≤ date ∧ e.1 + delay c.downstream e.2.size ≤ date := by
    rw [← harrival, arrival]
    omega
  have hrest : Ready c t' := hnext.ready (fun x hx => hready x (hnext.sub x (List.mem_of_mem_head? hx))) (fun _ => rfl) (Int.le_refl _) hsizes
  refine ⟨{ t' with delivered := t'.delivered ++ [(t'.now, e.2)] }, ?_,
    ⟨hrest.ordered, hrest.idle, hrest.pending, hrest.last, hrest.sizes⟩,
    ?_, fun x hx => h.sub x (hmem x (hnext.sub x hx)), ?_, ?_, ?_⟩
  · unfold receive
    dsimp only
    rw [hpop]
    show (scheduleNext c q.length s >>= fun t => pure { t with delivered := t.delivered ++ [(t.now, e.2)] }) = _
    rw [hok]
    rfl
  all_goals
    have hnow' : t'.now = date := hnext.now
    have hdelivered : t'.delivered = t.delivered := hnext.delivered
    dsimp only
    rw [hdelivered, hnow']
  · have hmap := hperm.map (·.2)
    rw [List.map_append, List.append_assoc]
    refine h.all.trans (List.Perm.append_left _ ?_)
    refine (hmap.append_left _).trans (List.perm_middle.trans ?_)
    exact hnext.all.cons e.2
  · intro a ha
    rcases List.mem_append.mp ha with ha | ha
    · exact h.took a ha
    · rw [List.mem_singleton] at ha
      subst ha
      exact ⟨e, h.sub e (hperm.mem_iff.mpr (List.mem_cons_self ..)), rfl, hwait.2⟩
  · refine List.pairwise_append.mpr ⟨h.spaced, List.pairwise_singleton _ _, fun a ha b hb => ?_⟩
    rw [List.mem_singleton] at hb
    subst hb
    have := h.before a ha
    dsimp only
    omega
  · intro a ha
    have hlast : t'.lastDownload = date := hnext.last
    rw [hlast]
    rcases List.mem_append.mp ha with ha | ha
    · exact Int.le_trans (Int.le_trans (h.before a ha) h.last) hnow
    · rw [List.mem_singleton] at ha
      subst ha
      exact Int.le_refl _

theorem sane_step {c : Connection} (hband : 0 < c.downstream) {t : T Addr Data} {l : List (Entry Addr Data)} (h : Sane c t l)
    {e : Ev Addr Data} (he : Enabled t e) :
    ∃ t', step c t e = .ok t' ∧ Sane c t' (came l e) := by
  cases e with
  | add when_ message =>
    obtain ⟨t', hok, hsane, -⟩ := sane_add hband h he.1 he.2
    exact ⟨t', hok, hsane⟩
  | run =>
    cases hevent : t.event with
    | none => exact absurd hevent he
    | some date =>
      obtain ⟨t', hok, hsane⟩ := sane_run hband h hevent
      refine ⟨t', ?_, hsane⟩
      rw [step, hevent]
      exact hok
  | tick now =>
    refine ⟨{ t with now := now }, rfl, ⟨h.ordered, h.idle, fun date hdate => ?_, Int.le_trans h.last he.1, h.sizes⟩,
      h.all, h.sub, h.took, h.spaced, h.before⟩
    exact ⟨he.2 date hdate, (h.pending date hdate).2⟩

/-- In every run what is said of the queue holds, and whatever comes next raises nothing. -/
theorem in_queue {c : Connection} (hband : 0 < c.downstream) {t : T Addr Data} {l : List (Entry Addr Data)} (h : Runs c t l) :
    Sane c t l ∧ ∀ e, Enabled t e → ∃ t', step c t e = .ok t' := by
  have hsane : Sane c t l := by
    induction h with
    | bind now => exact sane_bind c now
    | step e _ he hok ih =>
      obtain ⟨t'', hok', hsane⟩ := sane_step hband ih he
      rw [hok] at hok'
      cases hok'
      exact hsane
  refine ⟨hsane, fun e he => ?_⟩
  obtain ⟨t', hok, -⟩ := sane_step hband hsane he
  exact ⟨t', hok⟩

/-- The second message overtakes the first, and is there before it. -/
theorem in_queue_overtaken :
    let c : Connection := ⟨1000000000, 100⟩
    let first : Message Nat Nat := ⟨0, 1, 7, 10⟩
    let second : Message Nat Nat := ⟨0, 1, 8, 3⟩
    let t : T Nat Nat := ⟨8, 8, [(50, first)], some 60, [(8, second)], []⟩
    Sane c t [(50, first), (5, second)] ∧ ∀ e, Enabled t e → ∃ t', step c t e = .ok t' := by
  intro c first second t
  have hbind : Runs c (@bind Nat Nat 0) [] := .bind 0
  have hfirst : Runs c ⟨0, 0, [(50, first)], some 60, [], []⟩ [(50, first)] := hbind.step (.add 50 first) ⟨by decide, by decide⟩ rfl
  have hsecond : Runs c ⟨0, 0, [(5, second), (50, first)], some 8, [], []⟩ [(50, first), (5, second)] :=
    hfirst.step (.add 5 second) ⟨by decide, by decide⟩ (by with_unfolding_all rfl)
  have hrun : Runs c t [(50, first), (5, second)] := hsecond.step .run (fun h => nomatch h) rfl
  exact in_queue (by decide) hrun

end InQueue

end BubbleStorm.Simulator.Udp
