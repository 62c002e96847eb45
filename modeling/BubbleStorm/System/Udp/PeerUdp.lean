/-
  BubbleStorm.System.Udp.PeerUdp — the socket that is shared by peers
  (`src/system/udp/peer-udp.fun`), and what the end point does with it
  (`src/cusp/end-point/end-point.fun`).

  Every peer has a record in a heap, under the priority it was last marked ready with and
  the number of its last transmission. A peer that never was marked has the key `idle`,
  and what is better than `idle` is to be sent. But the heap is asked for keys up to the
  bound, the bound included: a peer that nobody has marked makes the socket ready as soon
  as another one is marked with a bad priority or goes away (`fresh_sent`).

  The map and the heap hold the same peers in every run. The socket is ready exactly if a
  peer was marked with something better in every state of the runs that are `Settled`: in
  them no peer has the key `idle` when none is better. There a transmission goes to such a
  peer, and nothing that the end point calls raises (`peers_scheduled`).

  Priorities are the numbers without NaN, which the end point takes for the death of a
  channel and does not pass on.
-/

import BubbleStorm.Util.Heap.ManagedHeapQueue
import Mathlib.Data.Finset.Basic
import Mathlib.Data.List.Induction

namespace BubbleStorm.System.Udp.PeerUdp

open Function (update)
open Function (update_of_ne update_self)
open Util.Heap

/-! ## The peers -/

/-- Smallest goes first: the higher priority, and the earlier transmission. -/
def less {K : Type} [LinearOrder K] (a b : K × UInt32) : Bool :=
  if a.1 < b.1 then false else if b.1 < a.1 then true else decide (a.2 < b.2)

inductive Exn
  | heap (e : Util.Heap.Exn)
  | keyExists
  | fail (message : String)
  deriving Repr, DecidableEq

/-- `~Real32.minPos`, the infinities, and what the socket below says about sizes. -/
structure Base (A K : Type) where
  low : K
  negInf : K
  posInf : K
  mtu : A → Int → Int
  maxMTU : Int

/-- A record is a number: `records` of them have been wrapped. `rts` is whether the socket
    below is ready. -/
structure T (A K α : Type) where
  map : A → Option Nat
  heap : ManagedHeap Nat (K × UInt32) (A × Int × α)
  serial : UInt32
  records : Nat
  rts : Bool

variable {A K α : Type} [DecidableEq A] [LinearOrder K]

/-- Anything better will be sent. -/
def Base.idle (b : Base A K) : K × UInt32 := (b.low, 0)

def run {β : Type} : Except Util.Heap.Exn β → Except Exn β
  | .ok x => .ok x
  | .error e => .error (.heap e)

def new [Inhabited A] [Inhabited α] (b : Base A K) : T A K α :=
  ⟨fun _ => none, .new (fun _ => b.idle) fun _ => default, 0, 0, false⟩

def resendRTS (b : Base A K) (this : T A K α) : Except Exn (T A K α) := do
  match ← run (this.heap.peekBounded less b.idle) with
  | none => pure { this with rts := false }
  | some _ => pure { this with rts := true }

/-- The handler is called with the peer after this. -/
def transmit (b : Base A K) (this : T A K α) : Except Exn (Nat × T A K α) := do
  match ← run (this.heap.popBounded less b.idle) with
  | (none, _) => .error (.fail "Asked to transmit when not ready.")
  | (some peer, heap) =>
    let (_, (prio, _), _) := heap.sub peer
    -- Load balance
    let bump := this.serial
    let heap ← run (heap.update less peer (prio, bump))
    pure (peer, { this with heap := heap, serial := bump + 1 })

/-- What became of a packet to the peer. -/
def ok' (b : Base A K) (this : T A K α) (peer : Nat) (status : Bool) : T A K α :=
  if status then this
  else
    let (_, _, (address, oldMTU, tag)) := this.heap.sub peer
    { this with heap := this.heap.updateValue peer (address, b.mtu address oldMTU, tag) }

def peer (b : Base A K) (this : T A K α) (address : A) (data : α) : Except Exn (T A K α) := do
  let mtu := b.mtu address b.maxMTU
  let peer := this.records
  let heap := this.heap.assign peer (wrap b.idle (address, mtu, data))
  if (this.map address).isSome then .error .keyExists
  else
    let heap ← run (heap.push less peer)
    pure { this with map := update this.map address (some peer), heap := heap, records := peer + 1 }

def depeer (b : Base A K) (this : T A K α) (peer : Nat) : Except Exn (T A K α) := do
  let (ok, _, (address, _, _)) := this.heap.sub peer
  if ok then
    let heap ← run (this.heap.remove less peer)
    resendRTS b { this with heap := heap, map := update this.map address none }
  else .error (.fail "Cannot depeer a depeered handle")

def ready (b : Base A K) (this : T A K α) (peer : Nat) (prio : K) : Except Exn (T A K α) := do
  let (ok, (_, last), _) := this.heap.sub peer
  if ok then
    let heap ← run (this.heap.update less peer (prio, last))
    resendRTS b { this with heap := heap }
  else .error (.fail "Cannot mark a depeered handle as ready")

/-- The address, the value, and the priority while the peer is in the heap. -/
def status (this : T A K α) (peer : Nat) : A × α × Option K :=
  let (inHeap, (prio, _), (address, _, value)) := this.heap.sub peer
  (address, value, if inHeap then some prio else none)

/-! ## Runs -/

/-- The calls, those of the handlers after the transmission that called them. -/
inductive Call (A K α : Type) where
  | peer (address : A) (data : α)
  | depeer (peer : Nat)
  | ready (peer : Nat) (prio : K)
  | transmit
  | ok' (peer : Nat) (status : Bool)
  deriving Repr, DecidableEq

def exec (b : Base A K) (this : T A K α) : Call A K α → Except Exn (T A K α)
  | .peer address data => peer b this address data
  | .depeer p => depeer b this p
  | .ready p prio => ready b this p prio
  | .transmit => do pure (← transmit b this).2
  | .ok' p status => pure (ok' b this p status)

/-- The socket, and what each peer was last marked ready with. -/
structure St (A K α : Type) where
  this : T A K α
  marked : Nat → Option K

def mark (marked : Nat → Option K) : Call A K α → Nat → Option K
  | .ready p prio => update marked p (some prio)
  | _ => marked

/-- A call that raises does so before it has changed anything. -/
def step (b : Base A K) (s : St A K α) (c : Call A K α) : St A K α :=
  match exec b s.this c with
  | .ok this => ⟨this, mark s.marked c⟩
  | .error _ => s

def start [Inhabited A] [Inhabited α] (b : Base A K) : St A K α := ⟨new b, fun _ => none⟩

def runs [Inhabited A] [Inhabited α] (b : Base A K) (calls : List (Call A K α)) : St A K α := calls.foldl (step b) (start b)

def InHeap (s : St A K α) (p : Nat) : Prop := (s.this.heap.sub p).1 = true

def key (s : St A K α) (p : Nat) : K × UInt32 := (s.this.heap.sub p).2.1

def address (s : St A K α) (p : Nat) : A := (s.this.heap.sub p).2.2.1

/-- The map has exactly the peers of the heap. -/
def Same (s : St A K α) : Prop := ∀ a p, s.this.map a = some p ↔ InHeap s p ∧ address s p = a

/-- The peer was last marked ready with a priority better than idle. -/
def Better (b : Base A K) (s : St A K α) (p : Nat) : Prop := InHeap s p ∧ ∃ prio, s.marked p = some prio ∧ b.low < prio

/-- The socket is ready exactly if some peer is better than idle, and if it is, a
    transmission is directed at one. -/
structure Good (b : Base A K) (s : St A K α) : Prop where
  marked : s.this.rts = true ↔ ∃ p, Better b s p
  directed : s.this.rts = true → ∃ p this', transmit b s.this = .ok (p, this') ∧ Better b s p

/-- No other peer has the key `idle`. -/
def NoIdle (b : Base A K) (s : St A K α) (p : Nat) : Prop := ∀ p' ≠ p, InHeap s p' → key s p' ≠ b.idle

/-- A peer that goes or is marked leaves a better one, or nobody with the key `idle`. -/
def Proper (b : Base A K) (s : St A K α) : Call A K α → Prop
  | .depeer p => InHeap s p → (∃ p' ≠ p, Better b s p') ∨ NoIdle b s p
  | .ready p prio =>
    InHeap s p → b.low < prio ∨ (∃ p' ≠ p, Better b s p') ∨ ((prio, (key s p).2) ≠ b.idle ∧ NoIdle b s p)
  | _ => True

def Settled [Inhabited A] [Inhabited α] (b : Base A K) (calls : List (Call A K α)) : Prop :=
  ∀ k c, calls[k]? = some c → Proper b (runs b (calls.take k)) c

/-! ## The order of the keys -/

variable {b : Base A K} {s : St A K α} {q : ManagedHeap.Queue Nat (K × UInt32) (A × Int × α)}

omit [DecidableEq A] in
theorem less_iff (x y : K × UInt32) : less x y = true ↔ y.1 < x.1 ∨ x.1 = y.1 ∧ x.2 < y.2 := by
  unfold less
  split
  · rename_i h
    simp [h.not_gt, h.ne]
  · rename_i h
    split
    · rename_i h'
      simp [h']
    · rename_i h'
      simp [le_antisymm (not_lt.mp h') (not_lt.mp h)]

omit [DecidableEq A] in
theorem less_false_iff (x y : K × UInt32) : less x y = false ↔ x.1 ≤ y.1 ∧ (x.1 = y.1 → y.2.toNat ≤ x.2.toNat) := by
  rw [← Bool.not_eq_true, less_iff, not_or, not_lt, not_and, UInt32.lt_iff_toNat_lt, not_lt]

omit [DecidableEq A] in
theorem less_weak : BinHeap.Weak (less (K := K)) (fun _ => True) where
  asymm {x y} _ _ h := by
    rw [less_iff, UInt32.lt_iff_toNat_lt] at h
    rw [less_false_iff]
    rcases h with h | ⟨e, h⟩
    · exact ⟨h.le, fun e => absurd e h.ne⟩
    · exact ⟨e.ge, fun _ => h.le⟩
  trans {x y z} _ _ _ h h' := by
    rw [less_false_iff] at *
    refine ⟨h.1.trans h'.1, ?_⟩
    intro e
    have same : x.1 = y.1 := le_antisymm h.1 (h'.1.trans e.ge)
    exact (h'.2 (same.symm.trans e)).trans (h.2 same)

omit [DecidableEq A] in
/-- The bound is included: what is asked for is better than `idle`, or `idle`. -/
theorem due_iff (b : Base A K) (x : K × UInt32) : less b.idle x = false ↔ b.low < x.1 ∨ x = b.idle := by
  rw [less_false_iff]
  constructor
  · intro h
    rcases h.1.lt_or_eq with better | same
    · exact .inl better
    · have zero : x.2.toNat ≤ 0 := h.2 same
      exact .inr (Prod.ext same.symm (UInt32.toNat_inj.mp (Nat.le_zero.mp zero)))
  · rintro (better | rfl)
    · exact ⟨better.le, fun e => absurd e better.ne⟩
    · exact ⟨le_refl _, fun _ => le_refl _⟩

/-! ## The calls -/

/-- The heap and the map keep the peers of the queue, under what they were marked with. -/
structure Inv (b : Base A K) (s : St A K α) (q : ManagedHeap.Queue Nat (K × UInt32) (A × Int × α)) : Prop where
  heap : ∃ e, ManagedHeap.Inv less s.this.heap q e
  map : ∀ a p, s.this.map a = some p ↔ p ∈ q.members ∧ (q.value p).1 = a
  fresh : ∀ p ∈ q.members, p < s.this.records
  prio : ∀ p ∈ q.members, (q.key p).1 = (s.marked p).getD b.low
  unmarked : ∀ p, s.this.records ≤ p → s.marked p = none

omit [DecidableEq A] in
theorem Inv.sub (I : Inv b s q) (p : Nat) : s.this.heap.sub p = (decide (p ∈ q.members), q.key p, q.value p) := by
  obtain ⟨e, I⟩ := I.heap
  obtain ⟨l, A⟩ := I.refines
  exact A.sub p

omit [DecidableEq A] in
theorem Inv.inHeap (I : Inv b s q) (p : Nat) : InHeap s p ↔ p ∈ q.members := by
  rw [InHeap, I.sub]
  exact decide_eq_true_iff

omit [DecidableEq A] in
theorem Inv.same (I : Inv b s q) : Same s := by
  intro a p
  rw [I.map, I.inHeap, address, I.sub]

omit [DecidableEq A] in
theorem Inv.better (I : Inv b s q) (p : Nat) : Better b s p ↔ p ∈ q.members ∧ b.low < (q.key p).1 := by
  rw [Better, I.inHeap]
  apply and_congr_right
  intro mem
  rw [I.prio p mem]
  cases s.marked p <;> simp

omit [DecidableEq A] in
theorem Inv.key (I : Inv b s q) (p : Nat) : key s p = q.key p := by
  rw [PeerUdp.key, I.sub]

omit [DecidableEq A] in
/-- The socket is ready after this exactly if some key is due. -/
theorem resend (b : Base A K) (this : T A K α) {e} (I : ManagedHeap.Inv less this.heap q e) :
    ∃ rts, resendRTS b this = .ok { this with rts := rts } ∧
      (rts = true ↔ ∃ p ∈ q.members, b.low < (q.key p).1 ∨ q.key p = b.idle) := by
  obtain ⟨out, peek, some⟩ := I.peekBounded less_weak b.idle
  simp only [due_iff] at some
  refine ⟨out.isSome, ?_, some⟩
  rw [resendRTS, peek]
  cases out <;> rfl

section Heap

variable {h : ManagedHeap Nat (K × UInt32) (A × Int × α)} {e : List (Nat × K × UInt32)} (I : ManagedHeap.Inv less h q e)
include I

omit [DecidableEq A]

theorem heap_update {p : Nat} (mem : p ∈ q.members) (k : K × UInt32) :
    ∃ h' e', h.update less p k = .ok h' ∧ ManagedHeap.Inv less h' { q with key := update q.key p k } e' := by
  obtain ⟨out, h', q', e', done, turn, I'⟩ := I.exec less_weak (.update p k) nofun
  obtain ⟨h'', done, same⟩ := Lib.bind_eq_ok.mp done
  cases same
  cases turn
  rw [Finset.insert_eq_of_mem mem] at I'
  exact ⟨h', e', done, I'⟩

theorem heap_remove (p : Nat) :
    ∃ h' e', h.remove less p = .ok h' ∧ ManagedHeap.Inv less h' { q with members := q.members.erase p } e' := by
  obtain ⟨out, h', q', e', done, turn, I'⟩ := I.exec less_weak (.remove p) nofun
  obtain ⟨h'', done, same⟩ := Lib.bind_eq_ok.mp done
  cases same
  cases turn
  exact ⟨h', e', done, I'⟩

theorem heap_push (p : Nat) :
    ∃ h' e', h.push less p = .ok h' ∧ ManagedHeap.Inv less h' { q with members := insert p q.members } e' := by
  obtain ⟨out, h', q', e', done, turn, I'⟩ := I.exec less_weak (.push p) nofun
  obtain ⟨h'', done, same⟩ := Lib.bind_eq_ok.mp done
  cases same
  cases turn
  exact ⟨h', e', done, I'⟩

/-- A peer that was popped goes back under another number. -/
theorem heap_bump (p : Nat) (k : K × UInt32) :
    ∃ h' e', h.update less p k = .ok h' ∧
      ManagedHeap.Inv less h' { q with members := insert p q.members, key := update q.key p k } e' := by
  obtain ⟨out, h', q', e', done, turn, I'⟩ := I.exec less_weak (.update p k) nofun
  obtain ⟨h'', done, same⟩ := Lib.bind_eq_ok.mp done
  cases same
  cases turn
  exact ⟨h', e', done, I'⟩

end Heap

omit [DecidableEq A] in
theorem ready_in (I : Inv b s q) {p : Nat} (mem : p ∈ q.members) (prio : K) :
    ∃ this', ready b s.this p prio = .ok this' ∧ this'.records = s.this.records ∧
      Inv b ⟨this', mark s.marked (.ready p prio : Call A K α)⟩ { q with key := update q.key p (prio, (q.key p).2) } ∧
        (this'.rts = true ↔ ∃ x ∈ q.members, b.low < (update q.key p (prio, (q.key p).2) x).1 ∨
          update q.key p (prio, (q.key p).2) x = b.idle) := by
  obtain ⟨e, heap⟩ := I.heap
  obtain ⟨h', e', done, heap'⟩ := heap_update heap mem (prio, (q.key p).2)
  obtain ⟨rts, sent, due⟩ := resend b { s.this with heap := h' } heap'
  refine ⟨{ s.this with heap := h', rts := rts }, ?_, rfl, ⟨⟨e', heap'⟩, I.map, I.fresh, ?_, ?_⟩, due⟩
  · rw [ready, I.sub]
    simp only [decide_eq_true mem, if_true, done, run, bind, Except.bind]
    exact sent
  · intro x xmem
    by_cases same : x = p
    · subst same
      simp [mark]
    · simp [mark, same, I.prio x xmem]
  · intro x out
    have : x ≠ p := (lt_of_lt_of_le (I.fresh p mem) out).ne'
    simp [mark, this, I.unmarked x out]

omit [DecidableEq A] in
theorem ready_out (I : Inv b s q) {p : Nat} (mem : p ∉ q.members) (prio : K) :
    ready b s.this p prio = .error (.fail "Cannot mark a depeered handle as ready") := by
  rw [ready, I.sub, decide_eq_false mem]
  rfl

theorem depeer_in (I : Inv b s q) {p : Nat} (mem : p ∈ q.members) :
    ∃ this', depeer b s.this p = .ok this' ∧ this'.records = s.this.records ∧
      Inv b ⟨this', s.marked⟩ { q with members := q.members.erase p } ∧
        (this'.rts = true ↔ ∃ x ∈ q.members.erase p, b.low < (q.key x).1 ∨ q.key x = b.idle) := by
  obtain ⟨e, heap⟩ := I.heap
  obtain ⟨h', e', done, heap'⟩ := heap_remove heap p
  obtain ⟨rts, sent, due⟩ := resend b { s.this with heap := h', map := update s.this.map (q.value p).1 none } heap'
  refine ⟨{ s.this with heap := h', map := update s.this.map (q.value p).1 none, rts := rts }, ?_, rfl,
    ⟨⟨e', heap'⟩, ?_, ?_, ?_, I.unmarked⟩, due⟩
  · rw [depeer, I.sub]
    simp only [decide_eq_true mem, if_true, done, run, bind, Except.bind]
    exact sent
  · intro a x
    show update s.this.map (q.value p).1 none a = some x ↔ _
    rw [Finset.mem_erase]
    by_cases same : a = (q.value p).1
    · subst same
      simp only [update_self, reduceCtorEq, false_iff]
      intro ⟨⟨ne, xmem⟩, eq⟩
      have one := (I.map _ x).mpr ⟨xmem, eq⟩
      rw [(I.map _ p).mpr ⟨mem, rfl⟩] at one
      exact ne (Option.some.inj one).symm
    · rw [update_of_ne same, I.map]
      constructor
      · intro ⟨xmem, rfl⟩
        refine ⟨⟨?_, xmem⟩, rfl⟩
        intro same
        subst same
        exact same rfl
      · intro ⟨⟨_, xmem⟩, eq⟩
        exact ⟨xmem, eq⟩
  · exact fun x xmem => I.fresh x (Finset.mem_of_mem_erase xmem)
  · exact fun x xmem => I.prio x (Finset.mem_of_mem_erase xmem)

theorem depeer_out (I : Inv b s q) {p : Nat} (mem : p ∉ q.members) :
    depeer b s.this p = .error (.fail "Cannot depeer a depeered handle") := by
  rw [depeer, I.sub, decide_eq_false mem]
  rfl

theorem peer_free (I : Inv b s q) {a : A} (free : s.this.map a = none) (data : α) :
    ∃ this', peer b s.this a data = .ok this' ∧ this'.rts = s.this.rts ∧ this'.records = s.this.records + 1 ∧
      Inv b ⟨this', s.marked⟩ ⟨insert s.this.records q.members, update q.key s.this.records b.idle,
        update q.value s.this.records (a, b.mtu a b.maxMTU, data)⟩ := by
  obtain ⟨e, heap⟩ := I.heap
  have out : s.this.records ∉ q.members := fun mem => lt_irrefl _ (I.fresh _ mem)
  obtain ⟨h', e', done, heap'⟩ := heap_push (heap.wrap out b.idle (a, b.mtu a b.maxMTU, data)) s.this.records
  have ne : ∀ x ∈ q.members, x ≠ s.this.records := by
    intro x mem same
    subst same
    exact out mem
  refine ⟨{ s.this with map := update s.this.map a (some s.this.records), heap := h', records := s.this.records + 1 },
    ?_, rfl, rfl, ⟨⟨e', heap'⟩, ?_, ?_, ?_, ?_⟩⟩
  · simp only [peer, free, done, run, bind, Except.bind]
    rfl
  · intro a' x
    show update s.this.map a (some s.this.records) a' = some x ↔
      x ∈ insert s.this.records q.members ∧ (update q.value s.this.records _ x).1 = a'
    rw [Finset.mem_insert]
    by_cases new : x = s.this.records
    · subst new
      rw [update_self]
      by_cases same : a' = a
      · subst same
        simp
      · rw [update_of_ne same, I.map]
        constructor
        · intro old
          exact absurd old.1 out
        · intro new
          exact absurd new.2.symm same
    · rw [update_of_ne new]
      by_cases same : a' = a
      · subst same
        rw [update_self]
        constructor
        · intro eq
          exact absurd (Option.some.inj eq).symm new
        · intro old
          have taken := (I.map a' x).mpr ⟨old.1.resolve_left new, old.2⟩
          rw [free] at taken
          cases taken
      · rw [update_of_ne same, I.map]
        simp [new]
  · intro x mem
    rcases Finset.mem_insert.mp mem with rfl | mem
    · exact Nat.lt_succ_self _
    · exact (I.fresh x mem).trans (Nat.lt_succ_self _)
  · intro x mem
    rcases Finset.mem_insert.mp mem with rfl | mem
    · simp [I.unmarked _ (le_refl _), Base.idle]
    · simp [ne x mem, I.prio x mem]
  · exact fun x out => I.unmarked x ((Nat.le_succ _).trans out)

theorem peer_taken {a : A} {p : Nat} (taken : s.this.map a = some p) (data : α) :
    peer b s.this a data = .error .keyExists := by
  simp [peer, taken]

omit [DecidableEq A] in
/-- A transmission takes a first peer that is due and puts it back under a new number. -/
theorem transmit_due (I : Inv b s q) (due : ∃ x ∈ q.members, b.low < (q.key x).1 ∨ q.key x = b.idle) :
    ∃ p this', transmit b s.this = .ok (p, this') ∧ p ∈ q.members ∧ this'.rts = s.this.rts ∧
      this'.records = s.this.records ∧
      (∀ x ∈ q.members, (q.key x).1 ≤ (q.key p).1) ∧
        Inv b ⟨this', s.marked⟩ { q with key := update q.key p ((q.key p).1, s.this.serial) } := by
  obtain ⟨e, heap⟩ := I.heap
  obtain ⟨out, h', q', e', done, turn, heap'⟩ := heap.exec less_weak (.popBounded b.idle) nofun
  cases turn with
  | popBoundedNone _ late =>
    obtain ⟨x, mem, due⟩ := due
    have := late x mem
    rw [(due_iff b _).mpr due] at this
    cases this
  | popBounded _ p mem first _ =>
    obtain ⟨h'', e'', done', heap''⟩ := heap_bump heap' p ((q.key p).1, s.this.serial)
    obtain ⟨l, A⟩ := heap'.refines
    rw [Finset.insert_erase mem] at heap''
    refine ⟨p, { s.this with heap := h'', serial := s.this.serial + 1 }, ?_, mem, rfl, rfl, ?_,
      ⟨⟨e'', heap''⟩, I.map, I.fresh, ?_, I.unmarked⟩⟩
    · have popped : s.this.heap.popBounded less b.idle = .ok (some p, h') := done
      rw [transmit, popped]
      simp only [run, bind, Except.bind, A.sub, done']
      rfl
    · intro x xmem
      exact ((less_false_iff _ _).mp (first x xmem)).1
    · intro x xmem
      by_cases same : x = p
      · subst same
        simp [I.prio x mem]
      · simp [same, I.prio x xmem]

omit [DecidableEq A] in
theorem transmit_none (I : Inv b s q) (due : ¬ ∃ x ∈ q.members, b.low < (q.key x).1 ∨ q.key x = b.idle) :
    transmit b s.this = .error (.fail "Asked to transmit when not ready.") := by
  obtain ⟨e, heap⟩ := I.heap
  obtain ⟨out, h', q', e', done, turn, heap'⟩ := heap.exec less_weak (.popBounded b.idle) nofun
  cases turn with
  | popBoundedNone _ late =>
    have popped : s.this.heap.popBounded less b.idle = .ok (none, h') := done
    rw [transmit, popped]
    rfl
  | popBounded _ p mem first due' => exact absurd ⟨p, mem, (due_iff b _).mp due'⟩ due

omit [DecidableEq A] in
theorem Inv.ok' (I : Inv b s q) (p : Nat) (status : Bool) : ∃ q', Inv b ⟨ok' b s.this p status, s.marked⟩ q' ∧
    q'.members = q.members ∧ q'.key = q.key ∧ ∀ x, (q'.value x).2.2 = (q.value x).2.2 := by
  rw [PeerUdp.ok']
  split
  · exact ⟨q, I, rfl, rfl, fun _ => rfl⟩
  · obtain ⟨e, heap⟩ := I.heap
    obtain ⟨out, h', q', e', done, turn, heap'⟩ := heap.exec less_weak
      (.updateValue p ((q.value p).1, b.mtu (q.value p).1 (q.value p).2.1, (q.value p).2.2)) nofun
    cases done
    cases turn
    rw [I.sub]
    refine ⟨_, ⟨⟨e', heap'⟩, ?_, I.fresh, I.prio, I.unmarked⟩, rfl, rfl, ?_⟩
    · intro a x
      rw [I.map]
      by_cases same : x = p
      · subst same
        simp
      · simp [same]
    · intro x
      by_cases same : x = p
      · subst same
        simp
      · simp [same]

omit [DecidableEq A] in
theorem Inv.good (I : Inv b s q) : Good b s ↔ (s.this.rts = true ↔ ∃ p ∈ q.members, b.low < (q.key p).1) := by
  have better : (∃ p, Better b s p) ↔ ∃ p ∈ q.members, b.low < (q.key p).1 := exists_congr I.better
  constructor
  · intro good
    rw [← better]
    exact good.marked
  · intro marked
    refine ⟨marked.trans better.symm, ?_⟩
    intro on
    obtain ⟨x, mem, low⟩ := marked.mp on
    obtain ⟨p, this', done, pmem, -, -, first, -⟩ := transmit_due I ⟨x, mem, .inl low⟩
    exact ⟨p, this', done, (I.better p).mpr ⟨pmem, low.trans_le (first x mem)⟩⟩

omit [DecidableEq A] in
/-- When the socket has been told, it is right exactly if `idle` makes no difference. -/
theorem told_iff {m : Finset Nat} {k : Nat → K × UInt32} {rts : Bool}
    (told : rts = true ↔ ∃ x ∈ m, b.low < (k x).1 ∨ k x = b.idle) :
    (rts = true ↔ ∃ x ∈ m, b.low < (k x).1) ↔ (∃ x ∈ m, b.low < (k x).1) ∨ ∀ x ∈ m, k x ≠ b.idle := by
  rw [told]
  constructor
  · intro same
    by_cases better : ∃ x ∈ m, b.low < (k x).1
    · exact .inl better
    · right
      intro x mem idle
      exact better (same.mp ⟨x, mem, .inr idle⟩)
  · intro right
    constructor
    · rintro ⟨x, mem, low | idle⟩
      · exact ⟨x, mem, low⟩
      · exact right.resolve_right fun none => none x mem idle
    · intro ⟨x, mem, low⟩
      exact ⟨x, mem, .inl low⟩

omit [DecidableEq A] in
theorem Inv.otherBetter (I : Inv b s q) (p : Nat) :
    (∃ p' ≠ p, Better b s p') ↔ ∃ x ∈ q.members.erase p, b.low < (q.key x).1 := by
  simp only [I.better, Finset.mem_erase, and_assoc]

omit [DecidableEq A] in
theorem Inv.noIdle (I : Inv b s q) (p : Nat) : NoIdle b s p ↔ ∀ x ∈ q.members.erase p, q.key x ≠ b.idle := by
  simp only [NoIdle, I.inHeap, I.key, Finset.mem_erase, and_imp]

theorem step_ok (c : Call A K α) {this' : T A K α} (done : exec b s.this c = .ok this') :
    step b s c = ⟨this', mark s.marked c⟩ := by
  rw [step, done]

theorem step_error (c : Call A K α) {x : Exn} (raised : exec b s.this c = .error x) : step b s c = s := by
  rw [step, raised]

omit [LinearOrder K] in
theorem exists_update {m : Finset Nat} {k : Nat → K × UInt32} {p : Nat} (mem : p ∈ m) {v : K × UInt32} (P : K × UInt32 → Prop) :
    (∃ x ∈ m, P (update k p v x)) ↔ P v ∨ ∃ x ∈ m.erase p, P (k x) := by
  rw [← Finset.insert_erase mem, Finset.exists_mem_insert, update_self, Finset.erase_insert (Finset.notMem_erase p m)]
  apply or_congr_right
  apply exists_congr
  intro x
  apply and_congr_right
  intro xmem
  rw [update_of_ne (Finset.ne_of_mem_erase xmem)]

omit [LinearOrder K] in
theorem forall_update {m : Finset Nat} {k : Nat → K × UInt32} {p : Nat} (mem : p ∈ m) {v : K × UInt32} (P : K × UInt32 → Prop) :
    (∀ x ∈ m, P (update k p v x)) ↔ P v ∧ ∀ x ∈ m.erase p, P (k x) := by
  have not := not_congr (exists_update mem (v := v) (k := k) fun x => ¬ P x)
  simpa [not_or, not_exists, not_and] using not

/-- One call keeps the books, and the socket is right after it exactly if it is proper. -/
theorem Inv.step (I : Inv b s q) (c : Call A K α) :
    (∃ q', Inv b (step b s c) q') ∧ (Good b s → (Good b (step b s c) ↔ Proper b s c)) := by
  cases c with
  | peer a data =>
    cases taken : s.this.map a with
    | none =>
      obtain ⟨this', done, rts, -, I'⟩ := peer_free I taken data
      rw [step_ok (.peer a data) done]
      refine ⟨⟨_, I'⟩, ?_⟩
      intro good
      have out : s.this.records ∉ q.members := fun mem => lt_irrefl _ (I.fresh _ mem)
      refine iff_of_true (I'.good.mpr ?_) trivial
      show this'.rts = true ↔
        ∃ x ∈ insert s.this.records q.members, b.low < (update q.key s.this.records b.idle x).1
      rw [rts, I.good.mp good, Finset.exists_mem_insert, update_self]
      have none : ¬ b.low < b.idle.1 := lt_irrefl _
      rw [or_iff_right none]
      apply exists_congr
      intro x
      apply and_congr_right
      intro mem
      rw [update_of_ne]
      intro same
      subst same
      exact out mem
    | some p =>
      rw [step_error (.peer a data) (peer_taken taken data)]
      exact ⟨⟨q, I⟩, fun good => iff_of_true good trivial⟩
  | depeer p =>
    by_cases mem : p ∈ q.members
    · obtain ⟨this', done, -, I', told⟩ := depeer_in I mem
      rw [step_ok (.depeer p) done]
      refine ⟨⟨_, I'⟩, ?_⟩
      intro _
      show Good b ⟨this', s.marked⟩ ↔ _
      rw [I'.good, Proper, I.inHeap, forall_prop_of_true mem, I.otherBetter, I.noIdle]
      exact told_iff told
    · rw [step_error (.depeer p) (depeer_out I mem)]
      refine ⟨⟨q, I⟩, ?_⟩
      intro good
      exact iff_of_true good fun live => absurd ((I.inHeap p).mp live) mem
  | ready p prio =>
    by_cases mem : p ∈ q.members
    · obtain ⟨this', done, -, I', told⟩ := ready_in I mem prio
      rw [step_ok (.ready p prio) done]
      refine ⟨⟨_, I'⟩, ?_⟩
      intro _
      rw [I'.good, Proper, I.inHeap, forall_prop_of_true mem]
      refine (told_iff told).trans ?_
      rw [exists_update mem fun k => b.low < k.1, forall_update mem fun k => k ≠ b.idle, or_assoc, I.otherBetter, I.noIdle, I.key]
    · rw [step_error (.ready p prio) (ready_out I mem prio)]
      refine ⟨⟨q, I⟩, ?_⟩
      intro good
      exact iff_of_true good fun live => absurd ((I.inHeap p).mp live) mem
  | transmit =>
    by_cases due : ∃ x ∈ q.members, b.low < (q.key x).1 ∨ q.key x = b.idle
    · obtain ⟨p, this', done, mem, rts, -, first, I'⟩ := transmit_due I due
      have done' : exec b s.this (.transmit : Call A K α) = .ok this' := by
        rw [exec, done]
        rfl
      rw [step_ok _ done']
      refine ⟨⟨_, I'⟩, ?_⟩
      intro good
      refine iff_of_true (I'.good.mpr ?_) trivial
      show this'.rts = true ↔ _
      rw [rts, I.good.mp good]
      apply exists_congr
      intro x
      by_cases same : x = p
      · subst same
        simp
      · simp [same]
    · have raised : exec b s.this (.transmit : Call A K α) = .error (.fail "Asked to transmit when not ready.") := by
        rw [exec, transmit_none I due]
        rfl
      rw [step_error _ raised]
      exact ⟨⟨q, I⟩, fun good => iff_of_true good trivial⟩
  | ok' p status =>
    obtain ⟨q', I', members, keys, -⟩ := I.ok' p status
    rw [step_ok (.ok' p status) rfl]
    refine ⟨⟨q', I'⟩, ?_⟩
    intro good
    refine iff_of_true (I'.good.mpr ?_) trivial
    rw [members, keys]
    have rts : (PeerUdp.ok' b s.this p status).rts = s.this.rts := by
      unfold PeerUdp.ok'
      split <;> rfl
    exact rts ▸ I.good.mp good

theorem inv_runs [Inhabited A] [Inhabited α] (b : Base A K) (calls : List (Call A K α)) : ∃ q, Inv b (runs b calls) q := by
  induction calls using List.reverseRecOn with
  | nil =>
    refine ⟨⟨∅, fun _ => b.idle, fun _ => default⟩, ⟨[], ManagedHeap.kept_new _ _, BinHeap.ordered_nil, rfl⟩, ?_, ?_, ?_, ?_⟩
    · intro a p
      simp [runs, start, new]
    · nofun
    · nofun
    · exact fun _ _ => rfl
  | append_singleton calls c ih =>
    obtain ⟨q, I⟩ := ih
    rw [runs, List.foldl_append]
    exact (I.step c).1

/-- In every state the socket is right exactly if every call is proper. -/
theorem good_iff [Inhabited A] [Inhabited α] (b : Base A K) (calls : List (Call A K α)) :
    (∀ k, Good b (runs b (calls.take k))) ↔ Settled b calls := by
  have next : ∀ k c, calls[k]? = some c → runs b (calls.take (k + 1)) = step b (runs b (calls.take k)) c := by
    intro k c mem
    rw [List.take_add_one, mem]
    simp [runs]
  constructor
  · intro good k c mem
    obtain ⟨q, I⟩ := inv_runs b (calls.take k)
    rw [← (I.step c).2 (good k), ← next k c mem]
    exact good (k + 1)
  · intro settled k
    induction k with
    | zero =>
      refine ⟨⟨nofun, ?_⟩, nofun⟩
      intro ⟨p, live, _⟩
      cases live
    | succ k ih =>
      obtain ⟨q, I⟩ := inv_runs b (calls.take k)
      cases mem : calls[k]? with
      | none =>
        have all : calls.take (k + 1) = calls.take k := by
          rw [List.take_add_one, mem]
          simp
        rw [all]
        exact ih
      | some c =>
        rw [next k c mem]
        exact ((I.step c).2 ih).mpr (settled k c mem)

/-! ## The end point -/

namespace EndPoint

/-- What the end point keeps with a peer. -/
inductive Record where
  | host
  | lifeLine
  deriving Repr, DecidableEq, Inhabited

structure State (A K : Type) where
  udp : St A K Record
  lifeLines : List Nat
  destroyed : Bool

/-- What happens at an end point. The loops over the life lines and over the peers are
    taken a peer at a time. -/
inductive Event (A K : Type) where
  /-- Somebody is contacted, reconnected, or heard of. -/
  | create (address : A)
  /-- A channel signals its priority, or with NaN that it is dead. -/
  | channelRTS (peer : Nat) (prio : Option K)
  | ping (index : Nat)
  /-- `setNATLifeLine` gives up the first of the old life lines. -/
  | clear
  | setNATLifeLine (address : A)
  | destroy
  | killRecord (peer : Nat)
  /-- The socket below transmits. -/
  | send
  | ok' (peer : Nat) (status : Bool)
  deriving Repr, DecidableEq

/-- The peer of the next transmission, if there is one. -/
def sendTo (b : Base A K) (s : State A K) : Option Nat :=
  match transmit b s.udp.this with
  | .ok (peer, _) => some peer
  | .error _ => none

/-- The calls that the end point makes. -/
def calls (b : Base A K) (s : State A K) : Event A K → List (Call A K Record)
  | .create address => if (s.udp.this.map address).isSome then [] else [.peer address .host]
  | .channelRTS peer prio =>
    match status s.udp.this peer with
    | (_, .host, some old) =>
      if prio = some old then []
      else
        match prio with
        | none => [.depeer peer]
        | some prio => [.ready peer prio]
    | _ => []
  | .ping index =>
    if s.destroyed then []
    else
      match s.lifeLines[index]? with
      | some peer => [.ready peer b.posInf]
      | none => []
  | .clear =>
    match s.lifeLines with
    | peer :: _ => [.depeer peer]
    | [] => []
  | .setNATLifeLine address => if (s.udp.this.map address).isSome then [] else [.peer address .lifeLine]
  | .destroy => []
  | .killRecord peer => if s.destroyed ∧ (status s.udp.this peer).2.2.isSome then [.depeer peer] else []
  | .send =>
    if s.udp.this.rts then
      match sendTo b s with
      | some peer =>
        -- Send a ping
        if (status s.udp.this peer).2.1 = .lifeLine then [.transmit, .ready peer b.negInf] else [.transmit]
      | none => [.transmit]
    else []
  | .ok' peer status => [.ok' peer status]

def step (b : Base A K) (s : State A K) (e : Event A K) : State A K :=
  let udp := (calls b s e).foldl (PeerUdp.step b) s.udp
  match e with
  | .clear => ⟨udp, s.lifeLines.tail, s.destroyed⟩
  | .setNATLifeLine address =>
    if (s.udp.this.map address).isSome then ⟨udp, s.lifeLines, s.destroyed⟩
    else ⟨udp, s.lifeLines ++ [s.udp.this.records], s.destroyed⟩
  | .destroy => ⟨udp, s.lifeLines, true⟩
  | _ => ⟨udp, s.lifeLines, s.destroyed⟩

variable [Inhabited A]

def run (b : Base A K) (events : List (Event A K)) : State A K := events.foldl (step b) ⟨start b, [], false⟩

def calls' (b : Base A K) : State A K → List (Event A K) → List (Call A K Record)
  | _, [] => []
  | s, e :: events => calls b s e ++ calls' b (step b s e) events

/-- The calls of a run. -/
def trace (b : Base A K) (events : List (Event A K)) : List (Call A K Record) := calls' b ⟨start b, [], false⟩ events

/-- The life lines are given up only while they are peers: the end point is not destroyed. -/
def Lives (b : Base A K) (events : List (Event A K)) : Prop :=
  ∀ k, events[k]? = some .clear → (run b (events.take k)).destroyed = true → (run b (events.take k)).lifeLines = []

/-- None of the calls raises. -/
def Done (b : Base A K) : St A K Record → List (Call A K Record) → Prop
  | _, [] => True
  | s, c :: calls => (∃ this', exec b s.this c = .ok this') ∧ Done b (PeerUdp.step b s c) calls

/-- The life lines are peers until the end point is destroyed, and the channels are of others. -/
structure Inv (b : Base A K) (s : State A K) (q : ManagedHeap.Queue Nat (K × UInt32) (A × Int × Record)) : Prop where
  udp : PeerUdp.Inv b s.udp q
  known : ∀ p ∈ s.lifeLines, p < s.udp.this.records
  tag : ∀ p ∈ s.lifeLines, (q.value p).2.2 = .lifeLine
  nodup : s.lifeLines.Nodup
  live : s.destroyed = false → ∀ p ∈ s.lifeLines, p ∈ q.members

variable {s : State A K} {q : ManagedHeap.Queue Nat (K × UInt32) (A × Int × Record)}

/-- A call that keeps the life lines: it is done, and leaves the peers in order. -/
def Keeps (b : Base A K) (s : State A K) (c : Call A K Record) : Prop :=
  (∃ this', exec b s.udp.this c = .ok this') ∧ ∃ q, Inv b { s with udp := PeerUdp.step b s.udp c } q

omit [Inhabited A] in
theorem Inv.ready (I : Inv b s q) {p : Nat} (mem : p ∈ q.members) (prio : K) : Keeps b s (.ready p prio) := by
  obtain ⟨this', done, records, I', -⟩ := ready_in I.udp mem prio
  rw [Keeps, step_ok (.ready p prio) done]
  exact ⟨⟨this', done⟩, _, I', fun x line => (I.known x line).trans_eq records.symm, I.tag, I.nodup, I.live⟩

omit [Inhabited A] in
theorem Inv.depeer (I : Inv b s q) {p : Nat} (mem : p ∈ q.members) (away : s.destroyed = false → p ∉ s.lifeLines) :
    Keeps b s (.depeer p) := by
  obtain ⟨this', done, records, I', -⟩ := depeer_in I.udp mem
  rw [Keeps, step_ok (.depeer p) done]
  refine ⟨⟨this', done⟩, _, I', fun x line => (I.known x line).trans_eq records.symm, I.tag, I.nodup, ?_⟩
  intro alive x line
  refine Finset.mem_erase.mpr ⟨?_, I.live alive x line⟩
  intro same
  subst same
  exact away alive line

omit [Inhabited A] in
theorem Inv.peer (I : Inv b s q) {a : A} (free : s.udp.this.map a = none) (data : Record) :
    (∃ this', exec b s.udp.this (.peer a data) = .ok this' ∧ this'.records = s.udp.this.records + 1) ∧
      ∃ q', Inv b { s with udp := PeerUdp.step b s.udp (.peer a data) } q' ∧ s.udp.this.records ∈ q'.members ∧
        (q'.value s.udp.this.records).2.2 = data := by
  obtain ⟨this', done, -, records, I'⟩ := peer_free I.udp free data
  rw [step_ok (.peer a data) done]
  refine ⟨⟨this', done, records⟩, _, ⟨I', ?_, ?_, I.nodup, ?_⟩, Finset.mem_insert_self _ _, by simp⟩
  · intro x line
    exact ((I.known x line).trans (Nat.lt_succ_self _)).trans_eq records.symm
  · intro x line
    simp [(I.known x line).ne, I.tag x line]
  · exact fun alive x line => Finset.mem_insert_of_mem (I.live alive x line)

omit [Inhabited A] in
theorem Inv.transmit (I : Inv b s q) (good : Good b s.udp) (on : s.udp.this.rts = true) :
    ∃ p, sendTo b s = some p ∧ (∃ this', exec b s.udp.this .transmit = .ok this') ∧
      ∃ q', Inv b { s with udp := PeerUdp.step b s.udp .transmit } q' ∧ p ∈ q'.members := by
  obtain ⟨x, mem, low⟩ := (I.udp.good.mp good).mp on
  obtain ⟨p, this', done, pmem, -, records, -, I'⟩ := transmit_due I.udp ⟨x, mem, .inl low⟩
  have done' : exec b s.udp.this (.transmit : Call A K Record) = .ok this' := by
    rw [exec, done]
    rfl
  rw [step_ok _ done', sendTo, done]
  exact ⟨p, rfl, ⟨this', done'⟩, _, ⟨I', fun x line => (I.known x line).trans_eq records.symm, I.tag, I.nodup, I.live⟩, pmem⟩

omit [Inhabited A] in
theorem Inv.ok' (I : Inv b s q) (p : Nat) (status : Bool) : Keeps b s (.ok' p status) := by
  obtain ⟨q', I', members, -, tags⟩ := I.udp.ok' p status
  refine ⟨⟨_, rfl⟩, q', ?_⟩
  rw [step_ok (.ok' p status) rfl]
  refine ⟨I', ?_, ?_, I.nodup, ?_⟩
  · intro x line
    show x < (PeerUdp.ok' b s.udp.this p status).records
    unfold PeerUdp.ok'
    split <;> exact I.known x line
  · intro x line
    rw [tags, I.tag x line]
  · intro alive x line
    rw [members]
    exact I.live alive x line

omit [Inhabited A] [DecidableEq A] in
theorem Inv.status (I : Inv b s q) (p : Nat) :
    status s.udp.this p = ((q.value p).1, (q.value p).2.2, if p ∈ q.members then some (q.key p).1 else none) := by
  rw [PeerUdp.status, I.udp.sub]
  simp

/-- What an event calls is done, and leaves the life lines in order. -/
def Fine (b : Base A K) (s : State A K) (e : Event A K) : Prop :=
  Done b s.udp (calls b s e) ∧ ∃ q, Inv b (step b s e) q

omit [Inhabited A] in
/-- An event that makes no call, or one that keeps the life lines. -/
theorem Keeps.fine {e : Event A K} {c : Call A K Record} (one : calls b s e = [c]) (keeps : Keeps b s c)
    (same : step b s e = { s with udp := (calls b s e).foldl (PeerUdp.step b) s.udp }) : Fine b s e := by
  rw [Fine, same, one]
  exact ⟨⟨keeps.1, trivial⟩, keeps.2⟩

omit [Inhabited A] in
theorem Inv.fine_nil (I : Inv b s q) {e : Event A K} (none : calls b s e = [])
    (same : step b s e = { s with udp := (calls b s e).foldl (PeerUdp.step b) s.udp }) : Fine b s e := by
  rw [Fine, same, none]
  exact ⟨trivial, q, I⟩

omit [Inhabited A] in
theorem Inv.fine (I : Inv b s q) (good : Good b s.udp) (e : Event A K)
    (lives : e = .clear → s.destroyed = true → s.lifeLines = []) : Fine b s e := by
  cases e with
  | create a =>
    cases taken : s.udp.this.map a with
    | none =>
      refine Keeps.fine (c := .peer a .host) (by simp [calls, taken]) ?_ rfl
      obtain ⟨⟨this', done, -⟩, q', I', -⟩ := I.peer taken .host
      exact ⟨⟨this', done⟩, q', I'⟩
    | some p => exact I.fine_nil (by simp [calls, taken]) rfl
  | channelRTS p prio =>
    by_cases host : p ∈ q.members ∧ (q.value p).2.2 = .host ∧ prio ≠ some (q.key p).1
    · obtain ⟨mem, host, new⟩ := host
      have away : p ∉ s.lifeLines := by
        intro line
        rw [I.tag p line] at host
        cases host
      cases prio with
      | none => exact Keeps.fine (c := .depeer p) (by simp [calls, I.status, mem, host]) (I.depeer mem fun _ => away) rfl
      | some prio =>
        refine Keeps.fine (c := .ready p prio) ?_ (I.ready mem prio) rfl
        simp [calls, I.status, mem, host]
        exact fun same => new (congrArg some same)
    · refine I.fine_nil ?_ rfl
      simp only [calls, I.status]
      split
      · rename_i old eq
        simp only [Prod.mk.injEq] at eq
        obtain ⟨-, host', eq⟩ := eq
        split at eq
        · rename_i mem
          rw [if_pos]
          by_contra new
          exact host ⟨mem, host', fun same => new (same.trans eq)⟩
        · cases eq
      · rfl
  | ping i =>
    by_cases gone : s.destroyed = true
    · exact I.fine_nil (by simp [calls, gone]) rfl
    · cases line : s.lifeLines[i]? with
      | none => exact I.fine_nil (by simp [calls, line]) rfl
      | some p =>
        refine Keeps.fine (c := .ready p b.posInf) (by simp [calls, gone, line]) ?_ rfl
        exact I.ready (I.live (by simpa using gone) p (List.mem_of_getElem? line)) _
  | clear =>
    cases lines : s.lifeLines with
    | nil => exact I.fine_nil (by simp [calls, lines]) (by simp [step, lines])
    | cons p rest =>
      have alive : s.destroyed = false := by
        by_contra gone
        have := lives rfl (by simpa using gone)
        rw [lines] at this
        cases this
      have nodup := lines ▸ I.nodup
      have old : ∀ x ∈ rest, x ∈ s.lifeLines := fun x mem => lines ▸ List.mem_cons_of_mem p mem
      have I' : Inv b { s with lifeLines := rest } q := ⟨I.udp, fun x mem => I.known x (old x mem), fun x mem => I.tag x (old x mem),
        (List.nodup_cons.mp nodup).2, fun alive x mem => I.live alive x (old x mem)⟩
      have mem := I.live alive p (lines ▸ List.mem_cons_self)
      obtain ⟨done, q', J⟩ := I'.depeer mem fun _ => (List.nodup_cons.mp nodup).1
      have one : calls b s .clear = [.depeer p] := by simp [calls, lines]
      refine ⟨?_, q', ?_⟩
      · rw [one]
        exact ⟨done, trivial⟩
      · simp only [step, one, lines]
        exact J
  | setNATLifeLine a =>
    cases taken : s.udp.this.map a with
    | none =>
      obtain ⟨⟨this', done, records⟩, q', J, mem, tag⟩ := I.peer taken .lifeLine
      have one : calls b s (.setNATLifeLine a) = [.peer a .lifeLine] := by simp [calls, taken]
      refine ⟨?_, q', ?_⟩
      · rw [one]
        exact ⟨⟨this', done⟩, trivial⟩
      · simp only [step, one, taken]
        have last : s.udp.this.records < (PeerUdp.step b s.udp (.peer a .lifeLine)).this.records := by
          rw [PeerUdp.step, done]
          exact (Nat.lt_succ_self _).trans_eq records.symm
        refine ⟨J.udp, ?_, ?_, ?_, ?_⟩
        · intro x line
          rcases List.mem_append.mp line with line | line
          · exact J.known x line
          · cases List.mem_singleton.mp line
            exact last
        · intro x line
          rcases List.mem_append.mp line with line | line
          · exact J.tag x line
          · cases List.mem_singleton.mp line
            exact tag
        · refine List.nodup_append.mpr ⟨I.nodup, List.nodup_singleton _, ?_⟩
          intro x line y new
          cases List.mem_singleton.mp new
          exact (I.known x line).ne
        · intro alive x line
          rcases List.mem_append.mp line with line | line
          · exact J.live alive x line
          · cases List.mem_singleton.mp line
            exact mem
    | some p => exact I.fine_nil (by simp [calls, taken]) (by simp [step, taken])
  | destroy => exact ⟨trivial, q, I.udp, I.known, I.tag, I.nodup, nofun⟩
  | killRecord p =>
    by_cases gone : s.destroyed = true ∧ p ∈ q.members
    · refine Keeps.fine (c := .depeer p) (by simp [calls, I.status, gone]) (I.depeer gone.2 ?_) rfl
      intro alive
      rw [gone.1] at alive
      cases alive
    · refine I.fine_nil ?_ rfl
      simp only [calls, I.status]
      rw [if_neg]
      simpa using gone
  | send =>
    by_cases on : s.udp.this.rts = true
    · obtain ⟨p, first, done, q', I', mem⟩ := I.transmit good on
      by_cases line : (q.value p).2.2 = .lifeLine
      · have two : calls b s .send = [.transmit, .ready p b.negInf] := by simp [calls, on, first, I.status, line]
        obtain ⟨done', q'', I''⟩ := I'.ready mem b.negInf
        refine ⟨?_, q'', ?_⟩
        · rw [two]
          exact ⟨done, done', trivial⟩
        · simp only [step, two]
          exact I''
      · exact Keeps.fine (c := .transmit) (by simp [calls, on, first, I.status, line]) ⟨done, q', I'⟩ rfl
    · exact I.fine_nil (by simp [calls, on]) rfl
  | ok' p status => exact Keeps.fine rfl (I.ok' p status) rfl

omit [Inhabited A] in
theorem calls'_append (b : Base A K) (events events' : List (Event A K)) :
    ∀ s : State A K, calls' b s (events ++ events') = calls' b s events ++ calls' b (events.foldl (step b) s) events' := by
  induction events with
  | nil => exact fun _ => rfl
  | cons e events ih =>
    intro s
    rw [List.cons_append, calls', ih, calls', List.append_assoc]
    rfl

omit [Inhabited A] in
theorem done_append (b : Base A K) (l l' : List (Call A K Record)) :
    ∀ s : St A K Record, Done b s (l ++ l') ↔ Done b s l ∧ Done b (l.foldl (PeerUdp.step b) s) l' := by
  induction l with
  | nil => exact fun _ => (and_iff_right trivial).symm
  | cons c l ih =>
    intro s
    rw [List.cons_append, Done, ih, Done, and_assoc]
    rfl

omit [Inhabited A] in
theorem step_udp (b : Base A K) (s : State A K) (e : Event A K) :
    (step b s e).udp = (calls b s e).foldl (PeerUdp.step b) s.udp := by
  cases e with
  | setNATLifeLine a =>
    simp only [step]
    split <;> rfl
  | _ => rfl

theorem run_udp (b : Base A K) (events : List (Event A K)) : (run b events).udp = runs b (trace b events) := by
  induction events using List.reverseRecOn with
  | nil => rfl
  | append_singleton events e ih =>
    have last : trace b (events ++ [e]) = trace b events ++ calls b (run b events) e := by
      rw [trace, calls'_append]
      exact congrArg _ (List.append_nil _)
    rw [last, runs, List.foldl_append]
    rw [runs] at ih
    rw [← ih, ← step_udp]
    simp [run]

/-- In a settled run nothing raises, while life lines are given up only when they live. -/
theorem done_run (b : Base A K) (events : List (Event A K)) (settled : Settled b (trace b events)) (lives : Lives b events) :
    Done b (start b) (trace b events) ∧ ∃ q, Inv b (run b events) q := by
  induction events using List.reverseRecOn with
  | nil =>
    obtain ⟨q, I⟩ := inv_runs b ([] : List (Call A K Record))
    exact ⟨trivial, q, I, nofun, nofun, List.nodup_nil, fun _ => nofun⟩
  | append_singleton events e ih =>
    have last : trace b (events ++ [e]) = trace b events ++ calls b (run b events) e := by
      rw [trace, calls'_append]
      exact congrArg _ (List.append_nil _)
    rw [last] at settled ⊢
    have before : Settled b (trace b events) := by
      intro k c mem
      have short := (List.getElem?_eq_some_iff.mp mem).1
      have := settled k c (by rw [List.getElem?_append_left short, mem])
      rwa [List.take_append_of_le_length short.le] at this
    have lives' : Lives b events := by
      intro k mem
      have short := (List.getElem?_eq_some_iff.mp mem).1
      have := lives k (by rw [List.getElem?_append_left short, mem])
      rwa [List.take_append_of_le_length short.le] at this
    obtain ⟨done, q, I⟩ := ih before lives'
    have good : Good b (run b events).udp := by
      rw [run_udp]
      have := (good_iff b (trace b events)).mpr before (trace b events).length
      rwa [List.take_length] at this
    obtain ⟨done', J⟩ := I.fine good e (by
      intro same
      subst same
      have := lives events.length
      simpa using this)
    refine ⟨(done_append b _ _ _).mpr ⟨done, ?_⟩, ?_⟩
    · have : (trace b events).foldl (PeerUdp.step b) (start b) = (run b events).udp := (run_udp b events).symm
      rwa [this]
    · simpa [run] using J

end EndPoint

/-- The map and the heap hold the same peers in every run; the socket is ready exactly for
    the peers that are better than idle if every call is proper, and then nothing that
    the end point calls raises. -/
theorem peers_scheduled [Inhabited A] [Inhabited α] (b : Base A K) :
    (∀ calls : List (Call A K α), Same (runs b calls)) ∧
      (∀ calls : List (Call A K α), (∀ k, Good b (runs b (calls.take k))) ↔ Settled b calls) ∧
        ∀ events : List (EndPoint.Event A K), Settled b (EndPoint.trace b events) → EndPoint.Lives b events →
          EndPoint.Done b (start b) (EndPoint.trace b events) := by
  refine ⟨?_, good_iff b, ?_⟩
  · intro calls
    obtain ⟨q, I⟩ := inv_runs b calls
    exact I.same
  · exact fun events settled lives => (EndPoint.done_run b events settled lives).1

/-- Integers for priorities. -/
def integers : Base Nat Int := ⟨-1, -100, 100, fun _ mtu => mtu, 1400⟩

/-- A peer that is marked and transmitted to. -/
theorem peers_scheduled_one :
    EndPoint.Done integers (start integers) (EndPoint.trace integers [.create 8, .channelRTS 0 (some 5), .send]) := by
  apply (peers_scheduled (α := Unit) integers).2.2
  · have calls : EndPoint.trace integers [.create 8, .channelRTS 0 (some 5), .send] = [.peer 8 .host, .ready 0 5, .transmit] := by
      decide +kernel
    intro k c mem
    rw [calls] at mem ⊢
    match k, mem with
    | 0, mem | 2, mem =>
      cases mem
      trivial
    | 1, mem =>
      cases mem
      exact fun _ => .inl (by decide)
  · intro k clear
    match k with
    | 0 | 1 | 2 | k + 3 => simp at clear

/-- A life line, and a peer whose channel has nothing more to send. -/
def fresh : List (EndPoint.Event Nat Int) :=
  [.setNATLifeLine 7, .create 8, .channelRTS 1 (some 5), .channelRTS 1 (some (-50))]

/-- The life line was never marked, and the socket is ready for it. -/
theorem fresh_sent : ¬ ∀ (events : List (EndPoint.Event Nat Int)) (k : Nat),
    Good integers (runs integers ((EndPoint.trace integers events).take k)) := by
  intro good
  obtain ⟨p, live, prio, marked, better⟩ := (good fresh 4).marked.mp (by decide +kernel)
  obtain ⟨q, I⟩ := inv_runs integers ((EndPoint.trace integers fresh).take 4)
  have known : p < 2 := (I.fresh p ((I.inHeap p).mp live)).trans_eq (by decide +kernel)
  have none : (runs integers ((EndPoint.trace integers fresh).take 4)).marked 0 = none := by decide +kernel
  have low : (runs integers ((EndPoint.trace integers fresh).take 4)).marked 1 = some (-50) := by decide +kernel
  rcases Nat.lt_succ_iff_lt_or_eq.mp known with known | rfl
  · rw [Nat.lt_one_iff.mp known, none] at marked
    cases marked
  · rw [low] at marked
    cases marked
    exact absurd better (by decide)

end BubbleStorm.System.Udp.PeerUdp
