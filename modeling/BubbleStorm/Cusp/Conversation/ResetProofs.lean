/-
  BubbleStorm.Cusp.Conversation.ResetProofs — what a reset leaves.

  A callback that registers an operation can leave it behind, even on a stream that exists
  (`left_behind`). And `done` unregisters before it completes, and runs the callbacks of
  `close` after that: a reset from inside the completion of the last outgoing operation
  finds nothing to do, and they run when that completion returns. For the rest
  (`reset_empties`), from every reachable state: the loops end, every callback was called
  once, and nothing is left.

  The argument: the heaps hold exactly the records that the streams wait to call (`Books`),
  so the reset of the first record's stream takes that record out, and code that registers
  nothing ends, by induction on the records left (`ends`).
-/

import BubbleStorm.Cusp.Conversation.Quota
import BubbleStorm.Cusp.Conversation.ResetStreams
import Mathlib.Data.List.Perm.Basic

namespace BubbleStorm.Cusp.Conversation.Reset

open BubbleStorm.Cusp.Stream
open Function (update update_idem update_of_ne update_self)

/-! ## The records and what the streams wait for -/

def waits (s : St) (i : Nat) : Side → Option Nat
  | .inn => (s.ins i).reader
  | .out => awaits (s.outs i)

def setWait (waits : Nat → Side → Option Nat) (i : Nat) (d : Side) (w : Option Nat) : Nat → Side → Option Nat :=
  fun j e => if j = i ∧ e = d then w else waits j e

theorem setWait_congr {f g : Nat → Side → Option Nat} {i : Nat} {d : Side}
    (same : ∀ j e, ¬(j = i ∧ e = d) → f j e = g j e) (w : Option Nat) : setWait f i d w = setWait g i d w := by
  funext j e
  unfold setWait
  split
  · rfl
  · rename_i other
    exact same j e other

theorem setWait_self (f : Nat → Side → Option Nat) (i : Nat) (d : Side) : setWait f i d (f i d) = f := by
  funext j e
  unfold setWait
  split
  · rename_i here
    rw [here.1, here.2]
  · rfl

theorem setWait_setWait (f : Nat → Side → Option Nat) (i : Nat) (d : Side) (w w' : Option Nat) :
    setWait (setWait f i d w) i d w' = setWait f i d w' := setWait_congr (fun _ _ other => if_neg other) w'

/-- Every record made is called or in its heap, once, and those in the heaps are the ones
    that the streams wait to call. -/
structure Books (heap : Side → List Record) (waits : Nat → Side → Option Nat) (called : List Nat) (next : Nat) : Prop where
  all : (called ++ (heap .inn ++ heap .out).map Record.id).Perm (List.range next)
  live : ∀ i d id, waits i d = some id ↔ ∃ r ∈ heap d, r.id = id ∧ r.stream = i

section books

variable {heap : Side → List Record} {waits : Nat → Side → Option Nat} {called : List Nat} {next i id : Nat} {d : Side}

theorem Books.nodup (B : Books heap waits called next) (d : Side) : ((heap d).map Record.id).Nodup := by
  have all : (called ++ (heap .inn ++ heap .out).map Record.id).Nodup := B.all.nodup_iff.mpr List.nodup_range
  rw [List.map_append] at all
  have heaps := (List.nodup_append'.mp all).2.1
  cases d with
  | inn => exact (List.nodup_append'.mp heaps).1
  | out => exact (List.nodup_append'.mp heaps).2.1

theorem unregister_perm {h : List Record} {r : Record} (mem : r ∈ h) (nodup : (h.map Record.id).Nodup) :
    h.Perm (r :: unregister h r.id) := by
  have found : h.find? (·.id == r.id) = some r := by
    cases here : h.find? (·.id == r.id) with
    | none =>
      have := List.find?_eq_none.mp here r mem
      simp at this
    | some x =>
      have eq : x.id = r.id := by simpa using List.find?_some here
      rw [List.inj_on_of_nodup_map nodup (List.mem_of_find?_eq_some here) mem eq]
  unfold unregister
  rw [found]
  exact heapRemove_perm mem nodup

theorem Books.congr (B : Books heap waits called next) {heap' : Side → List Record} (perm : ∀ d, (heap' d).Perm (heap d)) :
    Books heap' waits called next where
  all := (((perm .inn).append (perm .out)).map Record.id).append_left called |>.trans B.all
  live := by
    intro i d id
    rw [B.live]
    constructor
    · intro ⟨r, mem, is⟩
      exact ⟨r, (perm d).mem_iff.mpr mem, is⟩
    · intro ⟨r, mem, is⟩
      exact ⟨r, (perm d).mem_iff.mp mem, is⟩

theorem Books.answer (B : Books heap waits called next) (waiting : waits i d = some id) :
    Books (update heap d (unregister (heap d) id)) (setWait waits i d none) (called ++ [id]) next := by
  obtain ⟨r, mem, rfl, rfl⟩ := (B.live i d id).mp waiting
  have perm := unregister_perm mem (B.nodup d)
  have gone : r ∉ unregister (heap d) r.id := by
    have := (perm.map Record.id).nodup_iff.mp (B.nodup d)
    exact fun again => (List.nodup_cons.mp this).1 (List.mem_map_of_mem again)
  constructor
  · refine List.Perm.trans ?_ B.all
    rw [List.append_assoc]
    refine List.Perm.append_left called ?_
    cases d with
    | inn =>
      rw [update_self, update_of_ne (by decide)]
      exact ((perm.append_right _).map Record.id).symm
    | out =>
      rw [update_self, update_of_ne (by decide), List.map_append, List.map_append]
      have middle : (r.id :: ((heap .inn).map Record.id ++ (unregister (heap .out) r.id).map Record.id)).Perm
          ((heap .inn).map Record.id ++ r.id :: (unregister (heap .out) r.id).map Record.id) := List.perm_middle.symm
      exact middle.trans ((perm.map Record.id).symm.append_left _)
  · intro j e id'
    unfold setWait
    by_cases side : e = d
    · subst side
      rw [update_self]
      by_cases stream : j = r.stream
      · rw [if_pos ⟨stream, rfl⟩]
        refine ⟨nofun, ?_⟩
        intro ⟨r', mem', _, at'⟩
        have same : waits j e = some r'.id := (B.live j e r'.id).mpr ⟨r', perm.mem_iff.mpr (List.mem_cons_of_mem _ mem'), rfl, at'⟩
        rw [stream, waiting] at same
        have eq := List.inj_on_of_nodup_map (B.nodup e) mem (perm.mem_iff.mpr (List.mem_cons_of_mem _ mem')) (Option.some.inj same)
        exact absurd (eq ▸ mem') gone
      · rw [if_neg fun h => stream h.1, B.live]
        constructor
        · intro ⟨r', mem', is, at'⟩
          rcases List.mem_cons.mp (perm.mem_iff.mp mem') with rfl | mem'
          · exact absurd at'.symm stream
          · exact ⟨r', mem', is, at'⟩
        · intro ⟨r', mem', is⟩
          exact ⟨r', perm.mem_iff.mpr (List.mem_cons_of_mem _ mem'), is⟩
    · rw [update_of_ne side, if_neg fun h => side h.2]
      exact B.live j e id'

theorem Books.register (B : Books heap waits called next) (idle : waits i d = none) {r : Record} (made : r.id = next) (at' : r.stream = i)
    {h : List Record} (perm : h.Perm (r :: heap d)) : Books (update heap d h) (setWait waits i d (some next)) called (next + 1) := by
  constructor
  · rw [List.range_succ]
    refine List.Perm.trans ?_ (B.all.append_right [next])
    rw [List.append_assoc]
    refine List.Perm.append_left called ?_
    rw [← made]
    cases d with
    | inn =>
      rw [update_self, update_of_ne (by decide)]
      exact ((perm.append_right _).map Record.id).trans (List.perm_append_singleton _ _).symm
    | out =>
      rw [update_self, update_of_ne (by decide), List.map_append, List.map_append]
      refine ((perm.map Record.id).append_left _).trans ?_
      exact List.perm_middle.trans (List.perm_append_singleton _ _).symm
  · intro j e id'
    unfold setWait
    by_cases side : e = d
    · subst side
      rw [update_self]
      by_cases stream : j = i
      · rw [if_pos ⟨stream, rfl⟩]
        constructor
        · intro eq
          exact ⟨r, perm.mem_iff.mpr List.mem_cons_self, made.trans (Option.some.inj eq), at'.trans stream.symm⟩
        · intro ⟨r', mem', is, at''⟩
          rcases List.mem_cons.mp (perm.mem_iff.mp mem') with rfl | mem'
          · rw [← made, is]
          · have := (B.live j e r'.id).mpr ⟨r', mem', rfl, at''⟩
            rw [stream, idle] at this
            cases this
      · rw [if_neg fun h => stream h.1, B.live]
        constructor
        · intro ⟨r', mem', is⟩
          exact ⟨r', perm.mem_iff.mpr (List.mem_cons_of_mem _ mem'), is⟩
        · intro ⟨r', mem', is, at''⟩
          rcases List.mem_cons.mp (perm.mem_iff.mp mem') with rfl | mem'
          · exact absurd (at''.symm.trans at') stream
          · exact ⟨r', mem', is, at''⟩
    · rw [update_of_ne side, if_neg fun h => side h.2]
      exact B.live j e id'

end books

/-! ## The invariant -/

structure Inv (s : St) : Prop where
  books : Books s.heap (waits s) s.called s.next
  ins : ∀ i, InOk (s.ins i)
  outs : ∀ i, OutOk (s.outs i)
  hosted : s.hosted = s.listeners

theorem forall_update {α : Type} {P : α → Prop} {f : Nat → α} (all : ∀ i, P (f i)) {x : α} (here : P x) (i j : Nat) :
    P (update f i x j) := by
  by_cases same : j = i
  · subst same
    rwa [update_self]
  · rw [update_of_ne same]
    exact all j

theorem waits_ins (s : St) (heap : Side → List Record) (next : Nat) (i : Nat) (q : InStreamQueue.T) (w : Option Nat) :
    setWait (waits { s with heap := heap, next := next, ins := update s.ins i q }) i .inn w = setWait (waits s) i .inn w := by
  refine setWait_congr (fun j e other => ?_) w
  cases e with
  | inn => exact congrArg InStreamQueue.T.reader (update_of_ne (fun h => other ⟨h, rfl⟩) q s.ins)
  | out => rfl

theorem waits_outs (s : St) (heap : Side → List Record) (next : Nat) (i : Nat) (q : OutStreamQueue.T) (w : Option Nat) :
    setWait (waits { s with heap := heap, next := next, outs := update s.outs i q }) i .out w = setWait (waits s) i .out w := by
  refine setWait_congr (fun j e other => ?_) w
  cases e with
  | inn => rfl
  | out => exact congrArg awaits (update_of_ne (fun h => other ⟨h, rfl⟩) q s.outs)

section

variable {user : Nat → Answer → List Call} {s s' : St} {k : List Task} {i : Nat} {d : Side}

/-- A stream that had to call `w`, and answered. -/
theorem Inv.answers {w : Option Nat} {l : List (Nat × Answer)} (turned : Turned w (waits s i d) l)
    (B : Books s.heap (setWait (waits s) i d w) s.called s.next) (ins : ∀ i, InOk (s.ins i)) (outs : ∀ i, OutOk (s.outs i))
    (hosted : s.hosted = s.listeners) : Inv (answers user s d k l).1 := by
  cases l with
  | nil =>
    generalize here : waits s i d = w' at turned
    cases turned
    rw [← here, setWait_self] at B
    exact ⟨B, ins, outs, hosted⟩
  | cons x rest =>
    generalize here : waits s i d = w' at turned
    cases turned with
    | answer id a =>
      have waiting : setWait (waits s) i d (some id) i d = some id := if_pos ⟨rfl, rfl⟩
      have B := B.answer waiting
      have back : setWait (setWait (waits s) i d (some id)) i d none = waits s := by
        rw [setWait_setWait, ← here, setWait_self]
      rw [back] at B
      exact ⟨B, ins, outs, hosted⟩

theorem Inv.ins_turn (I : Inv s) {q : InStreamQueue.T} {l : List (Nat × Answer)} (turn : InOk q ∧ Turned (s.ins i).reader q.reader l) :
    Inv (Reset.answers user { s with ins := update s.ins i q } .inn k l).1 := by
  refine Inv.answers (i := i) (w := waits s i .inn) ?_ ?_ (forall_update I.ins turn.1 i) I.outs I.hosted
  · change Turned _ (update s.ins i q i).reader l
    rw [update_self]
    exact turn.2
  · rw [waits_ins s s.heap s.next, setWait_self]
    exact I.books

theorem Inv.outs_turn (I : Inv s) {q : OutStreamQueue.T} {l : List (Nat × Answer)}
    (turn : OutOk q ∧ Turned (awaits (s.outs i)) (awaits q) l) :
    Inv (Reset.answers user { s with outs := update s.outs i q } .out k l).1 := by
  refine Inv.answers (i := i) (w := waits s i .out) ?_ ?_ I.ins (forall_update I.outs turn.1 i) I.hosted
  · change Turned _ (awaits (update s.outs i q i)) l
    rw [update_self]
    exact turn.2
  · rw [waits_outs s s.heap s.next, setWait_self]
    exact I.books

theorem Inv.ins_register (I : Inv s) {cost : Nat} {reliability : Real32} {q : InStreamQueue.T} {l : List (Nat × Answer)}
    (turn : (s.ins i).reader = none ∧ InOk q ∧ Turned (some s.next) q.reader l) :
    Inv (Reset.answers user { register s .inn ⟨s.next, i, reliability, cost⟩ with ins := update s.ins i q } .inn k l).1 := by
  obtain ⟨idle, ok, turned⟩ := turn
  refine Inv.answers (i := i) (w := some s.next) ?_ ?_ (forall_update I.ins ok i) I.outs I.hosted
  · change Turned _ (update s.ins i q i).reader l
    rwa [update_self]
  · have B := I.books.register (i := i) (d := .inn) idle (r := ⟨s.next, i, reliability, cost⟩) rfl rfl (BinHeap.push_perm Record.less _ _)
    rw [← waits_ins s (update s.heap .inn (BinHeap.push Record.less (s.heap .inn) ⟨s.next, i, reliability, cost⟩)) (s.next + 1) i q] at B
    exact B

theorem Inv.outs_register (I : Inv s) {cost : Nat} {reliability : Real32} {q : OutStreamQueue.T} {l : List (Nat × Answer)}
    (turn : awaits (s.outs i) = none ∧ OutOk q ∧ Turned (some s.next) (awaits q) l) :
    Inv (Reset.answers user { register s .out ⟨s.next, i, reliability, cost⟩ with outs := update s.outs i q } .out k l).1 := by
  obtain ⟨idle, ok, turned⟩ := turn
  refine Inv.answers (i := i) (w := some s.next) ?_ ?_ I.ins (forall_update I.outs ok i) I.hosted
  · change Turned _ (awaits (update s.outs i q i)) l
    rwa [update_self]
  · have B := I.books.register (i := i) (d := .out) idle (r := ⟨s.next, i, reliability, cost⟩) rfl rfl (BinHeap.push_perm Record.less _ _)
    rw [← waits_outs s (update s.heap .out (BinHeap.push Record.less (s.heap .out) ⟨s.next, i, reliability, cost⟩)) (s.next + 1) i q] at B
    exact B

theorem refuse_perm (I : Inv s) {cost : Nat} {reliability : Real32} (d e : Side) :
    ((refuse s d ⟨s.next, i, reliability, cost⟩).heap e).Perm (s.heap e) := by
  by_cases side : e = d
  · subst side
    have perm := BinHeap.push_perm Record.less (s.heap e) ⟨s.next, i, reliability, cost⟩
    have fresh : s.next ∉ (s.heap e).map Record.id := by
      intro mem
      have := (I.books.all.mem_iff (a := s.next)).mp (by
        rw [List.map_append]
        cases e with
        | inn => exact List.mem_append_right _ (List.mem_append_left _ mem)
        | out => exact List.mem_append_right _ (List.mem_append_right _ mem))
      exact absurd (List.mem_range.mp this) (Nat.lt_irrefl _)
    have nodup : ((BinHeap.push Record.less (s.heap e) ⟨s.next, i, reliability, cost⟩).map Record.id).Nodup :=
      (perm.map Record.id).nodup_iff.mpr (List.nodup_cons.mpr ⟨fresh, I.books.nodup e⟩)
    have back := unregister_perm (r := ⟨s.next, i, reliability, cost⟩) (perm.mem_iff.mpr List.mem_cons_self) nodup
    unfold refuse
    dsimp only
    rw [update_self]
    exact List.Perm.cons_inv (back.symm.trans perm)
  · unfold refuse
    dsimp only
    rw [update_of_ne side]

theorem Inv.refuse (I : Inv s) {cost : Nat} {reliability : Real32} (d : Side) : Inv (Reset.refuse s d ⟨s.next, i, reliability, cost⟩) :=
  ⟨I.books.congr (refuse_perm I d), I.ins, I.outs, I.hosted⟩

theorem Inv.resetStream (I : Inv s) (d : Side) : Inv (Reset.resetStream user s i k d).1 := by
  cases d with
  | inn => exact I.ins_turn (in_turn (.reset _) (I.ins i))
  | out => exact I.outs_turn (Out.reset_turn (I.outs i)).told

theorem exec_close (s : St) (k : List Task) (code : List Call) : exec user s k (.close code) =
    if (s.heap .out).isEmpty then (s, code.map .call ++ k) else ({ s with close := code :: s.close }, k) := rfl

theorem exec_unhook (s : St) (k : List Task) (service : Nat) : exec user s k (.unhook service) =
    if service ∈ s.listeners then ({ s with listeners := s.listeners.erase service, hosted := s.hosted.erase service }, k) else (s, k) := rfl

/-! ## The tasks -/

/-- The callbacks of `close` wait for a record, or for a completion to return. -/
def Tidy (s : St) (k : List Task) : Prop := s.close = [] ∨ s.heap .out ≠ [] ∨ .checkClose ∈ k

/-- No call of a queue ran two callbacks. -/
def Single (k : List Task) : Prop := ∀ t ∈ k, ∀ d id a, t ≠ .answer d id a

theorem Tidy.mono {k' : List Task} (tidy : Tidy s k) (close : s'.close = s.close) (out : s.heap .out ≠ [] → s'.heap .out ≠ [])
    (tasks : .checkClose ∈ k → .checkClose ∈ k') : Tidy s' k' := by
  rcases tidy with empty | records | task
  · exact .inl (close.trans empty)
  · exact .inr (.inl (out records))
  · exact .inr (.inr (tasks task))

theorem Tidy.inn {k' : List Task} {h : List Record} (tidy : Tidy s k) (close : s'.close = s.close) (heap : s'.heap = update s.heap .inn h)
    (tasks : .checkClose ∈ k → .checkClose ∈ k') : Tidy s' k' := by
  refine tidy.mono close (fun records => ?_) tasks
  rwa [heap, update_of_ne (by decide)]

theorem Tidy.answers {w w' : Option Nat} {l : List (Nat × Answer)} (turned : Turned w w' l) (tidy : Tidy s k) :
    Tidy (answers user s d k l).1 (answers user s d k l).2 := by
  cases turned with
  | keep => exact tidy
  | answer id a =>
    cases d with
    | inn => exact tidy.inn rfl rfl (List.mem_append_right _)
    | out => exact .inr (.inr (List.mem_append_right _ List.mem_cons_self))

theorem single_calls (code : List Call) (single : Single k) : Single (code.map .call ++ k) := by
  intro t mem d id a
  rcases List.mem_append.mp mem with mem | mem
  · obtain ⟨c, -, rfl⟩ := List.mem_map.mp mem
    exact nofun
  · exact single t mem d id a

theorem single_cons {t : Task} (not : ∀ d id a, t ≠ .answer d id a) (single : Single k) : Single (t :: k) := by
  intro u mem
  rcases List.mem_cons.mp mem with rfl | mem
  · exact not
  · exact single u mem

theorem single_answers {w w' : Option Nat} {l : List (Nat × Answer)} (turned : Turned w w' l) (single : Single k) :
    Single (answers user s d k l).2 := by
  cases turned with
  | keep => exact single
  | answer id a =>
    cases d with
    | inn => exact single_calls _ single
    | out => exact single_calls _ (single_cons nofun single)

/-- What holds of a conversation and what it has to do. -/
structure Good (s : St) (k : List Task) : Prop where
  inv : Inv s
  single : Single k
  tidy : Tidy s k

theorem Good.answers {w w' : Option Nat} {l : List (Nat × Answer)} (turned : Turned w w' l) (inv : Inv (Reset.answers user s d k l).1)
    (single : Single k) (tidy : Tidy s k) : Good (Reset.answers user s d k l).1 (Reset.answers user s d k l).2 :=
  ⟨inv, single_answers turned single, tidy.answers turned⟩

theorem Good.ins_turn (G : Good s k) {q : InStreamQueue.T} {l : List (Nat × Answer)}
    (turn : InOk q ∧ Turned (s.ins i).reader q.reader l) :
    Good (Reset.answers user { s with ins := update s.ins i q } .inn k l).1
      (Reset.answers user { s with ins := update s.ins i q } .inn k l).2 :=
  .answers turn.2 (G.inv.ins_turn turn) G.single (G.tidy.mono rfl id id)

theorem Good.outs_turn (G : Good s k) {q : OutStreamQueue.T} {l : List (Nat × Answer)}
    (turn : OutOk q ∧ Turned (awaits (s.outs i)) (awaits q) l) :
    Good (Reset.answers user { s with outs := update s.outs i q } .out k l).1
      (Reset.answers user { s with outs := update s.outs i q } .out k l).2 :=
  .answers turn.2 (G.inv.outs_turn turn) G.single (G.tidy.mono rfl id id)

theorem Good.resetStream (G : Good s k) (d : Side) : Good (Reset.resetStream user s i k d).1 (Reset.resetStream user s i k d).2 := by
  cases d with
  | inn => exact G.ins_turn (in_turn (.reset _) (G.inv.ins i))
  | out => exact G.outs_turn (Out.reset_turn (G.inv.outs i)).told

theorem Good.ins_register (G : Good s k) {cost : Nat} {reliability : Real32} {q : InStreamQueue.T} {l : List (Nat × Answer)}
    (opens : Opens s.next (s.ins i) q l) :
    Good (Reset.answers user { register s .inn ⟨s.next, i, reliability, cost⟩ with ins := update s.ins i q } .inn k l).1
      (Reset.answers user { register s .inn ⟨s.next, i, reliability, cost⟩ with ins := update s.ins i q } .inn k l).2 := by
  have turn := opens_turn opens (G.inv.ins i)
  exact .answers turn.2.2 (G.inv.ins_register turn) G.single (G.tidy.inn rfl rfl id)

theorem Good.addOutStream (G : Good s k) {cost : Nat} {reliability : Real32} {q : Except Exn OutStreamQueue.T}
    (turn : ∀ q', q = .ok q' → awaits (s.outs i) = none ∧ OutTurn (some s.next) (s.outs i) q') :
    Good (Reset.addOutStream user s i ⟨s.next, i, reliability, cost⟩ k q).1
      (Reset.addOutStream user s i ⟨s.next, i, reliability, cost⟩ k q).2 := by
  cases q with
  | error e =>
    refine ⟨G.inv.refuse .out, G.single, G.tidy.mono rfl (fun records empty => records ?_) fun mem => mem⟩
    exact List.perm_nil.mp ((refuse_perm G.inv .out .out).symm.trans (.of_eq empty))
  | ok q' =>
    obtain ⟨idle, turn⟩ := turn q' rfl
    refine .answers turn.told.2 (G.inv.outs_register ⟨idle, turn.told⟩) G.single (.inr (.inl fun empty => ?_))
    change update s.heap .out _ .out = [] at empty
    rw [update_self] at empty
    exact BinHeap.push_ne_nil _ _ _ empty

theorem Good.addInStream (G : Good s k) {cost : Nat} {reliability : Real32} {q : Except Exn InStreamQueue.T}
    (turn : ∀ q', q = .ok q' → Opens s.next (s.ins i) q' (inAnswers (s.ins i) q')) :
    Good (Reset.addInStream user s i ⟨s.next, i, reliability, cost⟩ k q).1
      (Reset.addInStream user s i ⟨s.next, i, reliability, cost⟩ k q).2 := by
  cases q with
  | error e => exact ⟨G.inv.refuse .inn, G.single, G.tidy.inn rfl rfl id⟩
  | ok q' => exact G.ins_register (turn q' rfl)

theorem Good.exec (G : Good s k) (c : Call) : Good (Reset.exec user s k c).1 (Reset.exec user s k c).2 := by
  cases c with
  | addInStream i bufferSize cost reliability => exact G.addInStream fun q' read => .read read
  | addWrite i buffer cost reliability => exact G.addOutStream fun q' wrote => Out.write_turn (G.inv.outs i) wrote
  | addShutdown i cost reliability => exact G.addOutStream fun q' shut => Out.shutdown_turn (G.inv.outs i) shut
  | resetIn i => exact G.resetStream .inn
  | resetOut i => exact G.resetStream .out
  | reset => exact ⟨G.inv, single_cons nofun G.single, G.tidy.mono rfl id (List.mem_cons_of_mem _)⟩
  | close code =>
    rw [exec_close]
    split
    · exact ⟨G.inv, single_calls code G.single, G.tidy.mono rfl id (List.mem_append_right _)⟩
    · rename_i records
      exact ⟨⟨G.inv.books, G.inv.ins, G.inv.outs, G.inv.hosted⟩, G.single, .inr (.inl (by simpa using records))⟩
  | response service =>
    exact ⟨⟨G.inv.books, G.inv.ins, G.inv.outs, congrArg (service :: ·) G.inv.hosted⟩, G.single, G.tidy.mono rfl id id⟩
  | unhook service =>
    rw [exec_unhook]
    split
    · exact ⟨⟨G.inv.books, G.inv.ins, G.inv.outs, congrArg (·.erase service) G.inv.hosted⟩, G.single, G.tidy.mono rfl id id⟩
    · exact G

theorem Good.step {k' : List Task} (G : Good s k) (next : Reset.step user s k = some (s', k')) : Good s' k' := by
  cases k with
  | nil => cases next
  | cons t k =>
    have single : Single k := fun u mem => G.single u (List.mem_cons_of_mem _ mem)
    cases t with
    | call c =>
      have after : Reset.exec user s k c = (s', k') := Option.some.inj next
      have G : Good (Reset.exec user s k c).1 (Reset.exec user s k c).2 :=
        .exec ⟨G.inv, single, G.tidy.mono rfl id fun mem => (List.mem_cons.mp mem).resolve_left nofun⟩ c
      rwa [after] at G
    | checkClose =>
      unfold Reset.step at next
      dsimp only at next
      split at next
      · cases next
        exact ⟨⟨G.inv.books, G.inv.ins, G.inv.outs, G.inv.hosted⟩, single_calls _ single, .inl rfl⟩
      · rename_i records
        cases next
        exact ⟨G.inv, single, .inr (.inl (by simpa using records))⟩
    | answer d id a => exact absurd rfl (G.single _ List.mem_cons_self d id a)
    | resetting todo =>
      have tidy : Tidy s k := G.tidy.mono rfl id fun mem => (List.mem_cons.mp mem).resolve_left nofun
      cases todo with
      | nil =>
        cases next
        refine ⟨⟨G.inv.books, G.inv.ins, G.inv.outs, ?_⟩, single, tidy.mono rfl id id⟩
        exact List.filter_eq_nil_iff.mpr fun x mem => by simpa using G.inv.hosted ▸ mem
      | cons d todo =>
        unfold Reset.step at next
        dsimp only at next
        split at next
        · cases next
          exact ⟨G.inv, single_cons nofun single, tidy.mono rfl id (List.mem_cons_of_mem _)⟩
        · rename_i r _ _
          have after : Reset.resetStream user s r.stream (.resetting (d :: todo) :: k) d = (s', k') := Option.some.inj next
          have G : Good (Reset.resetStream user s r.stream (.resetting (d :: todo) :: k) d).1
            (Reset.resetStream user s r.stream (.resetting (d :: todo) :: k) d).2 := G.resetStream d
          rwa [after] at G

end

theorem Good.instant {s : St} {k : List Task} {i cost : Nat} {reliability : Real32} (G : Good s k) (a : Answer) :
    Good (done nobody (register s .inn ⟨s.next, i, reliability, cost⟩) .inn s.next a k).1
      (done nobody (register s .inn ⟨s.next, i, reliability, cost⟩) .inn s.next a k).2 := by
  have heap : (done nobody (register s .inn ⟨s.next, i, reliability, cost⟩) .inn s.next a k).1.heap =
      (refuse s .inn ⟨s.next, i, reliability, cost⟩).heap := by
    change update (update s.heap .inn _) .inn (unregister (update s.heap .inn _ .inn) s.next) = _
    rw [update_idem, update_self]
    rfl
  have perm : ∀ d, ((refuse s .inn ⟨s.next, i, reliability, cost⟩).heap d).Perm (s.heap d) := refuse_perm G.inv .inn
  have books := G.inv.books.congr perm
  refine ⟨⟨⟨?_, ?_⟩, G.inv.ins, G.inv.outs, G.inv.hosted⟩, G.single, G.tidy.inn rfl heap id⟩
  · rw [heap, show (done nobody (register s .inn ⟨s.next, i, reliability, cost⟩) .inn s.next a k).1.next = s.next + 1 from rfl,
      List.range_succ]
    refine List.Perm.trans ?_ (books.all.append_right [s.next])
    change (s.called ++ [s.next] ++ _).Perm _
    rw [List.append_assoc, List.append_assoc]
    exact List.perm_append_comm.append_left _
  · rw [heap]
    exact books.live

theorem good_init : Good init [] where
  inv := by
    have outs : OutOk OutStreamQueue.new := ⟨fun _ => rfl, fun _ => rfl, fun _ => rfl, nofun⟩
    refine ⟨⟨List.Perm.refl _, fun i d id => ?_⟩, fun _ => .none rfl rfl, fun _ => outs, rfl⟩
    constructor
    · intro waiting
      cases d <;> cases waiting
    · intro ⟨r, mem, _⟩
      cases mem
  single := nofun
  tidy := .inl rfl

theorem reach_good {s : St} {k : List Task} (reach : Reach s k) : Good s k := by
  induction reach with
  | init => exact good_init
  | call before c G => exact ⟨G.inv, single_cons nofun G.single, G.tidy.mono rfl id (List.mem_cons_of_mem _)⟩
  | step before next G => exact G.step next
  | add before opens G => exact G.ins_register opens
  | instant before a G => exact G.instant a
  | inn before turn G => exact G.ins_turn (in_turn turn (G.inv.ins _))
  | out before turn G => exact G.outs_turn (out_turn turn (G.inv.outs _))

/-! ## Code that registers nothing -/

/-- The tasks are done, whatever comes after them. -/
def Leads (user : Nat → Answer → List Call) (s : St) (tasks : List Task) (s' : St) : Prop :=
  ∀ k, ∃ n, steps user n s (tasks ++ k) = some (s', k)

def size (s : St) : Nat := (s.heap .inn).length + (s.heap .out).length

/-- What waits in the conversation registers nothing when it fails. -/
structure Calm (user : Nat → Answer → List Call) (s : St) : Prop where
  close : ∀ code ∈ s.close, ∀ c ∈ code, c.Quiet
  code : ∀ d, ∀ r ∈ s.heap d, ∀ a : Answer, a.Failed → ∀ c ∈ user r.id a, c.Quiet

/-- Records and callbacks were taken, and none added. -/
structure Shrinks (user : Nat → Answer → List Call) (s s' : St) : Prop where
  inv : Inv s'
  calm : Calm user s'
  fewer : ∀ d, ∀ r ∈ s'.heap d, r ∈ s.heap d
  size : size s' ≤ size s
  next : s'.next = s.next

/-- What such code leaves. -/
structure After (user : Nat → Answer → List Call) (s s' : St) : Prop extends Shrinks user s s' where
  tidy : Tidy s [] → Tidy s' []

section

variable {user : Nat → Answer → List Call} {s s' s'' : St} {i : Nat} {d : Side} {tasks tasks' : List Task}

theorem steps_add (n m : Nat) (s : St) (k : List Task) :
    steps user (n + m) s k = (steps user n s k).bind fun x => steps user m x.1 x.2 := by
  induction n generalizing s k with
  | zero => rw [Nat.zero_add]; rfl
  | succ n ih =>
    rw [Nat.succ_add]
    change (Reset.step user s k).bind _ = ((Reset.step user s k).bind _).bind _
    rw [Option.bind_assoc]
    exact congrArg _ (funext fun x => ih x.1 x.2)

theorem Leads.nil : Leads user s [] s := fun _ => ⟨0, rfl⟩

theorem Leads.append (first : Leads user s tasks s') (second : Leads user s' tasks' s'') : Leads user s (tasks ++ tasks') s'' := by
  intro k
  obtain ⟨n, eq⟩ := first (tasks' ++ k)
  obtain ⟨m, eq'⟩ := second k
  refine ⟨n + m, ?_⟩
  rw [List.append_assoc, steps_add, eq]
  exact eq'

theorem Leads.step {t : Task} (one : ∀ k, Reset.step user s (t :: k) = some (s', tasks ++ k)) (rest : Leads user s' tasks s'') :
    Leads user s [t] s'' := by
  intro k
  obtain ⟨n, eq⟩ := rest k
  refine ⟨n + 1, ?_⟩
  unfold steps
  rw [List.singleton_append, one k]
  exact eq

theorem Leads.one {t : Task} (one : ∀ k, Reset.step user s (t :: k) = some (s', k)) : Leads user s [t] s' := .step one .nil

theorem Shrinks.refl (inv : Inv s) (calm : Calm user s) : Shrinks user s s := ⟨inv, calm, fun _ _ mem => mem, Nat.le_refl _, rfl⟩

theorem Shrinks.trans (first : Shrinks user s s') (second : Shrinks user s' s'') : Shrinks user s s'' :=
  ⟨second.inv, second.calm, fun d r mem => first.fewer d r (second.fewer d r mem), second.size.trans first.size,
    second.next.trans first.next⟩

theorem After.trans (first : After user s s') (second : After user s' s'') : After user s s'' :=
  ⟨first.toShrinks.trans second.toShrinks, fun tidy => second.tidy (first.tidy tidy)⟩

/-- The same records and callbacks. -/
theorem After.same (inv : Inv s') (calm : Calm user s) (heap : s'.heap = s.heap) (close : s'.close = s.close) (next : s'.next = s.next) :
    After user s s' := by
  refine ⟨⟨inv, ⟨?_, ?_⟩, ?_, ?_, next⟩, ?_⟩
  · rw [close]
    exact calm.close
  · rw [heap]
    exact calm.code
  · rw [heap]
    exact fun _ _ mem => mem
  · unfold size
    rw [heap]
  · intro tidy
    exact tidy.mono close (by rw [heap]; exact id) id

/-- The reset of a stream answers the record that waits there, with a failure. -/
theorem resetStream_cases (I : Inv s) (i : Nat) (d : Side) :
    ∃ ins outs, (waits s i d = none ∧ ∀ k, resetStream user s i k d = ({ s with ins := ins, outs := outs }, k)) ∨
      ∃ id a, waits s i d = some id ∧ a.Failed ∧
        ∀ k, resetStream user s i k d = done user { s with ins := ins, outs := outs } d id a k := by
  cases d with
  | inn =>
    refine ⟨update s.ins i (InStreamQueue.reset (s.ins i)), s.outs, ?_⟩
    have eq := (In.reset_turn (s.ins i)).2.2
    unfold resetStream
    dsimp only
    rw [eq]
    cases here : (s.ins i).reader with
    | none => exact .inl ⟨here, fun k => rfl⟩
    | some id => exact .inr ⟨id, _, here, .reader, fun k => rfl⟩
  | out =>
    refine ⟨s.ins, update s.outs i (OutStreamQueue.reset (s.outs i)), ?_⟩
    obtain ⟨none, failed⟩ := Out.reset_fails (s.outs i)
    have turned := (Out.reset_turn (I.outs i)).told.2
    unfold resetStream
    dsimp only
    rw [none] at turned
    generalize outAnswers (s.outs i) (OutStreamQueue.reset (s.outs i)) = l at failed turned
    change Turned (waits s i .out) Option.none l at turned
    generalize here : waits s i .out = w at turned
    cases turned with
    | keep => exact .inl ⟨rfl, fun k => rfl⟩
    | answer id a => exact .inr ⟨id, a, rfl, failed _ List.mem_cons_self, fun k => rfl⟩

/-- A record that is answered is gone. -/
theorem done_shrinks (I : Inv s) (calm : Calm user s) {ins : Nat → InStreamQueue.T} {outs : Nat → OutStreamQueue.T} {id : Nat}
    {a : Answer} {k : List Task} (waiting : waits s i d = some id) (inv : Inv (done user { s with ins := ins, outs := outs } d id a k).1) :
    Shrinks user s (done user { s with ins := ins, outs := outs } d id a k).1 ∧
      size (done user { s with ins := ins, outs := outs } d id a k).1 < size s := by
  obtain ⟨r, mem, rfl, -⟩ := (I.books.live i d id).mp waiting
  have perm := unregister_perm mem (I.books.nodup d)
  have fewer : ∀ e, ∀ x ∈ update s.heap d (unregister (s.heap d) r.id) e, x ∈ s.heap e := by
    intro e x mem'
    by_cases side : e = d
    · subst side
      rw [update_self] at mem'
      exact perm.mem_iff.mpr (List.mem_cons_of_mem _ mem')
    · rwa [update_of_ne side] at mem'
  have less : size (done user { s with ins := ins, outs := outs } d r.id a k).1 < size s := by
    have length := perm.length_eq
    rw [List.length_cons] at length
    unfold size
    change (update s.heap d (unregister (s.heap d) r.id) .inn).length + (update s.heap d (unregister (s.heap d) r.id) .out).length < _
    cases d with
    | inn =>
      rw [update_self, update_of_ne (by decide)]
      omega
    | out =>
      rw [update_self, update_of_ne (by decide)]
      omega
  exact ⟨⟨inv, ⟨calm.close, fun e x mem' => calm.code e x (fewer e x mem')⟩, fewer, Nat.le_of_lt less, rfl⟩, less⟩

/-- What is claimed of all smaller conversations. -/
def Ends (user : Nat → Answer → List Call) (s : St) : Prop :=
  (∀ code : List Call, (∀ c ∈ code, c.Quiet) → ∃ s', Leads user s (code.map .call) s' ∧ After user s s') ∧
    ∀ todo, ∃ s', Leads user s [.resetting todo] s' ∧ After user s s' ∧ (∀ d ∈ todo, s'.heap d = []) ∧ s'.listeners = [] ∧
      s'.hosted = []

/-- The callbacks of `close`, when no record is left. -/
theorem checkClose_ends (I : Inv s) (calm : Calm user s) (ends : ∀ s', Inv s' → Calm user s' → size s' ≤ size s → Ends user s') :
    ∃ s', Leads user s [.checkClose] s' ∧ Shrinks user s s' ∧ Tidy s' [] := by
  by_cases empty : (s.heap .out).isEmpty = true
  · have inv : Inv { s with close := [] } := ⟨I.books, I.ins, I.outs, I.hosted⟩
    have calm' : Calm user { s with close := [] } := ⟨nofun, calm.code⟩
    obtain ⟨s', leads, after⟩ := (ends _ inv calm' (Nat.le_refl _)).1 s.close.flatten fun c mem => by
      obtain ⟨code, mem', mem⟩ := List.mem_flatten.mp mem
      exact calm.close code mem' c mem
    refine ⟨s', .step (fun k => ?_) leads, ?_, after.tidy (.inl rfl)⟩
    · unfold Reset.step
      dsimp only
      rw [if_pos empty]
    · exact ⟨after.inv, after.calm, after.fewer, after.size, after.next⟩
  · refine ⟨s, .one fun k => ?_, .refl I calm, .inr (.inl (by simpa using empty))⟩
    unfold Reset.step
    dsimp only
    rw [if_neg empty]

/-- The reset of a stream: the callback that waits there, and what follows from it. -/
theorem resetStream_ends (I : Inv s) (calm : Calm user s)
    (ends : ∀ s', Inv s' → Calm user s' → size s' < size s → Ends user s') (i : Nat) (d : Side) :
    ∃ s' s1 tasks, (∀ k, resetStream user s i k d = (s1, tasks ++ k)) ∧ Leads user s1 tasks s' ∧ After user s s' ∧
      (waits s i d ≠ none → size s' < size s) := by
  have inv : ∀ k, Inv (resetStream user s i k d).1 := fun k => I.resetStream d
  obtain ⟨ins, outs, ⟨idle, eq⟩ | ⟨id, a, waiting, failed, eq⟩⟩ := resetStream_cases I i d
  · have inv := inv []
    rw [eq] at inv
    exact ⟨_, _, [], eq, .nil, .same inv calm rfl rfl rfl, fun waiting => absurd idle waiting⟩
  · have inv := inv []
    rw [eq] at inv
    obtain ⟨shrinks, less⟩ := done_shrinks I calm waiting inv
    obtain ⟨r, mem, rfl, -⟩ := (I.books.live i d id).mp waiting
    obtain ⟨s2, leads, after⟩ := (ends _ shrinks.inv shrinks.calm less).1 (user r.id a) (calm.code d r mem a failed)
    cases d with
    | inn =>
      refine ⟨s2, _, _, eq, leads, ⟨shrinks.trans after.toShrinks, fun tidy => after.tidy (tidy.inn rfl rfl fun mem => mem)⟩, fun _ => ?_⟩
      exact Nat.lt_of_le_of_lt after.size less
    | out =>
      have less2 := Nat.lt_of_le_of_lt after.size less
      obtain ⟨s3, leads3, shrinks3, tidy⟩ := checkClose_ends after.inv after.calm
        fun s' inv calm le => ends s' inv calm (Nat.lt_of_le_of_lt le less2)
      refine ⟨s3, _, (user r.id a).map .call ++ [.checkClose], fun k => ?_, leads.append leads3, ⟨?_, fun _ => tidy⟩, fun _ => ?_⟩
      · rw [eq, List.append_assoc]
        rfl
      · exact (shrinks.trans after.toShrinks).trans shrinks3
      · exact Nat.lt_of_le_of_lt shrinks3.size less2

/-- The loops of `reset`: the stream of the first record answers it. -/
theorem resetting_ends (I : Inv s) (calm : Calm user s) (ends : ∀ s', Inv s' → Calm user s' → size s' < size s → Ends user s')
    (todo : List Side) : ∃ s', Leads user s [.resetting todo] s' ∧ After user s s' ∧ (∀ d ∈ todo, s'.heap d = []) ∧ s'.listeners = [] ∧
      s'.hosted = [] := by
  induction todo with
  | nil =>
    have gone : s.hosted.filter (· ∉ s.listeners) = [] := List.filter_eq_nil_iff.mpr fun x mem => by simpa using I.hosted ▸ mem
    have inv : Inv { s with listeners := [], hosted := s.hosted.filter (· ∉ s.listeners) } := ⟨I.books, I.ins, I.outs, gone⟩
    exact ⟨_, .step (fun _ => rfl) .nil, .same inv calm rfl rfl rfl, nofun, rfl, gone⟩
  | cons d todo ih =>
    cases here : s.heap d with
    | nil =>
      obtain ⟨s', leads, after, empty, left⟩ := ih
      refine ⟨s', .step (fun k => ?_) leads, after, ?_, left⟩
      · unfold Reset.step
        dsimp only
        rw [here]
        rfl
      · intro e mem
        rcases List.mem_cons.mp mem with rfl | mem
        · exact List.eq_nil_iff_forall_not_mem.mpr fun r mem => by
            have := after.fewer e r mem
            rw [here] at this
            cases this
        · exact empty e mem
    | cons r rest =>
      have waiting : waits s r.stream d = some r.id := (I.books.live r.stream d r.id).mpr ⟨r, here ▸ List.mem_cons_self, rfl, rfl⟩
      obtain ⟨s1, s0, tasks, eq, leads, after, less⟩ := resetStream_ends I calm ends r.stream d
      have less := less (by rw [waiting]; exact nofun)
      obtain ⟨s', leads', after', empty, left⟩ := (ends s1 after.inv after.calm less).2 (d :: todo)
      have one (k : List Task) : Reset.step user s (.resetting (d :: todo) :: k) = some (s0, (tasks ++ [.resetting (d :: todo)]) ++ k) := by
        unfold Reset.step
        dsimp only
        rw [here]
        dsimp only
        rw [eq, List.append_assoc]
        rfl
      exact ⟨s', .step one (leads.append leads'), after.trans after', empty, left⟩

/-- Any code that registers nothing, one call after the other. -/
theorem code_ends (n : Nat) (smaller : ∀ s', Inv s' → Calm user s' → size s' < n → Ends user s') (m : Nat) :
    ∀ (code : List Call) (s : St), sizeOf code ≤ m → Inv s → Calm user s → size s ≤ n → (∀ c ∈ code, c.Quiet) →
      ∃ s', Leads user s (code.map .call) s' ∧ After user s s' := by
  induction m with
  | zero =>
    intro code s measure
    cases code <;> simp at measure
  | succ m ih =>
    intro code s measure I calm le quiet
    cases code with
    | nil => exact ⟨s, .nil, .same I calm rfl rfl rfl⟩
    | cons c code =>
      have rest : sizeOf code ≤ m := by simp at measure; omega
      have quiets : ∀ c ∈ code, c.Quiet := fun c mem => quiet c (List.mem_cons_of_mem _ mem)
      have ends : ∀ s', Inv s' → Calm user s' → size s' < size s → Ends user s' :=
        fun s' inv calm less => smaller s' inv calm (Nat.lt_of_lt_of_le less le)
      -- the first call, and then the others
      suffices first : ∃ s', Leads user s [.call c] s' ∧ After user s s' by
        obtain ⟨s1, leads, after⟩ := first
        obtain ⟨s2, leads', after'⟩ := ih code s1 rest after.inv after.calm (after.size.trans le) quiets
        exact ⟨s2, leads.append leads', after.trans after'⟩
      have resets (i : Nat) (d : Side) (is : ∀ k, exec user s k c = resetStream user s i k d) :
          ∃ s', Leads user s [.call c] s' ∧ After user s s' := by
        obtain ⟨s', s0, tasks, eq, leads, after, -⟩ := resetStream_ends I calm ends i d
        refine ⟨s', .step (fun k => ?_) leads, after⟩
        rw [← eq k, ← is k]
        rfl
      cases quiet c List.mem_cons_self with
      | resetIn i => exact resets i .inn fun _ => rfl
      | resetOut i => exact resets i .out fun _ => rfl
      | reset =>
        obtain ⟨s', leads, after, -⟩ := resetting_ends I calm ends [.inn, .out]
        exact ⟨s', .step (fun _ => rfl) leads, after⟩
      | @close body all =>
        by_cases empty : (s.heap .out).isEmpty = true
        · obtain ⟨s', leads, after⟩ := ih body s (by simp at measure; omega) I calm le all
          refine ⟨s', .step (fun k => ?_) leads, after⟩
          change some (exec user s k (.close body)) = _
          rw [exec_close, if_pos empty]
        · refine ⟨{ s with close := body :: s.close }, .one fun k => ?_,
            ⟨⟨⟨I.books, I.ins, I.outs, I.hosted⟩, ⟨List.forall_mem_cons.mpr ⟨all, calm.close⟩, calm.code⟩, fun _ _ mem => mem,
              Nat.le_refl _, rfl⟩, fun _ => .inr (.inl (by simpa using empty))⟩⟩
          change some (exec user s k (.close body)) = _
          rw [exec_close, if_neg empty]
      | response service =>
        have inv : Inv { s with listeners := service :: s.listeners, hosted := service :: s.hosted } :=
          ⟨I.books, I.ins, I.outs, congrArg (service :: ·) I.hosted⟩
        exact ⟨_, .one fun _ => rfl, .same inv calm rfl rfl rfl⟩
      | unhook service =>
        by_cases mem : service ∈ s.listeners
        · have inv : Inv { s with listeners := s.listeners.erase service, hosted := s.hosted.erase service } :=
            ⟨I.books, I.ins, I.outs, congrArg (·.erase service) I.hosted⟩
          refine ⟨_, .one fun k => ?_, .same inv calm rfl rfl rfl⟩
          change some (exec user s k (.unhook service)) = _
          rw [exec_unhook, if_pos mem]
        · refine ⟨s, .one fun k => ?_, .same I calm rfl rfl rfl⟩
          change some (exec user s k (.unhook service)) = _
          rw [exec_unhook, if_neg mem]

theorem ends (n : Nat) : ∀ s : St, Inv s → Calm user s → size s < n → Ends user s := by
  induction n with
  | zero =>
    intro s _ _ less
    exact absurd less (Nat.not_lt_zero _)
  | succ n ih =>
    intro s I calm less
    have le : size s ≤ n := Nat.le_of_lt_succ less
    refine ⟨fun code quiet => code_ends n ih _ code s (Nat.le_refl _) I calm le quiet, fun todo => ?_⟩
    exact resetting_ends I calm (fun s' inv calm less => ih s' inv calm (Nat.lt_of_lt_of_le less le)) todo

end

/-- `reset`, called in any state: the loops end, all callbacks were called once, nothing is
    left, and the callbacks of `close` have run or wait for a completion to return. -/
theorem reset_empties {user : Nat → Answer → List Call} {s : St} {k : List Task} (reach : Reach s (.call .reset :: k))
    (calm : Calm user s) : ∃ n s', steps user n s (.call .reset :: k) = some (s', k) ∧ (∀ d, s'.heap d = []) ∧
      (∀ id < s.next, s'.called.count id = 1) ∧ s'.listeners = [] ∧ s'.hosted = [] ∧ (s'.close = [] ∨ s.heap .out = [] ∧ .checkClose ∈ k) := by
  have good := reach_good reach
  obtain ⟨s', leads, after, empty, listeners, hosted⟩ := (ends (size s + 1) s good.inv calm (Nat.lt_succ_self _)).2 [.inn, .out]
  have heap : ∀ d, s'.heap d = [] := fun d => empty d (by cases d <;> simp)
  obtain ⟨n, eq⟩ := leads k
  refine ⟨n + 1, s', eq, heap, ?_, listeners, hosted, ?_⟩
  · intro id made
    have all := after.inv.books.all
    rw [heap, heap, after.next, List.append_nil, List.map_nil, List.append_nil] at all
    rw [all.count_eq, List.count_eq_one_of_mem List.nodup_range (List.mem_range.mpr made)]
  · by_cases records : s.heap .out = []
    · rcases good.tidy with close | records' | task
      · rcases after.tidy (.inl close) with close' | records' | task
        · exact .inl close'
        · exact absurd (heap .out) records'
        · cases task
      · exact absurd records records'
      · exact .inr ⟨records, (List.mem_cons.mp task).resolve_left nofun⟩
    · rcases after.tidy (.inr (.inl records)) with close' | records' | task
      · exact .inl close'
      · exact absurd (heap .out) records'
      · cases task

/-! ## Runs -/

/-- An out-stream that was shut down waits to tell so. -/
def shutting : St := (exec nobody init [] (.addShutdown 0 0 .posInf)).1

theorem shutting_reach : Reach shutting [] := .step (.call .init (.addShutdown 0 0 .posInf)) rfl

theorem reset_empties_shutting : ∃ n s', steps nobody n shutting [.call .reset] = some (s', []) ∧ (∀ d, s'.heap d = []) ∧
    (∀ id < shutting.next, s'.called.count id = 1) ∧ s'.listeners = [] ∧ s'.hosted = [] ∧
      (s'.close = [] ∨ shutting.heap .out = [] ∧ .checkClose ∈ ([] : List Task)) :=
  reset_empties (.call shutting_reach .reset) ⟨nofun, fun _ _ _ _ _ _ mem => by cases mem⟩

/-- A callback that reads from another stream when its own fails: the loop over the
    incoming records is done by then. And a reset from the completion of the last outgoing
    operation: the callback of `close` has not run when it returns. -/
theorem left_behind :
    (Reach shutting [.call .reset] ∧
      (steps (fun _ _ => [.addInStream 5 10 0 .posInf]) 7 shutting [.call .reset]).map
        (fun x => ((x.1.heap .inn).length, (x.1.heap .out).length, x.2.length)) = some (1, 0, 0)) ∧
    ∃ s, Reach s [.call .reset, .checkClose] ∧ Calm nobody s ∧
      (steps nobody 4 s [.call .reset, .checkClose]).map (fun x => (x.1.close.length, x.2.length)) = some (1, 1) := by
  have pending : Reach (exec nobody shutting [] (.close [])).1 [] := .step (.call shutting_reach (.close [])) rfl
  have answered := Reach.out (i := 0) pending (.doReset _)
  refine ⟨⟨.call shutting_reach .reset, by decide⟩, _, .call answered .reset, ⟨?_, fun _ _ _ _ _ _ mem => by cases mem⟩, by decide⟩
  intro code mem c mem'
  have empty : code = [] := List.mem_singleton.mp mem
  rw [empty] at mem'
  cases mem'

end BubbleStorm.Cusp.Conversation.Reset
