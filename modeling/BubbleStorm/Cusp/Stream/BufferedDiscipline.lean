/-
  BubbleStorm.Cusp.Stream.BufferedDiscipline — every callback of the buffered stream is
  called once (see `BufferedOutStream`).

  It is, but for three windows. A shutdown that waits for the queue is forgotten when the
  stream is reset, by `reset` or by the answer to a write: `reset` overwrites the state it
  is kept in, and after RESET nothing looks at it again (`reset_loses_shutdown`). While the
  callbacks of the queue are run by `resetQueued`, the queue is still full and the state
  is still the old one, so that a callback which resets again or has the stream answer a
  write has callbacks called twice, one which shuts down loses that callback, and a write
  by the last one is dropped with its callback. `Calm` is a step outside these windows.

  The argument: a callback taken is called, held by the stream, held by a frame, or still
  in the queue (`Books`); `Phase` is which frames there are and how far a walk along the
  ring has come.
-/

import BubbleStorm.Cusp.Stream.BufferedOutStream
import Mathlib.Data.List.Nodup

namespace BubbleStorm.Cusp.Stream.BufferedOutStream

open List (append_assoc append_nil count_nil count_singleton map_append map_cons map_nil mem_append_left)
open OutStreamQueue (Status)

/-- Callbacks of the queue are being run, and the walk goes on at `next`. -/
def Resetting (s : St) (next : Link) : Prop := ∃ after, s.stack.head? = some (.resetting next after)

/-- A shutdown waits for the queue. -/
def Closing (s : St) : Prop := ∃ cb, s.str.state = .closing cb

/-- No reset while a shutdown waits, and nothing from within the callbacks of the queue
    but writes that are not the last one's. -/
def Calm (s : St) : Ev → Prop
  | .write _ => s.str.state = .active → ¬ Resetting s .head
  | .shutdown => s.str.state = .active → ∀ next, ¬ Resetting s next
  | .reset => ¬ Closing s ∧ ∀ next, ¬ Resetting s next
  | .answerWrite cb status => cb ∈ s.writes → (status = .reset → ¬ Closing s) ∧ ∀ next, ¬ Resetting s next
  | _ => True

inductive Reach : St → Prop
  | new : Reach new
  | step {s s' : St} (e : Ev) : Reach s → Calm s e → step s e = .ok s' → Reach s'

/-- No call is under way, and the stream has answered all it was given. -/
def Settled (s : St) : Prop := s.stack = [] ∧ s.writes = [] ∧ s.shutdowns = []

structure Discipline (s : St) : Prop where
  /-- The buffers passed are among those accepted, in their order. -/
  order : s.passed.Sublist s.accepted
  once : (s.accepted.map Item.cb).Nodup
  calledOnce : (s.called.map Prod.fst).Nodup
  closedOnce : (s.closed.map Prod.fst).Nodup
  answered : Settled s → (s.called.map Prod.fst).Perm s.asked ∧ (s.closed.map Prod.fst).Perm s.asks
  /-- Without a reset they are all passed. -/
  passed : Settled s → (∀ c ∈ s.called, c.2 = .ready) → s.passed = s.accepted

/-! ## The invariant -/

def pendingClose : State → List Nat
  | .closing cb => [cb]
  | _ => []

/-- `rest` are the elements whose callbacks are to be called, `held` the callbacks frames
    hold. -/
structure Books (s : St) (rest : List Item) (held : List Nat) : Prop where
  writes : ∀ n, s.asked.count n =
    (s.called.map Prod.fst).count n + s.writes.count n + held.count n + (rest.map Item.cb).count n
  shuts : ∀ n, s.asks.count n =
    (s.closed.map Prod.fst).count n + s.shutdowns.count n + (pendingClose s.str.state).count n
  asked : ∀ n, s.asked.count n ≤ 1
  asks : ∀ n, s.asks.count n ≤ 1
  fresh : ∀ n, s.next ≤ n → s.asked.count n = 0 ∧ s.asks.count n = 0
  accepted : (s.accepted.map Item.cb).Sublist s.asked
  order : (s.passed ++ s.str.buffer).Sublist s.accepted
  kept : (∀ c ∈ s.called, c.2 = .ready) → s.passed ++ s.str.buffer = s.accepted
  single : s.writes.length ≤ 1
  busy : s.writes ≠ [] → s.str.ready = false ∨ s.str.state = .reset
  drained : s.str.state = .reset → s.str.buffer = []
  waits : Closing s → s.str.ready = false

inductive Phase (s : St) : List Item → List Nat → Prop
  | idle : s.stack = [] → (s.str.ready = true → s.str.buffer = []) → (s.str.ready = false → s.writes ≠ []) →
      Phase s s.str.buffer []
  | ready : s.stack = [.ready] → s.writes = [] → (s.str.ready = true → s.str.state = .reset) → Phase s s.str.buffer []
  | closing : s.stack = [.closing] → s.writes = [] → s.str.buffer = [] → s.str.state = .shutdown ∨ s.str.state = .reset →
      Phase s s.str.buffer []
  | byReset (done rest : List Item) (below : List Frame) : s.stack = .resetting (headOf rest) .reset :: below →
      below = [] ∨ (below = [.ready] ∧ s.writes = []) → s.str.buffer = done ++ rest → s.str.ready = false →
      ¬ Closing s → (∃ c ∈ s.called, c.2 = .reset) → Phase s rest []
  | byStream (done rest : List Item) (cb : Nat) : s.stack = [.resetting (headOf rest) (.remote cb)] → s.writes = [] →
      s.str.buffer = done ++ rest → s.str.ready = false → ¬ Closing s → (∃ c ∈ s.called, c.2 = .reset) → Phase s rest [cb]

def Inv (s : St) : Prop := ∃ rest held, Books s rest held ∧ Phase s rest held

theorem inv_new : Inv new := by
  refine ⟨[], [], ⟨?_, ?_, ?_, ?_, ?_, ?_, ?_, ?_, ?_, ?_, ?_, ?_⟩, .idle rfl (fun _ => rfl) nofun⟩
  all_goals simp [new, pendingClose, Closing]

theorem Books.nodup {s : St} {rest : List Item} {held : List Nat} (h : Books s rest held) :
    (s.str.buffer.map Item.cb).Nodup := by
  have hn : s.asked.Nodup := List.nodup_iff_count_le_one.mpr h.asked
  have hs : (s.str.buffer.map Item.cb).Sublist s.asked :=
    (((List.sublist_append_right _ _).trans h.order).map _).trans h.accepted
  exact hn.sublist hs

/-- Past an element, the walk goes on with what follows it. -/
theorem nextOf_append {done rest : List Item} {x : Item} (h : ((done ++ x :: rest).map Item.cb).Nodup) :
    nextOf (done ++ x :: rest) x = headOf rest := by
  have hd : (done ++ x :: rest).dropWhile (·.cb ≠ x.cb) = x :: rest := by
    have hx : ∀ y ∈ done, y.cb ≠ x.cb := by
      intro y hy he
      rw [map_append, map_cons] at h
      have := (List.nodup_append.mp h).2.2 _ (List.mem_map_of_mem hy) _ (.head _)
      exact this he
    rw [List.dropWhile_append_of_pos (by simpa using hx)]
    simp
  unfold nextOf
  rw [hd]

/-! ## Writing -/

theorem count_snoc (l : List Nat) (k n : Nat) : (l ++ [k]).count n = l.count n + if k = n then 1 else 0 := by
  rw [List.count_append, count_singleton]
  simp

theorem snoc_le_one {l : List Nat} {k : Nat} (h : ∀ n, l.count n ≤ 1) (hk : l.count k = 0) (n : Nat) :
    (l ++ [k]).count n ≤ 1 := by
  rw [count_snoc]
  split
  · rename_i e
    subst e
    omega
  · exact h n

theorem inv_writer {s : St} (hb : Books s s.str.buffer []) (hs : s.stack = []) (hw : s.writes = []) : Inv (writer s) := by
  unfold writer
  split
  · rename_i item rest hbuf
    rw [hbuf] at hb
    refine ⟨rest, [], { hb with writes := fun n => ?_, order := ?_, kept := ?_, single := ?_, busy := ?_, drained := ?_, waits := ?_ },
      .idle hs (fun h => absurd h Bool.false_ne_true) (fun _ => ?_)⟩
    · have := hb.writes n
      simp only [map_cons, List.count_cons, hw, List.nil_append, count_nil] at this ⊢
      omega
    · have := hb.order
      rw [hbuf] at this
      simpa using this
    · intro hc
      have := hb.kept hc
      rw [hbuf] at this
      simpa using this
    · simp [hw]
    · intro _
      exact .inl rfl
    · intro hr
      exact absurd (hb.drained hr) (by simp [hbuf])
    · intro _
      rfl
    · simp
  · rename_i hbuf
    split
    · rename_i cb hst
      have hc := hb.waits ⟨cb, hst⟩
      refine ⟨_, [], { hb with shuts := fun n => ?_, drained := fun h => absurd h State.noConfusion, busy := fun h => absurd hw h, waits := ?_ },
        .closing (congrArg _ hs) hw hbuf (.inl rfl)⟩
      · have := hb.shuts n
        simp only [execShutdown, push, hst, pendingClose, List.count_append, count_nil] at this ⊢
        omega
      · rintro ⟨c, h⟩
        cases h
    · rename_i hst
      refine ⟨_, [], { hb with busy := fun h => absurd hw h, waits := ?_ }, .idle hs (fun _ => hbuf) fun h => absurd h.symm Bool.false_ne_true⟩
      rintro ⟨c, h⟩
      exact absurd h (hst c)

/-- An element enters the queue. -/
def queued (s : St) (data : Bytes) : St :=
  { s with asked := s.asked ++ [s.next], next := s.next + 1,
           str := { s.str with buffer := s.str.buffer ++ [⟨s.next, data⟩] },
           accepted := s.accepted ++ [⟨s.next, data⟩] }

theorem books_queued {s : St} {rest : List Item} {held : List Nat} (hb : Books s rest held) (hact : s.str.state = .active)
    (data : Bytes) : Books (queued s data) (rest ++ [⟨s.next, data⟩]) held where
  writes n := by
    have := hb.writes n
    simp only [queued, map_append, map_cons, map_nil, count_snoc]
    omega
  shuts n := hb.shuts n
  asked n := snoc_le_one hb.asked (hb.fresh _ (Nat.le_refl _)).1 n
  asks n := hb.asks n
  fresh n hn := by
    have := hb.fresh n (Nat.le_of_succ_le hn)
    refine ⟨?_, this.2⟩
    simp only [queued, count_snoc, this.1]
    rw [if_neg (by simp only [queued] at hn; omega)]
  accepted := by
    simp only [queued, map_append, map_cons, map_nil]
    exact hb.accepted.append (List.Sublist.refl _)
  order := by
    simp only [queued]
    rw [← append_assoc]
    exact hb.order.append (List.Sublist.refl _)
  kept hc := by
    simp only [queued]
    rw [← append_assoc, hb.kept hc]
  single := hb.single
  busy := hb.busy
  drained hr := by
    simp [queued, hact] at hr
  waits := hb.waits

theorem inv_write {s s' : St} {data : Bytes} (h : Inv s) (hc : Calm s (.write data)) (he : write s data = .ok s') :
    Inv s' := by
  obtain ⟨rest, held, hb, hp⟩ := h
  unfold write at he
  split at he
  · cases he
    refine ⟨rest, held, { hb with writes := fun n => ?_, asked := ?_, fresh := fun n hn => ?_, accepted := ?_, kept := ?_ }, ?_⟩
    · have := hb.writes n
      simp only [call, map_append, map_cons, map_nil, count_snoc]
      omega
    · exact snoc_le_one hb.asked (hb.fresh _ (Nat.le_refl _)).1
    · have := hb.fresh n (Nat.le_of_succ_le hn)
      refine ⟨?_, this.2⟩
      simp only [call, count_snoc, this.1]
      rw [if_neg (by simp only [call] at hn; omega)]
    · exact hb.accepted.trans (List.sublist_append_left _ _)
    · intro hr
      exact hb.kept fun c hc => hr c (mem_append_left _ hc)
    · cases hp with
      | idle h1 h2 h3 => exact .idle h1 h2 h3
      | ready h1 h2 h3 => exact .ready h1 h2 h3
      | closing h1 h2 h3 h4 => exact .closing h1 h2 h3 h4
      | byReset done rest below h1 h2 h3 h4 h5 h6 =>
        obtain ⟨c, hm, hc⟩ := h6
        exact .byReset done rest below h1 h2 h3 h4 h5 ⟨c, mem_append_left _ hm, hc⟩
      | byStream done rest cb h1 h2 h3 h4 h5 h6 =>
        obtain ⟨c, hm, hc⟩ := h6
        exact .byStream done rest cb h1 h2 h3 h4 h5 ⟨c, mem_append_left _ hm, hc⟩
  · rename_i hact
    cases he
    have hq := books_queued hb hact data
    split
    · -- ready: nothing was under way
      rename_i hr
      cases hp with
      | idle h1 h2 h3 =>
        refine inv_writer (s := queued s data) hq h1 ?_
        by_contra hw
        rcases hb.busy hw with h | h
        · exact absurd h (by simp [hr])
        · exact absurd h (by simp [hact])
      | ready h1 h2 h3 => exact absurd (h3 hr) (by simp [hact])
      | closing h1 h2 h3 h4 => simp [hact] at h4
      | byReset done rest below h1 h2 h3 h4 h5 h6 => exact absurd h4 (by simp [hr])
      | byStream done rest cb h1 h2 h3 h4 h5 h6 => exact absurd h4 (by simp [hr])
    · rename_i hr
      have hlast : ∀ {after below}, s.stack = .resetting (headOf rest) after :: below →
          ∃ y tail, rest = y :: tail := by
        intro after below hs
        cases rest with
        | nil => exact absurd ⟨after, by rw [hs]; rfl⟩ (hc hact)
        | cons y tail => exact ⟨y, tail, rfl⟩
      refine ⟨_, _, hq, ?_⟩
      cases hp with
      | idle h1 h2 h3 => exact .idle h1 (fun h => absurd h hr) h3
      | ready h1 h2 h3 => exact .ready h1 h2 h3
      | closing h1 h2 h3 h4 => simp [hact] at h4
      | byReset done _ below h1 h2 h3 h4 h5 h6 =>
        obtain ⟨y, tail, rfl⟩ := hlast h1
        refine .byReset done _ below h1 h2 ?_ h4 h5 h6
        simp only [h3, append_assoc]
      | byStream done _ cb h1 h2 h3 h4 h5 h6 =>
        obtain ⟨y, tail, rfl⟩ := hlast h1
        refine .byStream done _ cb h1 h2 ?_ h4 h5 h6
        simp only [h3, append_assoc]
  · cases he

/-! ## Shutting down -/

theorem Phase.congr {s s' : St} {rest : List Item} {held : List Nat} (hp : Phase s rest held) (hst : s'.stack = s.stack)
    (hw : s'.writes = s.writes) (hstr : s'.str = s.str) (hc : s'.called = s.called) : Phase s' rest held := by
  have hcl : Closing s' ↔ Closing s := by
    unfold Closing
    rw [hstr]
  cases hp with
  | idle h1 h2 h3 =>
    rw [← hstr]
    exact .idle (hst ▸ h1) (hstr ▸ h2) (hstr ▸ hw ▸ h3)
  | ready h1 h2 h3 =>
    rw [← hstr]
    exact .ready (hst ▸ h1) (hw ▸ h2) (hstr ▸ h3)
  | closing h1 h2 h3 h4 =>
    rw [← hstr]
    exact .closing (hst ▸ h1) (hw ▸ h2) (hstr ▸ h3) (hstr ▸ h4)
  | byReset done rest below h1 h2 h3 h4 h5 h6 =>
    exact .byReset done rest below (hst ▸ h1) (hw ▸ h2) (hstr ▸ h3) (hstr ▸ h4) (mt hcl.mp h5) (hc ▸ h6)
  | byStream done rest cb h1 h2 h3 h4 h5 h6 =>
    exact .byStream done rest cb (hst ▸ h1) (hw ▸ h2) (hstr ▸ h3) (hstr ▸ h4) (mt hcl.mp h5) (hc ▸ h6)

/-- A callback of a shutdown is taken, and is called, given to the stream or kept. -/
theorem Books.ask {s s' : St} {rest : List Item} {held : List Nat} (hb : Books s rest held)
    (hasks : s'.asks = s.asks ++ [s.next]) (hnext : s'.next = s.next + 1) (hasked : s'.asked = s.asked)
    (hcalled : s'.called = s.called) (hwrites : s'.writes = s.writes) (hacc : s'.accepted = s.accepted)
    (hpass : s'.passed = s.passed) (hbuf : s'.str.buffer = s.str.buffer) (hready : s'.str.ready = s.str.ready)
    (hreset : s'.str.state = .reset ↔ s.str.state = .reset) (hcl : Closing s' → s.str.ready = false)
    (hone : ∀ n, (s'.closed.map Prod.fst).count n + s'.shutdowns.count n + (pendingClose s'.str.state).count n =
      (s.closed.map Prod.fst).count n + s.shutdowns.count n + (pendingClose s.str.state).count n +
        if s.next = n then 1 else 0) : Books s' rest held where
  writes n := by
    rw [hasked, hcalled, hwrites]
    exact hb.writes n
  shuts n := by
    rw [hone n, hasks, count_snoc, hb.shuts n]
  asked n := by
    rw [hasked]
    exact hb.asked n
  asks n := by
    rw [hasks]
    exact snoc_le_one hb.asks (hb.fresh _ (Nat.le_refl _)).2 n
  fresh n hn := by
    rw [hnext] at hn
    have := hb.fresh n (Nat.le_of_succ_le hn)
    refine ⟨by rw [hasked]; exact this.1, ?_⟩
    rw [hasks, count_snoc, this.2, if_neg (by omega)]
  accepted := by
    rw [hacc, hasked]
    exact hb.accepted
  order := by
    rw [hpass, hbuf, hacc]
    exact hb.order
  kept := by
    rw [hcalled, hpass, hbuf, hacc]
    exact hb.kept
  single := by
    rw [hwrites]
    exact hb.single
  busy := by
    rw [hwrites, hready, hreset]
    exact hb.busy
  drained := by
    rw [hreset, hbuf]
    exact hb.drained
  waits hc := by
    rw [hready]
    exact hcl hc

theorem inv_shutdown {s s' : St} (h : Inv s) (hc : Calm s .shutdown) (he : shutdown s = .ok s') : Inv s' := by
  obtain ⟨rest, held, hb, hp⟩ := h
  unfold shutdown at he
  split at he
  · rename_i hst
    cases he
    refine ⟨rest, held, hb.ask rfl rfl rfl rfl rfl rfl rfl rfl rfl Iff.rfl (fun h => hb.waits h) fun n => ?_,
      hp.congr rfl rfl rfl rfl⟩
    simp only [map_append, map_cons, map_nil, count_snoc]
    omega
  · rename_i hact
    have hnot : ¬ Closing s := by
      rintro ⟨cb, h⟩
      exact absurd (hact.symm.trans h) nofun
    cases he
    split
    · -- with nothing queued, the stream shuts down at once
      rename_i hr
      refine ⟨rest, held, hb.ask rfl rfl rfl rfl rfl rfl rfl rfl rfl (by simp [execShutdown, hact]) ?_ fun n => ?_, ?_⟩
      · rintro ⟨cb, h⟩
        cases h
      · simp only [execShutdown, hact, pendingClose, count_snoc]
        omega
      · cases hp with
        | idle h1 h2 h3 => exact .idle h1 h2 h3
        | ready h1 h2 h3 => exact absurd (h3 hr) (by simp [hact])
        | closing h1 h2 h3 h4 => simp [hact] at h4
        | byReset done rest below h1 h2 h3 h4 h5 h6 => exact absurd h4 (by simp [hr])
        | byStream done rest cb h1 h2 h3 h4 h5 h6 => exact absurd h4 (by simp [hr])
    · rename_i hr
      simp only [Bool.not_eq_true] at hr
      refine ⟨rest, held, hb.ask rfl rfl rfl rfl rfl rfl rfl rfl rfl (by simp [hact]) (fun _ => hr) fun n => ?_, ?_⟩
      · simp only [hact, pendingClose, count_singleton, count_nil, beq_iff_eq]
        omega
      · cases hp with
        | idle h1 h2 h3 => exact .idle h1 h2 h3
        | ready h1 h2 h3 => exact .ready h1 h2 (fun h => absurd h (by simp [hr]))
        | closing h1 h2 h3 h4 => simp [hact] at h4
        | byReset done rest below h1 h2 h3 h4 h5 h6 => exact absurd ⟨_, by rw [h1]; rfl⟩ (hc hact (headOf rest))
        | byStream done rest cb h1 h2 h3 h4 h5 h6 => exact absurd ⟨_, by rw [h1]; rfl⟩ (hc hact (headOf rest))
  · cases he

/-! ## Resetting the queue -/

theorem pendingClose_nil {s : St} (h : ¬ Closing s) : pendingClose s.str.state = [] := by
  cases hs : s.str.state with
  | closing cb => exact absurd ⟨cb, hs⟩ h
  | _ => rfl

/-- The callback of an element is called. -/
theorem Books.walk {s : St} {x : Item} {rest : List Item} {held : List Nat} (hb : Books s (x :: rest) held) (f : Frame) :
    Books (push (call s x.cb .reset) f) rest held :=
  { hb with
    writes := fun n => by
      have := hb.writes n
      simp only [push, call, map_append, map_cons, map_nil, count_snoc, List.count_cons, beq_iff_eq] at this ⊢
      omega
    kept := fun hr => absurd (hr (x.cb, .reset) (by simp [push, call])) nofun }

theorem inv_byReset {s s' : St} {done rest : List Item} (hb : Books s rest []) (hbuf : s.str.buffer = done ++ rest)
    (hdone : done = [] ∨ ∃ c ∈ s.called, c.2 = .reset) (hcl : ¬ Closing s)
    (hst : s.stack = [] ∨ (s.stack = [.ready] ∧ s.writes = []) ∨ (s.stack = [.closing] ∧ s.writes = [] ∧ rest = []))
    (hr : rest ≠ [] → s.str.ready = false) (he : iterate s .reset (headOf rest) = .ok s') : Inv s' := by
  cases rest with
  | nil =>
    cases he
    have hnew : ¬ Closing (finish s .reset) := by
      rintro ⟨cb, h⟩
      cases h
    refine ⟨[], [],
      { hb with
        shuts := fun n => ?_
        order := ?_
        kept := fun hc => ?_
        busy := fun _ => .inr rfl
        drained := fun _ => rfl
        waits := fun h => absurd h hnew }, ?_⟩
    · have := hb.shuts n
      rw [pendingClose_nil hcl] at this
      exact this
    · rw [finish, append_nil]
      exact (List.sublist_append_left _ _).trans hb.order
    · rcases hdone with rfl | ⟨c, hm, hc'⟩
      · have := hb.kept hc
        rw [hbuf] at this
        exact this
      · exact absurd ((hc c hm).symm.trans hc') nofun
    · rcases hst with h | ⟨h, hw⟩ | ⟨h, hw, -⟩
      · exact .idle h (fun _ => rfl) nofun
      · exact .ready h hw (fun _ => rfl)
      · exact .closing h hw rfl (.inr rfl)
  | cons x rest =>
    have hn : nextOf s.str.buffer x = headOf rest := by
      rw [hbuf]
      exact nextOf_append (hbuf ▸ hb.nodup)
    rw [show headOf (x :: rest) = .elt x from rfl, iterate, hn] at he
    cases he
    refine ⟨rest, [], hb.walk _, .byReset (done ++ [x]) rest s.stack rfl ?_ ?_ (hr (by simp)) hcl ?_⟩
    · rcases hst with h | h | ⟨-, -, h⟩
      · exact .inl h
      · exact .inr h
      · cases h
    · simp [push, call, hbuf]
    · exact ⟨(x.cb, .reset), by simp [push, call], rfl⟩

theorem inv_byStream {s s' : St} {done rest : List Item} {cb : Nat} (hb : Books s rest [cb]) (hbuf : s.str.buffer = done ++ rest)
    (hcl : ¬ Closing s) (hst : s.stack = []) (hw : s.writes = []) (hr : rest ≠ [] → s.str.ready = false)
    (he : iterate s (.remote cb) (headOf rest) = .ok s') : Inv s' := by
  cases rest with
  | nil =>
    cases he
    refine ⟨[], [],
      { hb with
        writes := fun n => ?_
        order := ?_
        kept := fun hc => ?_
        busy := fun h => absurd hw h
        drained := fun _ => rfl
        waits := fun h => absurd h hcl }, .idle hst (fun _ => rfl) nofun⟩
    · have := hb.writes n
      simp only [finish, call, map_append, map_cons, map_nil, count_snoc, count_singleton, count_nil,
        beq_iff_eq] at this ⊢
      omega
    · rw [finish, call, append_nil]
      exact (List.sublist_append_left _ _).trans hb.order
    · exact absurd (hc (cb, .reset) (by simp [finish, call])) nofun
  | cons x rest =>
    have hn : nextOf s.str.buffer x = headOf rest := by
      rw [hbuf]
      exact nextOf_append (hbuf ▸ hb.nodup)
    rw [show headOf (x :: rest) = .elt x from rfl, iterate, hn] at he
    cases he
    refine ⟨rest, [cb], hb.walk _, .byStream (done ++ [x]) rest cb ?_ hw ?_ (hr (by simp)) hcl ?_⟩
    · simp [push, call, hst]
    · simp [push, call, hbuf]
    · exact ⟨(x.cb, .reset), by simp [push, call], rfl⟩

theorem inv_reset {s s' : St} (h : Inv s) (hc : Calm s .reset) (he : resetQueued s .reset = .ok s') : Inv s' := by
  obtain ⟨rest, held, hb, hp⟩ := h
  obtain ⟨hcl, hno⟩ := hc
  cases hp with
  | idle h1 h2 h3 =>
    refine inv_byReset hb rfl (.inl rfl) hcl (.inl h1) (fun hne => ?_) he
    by_contra hr
    exact hne (h2 (by simpa using hr))
  | ready h1 h2 h3 =>
    refine inv_byReset hb rfl (.inl rfl) hcl (.inr (.inl ⟨h1, h2⟩)) (fun hne => ?_) he
    by_contra hr
    exact hne (hb.drained (h3 (by simpa using hr)))
  | closing h1 h2 h3 h4 =>
    exact inv_byReset hb rfl (.inl rfl) hcl (.inr (.inr ⟨h1, h2, h3⟩)) (fun hne => absurd h3 hne) he
  | byReset done rest below h1 h2 h3 h4 h5 h6 => exact absurd ⟨_, by rw [h1]; rfl⟩ (hno (headOf rest))
  | byStream done rest cb h1 h2 h3 h4 h5 h6 => exact absurd ⟨_, by rw [h1]; rfl⟩ (hno (headOf rest))

/-! ## Answers -/

/-- A stream that has a write to answer has one, and nothing else is under way. -/
theorem Books.answering {s : St} {rest : List Item} {held : List Nat} (hb : Books s rest held) (hp : Phase s rest held)
    {cb : Nat} (hm : cb ∈ s.writes) (hno : ∀ next, ¬ Resetting s next) :
    s.writes = [cb] ∧ s.stack = [] ∧ rest = s.str.buffer ∧ held = [] := by
  have hw : s.writes = [cb] := by
    have hlen := hb.single
    cases hws : s.writes with
    | nil => simp [hws] at hm
    | cons x l =>
      rw [hws] at hlen hm
      have hl : l = [] := List.eq_nil_of_length_eq_zero (by simpa using hlen)
      subst hl
      rw [List.mem_singleton.mp hm]
  refine ⟨hw, ?_⟩
  cases hp with
  | idle h1 h2 h3 => exact ⟨h1, rfl, rfl⟩
  | ready h1 h2 h3 => simp [hw] at h2
  | closing h1 h2 h3 h4 => simp [hw] at h2
  | byReset done rest below h1 h2 h3 h4 h5 h6 => exact absurd ⟨_, by rw [h1]; rfl⟩ (hno (headOf rest))
  | byStream done rest cb h1 h2 h3 h4 h5 h6 => exact absurd ⟨_, by rw [h1]; rfl⟩ (hno (headOf rest))

theorem inv_answerWrite {s s' : St} {cb : Nat} {status : Status} (h : Inv s) (hc : Calm s (.answerWrite cb status))
    (he : step s (.answerWrite cb status) = .ok s') : Inv s' := by
  simp only [step] at he
  split at he
  · rename_i hm
    obtain ⟨hcl, hno⟩ := hc hm
    have h' := h
    obtain ⟨rest, held, hb, hp⟩ := h'
    obtain ⟨hw, hst, rfl, rfl⟩ := hb.answering hp hm hno
    have hbusy := hb.busy (by simp [hw])
    have hidle : s.str.buffer ≠ [] → s.str.ready = false := by
      intro hne
      rcases hbusy with h | h
      · exact h
      · exact absurd (hb.drained h) hne
    have hcount : ∀ n, s.writes.count n = if cb = n then 1 else 0 := by
      intro n
      rw [hw, count_singleton]
      simp
    have herase : s.writes.erase cb = [] := by simp [hw]
    split at he
    · -- the queue is dropped before the write's own callback
      have hkept : s.str.buffer = [] ++ s.str.buffer := rfl
      refine inv_byStream (s := { s with writes := s.writes.erase cb }) ?_ hkept (hcl rfl) hst herase hidle he
      refine { hb with writes := fun n => ?_, single := ?_, busy := fun h => absurd herase h }
      · have := hb.writes n
        simp only [herase, count_nil, count_singleton, hcount, beq_iff_eq] at this ⊢
        omega
      · simp [herase]
    · cases he
      refine ⟨s.str.buffer, [], { hb with writes := fun n => ?_, kept := ?_, single := ?_, busy := fun h => absurd herase h },
        .ready ?_ herase fun hr => ?_⟩
      · have := hb.writes n
        simp only [push, call, herase, map_append, map_cons, map_nil, count_snoc, count_nil, hcount] at this ⊢
        omega
      · intro hr
        exact hb.kept fun c hc => hr c (mem_append_left _ hc)
      · simp [push, call, herase]
      · simp [push, call, hst]
      · rcases hbusy with h | h
        · exact absurd (h.symm.trans hr) nofun
        · exact h
  · cases he
    exact h

theorem inv_answerShutdown {s s' : St} {cb : Nat} {ok : Bool} (h : Inv s) (he : step s (.answerShutdown cb ok) = .ok s') :
    Inv s' := by
  simp only [step] at he
  split at he
  · rename_i hm
    cases he
    obtain ⟨rest, held, hb, hp⟩ := h
    refine ⟨rest, held, { hb with shuts := fun n => ?_ }, hp.congr rfl rfl rfl rfl⟩
    have := hb.shuts n
    have hpos : cb = n → 0 < s.shutdowns.count n := by
      rintro rfl
      exact List.count_pos_iff.mpr hm
    simp only [map_append, map_cons, map_nil, count_snoc, List.count_erase, beq_iff_eq]
    split
    · have := hpos ‹_›
      simp only [*]
      omega
    · omega
  · cases he
    exact h

/-! ## Returns -/

theorem inv_ret {s s' : St} (h : Inv s) (he : step s .ret = .ok s') : Inv s' := by
  have h' := h
  obtain ⟨rest, held, hb, hp⟩ := h'
  simp only [step] at he
  cases hp with
  | idle h1 h2 h3 =>
    rw [h1] at he
    cases he
    exact h
  | ready h1 h2 h3 =>
    rw [h1] at he
    cases he
    exact inv_writer (s := { s with stack := [] }) { hb with } rfl h2
  | closing h1 h2 h3 h4 =>
    rw [h1] at he
    cases he
    refine ⟨s.str.buffer, [], { hb with busy := fun h => absurd h2 h, waits := ?_ }, .idle rfl (fun _ => h3) nofun⟩
    rintro ⟨cb, h⟩
    rcases h4 with h4 | h4 <;> exact absurd (h4.symm.trans h) nofun
  | byReset done rest below h1 h2 h3 h4 h5 h6 =>
    rw [h1] at he
    refine inv_byReset (s := { s with stack := below }) { hb with } h3 (.inr h6) h5 ?_ (fun _ => h4) he
    rcases h2 with h2 | h2
    · exact .inl h2
    · exact .inr (.inl h2)
  | byStream done rest cb h1 h2 h3 h4 h5 h6 =>
    rw [h1] at he
    exact inv_byStream (s := { s with stack := [] }) { hb with } h3 h5 rfl h2 (fun _ => h4) he

theorem inv_step {s s' : St} {e : Ev} (h : Inv s) (hc : Calm s e) (he : step s e = .ok s') : Inv s' := by
  cases e with
  | write data => exact inv_write h hc he
  | shutdown => exact inv_shutdown h hc he
  | reset => exact inv_reset h hc he
  | answerWrite cb status => exact inv_answerWrite h hc he
  | answerShutdown cb ok => exact inv_answerShutdown h he
  | ret => exact inv_ret h he

theorem inv_reach {s : St} (h : Reach s) : Inv s := by
  induction h with
  | new => exact inv_new
  | step e _ hc he ih => exact inv_step ih hc he

/-! ## The discipline -/

theorem discipline {s : St} (h : Inv s) : Discipline s := by
  obtain ⟨rest, held, hb, hp⟩ := h
  have hasked : s.asked.Nodup := List.nodup_iff_count_le_one.mpr hb.asked
  have hsettled : Settled s → rest = [] ∧ held = [] ∧ s.str.buffer = [] ∧ ¬ Closing s := by
    rintro ⟨hst, hw, -⟩
    cases hp with
    | idle h1 h2 h3 =>
      have hr : s.str.ready = true := by
        by_contra hr
        exact h3 (by simpa using hr) hw
      refine ⟨h2 hr, rfl, h2 hr, fun hcl => ?_⟩
      exact absurd ((hb.waits hcl).symm.trans hr) nofun
    | ready h1 _ _ => simp [hst] at h1
    | closing h1 _ _ _ => simp [hst] at h1
    | byReset _ _ _ h1 _ _ _ _ _ => simp [hst] at h1
    | byStream _ _ _ h1 _ _ _ _ _ => simp [hst] at h1
  refine ⟨(List.sublist_append_left _ _).trans hb.order, hasked.sublist hb.accepted, ?_, ?_, fun hs => ⟨?_, ?_⟩, fun hs hr => ?_⟩
  · refine List.nodup_iff_count_le_one.mpr fun n => ?_
    have h1 := hb.writes n
    have h2 := hb.asked n
    omega
  · refine List.nodup_iff_count_le_one.mpr fun n => ?_
    have h1 := hb.shuts n
    have h2 := hb.asks n
    omega
  · obtain ⟨rfl, rfl, -, -⟩ := hsettled hs
    refine List.perm_iff_count.mpr fun n => ?_
    have h1 := hb.writes n
    simp only [hs.2.1, map_nil, count_nil] at h1
    omega
  · obtain ⟨-, -, -, hcl⟩ := hsettled hs
    refine List.perm_iff_count.mpr fun n => ?_
    have h1 := hb.shuts n
    rw [pendingClose_nil hcl, hs.2.2] at h1
    simp only [count_nil] at h1
    omega
  · have := hb.kept hr
    rw [(hsettled hs).2.2.1, append_nil] at this
    exact this

/-- In every run of calm steps, buffers are passed on in order and once, no callback is
    called twice, and all are called by the time the stream has answered everything. -/
theorem calm_runs_disciplined (s : St) (h : Reach s) : Discipline s := discipline (inv_reach h)

/-- Two buffers, the second written while the first is on its way, and a shutdown; the
    stream answers all three. -/
theorem two_writes_disciplined :
    Discipline { new with str := { buffer := [], ready := true, state := .shutdown }, next := 3,
                          accepted := [⟨0, [7]⟩, ⟨1, [8]⟩], passed := [⟨0, [7]⟩, ⟨1, [8]⟩], asked := [0, 1],
                          asks := [2], called := [(0, .ready), (1, .ready)], closed := [(2, true)] } := by
  refine calm_runs_disciplined _ (.step (.answerShutdown 2 true) (.step .shutdown (.step .ret (.step (.answerWrite 1 .ready)
    (.step .ret (.step (.answerWrite 0 .ready) (.step (.write [8]) (.step (.write [7]) .new ?_ rfl) ?_ rfl) ?_ rfl)
      trivial rfl) ?_ rfl) trivial rfl) ?_ rfl) trivial rfl)
  · rintro - ⟨after, h⟩
    cases h
  · rintro - ⟨after, h⟩
    cases h
  · exact fun _ => ⟨nofun, fun next h => by obtain ⟨after, h⟩ := h; cases h⟩
  · exact fun _ => ⟨nofun, fun next h => by obtain ⟨after, h⟩ := h; cases h⟩
  · rintro - next ⟨after, h⟩
    cases h

/-- A write is on its way and the shutdown waits for it when the stream is reset; the
    stream answers the write, and nobody calls the shutdown's callback. -/
theorem reset_loses_shutdown :
    ¬ ∀ (evs : List Ev) (s : St), evs.foldlM step new = .ok s → Discipline s := by
  intro h
  have hd := h [.write [7], .shutdown, .reset, .answerWrite 0 .reset]
    { new with str := { buffer := [], ready := true, state := .reset }, next := 2, accepted := [⟨0, [7]⟩],
               passed := [⟨0, [7]⟩], asked := [0], asks := [1], called := [(0, .reset)] } rfl
  have hp := (hd.answered ⟨rfl, rfl, rfl⟩).2.length_eq
  exact absurd hp (by decide)

end BubbleStorm.Cusp.Stream.BufferedOutStream
