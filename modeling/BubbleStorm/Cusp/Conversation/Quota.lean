/-
  BubbleStorm.Cusp.Conversation.Quota — the counters of a conversation against the
  records they count.

  `done` and the exception handler of `operation` both take a record's cost off its
  counter. Removing the record twice is harmless, taking the cost off twice is not: an
  exception that passes the operation of a record whose callback has run (a callback run
  at once, from inside the operation, that raises) leaves the counter short by the cost.

  The argument: what a counter is short of (`short`) grows with each such exception by
  the costs of the records that had been answered (`slip`), and with nothing else
  (`step_short`), whatever the order of calls. So the counters are right at the end of a
  run exactly if no step slipped (`quota_accounts_iff`).
-/

import BubbleStorm.Cusp.Conversation.Conversation
import Mathlib.Algebra.BigOperators.Group.List.Basic
import Mathlib.Data.List.Nodup

namespace BubbleStorm.Cusp.Conversation

open BubbleStorm.Cusp.Stream

/-- The sum of the costs of some records. -/
def total (l : List Record) : Int := (l.map fun r => (r.cost : Int)).sum

/-- The counters are the sums of the costs of the records registered. -/
def Accounts (t : T) : Prop :=
  ∀ d, (t.account d).buffer = total (t.account d).streams ∧ 0 ≤ (t.account d).buffer ∧
    ((t.account d).streams = [] → (t.account d).buffer = 0)

def opOf : Frame → Option (Side × Record)
  | .operation d r => some (d, r)
  | _ => none

/-- The operations under way. -/
def ops (l : List Frame) : List (Side × Record) := l.filterMap opOf

/-- No exception passes the operation of a record that has been answered and had a cost. -/
def Calm (s : St) (e : Ev) : Prop :=
  ∀ n, e = .raise n → ∀ x ∈ ops (s.stack.take n), x ∈ s.waiting ∨ x.2.cost = 0

def run : St → List (Int × Ev) → Option St
  | s, [] => some s
  | s, (now, e) :: evs => (step s now e).bind fun s' => run s' evs

def CalmRun : St → List (Int × Ev) → Prop
  | _, [] => True
  | s, (now, e) :: evs => Calm s e ∧ ∀ s', step s now e = some s' → CalmRun s' evs

/-! ## Accounts -/

@[simp] theorem account_setAccount (t : T) (a : Account) (d d' : Side) :
    (t.setAccount a d).account d' = if d' = d then a else t.account d' := by
  cases d <;> cases d' <;> rfl

theorem total_perm {l l' : List Record} (h : l.Perm l') : total l = total l' := (h.map _).sum_eq

@[simp] theorem total_cons (r : Record) (l : List Record) : total (r :: l) = r.cost + total l := by
  simp [total]

theorem total_nonneg (l : List Record) : 0 ≤ total l := by
  induction l with
  | nil => exact Int.le_refl 0
  | cons r l ih => rw [total_cons]; omega

theorem heapRemove_perm {h : List Record} {r : Record} (hr : r ∈ h) (hn : (h.map Record.id).Nodup) :
    h.Perm (r :: heapRemove h r) := by
  unfold heapRemove
  split
  · rename_i i hi
    obtain ⟨hlt, he, -⟩ := List.findIdx?_eq_some_iff_getElem.mp hi
    have : h[i] = r := List.inj_on_of_nodup_map hn (List.getElem_mem hlt) hr (beq_iff_eq.mp he)
    exact BinHeap.removeAt_perm _ (by rw [List.getElem?_eq_getElem hlt, this])
  · rename_i hi
    have := List.findIdx?_eq_none_iff.mp hi r hr
    simp at this

theorem heapRemove_absent {h : List Record} {r : Record} (hr : ∀ x ∈ h, x.id ≠ r.id) : heapRemove h r = h := by
  unfold heapRemove
  rw [List.findIdx?_eq_none_iff.mpr (by simpa using hr)]

/-! ## Who holds a record -/

/-- A record some stream or some operation holds on to. -/
def Known (s : St) (x : Side × Record) : Prop := x ∈ s.waiting ∨ x ∈ ops s.stack

/-- The records registered are those still to be answered, and each is one reference. -/
structure Sane (s : St) : Prop where
  live : ∀ d r, r ∈ (s.conv.account d).streams ↔ (d, r) ∈ s.waiting
  ids : ∀ d, ((s.conv.account d).streams.map Record.id).Nodup
  once : s.waiting.Nodup
  frames : (ops s.stack).Nodup
  fresh : ∀ x, Known s x → x.2.id < s.next
  same : ∀ x y, Known s x → Known s y → x.2.id = y.2.id → x = y

theorem sane_init (now : Int) : Sane (init now) where
  live d r := by cases d <;> simp [init, T.account]
  ids d := by cases d <;> simp [init, T.account]
  once := by simp [init]
  frames := by simp [init, ops]
  fresh x h := by simp [Known, init, ops] at h
  same x y h := by simp [Known, init, ops] at h

/-- What a counter is short of the sum it stands for. -/
def short (t : T) (d : Side) : Int := total (t.account d).streams - (t.account d).buffer

/-- The same accounts, and the same records held. -/
structure Keeps (s s' : St) : Prop where
  account : ∀ d, s'.conv.account d = s.conv.account d
  waiting : s'.waiting = s.waiting
  next : s'.next = s.next
  ops : ops s'.stack = ops s.stack

theorem Keeps.refl (s : St) : Keeps s s := ⟨fun _ => rfl, rfl, rfl, rfl⟩

theorem Keeps.trans {s s' s'' : St} (h : Keeps s s') (h' : Keeps s' s'') : Keeps s s'' :=
  ⟨fun d => (h'.account d).trans (h.account d), h'.waiting.trans h.waiting, h'.next.trans h.next, h'.ops.trans h.ops⟩

theorem Keeps.sane {s s' : St} (h : Keeps s s') (hs : Sane s) : Sane s' := by
  have hk : ∀ x, Known s' x ↔ Known s x := by
    intro x
    unfold Known
    rw [h.waiting, h.ops]
  constructor
  · intro d r
    rw [h.account, h.waiting]
    exact hs.live d r
  · intro d
    rw [h.account]
    exact hs.ids d
  · rw [h.waiting]; exact hs.once
  · rw [h.ops]; exact hs.frames
  · intro x hx
    rw [h.next]
    exact hs.fresh x ((hk x).mp hx)
  · intro x y hx hy
    exact hs.same x y ((hk x).mp hx) ((hk y).mp hy)

theorem Keeps.short {s s' : St} (h : Keeps s s') (d : Side) : short s'.conv d = short s.conv d := by
  unfold Conversation.short
  rw [h.account]

theorem keeps_push (s : St) {f : Frame} (hf : opOf f = none) : Keeps s (push s f) :=
  ⟨fun _ => rfl, rfl, rfl, List.filterMap_cons_none hf⟩

theorem keeps_conv {s : St} {t : T} (hi : t.inn = s.conv.inn) (ho : t.out = s.conv.out) : Keeps s { s with conv := t } := by
  refine ⟨fun d => ?_, rfl, rfl, rfl⟩
  cases d
  · exact hi
  · exact ho

theorem keeps_checkLimits (todo : List Side) (s : St) : Keeps s (checkLimits todo s) := by
  induction todo with
  | nil => exact .refl s
  | cons d todo ih =>
    unfold checkLimits
    split
    · exact ih
    · split
      · split
        · exact (keeps_conv (t := { s.conv with limits := none }) rfl rfl).trans (keeps_push _ rfl)
        · exact keeps_push _ rfl
      · exact ih

theorem keeps_resetStreams (todo : List Side) (s : St) : Keeps s (resetStreams todo s) := by
  induction todo with
  | nil => exact .refl s
  | cons d todo ih =>
    unfold resetStreams
    split
    · exact ih
    · exact keeps_push _ rfl

theorem keeps_checkClose (s : St) : Keeps s (checkClose s) := by
  unfold checkClose
  split
  · split
    · exact .refl s
    · exact (keeps_conv (t := { s.conv with close := [] }) rfl rfl).trans (keeps_push _ rfl)
  · exact .refl s

theorem keeps_completed (s : St) (now : Int) (ok : Bool) (queue : Nat) (r : Record) (d : Side) :
    Keeps s (completed s now ok queue r d) := by
  cases d with
  | inn =>
    simp only [completed]
    split
    · exact keeps_conv rfl rfl
    · exact .refl s
  | out =>
    simp only [completed]
    split
    · generalize (if r.cost ≤ queue then s.conv.progress else now) = progress
      exact (keeps_conv (t := { s.conv with progress := progress, traffic := s.conv.traffic + (r.cost - queue) })
        rfl rfl).trans (keeps_checkClose _)
    · exact keeps_checkClose s

theorem keeps_resume (s : St) (now : Int) (ok : Bool) (queue : Nat) (f : Frame) : Keeps s (resume s now ok queue f) := by
  cases f with
  | operation d r => exact keeps_checkLimits _ s
  | complete d r => exact keeps_completed s now ok queue r d
  | killing todo => exact keeps_checkLimits _ s
  | quota todo => exact keeps_checkLimits _ s
  | resetting todo => exact keeps_resetStreams _ s
  | closing rest =>
    cases rest with
    | nil => exact .refl s
    | cons c rest => exact keeps_push _ rfl

/-! ## Registering and releasing -/

theorem ops_sublist {l l' : List Frame} (h : l.Sublist l') : (ops l).Sublist (ops l') := h.filterMap _

/-- Frames may be dropped: fewer records are held. -/
theorem Sane.drop {s : St} (h : Sane s) {l : List Frame} (hl : (ops l).Sublist (ops s.stack)) :
    Sane { s with stack := l } := by
  have hk : ∀ x, Known { s with stack := l } x → Known s x := fun x hx => hx.imp id fun hm => hl.subset hm
  exact ⟨h.live, h.ids, h.once, h.frames.sublist hl, fun x hx => h.fresh x (hk x hx),
    fun x y hx hy => h.same x y (hk x hx) (hk y hy)⟩

theorem account_add (s : St) (now : Int) (d d' : Side) (stream cost : Nat) (reliability : Real32) :
    (add s now d stream cost reliability).conv.account d' =
      if d' = d then
        ⟨BinHeap.push Record.less (s.conv.account d).streams ⟨s.next, stream, reliability, cost⟩,
          (s.conv.account d).buffer + cost⟩
      else s.conv.account d' := by
  unfold add
  simp only [account_setAccount]
  cases d <;> cases d' <;> rfl

theorem short_add (s : St) (now : Int) (d d' : Side) (stream cost : Nat) (reliability : Real32) :
    short (add s now d stream cost reliability).conv d' = short s.conv d' := by
  unfold short
  rw [account_add]
  split
  · rename_i h
    rw [h, total_perm (BinHeap.push_perm _ _ _), total_cons]
    simp only
    omega
  · rfl

theorem sane_add {s : St} (h : Sane s) (now : Int) (d : Side) (stream cost : Nat) (reliability : Real32) :
    Sane (add s now d stream cost reliability) := by
  -- the new record's reference is none of those held before
  have hnew : ∀ x, Known s x → x.2.id ≠ s.next := fun x hx => Nat.ne_of_lt (h.fresh x hx)
  have hk : ∀ x, Known (add s now d stream cost reliability) x →
      x = (d, ⟨s.next, stream, reliability, cost⟩) ∨ Known s x := by
    intro x hx
    rcases hx with hx | hx
    · exact (List.mem_cons.mp hx).imp id .inl
    · exact (List.mem_cons.mp hx).imp id .inr
  constructor
  · intro d' r
    rw [account_add]
    simp only [add, List.mem_cons, Prod.mk.injEq]
    split
    · rename_i hd
      subst hd
      rw [(BinHeap.push_perm _ _ _).mem_iff, List.mem_cons, h.live]
      simp
    · rename_i hd
      rw [h.live]
      simp [hd]
  · intro d'
    rw [account_add]
    split
    · have hp := (BinHeap.push_perm Record.less (s.conv.account d).streams ⟨s.next, stream, reliability, cost⟩).map Record.id
      rw [hp.nodup_iff, List.map_cons, List.nodup_cons]
      refine ⟨fun hm => ?_, h.ids d⟩
      obtain ⟨r, hr, hid⟩ := List.mem_map.mp hm
      exact hnew (d, r) (.inl ((h.live d r).mp hr)) hid
    · exact h.ids d'
  · exact List.nodup_cons.mpr ⟨fun hm => hnew _ (.inl hm) rfl, h.once⟩
  · exact List.nodup_cons.mpr ⟨fun hm => hnew _ (.inr hm) rfl, h.frames⟩
  · intro x hx
    rcases hk x hx with rfl | hx
    · exact Nat.lt_succ_self _
    · exact Nat.lt_succ_of_lt (h.fresh x hx)
  · intro x y hx hy he
    rcases hk x hx with rfl | hx
    · rcases hk y hy with rfl | hy
      · rfl
      · exact absurd he.symm (hnew y hy)
    · rcases hk y hy with rfl | hy
      · exact absurd he (hnew x hx)
      · exact h.same x y hx hy he

/-- A record that is not registered has been answered. -/
theorem Sane.absent {s : St} (h : Sane s) {d : Side} {r : Record} (hk : Known s (d, r)) (hn : (d, r) ∉ s.waiting) :
    ∀ x ∈ (s.conv.account d).streams, x.id ≠ r.id := by
  intro x hx he
  have hw := (h.live d x).mp hx
  have := h.same _ _ (.inl hw) hk he
  exact hn (this ▸ hw)

/-- The state after `done` or the handler took a record out. -/
def released (s : St) (x : Side × Record) : St :=
  { s with conv := release s.conv x.1 x.2, waiting := s.waiting.erase x }

/-- What a release takes off without a record to show for it. -/
def slip (s : St) (x : Side × Record) (d : Side) : Int :=
  if s.waiting.contains x then 0 else if d = x.1 then x.2.cost else 0

theorem slip_waiting {s : St} {x : Side × Record} (h : x ∈ s.waiting) (d : Side) : slip s x d = 0 :=
  if_pos (List.contains_iff_mem.mpr h)

theorem slip_answered {s : St} {x : Side × Record} (h : x ∉ s.waiting) (d : Side) :
    slip s x d = if d = x.1 then (x.2.cost : Int) else 0 := if_neg (mt List.contains_iff_mem.mp h)

theorem account_released (s : St) (x : Side × Record) (d : Side) :
    (released s x).conv.account d =
      if d = x.1 then
        ⟨heapRemove (s.conv.account x.1).streams x.2, (s.conv.account x.1).buffer - x.2.cost⟩
      else s.conv.account d := by
  unfold released release
  rw [account_setAccount]

theorem short_released {s : St} (h : Sane s) {x : Side × Record} (hk : Known s x) (d : Side) :
    short (released s x).conv d = short s.conv d + slip s x d := by
  unfold short
  rw [account_released]
  by_cases hw : x ∈ s.waiting
  · rw [slip_waiting hw]
    have hp := heapRemove_perm ((h.live x.1 x.2).mpr hw) (h.ids x.1)
    split
    · rename_i hd
      subst hd
      dsimp only
      rw [total_perm hp, total_cons]
      omega
    · omega
  · rw [slip_answered hw]
    split
    · rename_i hd
      subst hd
      dsimp only
      rw [heapRemove_absent (h.absent hk hw)]
      omega
    · omega

theorem sane_released {s : St} (h : Sane s) {x : Side × Record} (hk : Known s x) : Sane (released s x) := by
  have hsub : ∀ y, Known (released s x) y → Known s y := fun y hy => hy.imp List.mem_of_mem_erase id
  refine ⟨fun d r => ?_, fun d => ?_, h.once.erase x, h.frames, fun y hy => h.fresh y (hsub y hy),
    fun y z hy hz => h.same y z (hsub y hy) (hsub z hz)⟩
  · rw [account_released]
    simp only [released, h.once.mem_erase_iff]
    split
    · rename_i hd
      subst hd
      by_cases hw : x ∈ s.waiting
      · have hp := heapRemove_perm ((h.live x.1 x.2).mpr hw) (h.ids x.1)
        have hn := h.ids x.1
        rw [(hp.map _).nodup_iff, List.map_cons, List.nodup_cons] at hn
        rw [← h.live, hp.mem_iff, List.mem_cons]
        constructor
        · intro hr
          exact ⟨fun he => hn.1 (List.mem_map.mpr ⟨r, hr, congrArg (fun y => y.2.id) he⟩), .inr hr⟩
        · rintro ⟨hne, rfl | hr⟩
          · exact absurd rfl hne
          · exact hr
      · rw [heapRemove_absent (h.absent hk hw), h.live]
        constructor
        · intro hr
          exact ⟨fun he => hw (he ▸ hr), hr⟩
        · exact And.right
    · rename_i hd
      rw [h.live]
      constructor
      · intro hr
        exact ⟨fun he => hd (congrArg Prod.fst he), hr⟩
      · exact And.right
  · rw [account_released]
    split
    · rename_i hd
      subst hd
      by_cases hw : x ∈ s.waiting
      · have hp := heapRemove_perm ((h.live x.1 x.2).mpr hw) (h.ids x.1)
        have hn := h.ids x.1
        rw [(hp.map _).nodup_iff, List.map_cons, List.nodup_cons] at hn
        exact hn.2
      · rw [heapRemove_absent (h.absent hk hw)]
        exact h.ids x.1
    · exact h.ids d

/-! ## Exceptions -/

theorem unwind_eq (s : St) (f : Frame) :
    (opOf f = none ∧ unwind s f = s) ∨ ∃ x, opOf f = some x ∧ unwind s f = released s x := by
  cases f with
  | operation d r => exact .inr ⟨(d, r), rfl, rfl⟩
  | _ => exact .inl ⟨rfl, rfl⟩

theorem unwind_stack (fs : List Frame) (s : St) (l : List Frame) :
    fs.foldl unwind { s with stack := l } = { fs.foldl unwind s with stack := l } := by
  induction fs generalizing s with
  | nil => rfl
  | cons f fs ih =>
    have hf : unwind { s with stack := l } f = { unwind s f with stack := l } := by
      cases f <;> rfl
    rw [List.foldl_cons, List.foldl_cons, hf, ih]

/-- What the exception leaves a counter short by. -/
def slips (s : St) (fs : List Frame) (d : Side) : Int := ((ops fs).map (slip s · d)).sum

theorem slip_nonneg (s : St) (x : Side × Record) (d : Side) : 0 ≤ slip s x d := by
  unfold slip
  split
  · exact Int.le_refl 0
  · split
    · exact Int.natCast_nonneg _
    · exact Int.le_refl 0

theorem slip_released {s : St} {x y : Side × Record} (h : y ≠ x) (d : Side) : slip (released s x) y d = slip s y d := by
  have hmem : y ∈ (released s x).waiting ↔ y ∈ s.waiting := List.mem_erase_of_ne h
  by_cases hw : y ∈ s.waiting
  · rw [slip_waiting hw, slip_waiting (hmem.mpr hw)]
  · rw [slip_answered hw, slip_answered (mt hmem.mp hw)]

theorem unwind_short (fs : List Frame) {s : St} (h : Sane s) (hn : (ops fs).Nodup) (hk : ∀ x ∈ ops fs, x ∈ ops s.stack) :
    Sane (fs.foldl unwind s) ∧ (fs.foldl unwind s).stack = s.stack ∧
      ∀ d, short (fs.foldl unwind s).conv d = short s.conv d + slips s fs d := by
  induction fs generalizing s with
  | nil => exact ⟨h, rfl, fun d => by simp [slips, ops]⟩
  | cons f fs ih =>
    rw [List.foldl_cons]
    rcases unwind_eq s f with ⟨hf, e⟩ | ⟨x, hf, e⟩
    · have ho : ops (f :: fs) = ops fs := List.filterMap_cons_none hf
      rw [ho] at hn hk
      rw [e]
      obtain ⟨h1, h2, h3⟩ := ih h hn hk
      refine ⟨h1, h2, fun d => ?_⟩
      rw [h3 d]
      unfold slips
      rw [ho]
    · have ho : ops (f :: fs) = x :: ops fs := List.filterMap_cons_some hf
      rw [ho] at hn hk
      obtain ⟨hx, hn⟩ := List.nodup_cons.mp hn
      have hkx : Known s x := .inr (hk x (.head _))
      rw [e]
      obtain ⟨h1, h2, h3⟩ := ih (sane_released h hkx) hn fun y hy => hk y (.tail _ hy)
      refine ⟨h1, h2, fun d => ?_⟩
      have hs : slips (released s x) fs d = slips s fs d := by
        unfold slips
        refine congrArg List.sum (List.map_congr_left fun y hy => slip_released ?_ d)
        intro same
        subst same
        exact hx hy
      rw [h3 d, short_released h hkx, hs]
      unfold slips
      rw [ho, List.map_cons, List.sum_cons]
      omega

/-! ## Steps and runs -/

/-- What a step leaves a counter short by. -/
def stepSlips (s : St) : Ev → Side → Int
  | .raise n => slips s (s.stack.take n)
  | _ => fun _ => 0

theorem sane_done {s : St} (h : Sane s) {d : Side} {r : Record} (hw : (d, r) ∈ s.waiting) :
    Sane (done s d r) ∧ ∀ d', short (done s d r).conv d' = short s.conv d' := by
  have hk : Known s (d, r) := .inl hw
  have he : Keeps (released s (d, r)) (done s d r) := keeps_push (released s (d, r)) rfl
  refine ⟨he.sane (sane_released h hk), fun d' => ?_⟩
  have h0 := slip_waiting hw d'
  rw [he.short, short_released h hk, h0, Int.add_zero]

/-- One step: what was registered stays so or is answered, and the counters move with it,
    but for what an exception takes off twice. -/
theorem step_short {s s' : St} {now : Int} {e : Ev} (h : Sane s) (he : step s now e = some s') :
    Sane s' ∧ ∀ d, short s'.conv d = short s.conv d + stepSlips s e d := by
  have keeps : ∀ {t : St}, Keeps s t → stepSlips s e = (fun _ => 0) → Sane t ∧
      ∀ d, short t.conv d = short s.conv d + stepSlips s e d := by
    intro t ht h0
    refine ⟨ht.sane h, fun d => ?_⟩
    rw [ht.short, h0, Int.add_zero]
  cases e with
  | addInStream stream cost reliability =>
    cases he
    refine ⟨sane_add h _ _ _ _ _, fun d => ?_⟩
    rw [short_add]
    exact (Int.add_zero _).symm
  | addOutStream stream cost queue reliability =>
    cases he
    refine ⟨sane_add h _ _ _ _ _, fun d => ?_⟩
    rw [short_add]
    exact (Int.add_zero _).symm
  | done d r =>
    simp only [step] at he
    split at he
    · rename_i hw
      cases he
      obtain ⟨h1, h2⟩ := sane_done h hw
      refine ⟨h1, fun d' => ?_⟩
      rw [h2]
      exact (Int.add_zero _).symm
    · cases he
  | setLimits limits =>
    cases he
    have hl : Keeps s { s with conv := { s.conv with limits := limits } } := keeps_conv rfl rfl
    exact keeps (hl.trans (keeps_checkLimits _ _)) rfl
  | reset =>
    cases he
    exact keeps (keeps_resetStreams _ s) rfl
  | close complete =>
    simp only [step] at he
    split at he
    · cases he
      exact keeps (keeps_push s rfl) rfl
    · cases he
      exact keeps (keeps_conv rfl rfl) rfl
  | ret ok queue =>
    simp only [step] at he
    split at he
    · cases he
    · rename_i f stack hs
      cases he
      have hd : Sane { s with stack := stack } := h.drop (by rw [hs]; exact ops_sublist (List.sublist_cons_self f stack))
      have hr := keeps_resume { s with stack := stack } now ok queue f
      refine ⟨hr.sane hd, fun d => ?_⟩
      rw [hr.short]
      exact (Int.add_zero _).symm
  | raise n =>
    cases he
    have hsub : (ops (s.stack.take n)).Sublist (ops s.stack) := ops_sublist (List.take_sublist n s.stack)
    obtain ⟨h1, h2, h3⟩ := unwind_short (s.stack.take n) h (h.frames.sublist hsub) fun x hx => hsub.subset hx
    rw [unwind_stack]
    refine ⟨h1.drop ?_, h3⟩
    rw [h2]
    exact ops_sublist (List.drop_sublist n s.stack)

theorem sum_slip (s : St) (l : List (Side × Record)) (d : Side) :
    0 ≤ (l.map (slip s · d)).sum ∧ ((l.map (slip s · d)).sum = 0 ↔ ∀ x ∈ l, slip s x d = 0) := by
  induction l with
  | nil => simp
  | cons x l ih =>
    have hx := slip_nonneg s x d
    simp only [List.map_cons, List.sum_cons, List.forall_mem_cons, ← ih.2]
    omega

theorem stepSlips_nonneg (s : St) (e : Ev) (d : Side) : 0 ≤ stepSlips s e d := by
  cases e with
  | raise n => exact (sum_slip s _ d).1
  | _ => exact Int.le_refl 0

theorem slip_zero_iff (s : St) (x : Side × Record) : (∀ d, slip s x d = 0) ↔ x ∈ s.waiting ∨ x.2.cost = 0 := by
  constructor
  · intro h
    by_cases hw : x ∈ s.waiting
    · exact .inl hw
    · have hx := h x.1
      rw [slip_answered hw, if_pos rfl] at hx
      exact .inr (Int.natCast_eq_zero.mp hx)
  · rintro (h | h) d
    · exact slip_waiting h d
    · unfold slip
      simp [h]

/-- A step is calm exactly if it slips nowhere. -/
theorem calm_iff (s : St) (e : Ev) : Calm s e ↔ ∀ d, stepSlips s e d = 0 := by
  cases e with
  | raise n =>
    simp only [Calm, Ev.raise.injEq, stepSlips, slips, (sum_slip s _ _).2, ← slip_zero_iff]
    constructor
    · intro h d x hx
      exact h n rfl x hx d
    · rintro h _ rfl x hx d
      exact h d x hx
  | _ => simp [Calm, stepSlips]

theorem accounts_iff (t : T) : Accounts t ↔ ∀ d, short t d = 0 := by
  unfold Accounts short
  refine forall_congr' fun d => ?_
  constructor
  · intro ⟨h, _, _⟩
    omega
  · intro h
    have hb : (t.account d).buffer = total (t.account d).streams := by omega
    refine ⟨hb, hb ▸ total_nonneg _, fun hn => ?_⟩
    rw [hb, hn]
    rfl

/-- The counters are never ahead of their records, and a shortage stays. -/
theorem run_short {s s' : St} {evs : List (Int × Ev)} (h : Sane s) (hr : run s evs = some s') :
    (∀ d, short s.conv d ≤ short s'.conv d) ∧
      (CalmRun s evs ↔ ∀ d, short s'.conv d = short s.conv d) := by
  induction evs generalizing s with
  | nil =>
    cases hr
    exact ⟨fun d => Int.le_refl _, by simp [CalmRun]⟩
  | cons x evs ih =>
    obtain ⟨now, e⟩ := x
    simp only [run, Option.bind_eq_some_iff] at hr
    obtain ⟨t, ht, hr⟩ := hr
    obtain ⟨hsane, hshort⟩ := step_short h ht
    obtain ⟨hle, hiff⟩ := ih hsane hr
    have hnn := stepSlips_nonneg s e
    refine ⟨fun d => ?_, ?_⟩
    · have h1 := hshort d
      have h2 := hle d
      have h3 := hnn d
      omega
    · simp only [CalmRun, calm_iff, ht, Option.some.injEq, forall_eq', hiff]
      constructor
      · intro ⟨h0, h1⟩ d
        rw [h1 d, hshort d, h0 d, Int.add_zero]
      · intro h0
        refine ⟨fun d => ?_, fun d => ?_⟩
        all_goals
          have h1 := hshort d
          have h2 := hle d
          have h3 := hnn d
          have h4 := h0 d
          omega

/-- At the end of a run the counters are the sums of the costs of the records registered,
    none negative and zero without records, exactly if no exception of the run passed the
    operation of a record that had a cost and had been answered. -/
theorem quota_accounts_iff (now : Int) (evs : List (Int × Ev)) (s : St) (h : run (init now) evs = some s) :
    Accounts s.conv ↔ CalmRun (init now) evs := by
  have h0 : ∀ d, short (init now).conv d = 0 := by
    intro d
    cases d <;> rfl
  rw [accounts_iff, (run_short (sane_init now) h).2]
  simp only [h0]

/-- A read whose stream has data at hand: the callback runs inside the operation, and
    raises. -/
def raisingRead : List (Int × Ev) :=
  [(0, .addInStream 7 5 .posInf), (0, .done .inn ⟨0, 7, .posInf, 5⟩), (0, .raise 2)]

/-- The counter is at minus the cost with no record left. -/
theorem raising_read_negative :
    ¬ ∀ (now : Int) (evs : List (Int × Ev)) (s : St), run (init now) evs = some s → Accounts s.conv := by
  intro h
  have ha := h 0 raisingRead ⟨⟨0, ⟨[], -5⟩, ⟨[], 0⟩, 0, [], none⟩, [], [], 1⟩ (by decide) .inn
  exact absurd ha.2.1 (by decide)

/-- The same read, its callback returning. -/
theorem quota_accounts_iff_returning :
    ∃ s, run (init 0) [(0, .addInStream 7 5 .posInf), (0, .done .inn ⟨0, 7, .posInf, 5⟩), (0, .ret true 0), (0, .ret true 0)] =
      some s ∧ (Accounts s.conv ↔ CalmRun (init 0)
        [(0, .addInStream 7 5 .posInf), (0, .done .inn ⟨0, 7, .posInf, 5⟩), (0, .ret true 0), (0, .ret true 0)]) :=
  ⟨⟨⟨0, ⟨[], 0⟩, ⟨[], 0⟩, 0, [], none⟩, [], [], 1⟩, by decide, quota_accounts_iff 0 _ _ (by decide)⟩

end BubbleStorm.Cusp.Conversation
