/-
  BubbleStorm.Cusp.Stream.BarrierOrder — the barrier the sender stores, when updates
  arrive out of order.

  The sending queue takes whatever barrier it is sent. The receiving queue only moves
  its barrier forward (`Windowed`), so updates that arrive in the order they were
  pulled move the stored one forward too. Nothing is asked of the data, of the
  acknowledgements or of resets.
-/

import BubbleStorm.Cusp.Stream.OutStreamReset
import BubbleStorm.Cusp.Stream.Delivery
import BubbleStorm.Cusp.Stream.Window

namespace BubbleStorm.Cusp.Stream.Pair

open InStreamQueue (Windowed Slides isReset)

/-- The barrier a pulled update carries. -/
def barrierOf (p : InStreamQueue.Pulled) : Option Int :=
  match p.ack with
  | .barrier _ barrier _ => some barrier
  | .reset => none

def Update.barrier (u : Update) : Option Int := barrierOf u.pulled

/-- The furthest barrier the sender was told. -/
def toldBarrier (updates : List Update) : Int :=
  (updates.filterMap fun u => if u.delivered then u.barrier else none).foldl max minimumWindow

/-- An update arrives before any that was pulled later, unless they carry the same
    barrier, and less than half the offset space past the last one. -/
def InOrder (s : St) : Ev → Prop
  | .update j => ∀ u ∈ s.updates[j]?, ∀ b ∈ u.barrier,
      (∀ v ∈ s.updates.drop (j + 1), v.delivered = true → ∀ c ∈ v.barrier, c = b) ∧ b < toldBarrier s.updates + 2 ^ 31
  | _ => True

instance (s : St) (e : Ev) : Decidable (InOrder s e) :=
  match e with
  | .update j => inferInstanceAs (Decidable (∀ u ∈ s.updates[j]?, ∀ b ∈ u.barrier,
      (∀ v ∈ s.updates.drop (j + 1), v.delivered = true → ∀ c ∈ v.barrier, c = b) ∧ _))
  | .write _ | .pull _ _ | .ack _ _ | .deliver _ _ | .read _ | .announce | .announced _ _ => .isTrue trivial

/-- What a receiver that is reset pulls. -/
def resetSegment : InStreamQueue.Pulled := ⟨.writer .readerResets streamId 0, [], .reset⟩

structure Told (s : St) : Prop where
  windowed : Windowed s.rcv
  pulled : ∀ p ∈ s.updates.map Update.pulled, (∃ o b l, p = barrierSegment o b l) ∨ p = resetSegment
  /-- Updates are pulled in the order of their barriers. -/
  sorted : (s.updates.map Update.pulled).Pairwise fun p p' => ∀ b ∈ barrierOf p, ∀ c ∈ barrierOf p', b ≤ c
  least : ∀ p ∈ s.updates.map Update.pulled, ∀ b ∈ barrierOf p, minimumWindow ≤ b
  most : isReset s.rcv = false →
    minimumWindow ≤ s.rcv.barrier ∧ ∀ p ∈ s.updates.map Update.pulled, ∀ b ∈ barrierOf p, b ≤ s.rcv.barrier
  stored : (s.snd.barrier - toldBarrier s.updates) % 2 ^ 32 = 0

theorem told_start : Told start where
  windowed := InStreamQueue.windowed_new streamId
  pulled _ hp := absurd hp List.not_mem_nil
  sorted := .nil
  least _ hp := absurd hp List.not_mem_nil
  most _ := ⟨by decide, fun _ hp => absurd hp List.not_mem_nil⟩
  stored := by decide

variable {s : St}

/-- The sender does something, and keeps its barrier. -/
theorem Told.sender (h : Told s) {snd : OutStreamQueue.T} (hb : snd.barrier = s.snd.barrier) (copies : List Copy) :
    Told { s with snd := snd, copies := copies } :=
  { h with stored := by show (snd.barrier - _) % _ = 0; rw [hb]; exact h.stored }

/-- The receiver does something. -/
theorem Told.receiver (h : Told s) {rcv : InStreamQueue.T} (hr : Slides s.rcv rcv) (copies : List Copy) :
    Told { s with rcv := rcv, copies := copies } :=
  { h with
    windowed := hr.windowed
    most := fun hl => by
      obtain ⟨hl', hle⟩ := hr.barrier hl
      obtain ⟨h1, h2⟩ := h.most hl'
      exact ⟨Int.le_trans h1 hle, fun p hp b hb => Int.le_trans (h2 p hp b hb) hle⟩ }

/-- Flags of the updates change, and the sender with them. -/
theorem Told.flags (h : Told s) {updates : List Update} (hu : updates.map Update.pulled = s.updates.map Update.pulled)
    {snd : OutStreamQueue.T} (hs : (snd.barrier - toldBarrier updates) % 2 ^ 32 = 0) :
    Told { s with snd := snd, updates := updates } where
  windowed := h.windowed
  pulled := by show ∀ p ∈ updates.map _, _; rw [hu]; exact h.pulled
  sorted := by show (updates.map _).Pairwise _; rw [hu]; exact h.sorted
  least := by show ∀ p ∈ updates.map _, _; rw [hu]; exact h.least
  most := by show _ → _ ∧ ∀ p ∈ updates.map _, _; rw [hu]; exact h.most
  stored := hs

theorem deliver_slides (h : Windowed s.rcv) (c : Copy) (react : List InStreamQueue.Op) :
    Slides s.rcv (deliver s c react).1 := by
  unfold deliver
  dsimp only
  split
  · rename_i x id hp
    split
    · rename_i rcv n hq
      refine h.recv (fun eof offset length hx => ?_) hq
      subst hx
      exact parse_length hp
    · exact .refl h
  · exact .refl h

theorem foldl_max_cases (l : List Int) (a : Int) : l.foldl max a = a ∨ l.foldl max a ∈ l := by
  induction l generalizing a with
  | nil => exact .inl rfl
  | cons x l ih =>
    rcases ih (max a x) with e | hm
    · rw [List.foldl_cons, e]
      rcases Int.le_total a x with hx | hx
      · exact .inr (by rw [Int.max_eq_right hx]; exact .head _)
      · exact .inl (Int.max_eq_left hx)
    · exact .inr (.tail _ hm)

theorem least_le_told (updates : List Update) : minimumWindow ≤ toldBarrier updates := foldl_max_le (.head _)

theorem le_told {updates : List Update} {u : Update} (hu : u ∈ updates) (hd : u.delivered = true) {b : Int}
    (hb : b ∈ u.barrier) : b ≤ toldBarrier updates :=
  foldl_max_le (.tail _ (List.mem_filterMap.mpr ⟨u, hu, by rw [if_pos hd]; exact hb⟩))

theorem told_le {updates : List Update} {c : Int} (h0 : minimumWindow ≤ c)
    (h : ∀ u ∈ updates, u.delivered = true → ∀ b ∈ u.barrier, b ≤ c) : toldBarrier updates ≤ c := by
  unfold toldBarrier
  rcases foldl_max_cases (updates.filterMap fun u => if u.delivered then u.barrier else none) minimumWindow with e | hm
  · rw [e]
    exact h0
  · obtain ⟨u, hu, hb⟩ := List.mem_filterMap.mp hm
    split at hb
    · rename_i hd
      exact h u hu hd _ hb
    · cases hb

theorem told_congr {updates updates' : List Update}
    (h : (updates.map fun u => if u.delivered then u.barrier else none) =
      updates'.map fun u => if u.delivered then u.barrier else none) : toldBarrier updates = toldBarrier updates' := by
  have e : ∀ l : List Update, (l.filterMap fun u => if u.delivered then u.barrier else none) =
      (l.map fun u => if u.delivered then u.barrier else none).filterMap id := fun l => by
    rw [List.filterMap_map]
    rfl
  unfold toldBarrier
  rw [e, e, h]

theorem split_at {α : Type} {l : List α} {i : Nat} {x : α} (h : l[i]? = some x) :
    ∃ pre post, l = pre ++ x :: post ∧ pre.length = i := by
  obtain ⟨hi, e⟩ := List.getElem?_eq_some_iff.mp h
  refine ⟨l.take i, l.drop (i + 1), ?_, List.length_take_of_le (Nat.le_of_lt hi)⟩
  rw [← e, List.getElem_cons_drop, List.take_append_drop]

/-- An update that arrives in order leaves its barrier as the furthest told. -/
theorem told_in_order {pre post : List Update} {u : Update} {b : Int} (hb : u.barrier = some b)
    (hsorted : ((pre ++ u :: post).map Update.pulled).Pairwise fun p p' => ∀ b ∈ barrierOf p, ∀ c ∈ barrierOf p', b ≤ c)
    (hleast : minimumWindow ≤ b) (hlater : ∀ v ∈ post, v.delivered = true → ∀ c ∈ v.barrier, c = b) :
    toldBarrier (pre ++ { u with delivered := true } :: post) = b ∧ toldBarrier (pre ++ u :: post) ≤ b := by
  have hpre : ∀ v ∈ pre, ∀ c ∈ v.barrier, c ≤ b := fun v hv c hc =>
    (List.pairwise_append.mp (List.pairwise_map.mp hsorted)).2.2 v hv u (.head _) c hc b hb
  have hle : ∀ v ∈ pre ++ u :: post, v.delivered = true → ∀ c ∈ v.barrier, c ≤ b := by
    intro v hv hd c hc
    rcases List.mem_append.mp hv with hv | hv
    · exact hpre v hv c hc
    · rcases List.mem_cons.mp hv with rfl | hv
      · rw [hb] at hc
        cases hc
        exact Int.le_refl _
      · exact Int.le_of_eq (hlater v hv hd c hc)
  refine ⟨Int.le_antisymm (told_le hleast fun v hv hd c hc => ?_) ?_, told_le hleast hle⟩
  · rcases List.mem_append.mp hv with hv | hv
    · exact hpre v hv c hc
    · rcases List.mem_cons.mp hv with rfl | hv
      · have e : c = b := Option.some.inj (hc.symm.trans hb)
        exact Int.le_of_eq e
      · exact Int.le_of_eq (hlater v hv hd c hc)
  · exact le_told (u := { u with delivered := true }) (List.mem_append_right _ (.head _)) rfl hb

theorem told_reset {pre post : List Update} {u : Update} (hb : u.barrier = none) :
    toldBarrier (pre ++ { u with delivered := true } :: post) = toldBarrier (pre ++ u :: post) := by
  have hb' : Update.barrier { u with delivered := true } = none := hb
  unfold toldBarrier
  simp only [List.filterMap_append, List.filterMap_cons, hb, hb', ite_self]

theorem update_reset {u : Update} (hu : u.pulled = resetSegment) :
    update s u = OutStreamQueue.callback (OutStreamQueue.doReset s.snd) .becameComplete := by
  have hp : PacketFormat.parse (wire resetSegment.msg resetSegment.body) = .ok (.writer .readerResets streamId 0) := by
    decide
  simp only [update, hu, hp]
  rfl

theorem Told.update (h : Told s) {j : Nat} (ho : InOrder s (.update j)) :
    Told (step s (.update j)) ∧ Key.lt (step s (.update j)).snd.barrier s.snd.barrier = false := by
  have hst := h.stored
  have same : Key.lt s.snd.barrier s.snd.barrier = false := by simp [Key.lt_def]
  simp only [step]
  split
  · rename_i u hu
    obtain ⟨pre, post, e, hj⟩ := split_at hu
    have hset : s.updates.set j { u with delivered := true } = pre ++ { u with delivered := true } :: post := by
      rw [e, ← hj, List.set_append_right _ _ (Nat.le_refl _), Nat.sub_self, List.set_cons_zero]
    have hpulled : (s.updates.set j { u with delivered := true }).map Update.pulled = s.updates.map Update.pulled :=
      map_set_same _ hu rfl
    have hm : u.pulled ∈ s.updates.map Update.pulled := List.mem_map_of_mem (List.mem_of_getElem? hu)
    rcases h.pulled u.pulled hm with ⟨o, b, l, hp⟩ | hp
    · have hb : u.barrier = some b := by simp only [Update.barrier, barrierOf, hp, barrierSegment]
      obtain ⟨hlater, hnear⟩ := ho u hu b hb
      have hdrop : s.updates.drop (j + 1) = post := by rw [e, ← hj]; simp
      rw [hdrop] at hlater
      obtain ⟨htold, hle⟩ := told_in_order hb (e ▸ h.sorted) (h.least _ hm b hb) hlater
      rw [← e] at hle
      have hbar : (Pair.update s u).barrier = word32 b := by
        rw [update_eq hp, OutStreamQueue.makeProgress_barrier]
      constructor
      · refine h.flags hpulled ?_
        rw [hset, htold, hbar]
        unfold word32
        omega
      · rw [hbar, Key.lt_def, decide_eq_false_iff_not]
        unfold word32
        omega
    · have hb : u.barrier = none := by simp only [Update.barrier, barrierOf, hp, resetSegment]
      have hbar : (Pair.update s u).barrier = s.snd.barrier := by
        rw [update_reset hp]
        exact OutStreamQueue.doReset_barrier _
      constructor
      · refine h.flags hpulled ?_
        rw [hset, told_reset hb, ← e, hbar]
        exact hst
      · rw [hbar]
        exact same
  · exact ⟨h, same⟩

theorem pull_cases {q q' : InStreamQueue.T} {p : InStreamQueue.Pulled}
    (h : InStreamQueue.pull q streamId 0 = .ok (p, q')) :
    (isReset q = false ∧ p = barrierSegment (InStreamQueue.readerOffset q) q.barrier q.lastBarrier) ∨
      p = resetSegment := by
  unfold InStreamQueue.pull at h
  split at h
  · cases h
  · rename_i hs
    cases h
    exact .inl ⟨by simp [isReset, hs], rfl⟩
  · cases h
    exact .inr rfl

theorem told_pulled (updates : List Update) (p : InStreamQueue.Pulled) :
    toldBarrier (updates ++ [⟨p, true, false⟩]) = toldBarrier updates := by
  simp [toldBarrier]

theorem Told.announce (h : Told s) : Told (step s .announce) := by
  simp only [step]
  split
  · rename_i p rcv hp
    have hr := h.receiver (h.windowed.pull hp) s.copies
    have hmost : ∀ b ∈ barrierOf p, isReset s.rcv = false ∧ b = s.rcv.barrier := by
      intro b hb
      rcases pull_cases hp with ⟨hl, rfl⟩ | rfl
      · cases hb
        exact ⟨hl, rfl⟩
      · cases hb
    refine { hr with pulled := ?_, sorted := ?_, least := ?_, most := ?_, stored := ?_ }
    · intro p' hp'
      rw [List.map_append, List.mem_append, List.map_singleton, List.mem_singleton] at hp'
      rcases hp' with hp' | rfl
      · exact h.pulled p' hp'
      · rcases pull_cases hp with ⟨-, e⟩ | e
        · exact .inl ⟨_, _, _, e⟩
        · exact .inr e
    · rw [List.map_append, List.pairwise_append]
      refine ⟨h.sorted, List.pairwise_singleton _ _, fun p1 hp1 p2 hp2 b hb c hc => ?_⟩
      rw [List.map_singleton, List.mem_singleton] at hp2
      subst hp2
      obtain ⟨hl, rfl⟩ := hmost c hc
      exact (h.most hl).2 p1 hp1 b hb
    · intro p' hp' b hb
      rw [List.map_append, List.mem_append, List.map_singleton, List.mem_singleton] at hp'
      rcases hp' with hp' | rfl
      · exact h.least p' hp' b hb
      · obtain ⟨hl, rfl⟩ := hmost b hb
        exact (h.most hl).1
    · intro hl
      obtain ⟨h1, h2⟩ := hr.most hl
      refine ⟨h1, fun p' hp' b hb => ?_⟩
      rw [List.map_append, List.mem_append, List.map_singleton, List.mem_singleton] at hp'
      rcases hp' with hp' | rfl
      · exact h2 p' hp' b hb
      · obtain ⟨hl', rfl⟩ := hmost b hb
        exact ((h.windowed.pull hp).barrier hl).2
    · rw [told_pulled]
      exact h.stored
  · exact h

/-- An update is acknowledged. -/
theorem Told.announced (h : Told s) (j : Nat) (ok : Bool) : Told (step s (.announced j ok)) := by
  simp only [step]
  split
  · rename_i u hu
    split
    · have hr := h.receiver (h.windowed.ack u.pulled.ack ok) s.copies
      have e := told_congr (map_set_same (fun u : Update => if u.delivered then u.barrier else none) hu
        (y := { u with pending := false }) rfl)
      have hp := map_set_same Update.pulled hu (y := { u with pending := false }) rfl
      exact hr.flags hp (by rw [e]; exact h.stored)
    · exact h
  · exact h

theorem told_step (h : Told s) (e : Ev) (he : InOrder s e) : Told (step s e) := by
  cases e with
  | write op => exact h.sender (OutStreamQueue.exec_barrier s.snd op) s.copies
  | pull room react => exact h.sender (OutStreamQueue.pull_barrier s.snd streamId room react) _
  | ack i ok =>
    simp only [step]
    split
    · split
      · exact h.sender (OutStreamQueue.ack_barrier _ _ _) _
      · exact h
    · exact h
  | deliver i react =>
    simp only [step]
    split
    · exact h.receiver (deliver_slides h.windowed _ react) _
    · exact h
  | read op => exact h.receiver (h.windowed.exec op) s.copies
  | announce => exact h.announce
  | announced j ok => exact h.announced j ok
  | update j => exact (h.update he).1

theorem reach_told (h : Reach InOrder s) : Told s := by
  induction h with
  | start => exact told_start
  | step e _ he ih => exact told_step ih e he

/-- Where updates arrive in the order they were pulled, the barrier the sender stores
    never moves back, in the order of the words. -/
theorem barrier_never_retreats (h : Reach InOrder s) (e : Ev) (he : InOrder s e) :
    Key.lt (step s e).snd.barrier s.snd.barrier = false := by
  have same : ∀ {snd : OutStreamQueue.T}, snd.barrier = s.snd.barrier → Key.lt snd.barrier s.snd.barrier = false := by
    intro snd hs
    rw [hs]
    simp [Key.lt_def]
  cases e with
  | write op => exact same (OutStreamQueue.exec_barrier s.snd op)
  | pull room react => exact same (OutStreamQueue.pull_barrier s.snd streamId room react)
  | ack i ok =>
    simp only [step]
    split
    · split
      · exact same (OutStreamQueue.ack_barrier _ _ _)
      · exact same rfl
    · exact same rfl
  | deliver i react => simp only [step]; split <;> exact same rfl
  | read op => exact same rfl
  | announce => simp only [step]; split <;> exact same rfl
  | announced j ok =>
    simp only [step]
    split
    · split <;> exact same rfl
    · exact same rfl
  | update j => exact ((reach_told h).update he).2

/-- Two updates, the second one for a byte more, in the order they were pulled. -/
def twoUpdates : List Ev :=
  [.write (.write ⟨[7], by decide⟩ 0), .pull 8 [], .deliver 0 [], .announce, .read (.read (-1) 1), .announce, .update 0]

theorem barrier_never_retreats_example :
    Key.lt (step (run start twoUpdates) (.update 1)).snd.barrier (run start twoUpdates).snd.barrier = false :=
  barrier_never_retreats (Reach.start.run (by decide)) (.update 1) (by decide)

/-- Two updates, each for a quarter of the window that was read, of which the second
    overtakes the first. -/
def overtaken : List Ev :=
  [.write (.write ⟨List.replicate 10788 0, by rw [List.length_replicate]; decide⟩ 0), .pull 2704 [], .pull 2704 [],
    .pull 2704 [], .pull 2704 [], .deliver 0 [], .deliver 1 [], .read (.read (-1) 1), .read (.read (-1) 2), .announce,
    .deliver 2 [], .deliver 3 [], .read (.read (-1) 3), .read (.read (-1) 4), .announce, .update 1]

/-- An update that was overtaken moves the stored barrier back. -/
theorem overtaken_update_retreats :
    ∃ s j, Reach Regular s ∧ Key.lt (step s (.update j)).snd.barrier s.snd.barrier = true := by
  have h : (checks Regular start overtaken && Key.lt (step (run start overtaken) (.update 0)).snd.barrier
      (run start overtaken).snd.barrier) = true := by decide +kernel
  rw [Bool.and_eq_true] at h
  exact ⟨_, 0, Reach.start.run h.1, h.2⟩

end BubbleStorm.Cusp.Stream.Pair
