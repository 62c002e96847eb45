/-
  BubbleStorm.Managed.Replication — every storage peer of the pool holds the maintainer's
  items of a bubble type if its density is below the bubble's size, and none otherwise.

  Every event keeps `Inv`: what it sends is the difference for the peers it is about, and
  is silent for the others. `Calm` leaves out what goes wrong: a peer that joins the pool
  is taken to have had the maximal density, so it gets nothing of a bubble larger than
  that; a request leaves out peers below the minimal density; and the sizes of a round
  that ends while the node is not online are never acted on.
-/

import BubbleStorm.Managed.Held
import BubbleStorm.Managed.StoragePoolProofs

namespace BubbleStorm.Managed

open StoragePool (add_spec get_spec iterator iterator_spec range range_spec remove update_spec wf_new)
open StoragePool (entries Wf)

namespace Frontend

variable {δ σ β ι α Size Stats : Type}

/-! ## The invariant -/

section Run

variable [Preorder δ] [DecidableLT δ] [LinearOrder σ] [DecidableEq β] [DecidableEq ι]
variable (D : Densities δ Size Stats)

/-- Every peer of the pool holds its share of every bubble type. -/
def Replicated (t : T δ σ β ι α Size Stats) : Prop :=
  ∀ e ∈ entries t.pool, ∀ b ∈ t.types, held t.log e.2 b.typeId = share b.cache (decide (e.1 < bubbleSize D t b))

/-- Requests are about these bubble types. -/
def Known (ids : List β) (l : Log σ β ι α) : Prop := ∀ a ∈ l, ∀ r, a.2 = .request r → r.bubble ∈ ids

/-- The pool is the registered peers that are not dead, and no stream is older than its peer. -/
structure Inv (t : T δ σ β ι α Size Stats) : Prop where
  wf : Wf t.pool
  ids : (t.types.map fun b => b.typeId).Nodup
  pooled : ∀ e ∈ entries t.pool, e.2 ∈ t.registered ∧ e.2 ∉ t.isDead
  alive : ∀ q ∈ t.registered, q ∉ t.isDead → ∃ d, (d, q) ∈ entries t.pool
  young : ∀ q ∈ t.registered, q.stream < t.streams
  dead : ∀ q ∈ t.isDead, q.stream < t.streams
  heard : ∀ a ∈ t.log, a.1.stream < t.streams
  known : Known (t.types.map fun b => b.typeId) t.log
  replicated : Replicated D t

variable {D} {t : T δ σ β ι α Size Stats} {q : StoragePeer σ} {d : δ}

theorem Inv.stream (h : Inv D t) {e : δ × StoragePeer σ} (he : e ∈ entries t.pool) : e.2.stream < t.streams :=
  h.young _ (h.pooled e he).1

omit [Preorder δ] [DecidableLT δ] [LinearOrder σ] [DecidableEq β] [DecidableEq ι] in
theorem Known.append {ids : List β} {l l' : Log σ β ι α} (h : Known ids l) (h' : Known ids l') : Known ids (l ++ l') := by
  intro a ha r hr
  rcases List.mem_append.mp ha with ha | ha
  · exact h a ha r hr
  · exact h' a ha r hr

omit [Preorder δ] [DecidableLT δ] [LinearOrder σ] [DecidableEq β] [DecidableEq ι] in
theorem known_flatMap {X : Type} {ids : List β} {xs : List X} {f : X → Log σ β ι α} (h : ∀ x ∈ xs, Known ids (f x)) :
    Known ids (xs.flatMap f) := by
  intro a ha r hr
  obtain ⟨x, hx, hax⟩ := List.mem_flatMap.mp ha
  exact h x hx a hax r hr

omit [Preorder δ] [DecidableLT δ] [LinearOrder σ] [DecidableEq β] [DecidableEq ι] in
theorem known_adjusted {ids : List β} {had has : Bool} {b : BubbleType β ι α Size} (hb : b.typeId ∈ ids) :
    Known ids (adjusted q had has b) := by
  intro a ha r hr
  by_contra hne
  have hsilent : Silent q r.bubble (adjusted q had has b) := silent_adjusted had has fun _ heq => hne (heq ▸ hb)
  exact hsilent a ha (adjusted_to a ha) r hr rfl

omit [LinearOrder σ] [DecidableEq β] [DecidableEq ι] in
theorem known_items (new old : δ) : Known (t.types.map fun b => b.typeId) (items D t q new old) :=
  known_flatMap fun _ hb => known_adjusted (List.mem_map_of_mem hb)

/-- What `sendItems` does to one bubble type. -/
theorem after_items_one (hn : (t.types.map fun b => b.typeId).Nodup) {b : BubbleType β ι α Size} (hb : b ∈ t.types)
    (m : Content ι α) (new old : δ) : after q b.typeId m (items D t q new old) =
      after q b.typeId m (adjusted q (decide (old < bubbleSize D t b)) (decide (new < bubbleSize D t b)) b) := by
  apply after_flatMap (fun b => b.typeId) hn hb
  intro y _ hy
  exact silent_adjusted _ _ fun _ => hy

/-- What a round switch does to one bubble type at one peer. -/
theorem after_adjustments {changes : List (Change δ σ)} (hn : (changes.map fun c => c.storage.service).Nodup)
    {c : Change δ σ} (hc : c ∈ changes) (m : Content ι α) (b : BubbleType β ι α Size) :
    after c.storage b.typeId m (adjustments D t changes b) = after c.storage b.typeId m
      (adjusted c.storage (decide (c.old < bubbleSize' D t b)) (decide (c.new < bubbleSize D t b)) b) := by
  apply after_flatMap (fun c => c.storage.service) hn hc
  intro y _ hy
  exact silent_adjusted _ _ fun hq => absurd (congrArg StoragePeer.service hq) hy

theorem after_items (hn : (t.types.map fun b => b.typeId).Nodup) {b : BubbleType β ι α Size} (hb : b ∈ t.types) (new old : δ) :
    after q b.typeId (share b.cache (decide (old < bubbleSize D t b))) (items D t q new old) =
      share b.cache (decide (new < bubbleSize D t b)) := by
  rw [after_items_one hn hb]
  exact after_adjusted ..

variable [Std.Total (α := δ) (· ≤ ·)]

omit [Std.Total (α := δ) (· ≤ ·)] [DecidableEq β] [DecidableEq ι] in
theorem die_registered (hd : q ∉ t.isDead) (hr : q ∈ t.registered) {p : StoragePool.T δ σ}
    (hp : remove t.pool q = .ok p) : die t q = .ok { t with isDead := q :: t.isDead, pool := p } := by
  unfold die
  rw [if_neg hd]
  show (if q ∈ t.registered then _ else _) = _
  rw [if_pos hr, hp]
  rfl

omit [Std.Total (α := δ) (· ≤ ·)] [DecidableEq β] [DecidableEq ι] in
theorem die_unregistered (hd : q ∉ t.isDead) (hr : q ∉ t.registered) :
    die t q = .ok { t with isDead := q :: t.isDead } := by
  unfold die
  rw [if_neg hd]
  exact if_neg hr

/-- A peer dies: what was sent to it before is of no account. -/
theorem Inv.lost (h : Inv D t) {e : δ × StoragePeer σ} (he : e ∈ entries t.pool) {l : Log σ β ι α}
    (hl : ∀ a ∈ l, a.1 = e.2) (hk : Known (t.types.map fun b => b.typeId) l) :
    ∃ t', die (t.logged l) e.2 = .ok t' ∧ Inv D t' ∧ t'.types = t.types ∧
      (entries t.pool).Perm (e :: entries t'.pool) := by
  obtain ⟨hreg, hdead⟩ := h.pooled e he
  obtain ⟨p, hp, hwf, hperm⟩ := StoragePool.remove_spec h.wf he (q := e.2) rfl
  have hn := (hperm.map fun e => e.2.service).nodup_iff.mp h.wf.nodup
  have other : ∀ a ∈ entries p, a.2 ≠ e.2 := by
    intro a ha hae
    refine (List.nodup_cons.mp hn).1 (List.mem_map.mpr ⟨a, ha, ?_⟩)
    rw [hae]
  have sub : ∀ a ∈ entries p, a ∈ entries t.pool := fun a ha => hperm.mem_iff.mpr (.tail _ ha)
  refine ⟨{ (t.logged l) with isDead := e.2 :: t.isDead, pool := p }, die_registered (t := t.logged l) hdead hreg hp,
    ⟨hwf, h.ids, fun a ha => ?_, fun q hq hqd => ?_, h.young, fun q hq => ?_, fun a ha => ?_, h.known.append hk,
      fun a ha b hb => ?_⟩, rfl, hperm⟩
  · obtain ⟨h1, h2⟩ := h.pooled a (sub a ha)
    refine ⟨h1, fun hm => ?_⟩
    rcases List.mem_cons.mp hm with hm | hm
    · exact other a ha hm
    · exact h2 hm
  · obtain ⟨d, hd⟩ := h.alive q hq fun hm => hqd (.tail _ hm)
    rcases List.mem_cons.mp (hperm.mem_iff.mp hd) with heq | hm
    · exact absurd (List.mem_cons.mpr (.inl (congrArg Prod.snd heq))) hqd
    · exact ⟨d, hm⟩
  · rcases List.mem_cons.mp hq with rfl | hq
    · exact h.stream he
    · exact h.dead q hq
  · rcases List.mem_append.mp ha with ha | ha
    · exact h.heard a ha
    · rw [hl a ha]
      exact h.stream he
  · have hs : Silent a.2 b.typeId l := silent_other fun x hx hxa => other a ha (by rw [← hxa, hl x hx])
    show held (t.log ++ l) a.2 b.typeId = _
    rw [held_append, hs.after]
    exact h.replicated a (sub a ha) b hb

omit [Preorder δ] [DecidableLT δ] [LinearOrder σ] [DecidableEq β] [DecidableEq ι] [Std.Total (α := δ) (· ≤ ·)] in
theorem known_shutdown (ids : List β) : Known ids [(q, (Action.shutdown : Action β ι α))] := by
  intro a ha r hr
  rw [List.mem_singleton.mp ha] at hr
  cases hr

theorem Inv.quit (h : Inv D t) {e : δ × StoragePeer σ} (he : e ∈ entries t.pool) {l : Log σ β ι α}
    (hl : ∀ a ∈ l, a.1 = e.2) (hk : Known (t.types.map fun b => b.typeId) l) :
    ∃ t', Frontend.quit (t.logged l) e.2 = .ok t' ∧ Inv D t' ∧ t'.types = t.types ∧
      (entries t.pool).Perm (e :: entries t'.pool) := by
  have hl' : ∀ a ∈ l ++ [(e.2, Action.shutdown)], a.1 = e.2 := by
    intro a ha
    rcases List.mem_append.mp ha with ha | ha
    · exact hl a ha
    · rw [List.mem_singleton.mp ha]
  obtain ⟨t', h1, h2⟩ := h.lost he hl' (hk.append (known_shutdown _))
  refine ⟨t', ?_, h2⟩
  rw [← T.logged_logged] at h1
  exact h1

/-- Several peers leave. -/
theorem Inv.quits {g : T δ σ β ι α Size Stats → δ × StoragePeer σ → Except Exn (T δ σ β ι α Size Stats)}
    (hg : ∀ t e, ∃ l : Log σ β ι α, (∀ a ∈ l, a.1 = e.2) ∧ Known (t.types.map fun b => b.typeId) l ∧
      g t e = Frontend.quit (t.logged l) e.2)
    {es : List (δ × StoragePeer σ)} (hn : (es.map fun e => e.2.service).Nodup) (h : Inv D t)
    (hes : ∀ e ∈ es, e ∈ entries t.pool) : ∃ t', es.foldlM g t = .ok t' ∧ Inv D t' := by
  induction es generalizing t with
  | nil => exact ⟨t, rfl, h⟩
  | cons e es ih =>
    obtain ⟨hne, hn⟩ := List.nodup_cons.mp hn
    obtain ⟨l, hl, hk, hgt⟩ := hg t e
    obtain ⟨t1, ht1, h1, -, hperm⟩ := h.quit (hes e (.head _)) hl hk
    obtain ⟨t2, ht2, h2⟩ := ih hn h1 fun a ha => by
      rcases List.mem_cons.mp (hperm.mem_iff.mp (hes a (.tail _ ha))) with rfl | hm
      · exact absurd (List.mem_map.mpr ⟨a, ha, rfl⟩) hne
      · exact hm
    refine ⟨t2, ?_, h2⟩
    rw [List.foldlM_cons, hgt, ht1]
    exact ht2

theorem Inv.onLeave (h : Inv D t) : ∃ t', Frontend.onLeave D t = .ok t' ∧ Inv D t' := by
  unfold Frontend.onLeave
  rw [iterator_spec h.wf]
  refine Inv.quits (fun t e => ?_) h.wf.nodup h fun e he => he
  exact ⟨items D t e.2 D.maxVal e.1, items_to D, known_items _ _,
    congrArg (Frontend.quit · e.2) (sendItems_eq D e.2 D.maxVal e.1)⟩

theorem Inv.truncateStorage (h : Inv D t) (pos : Int) :
    ∃ t', Frontend.truncateStorage D t pos = .ok t' ∧ Inv D t' := by
  unfold Frontend.truncateStorage
  rw [range_spec h.wf]
  refine Inv.quits (fun t e => ?_) ?_ h fun e he => List.mem_of_mem_filter (List.mem_of_mem_filter he)
  · exact ⟨[], nofun, nofun, by rw [T.logged_nil]⟩
  · exact h.wf.nodup.sublist ((List.filter_sublist.trans List.filter_sublist).map _)

/-- A peer moves to another density. -/
theorem Inv.updateDensity (h : Inv D t) {o : δ × StoragePeer σ} (ho : o ∈ entries t.pool) (new : δ) :
    ∃ t', Frontend.updateDensity D t o.2 new o.1 = .ok t' ∧ Inv D t' := by
  obtain ⟨p, rest, hp, hwf, hperm, hperm'⟩ := update_spec h.wf ho new (q := o.2) rfl
  have hn := (hperm.map fun e => e.2.service).nodup_iff.mp h.wf.nodup
  have other : ∀ a ∈ rest, a.2 ≠ o.2 := by
    intro a ha hao
    refine (List.nodup_cons.mp hn).1 (List.mem_map.mpr ⟨a, ha, ?_⟩)
    rw [hao]
  have sub : ∀ a ∈ rest, a ∈ entries t.pool := fun a ha => hperm.mem_iff.mpr (.tail _ ha)
  have hto : ∀ a ∈ [(o.2, Action.position (D.toPosition t.stats new))] ++ items D t o.2 new o.1, a.1 = o.2 := by
    intro a ha
    rcases List.mem_append.mp ha with ha | ha
    · rw [List.mem_singleton.mp ha]
    · exact items_to D a ha
  have hpk : Known (t.types.map fun b => b.typeId)
      [(o.2, (Action.position (D.toPosition t.stats new) : Action β ι α))] := by
    intro a ha r hr
    rw [List.mem_singleton.mp ha] at hr
    cases hr
  refine ⟨{ (t.logged ([(o.2, .position (D.toPosition t.stats new))] ++ items D t o.2 new o.1)) with pool := p }, ?_,
    ⟨hwf, h.ids, fun a ha => ?_, fun q hq hqd => ?_, h.young, h.dead, fun a ha => ?_,
      h.known.append (hpk.append (known_items _ _)), fun a ha b hb => ?_⟩⟩
  · unfold Frontend.updateDensity
    rw [hp]
    show Except.ok (sendItems D _ o.2 new o.1) = _
    rw [sendItems_eq]
    refine congrArg Except.ok ?_
    show T.logged { t with pool := p, log := t.log ++ _ } _ = T.mk ..
    unfold T.logged
    rw [List.append_assoc]
    rfl
  · rcases List.mem_cons.mp (hperm'.mem_iff.mp ha) with rfl | ha
    · exact h.pooled o ho
    · exact h.pooled a (sub a ha)
  · obtain ⟨d, hd⟩ := h.alive q hq hqd
    rcases List.mem_cons.mp (hperm.mem_iff.mp hd) with heq | hm
    · refine ⟨new, hperm'.mem_iff.mpr ?_⟩
      rw [show q = o.2 from congrArg Prod.snd heq]
      exact .head _
    · exact ⟨d, hperm'.mem_iff.mpr (.tail _ hm)⟩
  · rcases List.mem_append.mp ha with ha | ha
    · exact h.heard a ha
    · rw [hto a ha]
      exact h.stream ho
  · show held (t.log ++ ([(o.2, Action.position (D.toPosition t.stats new))] ++ items D t o.2 new o.1)) a.2 b.typeId = _
    rw [held_append]
    rcases List.mem_cons.mp (hperm'.mem_iff.mp ha) with rfl | ha
    · rw [h.replicated o ho b hb, after_append]
      have hpos : Silent o.2 b.typeId [(o.2, (Action.position (D.toPosition t.stats new) : Action β ι α))] := by
        intro x hx _ r hr
        rw [List.mem_singleton.mp hx] at hr
        cases hr
      rw [hpos.after]
      exact after_items h.ids hb new o.1
    · have hs : Silent a.2 b.typeId ([(o.2, Action.position (D.toPosition t.stats new))] ++ items D t o.2 new o.1) :=
        silent_other fun x hx hxa => other a ha (by rw [← hxa, hto x hx])
      rw [hs.after]
      exact h.replicated a (sub a ha) b hb

/-- A new peer gets its share, unless a bubble is larger than the maximal density. -/
theorem Inv.newPeer (h : Inv D t) (hq : q.stream < t.streams) (hfresh : q ∉ t.registered ∧ q ∉ t.isDead ∧ ∀ a ∈ t.log, a.1 ≠ q)
    (hnone : ∀ e ∈ entries t.pool, e.2.service ≠ q.service)
    (hcalm : ∀ b ∈ t.types, D.maxVal < bubbleSize D t b → d < bubbleSize D t b → b.cache = ∅) :
    ∃ t', Frontend.onNewStorage D t d q = .ok t' ∧ Inv D t' := by
  obtain ⟨hreg, hdead, hlog⟩ := hfresh
  obtain ⟨p, hp, hwf, hperm⟩ := add_spec h.wf d hnone
  have hto : ∀ a ∈ items D t q d D.maxVal, a.1 = q := items_to D
  refine ⟨{ (t.logged (items D t q d D.maxVal)) with pool := p, registered := q :: t.registered }, ?_,
    ⟨hwf, h.ids, fun a ha => ?_, fun x hx hxd => ?_, fun x hx => ?_, h.dead, fun a ha => ?_,
      h.known.append (known_items _ _), fun a ha b hb => ?_⟩⟩
  · unfold Frontend.onNewStorage
    rcases get_spec h.wf q.service with ⟨hg, -⟩ | ⟨e, he, hes, -⟩
    · simp only [hg, hp, bind, Except.bind, sendItems_eq]
      rfl
    · exact absurd hes (hnone e he)
  · rcases List.mem_cons.mp (hperm.mem_iff.mp ha) with rfl | ha
    · exact ⟨.head _, hdead⟩
    · exact ⟨.tail _ (h.pooled a ha).1, (h.pooled a ha).2⟩
  · rcases List.mem_cons.mp hx with rfl | hx
    · exact ⟨d, hperm.mem_iff.mpr (.head _)⟩
    · obtain ⟨d', hd'⟩ := h.alive x hx hxd
      exact ⟨d', hperm.mem_iff.mpr (.tail _ hd')⟩
  · rcases List.mem_cons.mp hx with rfl | hx
    · exact hq
    · exact h.young x hx
  · rcases List.mem_append.mp ha with ha | ha
    · exact h.heard a ha
    · rw [hto a ha]
      exact hq
  · show held (t.log ++ items D t q d D.maxVal) a.2 b.typeId = _
    rw [held_append]
    rcases List.mem_cons.mp (hperm.mem_iff.mp ha) with rfl | ha
    · have hs : Silent q b.typeId t.log := silent_other hlog
      show after q b.typeId (after q b.typeId _ t.log) _ = share b.cache (decide (d < bubbleSize D t b))
      rw [hs.after]
      by_cases hmax : D.maxVal < bubbleSize D t b
      · rw [after_items_one h.ids hb]
        by_cases hd : d < bubbleSize D t b
        · -- it is taken to have the bubble: right if there is nothing to have
          rw [decide_eq_true hmax, decide_eq_true hd]
          funext id
          show none = b.cache.lookup id
          rw [hcalm b hb hmax hd]
          rfl
        · rw [decide_eq_true hmax, decide_eq_false hd]
          exact after_deleteReqs b false
      · have hi := after_items (D := D) (q := q) h.ids hb d D.maxVal
        rw [decide_eq_false hmax] at hi
        exact hi
    · have hs : Silent a.2 b.typeId (items D t q d D.maxVal) := by
        refine silent_other fun x hx hxa => hnone a ha ?_
        rw [← hxa, hto x hx]
      rw [hs.after]
      exact h.replicated a ha b hb

/-- A second registration at a peer is quit, and the peer may move. -/
theorem Inv.redundant (h : Inv D t) (hq : q.stream < t.streams) (hfresh : q ∉ t.registered ∧ q ∉ t.isDead)
    {o : δ × StoragePeer σ} (ho : o ∈ entries t.pool) (hs : o.2.service = q.service) :
    ∃ t', Frontend.onNewStorage D t d q = .ok t' ∧ Inv D t' := by
  obtain ⟨hreg, hdead⟩ := hfresh
  have hother : ∀ e ∈ entries t.pool, e.2 ≠ q := by
    intro e he heq
    exact hreg (heq ▸ (h.pooled e he).1)
  have h1 : Inv D { (t.logged [(q, .shutdown)]) with isDead := q :: t.isDead } := by
    refine ⟨h.wf, h.ids, fun e he => ?_, fun x hx hxd => ?_, h.young, fun x hx => ?_, fun a ha => ?_,
      h.known.append (known_shutdown _), fun e he b hb => ?_⟩
    · refine ⟨(h.pooled e he).1, fun hm => ?_⟩
      rcases List.mem_cons.mp hm with hm | hm
      · exact hother e he hm
      · exact (h.pooled e he).2 hm
    · exact h.alive x hx fun hm => hxd (.tail _ hm)
    · rcases List.mem_cons.mp hx with rfl | hx
      · exact hq
      · exact h.dead x hx
    · rcases List.mem_append.mp ha with ha | ha
      · exact h.heard a ha
      · rw [List.mem_singleton.mp ha]
        exact hq
    · have hsil : Silent e.2 b.typeId [(q, (Action.shutdown : Action β ι α))] := by
        refine silent_other fun x hx hxe => hother e he ?_
        rw [← hxe, List.mem_singleton.mp hx]
      show held (t.log ++ [(q, Action.shutdown)]) e.2 b.typeId = _
      rw [held_append, hsil.after]
      exact h.replicated e he b hb
  have hquit : Frontend.quit t q = .ok { (t.logged [(q, .shutdown)]) with isDead := q :: t.isDead } := by
    exact die_unregistered (t := t.logged [(q, .shutdown)]) hdead hreg
  unfold Frontend.onNewStorage
  rcases get_spec h.wf q.service with ⟨-, hno⟩ | ⟨e, he, hes, hg⟩
  · exact absurd hs (hno o ho)
  · simp only [hg, bind, Except.bind, hquit]
    by_cases hlt : d < e.1
    · rw [if_neg (not_not.mpr hlt)]
      exact h1.updateDensity he d
    · rw [if_pos hlt]
      exact ⟨_, rfl, h1⟩

theorem Inv.addStorage (h : Inv D t) (service : σ) (density : δ) (filter : Bool → Bool) :
    ∃ t', Frontend.addStorage D t service density filter = .ok t' ∧ Inv D t' := by
  unfold Frontend.addStorage
  by_cases hf : ¬ filter t.bucket
  · rw [if_pos hf]
    exact ⟨t, rfl, h⟩
  · rw [if_neg hf]
    rcases get_spec h.wf service with ⟨hg, -⟩ | ⟨e, he, -, hg⟩
    · rw [hg]
      exact ⟨_, rfl, { h with }⟩
    · simp only [hg, bind, Except.bind]
      by_cases hlt : density < e.1
      · rw [if_neg (not_not.mpr hlt)]
        exact h.updateDensity he density
      · rw [if_pos hlt]
        exact ⟨t, rfl, h⟩

/-! ### Requests -/

omit [Preorder δ] [DecidableLT δ] [LinearOrder σ] [DecidableEq ι] [Std.Total (α := δ) (· ≤ ·)] in
theorem find_ok {typeId : β} {bubble : BubbleType β ι α Size} (hf : find t typeId = .ok bubble) :
    bubble ∈ t.types ∧ bubble.typeId = typeId := by
  unfold find at hf
  split at hf
  · rename_i b hb
    cases hf
    have hid := List.find?_some hb
    exact ⟨List.mem_of_find?_eq_some hb, of_decide_eq_true hid⟩
  · cases hf

/-- A changed cache goes with a request to the peers that qualify, if none of them is
    below the least density. -/
theorem Inv.request (h : Inv D t) {bubble : BubbleType β ι α Size} (hb : bubble ∈ t.types) (cache : Table ι α)
    {r : Request β ι α} (hr : r.bubble = bubble.typeId) (happ : apply (share bubble.cache true) r = share cache true)
    (hcalm : ∀ e ∈ entries t.pool, e.1 < bubbleSize D t bubble → ¬ e.1 < D.minVal) :
    ∃ t', Frontend.request D (setCache t bubble.typeId cache) bubble r = .ok t' ∧ Inv D t' := by
  let it := (entries t.pool).filter fun e => decide (¬ e.1 < D.minVal ∧ e.1 < bubbleSize D t bubble)
  have hit : ∀ e ∈ it, e ∈ entries t.pool := fun e he => List.mem_of_mem_filter he
  have hn : (it.map fun e => e.2.service).Nodup := h.wf.nodup.sublist (List.filter_sublist.map _)
  have hids : t.types.map (fun b => b.typeId) = (setCache t bubble.typeId cache).types.map fun b => b.typeId := by
    show _ = (t.types.map _).map _
    rw [List.map_map]
    apply List.map_congr_left
    intro b _
    show b.typeId = (if b.typeId = bubble.typeId then { b with cache := cache } else b).typeId
    split
    · rfl
    · rfl
  have hrk : Known (t.types.map fun b => b.typeId) (it.flatMap fun e => toPeer e.2 [r]) := by
    refine known_flatMap fun e _ a ha r' hr' => ?_
    rw [List.mem_singleton.mp ha] at hr'
    cases hr'
    rw [hr]
    exact List.mem_map_of_mem hb
  refine ⟨(setCache t bubble.typeId cache).logged (it.flatMap fun e => toPeer e.2 [r]), ?_,
    ⟨h.wf, hids ▸ h.ids, h.pooled, h.alive, h.young, h.dead, fun a ha => ?_, hids ▸ h.known.append hrk, fun e he b hb' => ?_⟩⟩
  · unfold Frontend.request requestRange
    have hrange : range (setCache t bubble.typeId cache).pool D.minVal
        (bubbleSize D (setCache t bubble.typeId cache) bubble) = .ok it := range_spec h.wf _ _
    rw [hrange]
    exact congrArg Except.ok (send_eq r it)
  · rcases List.mem_append.mp ha with ha | ha
    · exact h.heard a ha
    · obtain ⟨e, he, hea⟩ := List.mem_flatMap.mp ha
      rw [List.mem_singleton.mp hea]
      exact h.stream (hit e he)
  · obtain ⟨b0, hb0, rfl⟩ := List.mem_map.mp hb'
    show held (t.log ++ it.flatMap fun e => toPeer e.2 [r]) e.2 _ = _
    rw [held_append]
    have hrep := h.replicated e he b0 hb0
    by_cases hid : b0.typeId = bubble.typeId
    · have hsame : b0 = bubble := List.inj_on_of_nodup_map h.ids hb0 hb hid
      subst hsame
      rw [if_pos rfl]
      show after e.2 b0.typeId _ _ = share cache (decide (e.1 < bubbleSize D t b0))
      rw [hrep]
      by_cases hsize : e.1 < bubbleSize D t b0
      · have hmem : e ∈ it := List.mem_filter.mpr ⟨he, decide_eq_true ⟨hcalm e he hsize, hsize⟩⟩
        rw [after_flatMap (fun e => e.2.service) hn hmem fun y _ hy => silent_toPeer fun hq => absurd (congrArg _ hq) hy,
          after_toPeer_cons hr, decide_eq_true hsize]
        exact happ
      · have hs : Silent e.2 b0.typeId (it.flatMap fun a => toPeer a.2 [r]) := by
          refine silent_flatMap fun a ha => silent_toPeer fun hq => ?_
          have hae : a = e := h.wf.unique (hit a ha) he (by rw [hq])
          rw [hae] at ha
          exact absurd (of_decide_eq_true (List.mem_filter.mp ha).2).2 hsize
        rw [hs.after, decide_eq_false hsize]
        rfl
    · rw [if_neg hid]
      have hs : Silent e.2 b0.typeId (it.flatMap fun a => toPeer a.2 [r]) := by
        refine silent_flatMap fun a _ => silent_toPeer fun _ r' hr' => ?_
        rw [List.mem_singleton.mp hr', hr]
        exact Ne.symm hid
      rw [hs.after]
      exact hrep

/-! ### Round switch -/

/-- The density a peer is filed under after a round switch: an equal one is not updated. -/
def settled (c : Change δ σ) : δ := if c.new < c.old ∨ c.old < c.new then c.new else c.old

omit [LinearOrder σ] in
theorem settled_lt (c : Change δ σ) (size : δ) : settled c < size ↔ c.new < size := by
  unfold settled
  split
  · exact Iff.rfl
  · rename_i hc
    obtain ⟨h1, h2⟩ := not_or.mp hc
    exact ⟨lt_of_le_of_lt (le_of_not_lt h2), lt_of_le_of_lt (le_of_not_lt h1)⟩

theorem updatePool_spec {p : StoragePool.T δ σ} (hw : Wf p) (cs : List (Change δ σ)) {done : List (δ × StoragePeer σ)}
    (hp : (entries p).Perm (cs.map (fun c => (c.old, c.storage)) ++ done)) :
    ∃ p', updatePool p cs = .ok p' ∧ Wf p' ∧ (entries p').Perm (cs.map (fun c => (settled c, c.storage)) ++ done) := by
  unfold updatePool
  induction cs generalizing p done with
  | nil => exact ⟨p, rfl, hw, hp⟩
  | cons c cs ih =>
    have hc : (c.old, c.storage) ∈ entries p := hp.mem_iff.mpr (.head _)
    by_cases hchange : c.new < c.old ∨ c.old < c.new
    · obtain ⟨p1, rest, h1, hw1, hrest, hp1⟩ := update_spec hw hc c.new (q := c.storage) rfl
      have hcs : rest.Perm (cs.map (fun c => (c.old, c.storage)) ++ done) := (hrest.symm.trans hp).cons_inv
      have hnext : (entries p1).Perm (cs.map (fun c => (c.old, c.storage)) ++ (c.new, c.storage) :: done) :=
        hp1.trans ((hcs.cons _).trans List.perm_middle.symm)
      obtain ⟨p2, h2, hw2, hp2⟩ := ih hw1 hnext
      refine ⟨p2, ?_, hw2, ?_⟩
      · rw [List.filter_cons, if_pos (decide_eq_true hchange), List.foldlM_cons, h1]
        exact h2
      · rw [List.map_cons, settled, if_pos hchange]
        exact hp2.trans List.perm_middle
    · have hnext : (entries p).Perm (cs.map (fun c => (c.old, c.storage)) ++ (c.old, c.storage) :: done) :=
        hp.trans List.perm_middle.symm
      obtain ⟨p2, h2, hw2, hp2⟩ := ih hw hnext
      refine ⟨p2, ?_, hw2, ?_⟩
      · rw [List.filter_cons, if_neg (by rw [decide_eq_true_eq]; exact hchange)]
        exact h2
      · rw [List.map_cons, settled, if_neg hchange]
        exact hp2.trans List.perm_middle

/-- A bubble type with its new size. -/
def resized (size : β → Size) (b : BubbleType β ι α Size) : BubbleType β ι α Size :=
  { b with oldSize := b.currentSize, currentSize := size b.typeId }

/-- The state a round's notification starts from. -/
def measured (t : T δ σ β ι α Size Stats) (stats : Stats) (size : β → Size) : T δ σ β ι α Size Stats :=
  { t with stats' := t.stats, stats := stats, types := t.types.map (resized size) }

omit [Preorder δ] [DecidableLT δ] [LinearOrder σ] [DecidableEq β] [DecidableEq ι] [Std.Total (α := δ) (· ≤ ·)] in
theorem measured_ids (stats : Stats) (size : β → Size) :
    (measured t stats size).types.map (fun b => b.typeId) = t.types.map fun b => b.typeId := by
  show (t.types.map (resized size)).map _ = _
  rw [List.map_map]
  rfl

omit [Std.Total (α := δ) (· ≤ ·)] in
/-- A round that is not acted on, of sizes that decide alike. -/
theorem Inv.measured (h : Inv D t) (stats : Stats) (size : β → Size)
    (hcalm : ∀ e ∈ entries t.pool, ∀ b ∈ t.types, b.cache ≠ ∅ →
      (e.1 < bubbleSize D t b ↔ e.1 < D.bubbleSize (size b.typeId) stats)) : Inv D (measured t stats size) := by
  refine ⟨h.wf, by rw [measured_ids]; exact h.ids, h.pooled, h.alive, h.young, h.dead, h.heard,
    by rw [measured_ids]; exact h.known, fun e he b hb => ?_⟩
  obtain ⟨b0, hb0, rfl⟩ := List.mem_map.mp hb
  refine (h.replicated e he b0 hb0).trans ?_
  show share b0.cache _ = share b0.cache (decide (e.1 < D.bubbleSize (size b0.typeId) stats))
  by_cases hempty : b0.cache = ∅
  · funext id
    unfold share
    rw [hempty, AList.lookup_empty]
    split
    · split
      · rfl
      · rfl
    · split
      · rfl
      · rfl
  · exact congrArg _ (decide_eq_decide.mpr (hcalm e he b0 hb0 hempty))

/-- A round switch moves the peers, and sends each the difference. -/
theorem Inv.onRoundSwitch (h : Inv D t) (stats : Stats) (size : β → Size) (targetSize : Int) :
    ∃ t', Frontend.onRoundSwitch D (Frontend.measured t stats size) targetSize = .ok t' ∧ Inv D t' := by
  let t1 := Frontend.measured t stats size
  have hids : (t1.types.map fun b => b.typeId).Nodup := by
    rw [measured_ids]
    exact h.ids
  let changes := (entries t.pool).map (getChange D t1)
  have hold : changes.map (fun c => (c.old, c.storage)) = entries t.pool := by
    rw [List.map_map]
    exact List.map_id _
  have hchange : ∀ e ∈ entries t.pool, getChange D t1 e ∈ changes := fun e he => List.mem_map_of_mem he
  have hn : (changes.map fun c => c.storage.service).Nodup := by
    rw [List.map_map]
    exact h.wf.nodup
  have hpool : (entries t.pool).Perm (changes.map (fun c => (c.old, c.storage)) ++ []) := by rw [hold, List.append_nil]
  obtain ⟨p, hp, hw, hperm⟩ := updatePool_spec h.wf changes hpool
  rw [List.append_nil] at hperm
  have moved : ∀ e' ∈ entries p, ∃ e ∈ entries t.pool, e' = (settled (getChange D t1 e), e.2) := by
    intro e' he'
    obtain ⟨c, hc, rfl⟩ := List.mem_map.mp (hperm.mem_iff.mp he')
    obtain ⟨e, he, rfl⟩ := List.mem_map.mp hc
    exact ⟨e, he, rfl⟩
  let l := changes.flatMap (positions D t1) ++ t1.types.flatMap (adjustments D t1 changes)
  have hto : ∀ a ∈ l, ∃ e ∈ entries t.pool, a.1 = e.2 := by
    intro a ha
    rcases List.mem_append.mp ha with ha | ha
    · obtain ⟨c, hc, hac⟩ := List.mem_flatMap.mp ha
      obtain ⟨e, he, rfl⟩ := List.mem_map.mp hc
      refine ⟨e, he, ?_⟩
      unfold positions at hac
      split at hac
      · cases hac
      · rw [List.mem_singleton.mp hac]
        rfl
    · obtain ⟨b, -, hab⟩ := List.mem_flatMap.mp ha
      obtain ⟨c, hc, hac⟩ := List.mem_flatMap.mp hab
      obtain ⟨e, he, rfl⟩ := List.mem_map.mp hc
      exact ⟨e, he, adjusted_to a hac⟩
  have hlk : Known (t1.types.map fun b => b.typeId) (t1.logged l).log := by
    have hk : Known (t1.types.map fun b => b.typeId) t1.log := by
      rw [measured_ids]
      exact h.known
    refine hk.append (Known.append (known_flatMap fun c _ a ha r hr => ?_) (known_flatMap fun b hb => ?_))
    · unfold positions at ha
      split at ha
      · cases ha
      · rw [List.mem_singleton.mp ha] at hr
        cases hr
    · exact known_flatMap fun c _ => known_adjusted (List.mem_map_of_mem hb)
  have h2 : Inv D { (t1.logged l) with pool := p } := by
    refine ⟨hw, hids, fun e' he' => ?_, fun q hq hqd => ?_,
      h.young, h.dead, fun a ha => ?_, hlk, fun e' he' b hb => ?_⟩
    · obtain ⟨e, he, rfl⟩ := moved e' he'
      exact h.pooled e he
    · obtain ⟨d, hd⟩ := h.alive q hq hqd
      exact ⟨_, hperm.mem_iff.mpr (List.mem_map.mpr ⟨_, hchange _ hd, rfl⟩)⟩
    · rcases List.mem_append.mp ha with ha | ha
      · exact h.heard a ha
      · obtain ⟨e, he, hae⟩ := hto a ha
        rw [hae]
        exact h.stream he
    · obtain ⟨e, he, rfl⟩ := moved e' he'
      have hb1 : b ∈ t1.types := hb
      obtain ⟨b0, hb0, rfl⟩ := List.mem_map.mp hb
      show held (t.log ++ l) e.2 _ = _
      rw [held_append, after_append, (silent_positions D changes e.2 _).after,
        after_flatMap (fun b => b.typeId) hids hb1]
      · refine (after_adjustments (D := D) hn (hchange e he) _ _).trans ?_
        have hrep := h.replicated e he b0 hb0
        show after e.2 b0.typeId (held t.log e.2 b0.typeId) _ = _
        rw [hrep]
        refine (after_adjusted e.2 _ _ (resized size b0)).trans ?_
        exact congrArg (share b0.cache) (decide_eq_decide.mpr (settled_lt (getChange D t1 e) _).symm)
      · intro b' _ hb'
        exact silent_flatMap fun c _ => silent_adjusted _ _ fun _ => hb'
  obtain ⟨t3, h3, hinv⟩ := h2.truncateStorage targetSize
  refine ⟨t3, ?_, hinv⟩
  unfold Frontend.onRoundSwitch
  rw [show iterator (Frontend.measured t stats size).pool = .ok (entries t.pool) from
    iterator_spec h.wf]
  show (do
    let pool ← updatePool t.pool changes
    let this := changes.foldl (updatePos D) { t1 with pool := pool }
    let this := this.types.foldl (fun t bubble => adjustBubble D t changes bubble) this
    Frontend.truncateStorage D this targetSize) = _
  rw [hp]
  show Frontend.truncateStorage D _ targetSize = _
  rw [updatePos_eq, adjustBubbles_eq, T.logged_logged]
  exact h3

theorem Inv.round (h : Inv D t) (stats : Stats) (size : β → Size) (targetSize : Int)
    (hcalm : t.status = .online ∨ ∀ e ∈ entries t.pool, ∀ b ∈ t.types, b.cache ≠ ∅ →
      (e.1 < bubbleSize D t b ↔ e.1 < D.bubbleSize (size b.typeId) stats)) :
    ∃ t', Frontend.round D t stats size targetSize = .ok t' ∧ Inv D t' := by
  have hround : Frontend.round D t stats size targetSize =
      if (Frontend.measured t stats size).types.isEmpty || (Frontend.measured t stats size).status != .online then
        Except.ok (Frontend.measured t stats size)
      else Frontend.onRoundSwitch D (Frontend.measured t stats size) targetSize := rfl
  rw [hround]
  split
  · rename_i hskip
    refine ⟨_, rfl, h.measured stats size ?_⟩
    rcases hcalm with honline | hcalm
    · rcases (Bool.or_eq_true _ _).mp hskip with hempty | hstatus
      · intro e _ b hb
        rw [show t.types = [] from List.map_eq_nil_iff.mp (List.isEmpty_iff.mp hempty)] at hb
        cases hb
      · rw [show (Frontend.measured t stats size).status = .online from honline] at hstatus
        cases hstatus
    · exact hcalm
  · exact h.onRoundSwitch stats size targetSize

/-! ### Runs -/

theorem Inv.die (h : Inv D t) (hr : q ∈ t.registered) : ∃ t', Frontend.die t q = .ok t' ∧ Inv D t' := by
  by_cases hd : q ∈ t.isDead
  · refine ⟨t, ?_, h⟩
    unfold Frontend.die
    rw [if_pos hd]
    rfl
  · obtain ⟨d, he⟩ := h.alive q hr hd
    obtain ⟨t', h1, h2, -⟩ := h.lost he (l := []) nofun nofun
    exact ⟨t', by rw [← h1, T.logged_nil], h2⟩

/-- What the caller is told, before anything has changed. -/
def Refused (x : Exn) : Prop :=
  x = .keyExists ∨ x = .keyDoesNotExist ∨ x = .bubbleIdInUse ∨
    x = .fail "cannot get data cache from non-maintained type"

omit [Preorder δ] [DecidableLT δ] [LinearOrder σ] [DecidableEq ι] [Std.Total (α := δ) (· ≤ ·)] in
theorem find_error {typeId : β} {x : Exn} (hf : find t typeId = .error x) : Refused x := by
  unfold find at hf
  split at hf
  · cases hf
  · cases hf
    exact .inr (.inr (.inr rfl))

variable (D) in
/-- The event does not reach what goes wrong. -/
def Calm (t : T δ σ β ι α Size Stats) : Event δ σ β ι α Size Stats → Prop
  | .insert typeId _ _ | .update typeId _ _ | .delete typeId _ =>
    ∀ e ∈ entries t.pool, ∀ b ∈ t.types, b.typeId = typeId → e.1 < bubbleSize D t b → ¬ e.1 < D.minVal
  | .connected i =>
    ∀ c ∈ t.connecting[i]?, (∀ e ∈ entries t.pool, e.2.service ≠ c.1) →
      ∀ b ∈ t.types, D.maxVal < bubbleSize D t b → c.2 < bubbleSize D t b → b.cache = ∅
  | .round stats size _ =>
    t.status = .online ∨ ∀ e ∈ entries t.pool, ∀ b ∈ t.types, b.cache ≠ ∅ →
      (e.1 < bubbleSize D t b ↔ e.1 < D.bubbleSize (size b.typeId) stats)
  | .register _ _ | .offer _ _ _ | .died _ | .status _ | .leave => True

/-- A change of the cache, and the request that goes with it. -/
theorem Inv.requested (h : Inv D t) {typeId : β} {r : Request β ι α} (hr : r.bubble = typeId)
    {g : Table ι α → Except Exn (Table ι α)} (hrefuse : ∀ cache x, g cache = .error x → Refused x)
    (happ : ∀ cache cache', g cache = .ok cache' → apply (share cache true) r = share cache' true)
    (hcalm : ∀ e ∈ entries t.pool, ∀ b ∈ t.types, b.typeId = typeId → e.1 < bubbleSize D t b → ¬ e.1 < D.minVal)
    {result : Except Exn (T δ σ β ι α Size Stats)}
    (hresult : result = do
      let bubble ← find t typeId
      let cache ← g bubble.cache
      Frontend.request D (setCache t typeId cache) bubble r) :
    (∃ t', result = .ok t' ∧ Inv D t') ∨ ∃ x, result = .error x ∧ Refused x := by
  subst hresult
  rcases hf : find t typeId with x | bubble
  · exact .inr ⟨x, rfl, find_error hf⟩
  · obtain ⟨hb, rfl⟩ := find_ok hf
    rcases hc : g bubble.cache with x | cache
    · refine .inr ⟨x, ?_, hrefuse _ x hc⟩
      simp only [bind, Except.bind, hc]
    · refine .inl ?_
      simp only [bind, Except.bind, hc]
      exact h.request hb cache hr (happ _ _ hc) fun e he => hcalm e he bubble hb rfl

omit [Std.Total (α := δ) (· ≤ ·)] in
theorem Inv.register (h : Inv D t) (typeId : β) (size : Size) :
    (∃ t', Frontend.register t typeId size = .ok t' ∧ Inv D t') ∨
      ∃ x, Frontend.register t typeId size = .error x ∧ Refused x := by
  unfold Frontend.register
  by_cases hid : (t.types.any fun b => b.typeId = typeId) = true
  · rw [if_pos hid]
    exact .inr ⟨_, rfl, .inr (.inr (.inl rfl))⟩
  · rw [if_neg hid]
    have hnew : typeId ∉ t.types.map fun b => b.typeId := by
      intro hm
      obtain ⟨b, hb, heq⟩ := List.mem_map.mp hm
      exact hid (List.any_eq_true.mpr ⟨b, hb, decide_eq_true heq⟩)
    refine .inl ⟨_, rfl, h.wf, List.nodup_cons.mpr ⟨hnew, h.ids⟩, h.pooled, h.alive, h.young, h.dead, h.heard,
      fun a ha r hr => .tail _ (h.known a ha r hr), fun e he b hb => ?_⟩
    rcases List.mem_cons.mp hb with rfl | hb
    · have hs : Silent e.2 typeId t.log := by
        intro a ha _ r hr heq
        exact hnew (heq ▸ h.known a ha r hr)
      show after e.2 typeId _ t.log = _
      rw [hs.after]
      funext id
      unfold share
      rw [AList.lookup_empty]
      split
      · rfl
      · rfl
    · exact h.replicated e he b hb

theorem Inv.connected (h : Inv D t) {service : σ} {connecting : List (σ × δ)}
    (hcalm : (∀ e ∈ entries t.pool, e.2.service ≠ service) →
      ∀ b ∈ t.types, D.maxVal < bubbleSize D t b → d < bubbleSize D t b → b.cache = ∅) :
    ∃ t', onNewStorage D { t with connecting := connecting, streams := t.streams + 1 } d ⟨service, t.streams⟩ = .ok t' ∧
      Inv D t' := by
  have h1 : Inv D { t with connecting := connecting, streams := t.streams + 1 } :=
    { h with
      young := fun q hq => Nat.lt_succ_of_lt (h.young q hq)
      dead := fun q hq => Nat.lt_succ_of_lt (h.dead q hq)
      heard := fun a ha => Nat.lt_succ_of_lt (h.heard a ha) }
  have hreg : (⟨service, t.streams⟩ : StoragePeer σ) ∉ t.registered := fun hm => Nat.lt_irrefl _ (h.young _ hm)
  have hdead : (⟨service, t.streams⟩ : StoragePeer σ) ∉ t.isDead := fun hm => Nat.lt_irrefl _ (h.dead _ hm)
  by_cases hnone : ∀ e ∈ entries t.pool, e.2.service ≠ service
  · refine h1.newPeer (Nat.lt_succ_self _) ⟨hreg, hdead, fun a ha heq => ?_⟩ hnone (hcalm hnone)
    have hlt := h.heard a ha
    rw [heq] at hlt
    exact Nat.lt_irrefl _ hlt
  · rw [not_forall] at hnone
    obtain ⟨o, ho⟩ := hnone
    rw [Classical.not_imp, not_not] at ho
    exact h1.redundant (Nat.lt_succ_self _) ⟨hreg, hdead⟩ ho.1 ho.2

/-- One event: what it raises is told to the caller, and otherwise the invariant is kept. -/
theorem step_inv (h : Inv D t) (e : Event δ σ β ι α Size Stats) (hc : Calm D t e) :
    (∃ t', step D t e = .ok t' ∧ Inv D t') ∨ ∃ x, step D t e = .error x ∧ Refused x := by
  cases e with
  | register typeId size => exact h.register typeId size
  | insert typeId id data =>
    refine h.requested (r := .insert typeId id data) (g := fun cache => Table.add cache id data) rfl ?_ ?_ hc rfl
    · intro cache x hx
      unfold Table.add at hx
      split at hx
      · cases hx
        exact .inl rfl
      · cases hx
    · intro cache cache' hx
      unfold Table.add at hx
      split at hx
      · cases hx
      · cases hx
        exact (Table.lookup_insert_eq cache id data).symm
  | update typeId id data =>
    refine h.requested (r := .update typeId id data) (g := fun cache => Table.update cache id data) rfl ?_ ?_ hc rfl
    · intro cache x hx
      unfold Table.update at hx
      split at hx
      · cases hx
      · cases hx
        exact .inr (.inl rfl)
    · intro cache cache' hx
      unfold Table.update at hx
      split at hx
      · cases hx
        exact (Table.lookup_insert_eq cache id data).symm
      · cases hx
  | delete typeId id =>
    refine h.requested (r := .delete typeId id) (g := fun cache => (Table.remove cache id).map Prod.fst) rfl ?_ ?_ hc ?_
    · intro cache x hx
      unfold Table.remove at hx
      split at hx
      · cases hx
        exact .inr (.inl rfl)
      · cases hx
    · intro cache cache' hx
      unfold Table.remove at hx
      split at hx
      · cases hx
      · cases hx
        exact (Table.lookup_erase_eq cache id).symm
    · unfold step
      dsimp only
      unfold Frontend.delete
      congr 1
      funext bubble
      rcases Table.remove bubble.cache id with x | ⟨cache, v⟩
      · rfl
      · rfl
  | offer service density filter => exact .inl (h.addStorage service density filter)
  | connected i =>
    left
    simp only [step]
    split
    · exact ⟨t, rfl, h⟩
    · rename_i service density hi
      exact h.connected fun hnone => hc (service, density) hi hnone
  | died storage =>
    by_cases hr : storage ∈ t.registered
    · obtain ⟨t', h1, h2⟩ := h.die hr
      exact .inl ⟨t', (if_pos hr).trans h1, h2⟩
    · exact .inl ⟨t, if_neg hr, h⟩
  | round stats size targetSize => exact .inl (h.round stats size targetSize hc)
  | status status => exact .inl ⟨_, rfl, { h with }⟩
  | leave =>
    have h1 : Inv D { t with status := .leaving } := { h with }
    show (∃ t', leave D t = .ok t' ∧ _) ∨ _
    unfold leave
    by_cases hempty : t.types.isEmpty = true
    · rw [if_pos hempty]
      exact .inl ⟨_, rfl, h1⟩
    · rw [if_neg hempty]
      exact .inl h1.onLeave

variable (D) in
def CalmRun (t : T δ σ β ι α Size Stats) : List (Event δ σ β ι α Size Stats) → Prop
  | [] => True
  | e :: events => Calm D t e ∧ CalmRun (next D t e) events

omit [Std.Total (α := δ) (· ≤ ·)] in
theorem inv_new (stats : Stats) (bucket : Bool) : Inv D (new stats bucket : T δ σ β ι α Size Stats) :=
  ⟨wf_new, List.nodup_nil, nofun, nofun, nofun, nofun, nofun, nofun, nofun⟩

theorem next_inv (h : Inv D t) (e : Event δ σ β ι α Size Stats) (hc : Calm D t e) : Inv D (next D t e) := by
  unfold next
  rcases step_inv h e hc with ⟨t', he, h'⟩ | ⟨x, he, -⟩
  · rw [he]
    exact h'
  · rw [he]
    exact h

theorem run_inv (h : Inv D t) (events : List (Event δ σ β ι α Size Stats)) (hc : CalmRun D t events) :
    Inv D (run D t events) := by
  induction events generalizing t with
  | nil => exact h
  | cons e events ih => exact ih (next_inv h e hc.1) hc.2

/-- After every run of calm events each peer of the pool holds the current cache of every
    bubble type whose size is above the peer's density, and nothing of the others. -/
theorem replicated (D : Densities δ Size Stats) (stats : Stats) (bucket : Bool) (events : List (Event δ σ β ι α Size Stats))
    (hc : CalmRun D (new stats bucket) events) :
    ∃ pool, iterator (run D (new stats bucket) events).pool = .ok pool ∧
      ∀ e ∈ pool, ∀ b ∈ (run D (new stats bucket) events).types, ∀ id,
        held (run D (new stats bucket) events).log e.2 b.typeId id =
          if e.1 < bubbleSize D (run D (new stats bucket) events) b then b.cache.lookup id else none := by
  have h := run_inv (inv_new stats bucket) events hc
  refine ⟨_, iterator_spec h.wf, fun e he b hb id => ?_⟩
  rw [h.replicated e he b hb]
  unfold share
  split
  · rename_i hlt
    rw [if_pos (of_decide_eq_true hlt)]
  · rename_i hlt
    rw [if_neg fun hlt' => hlt (decide_eq_true hlt')]

end Run

/-- Densities of a network with a degree sum of ten, in tenths. -/
def tenths : Densities Nat Nat Nat where
  minVal := 0
  maxVal := 10
  bubbleSize size d1 := size * 10 / d1
  update _ density := density
  phase _ := .stable
  toPosition d1 density := density * d1 / 10
  fromPosition d1 pos := pos.toNat * 10 / d1

/-- A bubble type of the given size with one item, and a storage peer at three tenths. -/
def onePeer (size : Nat) : List (Event Nat Nat Nat Nat Nat Nat Nat) :=
  [.register 1 0, .status .online, .round 10 (fun _ => size) size, .insert 1 4 9, .offer 7 3 (fun _ => true), .connected 0]

theorem replicated_example :
    ∃ pool, iterator (run tenths (new 10 true) (onePeer 5)).pool = .ok pool ∧
      ∀ e ∈ pool, ∀ b ∈ (run tenths (new 10 true) (onePeer 5)).types, ∀ id,
        held (run tenths (new 10 true) (onePeer 5)).log e.2 b.typeId id =
          if e.1 < bubbleSize tenths (run tenths (new 10 true) (onePeer 5)) b then b.cache.lookup id else none := by
  refine replicated tenths 10 true (onePeer 5) ⟨trivial, trivial, .inl rfl, nofun, trivial, fun c hc _ b hb hmax => ?_, trivial⟩
  have hsize : bubbleSize tenths (run tenths (new 10 true) ((onePeer 5).take 5)) b = 5 := by
    rw [List.mem_singleton.mp hb]
    decide
  exact absurd (hsize ▸ hmax) (by decide)

/-- A bubble larger than the degree sum: the new peer gets nothing. -/
theorem oversized_is_not_sent :
    ¬ ∀ events : List (Event Nat Nat Nat Nat Nat Nat Nat),
      ∃ pool, iterator (run tenths (new 10 true) events).pool = .ok pool ∧
        ∀ e ∈ pool, ∀ b ∈ (run tenths (new 10 true) events).types, ∀ id,
          held (run tenths (new 10 true) events).log e.2 b.typeId id =
            if e.1 < bubbleSize tenths (run tenths (new 10 true) events) b then b.cache.lookup id else none := by
  intro h
  obtain ⟨pool, hp, hall⟩ := h (onePeer 12)
  have hpool : pool = [(3, ⟨7, 0⟩)] := by
    have e : iterator (run tenths (new 10 true) (onePeer 12)).pool = .ok [(3, ⟨7, 0⟩)] := by decide
    rw [e] at hp
    exact (Except.ok.inj hp).symm
  subst hpool
  have hb : (⟨1, (∅ : Table Nat Nat).insert 4 9, 12, 0⟩ : BubbleType Nat Nat Nat Nat) ∈
      (run tenths (new 10 true) (onePeer 12)).types := .head _
  have hitem := hall _ (.head _) _ hb 4
  revert hitem
  decide

end Frontend

end BubbleStorm.Managed
