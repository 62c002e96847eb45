/-
  BubbleStorm.Managed.StoragePoolProofs — what the pool's operations do to its entries.

  `Wf` ties the tree to the table: every peer is filed once, under the density the table
  has for its service. On a pool that is `Wf` no operation finds the tree inconsistent.
-/

import BubbleStorm.Managed.StoragePool

namespace BubbleStorm.Managed

open Function (update_idem update_of_ne update_self)
open BubbleStorm.Util.Container
open BubbleStorm.Util.Container.Tree (toList)

namespace Table

variable {κ α : Type} [DecidableEq κ]

theorem lookup_insert_eq (t : Table κ α) (k : κ) (v : α) :
    (fun j => (t.insert k v).lookup j) = Function.update (fun j => t.lookup j) k (some v) := by
  funext j
  by_cases h : j = k
  · subst h
    rw [AList.lookup_insert, update_self]
  · rw [AList.lookup_insert_ne h, update_of_ne h]

theorem lookup_erase_eq (t : Table κ α) (k : κ) :
    (fun j => (t.erase k).lookup j) = Function.update (fun j => t.lookup j) k none := by
  funext j
  by_cases h : j = k
  · subst h
    rw [AList.lookup_erase, update_self]
  · rw [AList.lookup_erase_ne h, update_of_ne h]

end Table

/-- Densities are ordered up to equal ones. -/
theorem le_of_not_lt {δ : Type} [Preorder δ] [Std.Total (α := δ) (· ≤ ·)] {a b : δ} (h : ¬ a < b) : b ≤ a := by
  rcases Std.Total.total (r := (· ≤ ·)) a b with hab | hba
  · by_contra hba
    exact h (lt_of_le_not_ge hab hba)
  · exact hba

namespace StoragePool

variable {δ σ : Type}

/-! ## Filing -/

abbrev Filed (δ σ : Type) := Key δ σ × StoragePeer σ

/-- The table `f` has the density of every peer, and of no other service. -/
structure Files (f : σ → Option δ) (l : List (Filed δ σ)) : Prop where
  filed : ∀ e ∈ l, e.1.2 = some e.2.service ∧ f e.2.service = some e.1.1
  found : ∀ s d, f s = some d → ∃ e ∈ l, e.2.service = s
  nodup : (l.map fun e => e.2.service).Nodup

variable {f : σ → Option δ} {l l' : List (Filed δ σ)} {e : Filed δ σ} {p : T δ σ}

theorem Files.perm (h : Files f l) (hp : l.Perm l') : Files f l' where
  filed e he := h.filed e (hp.mem_iff.mpr he)
  found s d hd := by
    obtain ⟨e, he, hs⟩ := h.found s d hd
    exact ⟨e, hp.mem_iff.mp he, hs⟩
  nodup := (hp.map _).nodup_iff.mp h.nodup

/-- A service has one peer. -/
theorem Files.unique (h : Files f l) {a b : Filed δ σ} (ha : a ∈ l) (hb : b ∈ l) (hs : a.2.service = b.2.service) : a = b :=
  List.inj_on_of_nodup_map h.nodup ha hb hs

theorem Files.none_of (h : Files f l) {s : σ} (hs : ∀ e ∈ l, e.2.service ≠ s) : f s = none := by
  rcases hf : f s with _ | d
  · rfl
  · obtain ⟨e, he, hes⟩ := h.found s d hf
    exact absurd hes (hs e he)

theorem Files.key (h : Files f l) (he : e ∈ l) : e.1 = (e.1.1, some e.2.service) := Prod.ext rfl (h.filed e he).1

/-- A peer with the density it is filed under. -/
def entry (e : Filed δ σ) : δ × StoragePeer σ := (e.1.1, e.2)

def entries (p : T δ σ) : List (δ × StoragePeer σ) := (toList p.tree).map entry

theorem mem_entries : (d, q) ∈ entries p ↔ ∃ e ∈ toList p.tree, e.1.1 = d ∧ e.2 = q := by
  unfold entries
  rw [List.mem_map]
  constructor
  · rintro ⟨e, he, h⟩
    cases h
    exact ⟨e, he, rfl, rfl⟩
  · rintro ⟨e, he, rfl, rfl⟩
    exact ⟨e, he, rfl⟩

variable [LinearOrder σ]

theorem Files.add (h : Files f l) (pos : δ) {q : StoragePeer σ} (hq : f q.service = none) :
    Files (Function.update f q.service (some pos)) (((pos, some q.service), q) :: l) where
  filed e he := by
    rcases List.mem_cons.mp he with rfl | he
    · exact ⟨rfl, update_self ..⟩
    · obtain ⟨h1, h2⟩ := h.filed e he
      refine ⟨h1, ?_⟩
      rw [update_of_ne]
      · exact h2
      · intro hs
        rw [hs, hq] at h2
        cases h2
  found s d hd := by
    by_cases hs : s = q.service
    · exact ⟨_, .head _, hs.symm⟩
    · rw [update_of_ne hs] at hd
      obtain ⟨e, he, hes⟩ := h.found s d hd
      exact ⟨e, .tail _ he, hes⟩
  nodup := by
    refine List.nodup_cons.mpr ⟨fun hm => ?_, h.nodup⟩
    obtain ⟨e, he, hs⟩ := List.mem_map.mp hm
    have h2 := (h.filed e he).2
    rw [show e.2.service = q.service from hs, hq] at h2
    cases h2

theorem Files.remove (h : Files f (e :: l)) : Files (Function.update f e.2.service none) l where
  filed a ha := by
    obtain ⟨h1, h2⟩ := h.filed a (.tail _ ha)
    refine ⟨h1, ?_⟩
    rw [update_of_ne]
    · exact h2
    · intro hs
      exact (List.nodup_cons.mp h.nodup).1 (List.mem_map.mpr ⟨a, ha, hs⟩)
  found s d hd := by
    by_cases hs : s = e.2.service
    · rw [hs, update_self] at hd
      cases hd
    · rw [update_of_ne hs] at hd
      obtain ⟨a, ha, has⟩ := h.found s d hd
      rcases List.mem_cons.mp ha with rfl | ha
      · exact absurd has.symm hs
      · exact ⟨a, ha, has⟩
  nodup := (List.nodup_cons.mp h.nodup).2

/-! ## The order -/

theorem serviceLess_asymm {a b : Option σ} (h : serviceLess a b = true) : serviceLess b a = false := by
  cases a with
  | none =>
    cases b with
    | none => rfl
    | some y => rfl
  | some x =>
    cases b with
    | none => cases h
    | some y =>
      have hxy : x < y := of_decide_eq_true h
      exact decide_eq_false hxy.asymm

theorem serviceLess_trans {a b c : Option σ} (h1 : serviceLess a b = false) (h2 : serviceLess b c = false) :
    serviceLess a c = false := by
  cases a with
  | none =>
    cases c with
    | none => rfl
    | some z =>
      cases b with
      | none => cases h2
      | some y => cases h1
  | some x =>
    cases c with
    | none => rfl
    | some z =>
      cases b with
      | none => cases h2
      | some y =>
        have hyx : ¬ x < y := of_decide_eq_false h1
        have hzy : ¬ y < z := of_decide_eq_false h2
        exact decide_eq_false (not_lt.mpr (le_trans (not_lt.mp hzy) (not_lt.mp hyx)))

theorem serviceLess_eq {a b : Option σ} (h1 : serviceLess a b = false) (h2 : serviceLess b a = false) : a = b := by
  cases a with
  | none =>
    cases b with
    | none => rfl
    | some y => cases h1
  | some x =>
    cases b with
    | none => cases h2
    | some y => exact congrArg some (le_antisymm (not_lt.mp (of_decide_eq_false h2)) (not_lt.mp (of_decide_eq_false h1)))

variable [Preorder δ] [DecidableLT δ]

structure Wf (p : T δ σ) : Prop where
  valid : Tree.Valid less p.tree
  files : Files (fun s => p.lookup.lookup s) (toList p.tree)

/-- The density and the peer of a service. -/
theorem Wf.unique (h : Wf p) {a b : δ × StoragePeer σ} (ha : a ∈ entries p) (hb : b ∈ entries p)
    (hs : a.2.service = b.2.service) : a = b := by
  obtain ⟨x, hx, h1, h2⟩ := mem_entries.mp ha
  obtain ⟨y, hy, h3, h4⟩ := mem_entries.mp hb
  have hxy := h.files.unique hx hy (by rw [h2, h4, hs])
  subst hxy
  exact Prod.ext (h1.symm.trans h3) (h2.symm.trans h4)

theorem Wf.nodup (h : Wf p) : ((entries p).map fun e => e.2.service).Nodup := by
  unfold entries
  rw [List.map_map]
  exact h.files.nodup

theorem wf_new : Wf (new : T δ σ) := ⟨Tree.valid_empty, nofun, nofun, List.nodup_nil⟩

variable [Std.Total (α := δ) (· ≤ ·)]

theorem less_false {a b : Key δ σ} :
    less a b = false ↔ b.1 ≤ a.1 ∧ (a.1 ≤ b.1 → serviceLess a.2 b.2 = false) := by
  unfold less
  by_cases hab : a.1 < b.1
  · rw [if_pos hab]
    exact ⟨nofun, fun h => absurd h.1 (not_le_of_gt hab)⟩
  · rw [if_neg hab]
    have hle := le_of_not_lt hab
    by_cases hba : b.1 < a.1
    · rw [if_pos hba]
      exact ⟨fun _ => ⟨hle, fun h => absurd h (not_le_of_gt hba)⟩, fun _ => rfl⟩
    · rw [if_neg hba]
      exact ⟨fun h => ⟨hle, fun _ => h⟩, fun h => h.2 (le_of_not_lt hba)⟩

theorem less_weak : BinHeap.Weak (less : Key δ σ → Key δ σ → Bool) fun _ => True where
  asymm {x y} _ _ h := by
    have hn : ¬ (y.1 ≤ x.1 ∧ (x.1 ≤ y.1 → serviceLess x.2 y.2 = false)) := by
      rw [← less_false, h]
      exact Bool.noConfusion
    rw [less_false]
    rcases Std.Total.total (r := (· ≤ ·)) x.1 y.1 with hxy | hyx
    · refine ⟨hxy, fun hyx => ?_⟩
      apply serviceLess_asymm
      by_contra hs
      exact hn ⟨hyx, fun _ => Bool.eq_false_iff.mpr hs⟩
    · by_cases hxy : x.1 ≤ y.1
      · refine ⟨hxy, fun _ => ?_⟩
        apply serviceLess_asymm
        by_contra hs
        exact hn ⟨hyx, fun _ => Bool.eq_false_iff.mpr hs⟩
      · exact absurd ⟨hyx, fun h => absurd h hxy⟩ hn
  trans {x y z} _ _ _ h1 h2 := by
    rw [less_false] at h1 h2 ⊢
    refine ⟨le_trans h2.1 h1.1, fun hxz => ?_⟩
    exact serviceLess_trans (h1.2 (le_trans hxz h2.1)) (h2.2 (le_trans h1.1 hxz))

theorem less_equal {a b : Key δ σ} (h1 : less a b = false) (h2 : less b a = false) : a.2 = b.2 := by
  rw [less_false] at h1 h2
  exact serviceLess_eq (h1.2 h2.1) (h2.2 h1.1)

/-! ## The entries -/

/-- The key of a peer finds that peer and no other. -/
theorem Files.equal (h : Files f l) {a : Filed δ σ} (he : e ∈ l) (ha : a ∈ l) (h1 : less e.1 a.1 = false)
    (h2 : less a.1 e.1 = false) : a = e := by
  have hk := less_equal h1 h2
  rw [(h.filed e he).1, (h.filed a ha).1] at hk
  exact h.unique ha he (Option.some.inj hk).symm

/-! ## The operations -/

theorem find_filed (h : Wf p) (he : e ∈ toList p.tree) : Tree.find less p.tree e.1 = [e.2] := by
  rw [Tree.find_eq less_weak h.valid.sorted]
  obtain ⟨l1, l2, hl⟩ := List.append_of_mem he
  have hn := h.files.nodup
  rw [hl, List.map_append, List.map_cons] at hn
  have other : ∀ a ∈ toList p.tree, a ≠ e → Tree.same less e.1 a.1 = false := by
    intro a ha hne
    by_contra hc
    rw [Bool.not_eq_false, Tree.same, Bool.and_eq_true, Bool.not_eq_true', Bool.not_eq_true'] at hc
    exact hne (h.files.equal he ha hc.1 hc.2)
  have hself : Tree.same less e.1 e.1 = true := by
    have hirr : less e.1 e.1 = false := by
      rw [less_false]
      refine ⟨le_refl _, fun _ => ?_⟩
      rcases hs : serviceLess e.1.2 e.1.2 with _ | _
      · rfl
      · exact absurd (serviceLess_asymm hs) (by rw [hs]; exact Bool.noConfusion)
    rw [Tree.same, hirr]
    rfl
  have h1 : l1.filter (fun a => Tree.same less e.1 a.1) = [] := by
    refine List.filter_eq_nil_iff.mpr fun a ha => Bool.not_eq_true _ ▸ other a (hl ▸ List.mem_append_left _ ha) ?_
    rintro rfl
    exact (List.nodup_append.mp hn).2.2 _ (List.mem_map_of_mem ha) _ (.head _) rfl
  have h2 : l2.filter (fun a => Tree.same less e.1 a.1) = [] := by
    refine List.filter_eq_nil_iff.mpr fun a ha =>
      Bool.not_eq_true _ ▸ other a (hl ▸ List.mem_append_right _ (.tail _ ha)) ?_
    rintro rfl
    exact (List.nodup_cons.mp (List.nodup_append.mp hn).2.1).1 (List.mem_map_of_mem ha)
  rw [hl, List.filter_append, h1, List.filter_cons, if_pos hself, h2]
  rfl

theorem get_spec (h : Wf p) (s : σ) :
    (get p s = .ok none ∧ ∀ e ∈ entries p, e.2.service ≠ s) ∨
      ∃ e ∈ entries p, e.2.service = s ∧ get p s = .ok (some e) := by
  unfold get
  rcases hl : p.lookup.lookup s with _ | d
  · refine .inl ⟨rfl, ?_⟩
    rintro ⟨d, q⟩ hm rfl
    obtain ⟨e, he, -, rfl⟩ := mem_entries.mp hm
    have hf := (h.files.filed e he).2
    rw [hl] at hf
    cases hf
  · obtain ⟨e, he, rfl⟩ := h.files.found s d hl
    have hd : e.1.1 = d := by
      have hf := (h.files.filed e he).2
      rw [hl] at hf
      exact (Option.some.inj hf).symm
    refine .inr ⟨(d, e.2), mem_entries.mpr ⟨e, he, hd, rfl⟩, rfl, ?_⟩
    have hk := h.files.key he
    rw [hd] at hk
    simp only [← hk, find_filed h he]

theorem add_spec (h : Wf p) (pos : δ) {q : StoragePeer σ} (hq : ∀ e ∈ entries p, e.2.service ≠ q.service) :
    ∃ p', add p pos q = .ok p' ∧ Wf p' ∧ (entries p').Perm ((pos, q) :: entries p) := by
  have hnone : p.lookup.lookup q.service = none :=
    h.files.none_of fun e he => hq (e.1.1, e.2) (mem_entries.mpr ⟨e, he, rfl, rfl⟩)
  have hmem : q.service ∉ p.lookup := AList.lookup_eq_none.mp hnone
  obtain ⟨hv, hperm⟩ := h.valid.insert less_weak (pos, some q.service) q
  refine ⟨⟨_, p.lookup.insert q.service pos⟩, ?_, ⟨hv, ?_⟩, hperm.map entry⟩
  · unfold add Table.add
    rw [if_neg hmem]
    rfl
  · rw [Table.lookup_insert_eq]
    exact (h.files.add _ hnone).perm hperm.symm

/-- Taking a peer's key out of the tree. -/
theorem remove_filed (h : Wf p) (he : e ∈ toList p.tree) :
    ∃ t, Tree.remove less p.tree e.1 = .ok (t, some e) ∧ Tree.Valid less t ∧ (toList p.tree).Perm (e :: toList t) := by
  obtain ⟨t, z, er, hv, hd⟩ := h.valid.step less_weak (.remove e.1)
  generalize hm : (↑(toList p.tree) : Multiset (Filed δ σ)) = m at hd
  cases hd with
  | remove _ _ b h1 h2 =>
    have hperm : (toList p.tree).Perm (b :: toList t) := Multiset.coe_eq_coe.mp hm
    have hbe : b = e := h.files.equal he (hperm.mem_iff.mpr (.head _)) h1 h2
    subst hbe
    exact ⟨t, er, hv, hperm⟩
  | missing _ _ hno =>
    have hirr : less e.1 e.1 = false := by
      rcases hs : less e.1 e.1 with _ | _
      · rfl
      · exact absurd (less_weak.asymm trivial trivial hs) (by rw [hs]; exact Bool.noConfusion)
    have hee := hno e (by rw [← hm]; exact Multiset.mem_coe.mpr he)
    rw [hirr] at hee
    rcases hee with hc | hc
    · cases hc
    · cases hc

theorem remove_spec (h : Wf p) {o : δ × StoragePeer σ} (ho : o ∈ entries p) {q : StoragePeer σ}
    (hs : o.2.service = q.service) : ∃ p', remove p q = .ok p' ∧ Wf p' ∧ (entries p).Perm (o :: entries p') := by
  obtain ⟨d, q0⟩ := o
  obtain ⟨e, he, rfl, rfl⟩ := mem_entries.mp ho
  obtain ⟨t, er, hv, hperm⟩ := remove_filed h he
  have hl := (h.files.filed e he).2
  have hs' : e.2.service = q.service := hs
  refine ⟨⟨t, p.lookup.erase q.service⟩, ?_, ⟨hv, ?_⟩, hperm.map entry⟩
  · rw [h.files.key he, hs'] at er
    unfold remove Table.remove
    rw [← hs', hl]
    rw [hs']
    simp only [bind, Except.bind, er, Except.mapError]
    rfl
  · rw [Table.lookup_erase_eq, ← hs']
    exact (h.files.perm hperm).remove

theorem update_spec (h : Wf p) {o : δ × StoragePeer σ} (ho : o ∈ entries p) (pos : δ) {q : StoragePeer σ}
    (hs : o.2.service = q.service) :
    ∃ p' rest, update p pos q = .ok p' ∧ Wf p' ∧ (entries p).Perm (o :: rest) ∧ (entries p').Perm ((pos, q) :: rest) := by
  obtain ⟨d, q0⟩ := o
  obtain ⟨e, he, rfl, rfl⟩ := mem_entries.mp ho
  obtain ⟨t, er, hv, hperm⟩ := remove_filed h he
  have hs' : e.2.service = q.service := hs
  have hl : p.lookup.lookup q.service = some e.1.1 := by rw [← hs']; exact (h.files.filed e he).2
  have hmem : q.service ∈ p.lookup := AList.lookup_isSome.mp (by rw [hl]; rfl)
  have hrest := (h.files.perm hperm).remove
  rw [hs'] at hrest
  obtain ⟨hv', hperm'⟩ := hv.insert less_weak (pos, some q.service) q
  refine ⟨⟨_, p.lookup.insert q.service pos⟩, (toList t).map entry, ?_, ⟨hv', ?_⟩,
    hperm.map entry, hperm'.map entry⟩
  · rcases get_spec h q.service with ⟨-, hno⟩ | ⟨o', ho', hos, hg⟩
    · exact absurd hs (hno _ ho)
    · have hoo := h.unique ho' ho (hos.trans hs.symm)
      subst hoo
      rw [h.files.key he, hs'] at er
      unfold update Table.update
      simp only [hg, bind, Except.bind, if_pos hmem, er, Except.mapError, Option.isSome_some, if_true]
      rfl
  · rw [Table.lookup_insert_eq]
    have hadd := hrest.add pos (q := q) (update_self ..)
    rw [update_idem] at hadd
    exact hadd.perm hperm'.symm

theorem walk_spec (h : Wf p) (range : Tree.Range (Key δ σ)) :
    walk p range = .ok (((toList p.tree).filter fun e => Tree.inRange less range e.1).map entry) := by
  unfold walk
  rw [Tree.forward, Tree.walk_collect less_weak h.valid.sorted range .forward (Nat.lt_succ_self _)]
  rfl

theorem iterator_spec (h : Wf p) : iterator p = .ok (entries p) := by
  unfold iterator
  rw [walk_spec h]
  congr 2
  exact List.filter_eq_self.mpr fun _ _ => rfl

/-- The peers from `start` on and before `stop`. -/
theorem range_spec (h : Wf p) (start stop : δ) :
    range p start stop = .ok ((entries p).filter fun e => decide (¬ e.1 < start ∧ e.1 < stop)) := by
  unfold range entries
  rw [walk_spec h, List.filter_map]
  congr 2
  apply List.filter_congr
  intro e he
  have hsome := (h.files.filed e he).1
  have h1 : less e.1 (start, none) = decide (e.1.1 < start) := by
    unfold less
    rw [hsome]
    by_cases hlt : e.1.1 < start
    · simp [hlt]
    · simp [hlt, serviceLess]
  have h2 : less e.1 (stop, none) = decide (e.1.1 < stop) := by
    unfold less
    rw [hsome]
    by_cases hlt : e.1.1 < stop
    · simp [hlt]
    · simp [hlt, serviceLess]
  simp only [Tree.inRange, Tree.tooSmall, Tree.tooBig, h1, h2, entry, Function.comp_apply]
  by_cases hstart : e.1.1 < start
  · simp [hstart]
  · by_cases hstop : e.1.1 < stop
    · simp [hstart, hstop]
    · simp [hstart, hstop]

end StoragePool

end BubbleStorm.Managed
