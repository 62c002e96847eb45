/-
  BubbleStorm.Util.Hash.HashTableMap — the operations of the cuckoo hash table are those
  of a finite map, and they end if the search for a seed does
  (see `BubbleStorm.Util.Hash.HashTable`).
-/

import Mathlib.Data.Fintype.Card
import BubbleStorm.Util.Hash.HashTableProofs

namespace BubbleStorm.Util.HashTable

open Function (update update_idem update_of_ne update_self)

variable {K α : Type} {hash : Hash K} {c : Cuckoo K α}

/-! ## Finite maps -/

/-- The bindings of a map, each once. -/
def Lists (l : List (K × α)) (M : K → Option α) : Prop := (l.map Prod.fst).Nodup ∧ ∀ k v, (k, v) ∈ l ↔ M k = some v

theorem Lists.perm {l l' : List (K × α)} {M : K → Option α} (h : Lists l M) (hperm : l.Perm l') : Lists l' M :=
  ⟨(hperm.map Prod.fst).nodup_iff.mp h.1, fun k v => hperm.mem_iff.symm.trans (h.2 k v)⟩

theorem Lists.mem_keys {l : List (K × α)} {M : K → Option α} (h : Lists l M) {k : K} : k ∈ l.map Prod.fst ↔ ∃ v, M k = some v := by
  rw [List.mem_map]
  constructor
  · rintro ⟨⟨k', v⟩, hr, rfl⟩
    exact ⟨v, (h.2 k' v).mp hr⟩
  · rintro ⟨v, hv⟩
    exact ⟨(k, v), (h.2 k v).mpr hv, rfl⟩

/-- The table holds the map's bindings. -/
def Refines (hash : Hash K) (c : Cuckoo K α) (M : K → Option α) : Prop := Wf hash c ∧ Lists (entries c.mask c.table) M

theorem refines_empty : Refines hash (emptyData : Cuckoo K α) fun _ => none := by
  refine ⟨wf_empty, ?_⟩
  have h : entries (emptyData : Cuckoo K α).mask (emptyData : Cuckoo K α).table = [] := entries_empty _
  rw [h]
  exact ⟨List.nodup_nil, fun _ _ => by simp⟩

variable {M : K → Option α}

theorem erase_spec (hw : Wf hash c) {i : Nat} {r : K × α} (hi : c.table i = some r) :
    Wf hash (erase c i) ∧ (entries c.mask c.table).Perm (r :: entries (erase c i).mask (erase c i).table) := by
  have hperm := entries_erase hw.placed hi
  have hnodup := nodup_perm hw hperm
  refine ⟨⟨hw.placed.erase i, ?_, ?_⟩, hperm⟩
  · rw [List.map_cons, List.nodup_cons] at hnodup
    exact hnodup.2
  · have hlen := hperm.length_eq
    rw [List.length_cons, ← hw.fill] at hlen
    show c.fill - 1 = _
    rw [hlen]
    rfl

theorem Refines.key (h : Refines hash c M) {k : K} (hk : k ∉ keys c) : M k = none := by
  cases hv : M k with
  | none => rfl
  | some v => exact absurd (h.2.mem_keys.mpr ⟨v, hv⟩) hk

theorem Refines.cell (h : Refines hash c M) {i : Nat} {k : K} {v : α} (hi : c.table i = some (k, v)) : M k = some v :=
  (h.2.2 k v).mp (mem_entries.mpr ⟨i, h.1.placed.le hi, hi⟩)

theorem Lists.filter {l : List (K × α)} (h : Lists l M) (select : K × α → Bool) :
    Lists (l.filter (!select ·)) fun k => (M k).filter fun v => !select (k, v) := by
  refine ⟨h.1.sublist (List.filter_sublist.map _), fun k v => ?_⟩
  rw [List.mem_filter, h.2 k v, Option.filter_eq_some_iff]

/-- In the middle of a traversal: what was visited is there unless it was selected, what
    is yet to come is as it was. -/
structure Midway (hash : Hash K) (c0 : Cuckoo K α) (select : K × α → Bool) (done todo : List Nat) (t : Traversal K α) : Prop where
  wf : Wf hash t.cuckoo
  perm : (entries t.cuckoo.mask t.cuckoo.table).Perm
    ((done.filterMap c0.table).filter (!select ·) ++ todo.filterMap c0.table)
  array : ∀ i ∈ todo, t.array i = c0.table i
  shared : t.shared = true → t.array = t.cuckoo.table
  visited : t.visited = done.filterMap c0.table

theorem filterMap_snoc {i : Nat} (l : List Nat) (f : Table K α) {r : K × α} (h : f i = some r) :
    (l ++ [i]).filterMap f = l.filterMap f ++ [r] := by
  rw [List.filterMap_append, List.filterMap_cons_some h, List.filterMap_nil]

theorem midway_start (select : K × α → Bool) (hw : Wf hash c) :
    Midway hash c select [] (List.range (c.mask.toNat + 1)) ⟨c, c.table, true, []⟩ :=
  ⟨hw, List.Perm.refl _, fun _ _ => rfl, fun _ => rfl, rfl⟩

variable [DecidableEq K]

theorem Lists.cons {l : List (K × α)} {k : K} {v : α} (h : Lists l M) (hk : k ∉ l.map Prod.fst) :
    Lists ((k, v) :: l) (update M k (some v)) := by
  refine ⟨List.nodup_cons.mpr ⟨hk, h.1⟩, fun k' v' => ?_⟩
  rw [List.mem_cons, Prod.mk.injEq]
  by_cases heq : k' = k
  · subst heq
    rw [update_self]
    constructor
    · rintro (⟨-, rfl⟩ | hmem)
      · rfl
      · exact absurd (List.mem_map.mpr ⟨_, hmem, rfl⟩) hk
    · intro hv
      exact .inl ⟨rfl, (Option.some.inj hv).symm⟩
  · rw [update_of_ne heq, ← h.2 k' v']
    exact ⟨fun hor => hor.resolve_left fun hand => heq hand.1, .inr⟩

/-- Without its binding the key is unbound. -/
theorem Lists.uncons {l : List (K × α)} {k : K} {v : α} (h : Lists ((k, v) :: l) M) : Lists l (update M k none) := by
  obtain ⟨hnodup, hmem⟩ := h
  rw [List.map_cons, List.nodup_cons] at hnodup
  refine ⟨hnodup.2, fun k' v' => ?_⟩
  by_cases heq : k' = k
  · subst heq
    rw [update_self]
    exact iff_of_false (fun h => hnodup.1 (List.mem_map.mpr ⟨_, h, rfl⟩)) (fun h => by cases h)
  · rw [update_of_ne heq, ← hmem k' v', List.mem_cons, Prod.mk.injEq]
    exact ⟨.inr, fun hor => hor.resolve_left fun hand => heq hand.1⟩

theorem Lists.replace {l : List (K × α)} {k : K} {v w : α} (h : Lists ((k, v) :: l) M) :
    Lists ((k, w) :: l) (update M k (some w)) := by
  have hnodup := h.1
  rw [List.map_cons, List.nodup_cons] at hnodup
  have := h.uncons.cons (v := w) hnodup.1
  rwa [update_idem] at this

/-- What an operation does to a map, and what it answers. -/
inductive Obs (M : K → Option α) : Op K α → Out K α → (K → Option α) → Prop
  | addExists {k : K} {v w : α} (h : M k = some w) : Obs M (.add k v) (.exn .keyExists) M
  | add {k : K} {v : α} (h : M k = none) : Obs M (.add k v) .unit (update M k (some v))
  | set {k : K} {v : α} : Obs M (.set k v) .unit (update M k (some v))
  | modify {k : K} {f : α → α} {v : α} (h : M k = some v) : Obs M (.modify k f) .unit (update M k (some (f v)))
  | modifyNone {k : K} {f : α → α} (h : M k = none) : Obs M (.modify k f) (.exn .keyDoesNotExist) M
  | remove {k : K} {v : α} (h : M k = some v) : Obs M (.remove k) (.value v) (update M k none)
  | removeNone {k : K} (h : M k = none) : Obs M (.remove k) (.exn .keyDoesNotExist) M
  | clear : Obs M .clear .unit fun _ => none
  | get {k : K} : Obs M (.get k) (.option (M k)) M
  | size {l : List (K × α)} (h : Lists l M) : Obs M .size (.size l.length) M
  | iterator {l : List (K × α)} (h : Lists l M) : Obs M .iterator (.bindings l) M
  | flush {l : List (K × α)} {select : K × α → Bool} (h : Lists l M) :
      Obs M (.flush select) (.bindings l) fun k => (M k).filter fun v => !select (k, v)

theorem find_spec (hw : Wf hash c) (k : K) :
    (∃ i v, find hash c k = some (i, v) ∧ c.table i = some (k, v)) ∨ (find hash c k = none ∧ k ∉ keys c) := by
  unfold find
  dsimp only
  cases h1 : c.table (off1 hash c.mask c.seed k) with
  | none =>
    cases h2 : c.table (off2 hash c.mask c.seed k) with
    | none => exact .inr ⟨rfl, not_mem_keys hw (fun v => by simp [h1]) (fun v => by simp [h2])⟩
    | some r2 =>
      by_cases he : r2.1 = k
      · exact .inl ⟨_, r2.2, if_pos he, by rw [h2, ← he]⟩
      · refine .inr ⟨if_neg he, not_mem_keys hw (fun v => by simp [h1]) fun v h => he ?_⟩
        rw [h2] at h
        rw [Option.some.inj h]
  | some r1 =>
    by_cases he : r1.1 = k
    · exact .inl ⟨off1 hash c.mask c.seed k, r1.2, by simp [he], by rw [h1, ← he]⟩
    · have hno1 : ∀ v, c.table (off1 hash c.mask c.seed k) ≠ some (k, v) := by
        intro v h
        rw [h1] at h
        exact he (by rw [Option.some.inj h])
      dsimp only
      rw [if_neg he]
      cases h2 : c.table (off2 hash c.mask c.seed k) with
      | none => exact .inr ⟨rfl, not_mem_keys hw hno1 fun v => by simp [h2]⟩
      | some r2 =>
        by_cases he2 : r2.1 = k
        · exact .inl ⟨_, r2.2, if_pos he2, by rw [h2, ← he2]⟩
        · refine .inr ⟨if_neg he2, not_mem_keys hw hno1 fun v h => he2 ?_⟩
          rw [h2] at h
          rw [Option.some.inj h]

theorem get_eq_find (c : Cuckoo K α) (k : K) : get hash c k = (find hash c k).map (·.2) := by
  unfold get find
  dsimp only
  cases h1 : c.table (off1 hash c.mask c.seed k) with
  | none =>
    cases h2 : c.table (off2 hash c.mask c.seed k) with
    | none => rfl
    | some r2 =>
      by_cases he : r2.1 = k
      · simp [he]
      · simp [he]
  | some r1 =>
    by_cases he : r1.1 = k
    · simp [he]
    · cases h2 : c.table (off2 hash c.mask c.seed k) with
      | none => simp [he]
      | some r2 =>
        by_cases he2 : r2.1 = k
        · simp [he, he2]
        · simp [he, he2]

theorem modify_eq_find (c : Cuckoo K α) (k : K) (f : α → α) : modify hash c k f =
    match find hash c k with
    | some (i, v) => .ok { c with table := update c.table i (some (k, f v)) }
    | none => .error .keyDoesNotExist := by
  unfold modify find
  dsimp only
  cases h1 : c.table (off1 hash c.mask c.seed k) with
  | none =>
    cases h2 : c.table (off2 hash c.mask c.seed k) with
    | none => rfl
    | some r2 =>
      by_cases he : r2.1 = k
      · simp [he]
      · simp [he]
  | some r1 =>
    by_cases he : r1.1 = k
    · simp [he]
    · cases h2 : c.table (off2 hash c.mask c.seed k) with
      | none => simp [he]
      | some r2 =>
        by_cases he2 : r2.1 = k
        · simp [he, he2]
        · simp [he, he2]

/-! ## Traversals -/

section Visit

variable {c0 : Cuckoo K α} {select : K × α → Bool} {done todo : List Nat} {i : Nat} {t : Traversal K α}

/-- A visited binding that is selected: where it is, and what the table is without it. -/
theorem visit_selected (h : Midway hash c0 select done (i :: todo) t) (hnodup : (i :: todo).Nodup) {r : K × α}
    (hi : c0.table i = some r) (hsel : select r = true) :
    ∃ j, find hash t.cuckoo r.1 = some (j, r.2) ∧ Wf hash (erase t.cuckoo j) ∧
      (entries (erase t.cuckoo j).mask (erase t.cuckoo j).table).Perm
        (((done ++ [i]).filterMap c0.table).filter (!select ·) ++ todo.filterMap c0.table) ∧
      (t.shared = true → j ∉ todo) := by
  have hperm := h.perm
  rw [List.filterMap_cons_some hi] at hperm
  have hmem : r ∈ entries t.cuckoo.mask t.cuckoo.table :=
    hperm.mem_iff.mpr (List.mem_append_right _ List.mem_cons_self)
  obtain ⟨j0, -, hj0⟩ := mem_entries.mp hmem
  obtain ⟨j, v, hfind, hj⟩ | ⟨-, hno⟩ := find_spec h.wf r.1
  · have heq := cell_unique h.wf hj hj0
    subst heq
    rw [hj0] at hj
    have hv : r.2 = v := congrArg Prod.snd (Option.some.inj hj)
    obtain ⟨hw, herase⟩ := erase_spec h.wf hj0
    refine ⟨j, hv ▸ hfind, hw, ?_, fun hshared hjtodo => ?_⟩
    · rw [filterMap_snoc done c0.table hi, List.filter_append, List.filter_cons_of_neg (by simp [hsel]), List.filter_nil,
        List.append_nil]
      exact (herase.symm.trans (hperm.trans List.perm_middle)).cons_inv
    · -- the cell is the one being visited
      have hti : t.cuckoo.table i = some r := by
        rw [← h.shared hshared, h.array i List.mem_cons_self, hi]
      have hji := cell_unique h.wf hj0 hti
      rw [List.nodup_cons] at hnodup
      exact hnodup.1 (hji ▸ hjtodo)
  · exact absurd (key_at h.wf hj0) hno

theorem visit_spec {tries : Nat} {t' : Traversal K α} (h : Midway hash c0 select done (i :: todo) t) (hnodup : (i :: todo).Nodup)
    (hv : visit hash tries select t i = some t') : Midway hash c0 select (done ++ [i]) todo t' := by
  have harray : ∀ j ∈ todo, t.array j = c0.table j := fun j hj => h.array j (List.mem_cons_of_mem _ hj)
  unfold visit at hv
  rw [h.array i List.mem_cons_self] at hv
  cases hi : c0.table i with
  | none =>
    rw [hi] at hv
    cases hv
    have hdone : (done ++ [i]).filterMap c0.table = done.filterMap c0.table := by
      rw [List.filterMap_append, List.filterMap_cons_none hi, List.filterMap_nil, List.append_nil]
    refine ⟨h.wf, ?_, harray, h.shared, hdone.symm ▸ h.visited⟩
    have hperm := h.perm
    rw [List.filterMap_cons_none hi] at hperm
    rw [hdone]
    exact hperm
  | some r =>
    rw [hi] at hv
    dsimp only at hv
    have hvisited : t.visited ++ [r] = (done ++ [i]).filterMap c0.table := by
      rw [filterMap_snoc done c0.table hi, h.visited]
    by_cases hsel : select r = true
    · obtain ⟨j, hfind, hw, hperm, hj⟩ := visit_selected h hnodup hi hsel
      have harray' : ∀ k ∈ todo, (if t.shared then update t.array j none else t.array) k = c0.table k := by
        intro k hk
        by_cases hs : t.shared = true
        · have hkj : k ≠ j := fun hkj => hj hs (hkj ▸ hk)
          rw [if_pos hs, update_of_ne hkj]
          exact harray k hk
        · rw [if_neg hs]
          exact harray k hk
      have hnsel : (!select (r.1, r.2)) = false := by
        show (!select r) = false
        rw [hsel]
        rfl
      rw [hnsel, hfind] at hv
      dsimp only at hv
      simp only [Bool.false_eq_true, if_false] at hv
      by_cases hshr : shrinks t.cuckoo = true
      · rw [if_pos hshr, Option.map_eq_some_iff] at hv
        obtain ⟨c1, hre, rfl⟩ := hv
        obtain ⟨hw1, hperm1, -⟩ := rehash_spec hw hre
        exact ⟨hw1, hperm1.symm.trans hperm, harray', fun hs => Bool.noConfusion hs, hvisited⟩
      · rw [if_neg hshr] at hv
        cases hv
        refine ⟨hw, hperm, harray', fun hs => ?_, hvisited⟩
        have hs' : t.shared = true := hs
        dsimp only
        rw [if_pos hs', h.shared hs']
        rfl
    · have hnsel : (!select (r.1, r.2)) = true := by
        show (!select r) = true
        rw [Bool.not_eq_true] at hsel
        rw [hsel]
        rfl
      rw [hnsel] at hv
      cases hv
      refine ⟨h.wf, ?_, harray, h.shared, hvisited⟩
      have hperm := h.perm
      rw [List.filterMap_cons_some hi] at hperm
      have hkeep : [r].filter (!select ·) = [r] := by simp [hsel]
      rw [filterMap_snoc done c0.table hi, List.filter_append, hkeep, List.append_assoc]
      exact hperm

theorem visits_spec {tries : Nat} {t' : Traversal K α} (h : Midway hash c0 select done todo t) (hnodup : todo.Nodup)
    (hv : todo.foldlM (visit hash tries select) t = some t') : Midway hash c0 select (done ++ todo) [] t' := by
  induction todo generalizing done t with
  | nil =>
    cases hv
    rw [List.append_nil]
    exact h
  | cons i todo ih =>
    rw [List.foldlM_cons] at hv
    cases h1 : visit hash tries select t i with
    | none =>
      rw [h1] at hv
      cases hv
    | some t1 =>
      rw [h1] at hv
      have := ih (visit_spec h hnodup h1) (List.nodup_cons.mp hnodup).2 hv
      rwa [List.append_assoc] at this

/-- A traversal visits each binding once, and leaves those it does not select. -/
theorem flush_spec {tries : Nat} {t' : Traversal K α} (hw : Wf hash c) (h : flush hash tries c select = some t') :
    Wf hash t'.cuckoo ∧ (entries t'.cuckoo.mask t'.cuckoo.table).Perm ((entries c.mask c.table).filter (!select ·)) ∧
      t'.visited = entries c.mask c.table := by
  have hm := visits_spec (midway_start select hw) List.nodup_range h
  have hperm := hm.perm
  rw [List.filterMap_nil, List.append_nil] at hperm
  exact ⟨hm.wf, hperm, hm.visited⟩

end Visit

/-! ## Steps -/

theorem loop_refines {insert : Cuckoo K α → K → α → Option (Insert K α)} {P : Insert K α → Prop} (hins : Inserts hash insert P)
    (h : Refines hash c M) {tries : Nat} {key : K} {value : α} {c' : Cuckoo K α} {e : Option Exn}
    (hl : insertLoop hash insert tries c key value = some (c', e)) :
    (P .exists ∧ (∃ w, M key = some w) ∧ e = some .keyExists ∧ Refines hash c' M) ∨
      ((∃ t, P (.replace t)) ∧ (∃ w, M key = some w) ∧ e = none ∧ Refines hash c' (update M key (some value))) ∨
      (M key = none ∧ e = none ∧ Refines hash c' (update M key (some value))) := by
  obtain ⟨hw', hlooped⟩ := loop_spec hins h.1 hl
  cases hlooped with
  | «exists» hP hk he hc =>
    subst hc
    exact .inl ⟨hP, h.2.mem_keys.mp hk, he, h⟩
  | replace t hP v rest he hold hnew =>
    have hlist := h.2.perm hold
    refine .inr (.inl ⟨⟨t, hP⟩, ⟨v, (hlist.2 key v).mp List.mem_cons_self⟩, he, hw', hlist.replace.perm hnew⟩)
  | grow hk he hnew => exact .inr (.inr ⟨h.key hk, he, hw', (h.2.cons hk).perm hnew⟩)

theorem modify_refines (h : Refines hash c M) (key : K) (f : α → α) :
    (∃ c' v, modify hash c key f = .ok c' ∧ M key = some v ∧ Refines hash c' (update M key (some (f v)))) ∨
      (modify hash c key f = .error .keyDoesNotExist ∧ M key = none) := by
  rw [modify_eq_find]
  obtain ⟨i, v, hfind, hi⟩ | ⟨hfind, hno⟩ := find_spec h.1 key
  · rw [hfind]
    refine .inl ⟨_, v, rfl, h.cell hi, ?_⟩
    have hold := entries_erase h.1.placed hi
    have hp : Placed hash c.mask c.seed (update c.table i (some (key, f v))) := h.1.placed.update (h.1.placed i (key, v) hi)
    have hnew := entries_erase hp (update_self i (some (key, f v)) c.table)
    rw [update_idem] at hnew
    have hlist := h.2.perm hold
    have hnodup := nodup_perm h.1 hold
    exact ⟨wf_of_perm hp hnew.symm hnodup (h.1.fill.trans hold.length_eq), hlist.replace.perm hnew.symm⟩
  · rw [hfind]
    exact .inr ⟨rfl, h.key hno⟩

theorem remove_refines (h : Refines hash c M) {tries : Nat} {key : K} {c' : Cuckoo K α} {r : Except Exn α}
    (hr : remove hash tries c key = some (c', r)) :
    (∃ v, r = .ok v ∧ M key = some v ∧ Refines hash c' (update M key none)) ∨
      (r = .error .keyDoesNotExist ∧ M key = none ∧ c' = c) := by
  unfold remove at hr
  obtain ⟨i, v, hfind, hi⟩ | ⟨hfind, hno⟩ := find_spec h.1 key
  · rw [hfind] at hr
    dsimp only at hr
    obtain ⟨hw, hperm⟩ := erase_spec h.1 hi
    have hlist := (h.2.perm hperm).uncons
    by_cases hs : shrinks c = true
    · rw [if_pos hs, Option.map_eq_some_iff] at hr
      obtain ⟨c1, hre, heq⟩ := hr
      cases heq
      obtain ⟨hw1, hperm1, -⟩ := rehash_spec hw hre
      exact .inl ⟨v, rfl, h.cell hi, hw1, hlist.perm hperm1⟩
    · rw [if_neg hs] at hr
      cases hr
      exact .inl ⟨v, rfl, h.cell hi, hw, hlist⟩
  · rw [hfind] at hr
    cases hr
    exact .inr ⟨rfl, h.key hno, rfl⟩

theorem get_refines (h : Refines hash c M) (key : K) : get hash c key = M key := by
  rw [get_eq_find]
  obtain ⟨i, v, hfind, hi⟩ | ⟨hfind, hno⟩ := find_spec h.1 key
  · rw [hfind, h.cell hi]
    rfl
  · rw [hfind, h.key hno]
    rfl

/-- An operation on the table is the operation on the map. -/
theorem step_refines (h : Refines hash c M) {tries : Nat} {op : Op K α} {c' : Cuckoo K α} {out : Out K α}
    (hs : step hash tries c op = some (c', out)) : ∃ M', Obs M op out M' ∧ Refines hash c' M' := by
  cases op with
  | add key value =>
    obtain ⟨⟨c1, e⟩, hl, heq⟩ := Option.map_eq_some_iff.mp hs
    cases heq
    obtain ⟨-, ⟨w, hw⟩, rfl, href⟩ | ⟨⟨t, hP⟩, -⟩ | ⟨hno, rfl, href⟩ := loop_refines (insertAdd_inserts hash) h hl
    · exact ⟨M, .addExists hw, href⟩
    · exact absurd rfl (hP t)
    · exact ⟨_, .add hno, href⟩
  | set key value =>
    obtain ⟨⟨c1, e⟩, hl, heq⟩ := Option.map_eq_some_iff.mp hs
    cases heq
    obtain ⟨hP, -⟩ | ⟨-, -, rfl, href⟩ | ⟨-, rfl, href⟩ := loop_refines (insertSet_inserts hash) h hl
    · exact absurd rfl hP
    · exact ⟨_, .set, href⟩
    · exact ⟨_, .set, href⟩
  | modify key f =>
    unfold step at hs
    dsimp only at hs
    obtain ⟨c1, v, hm, hv, href⟩ | ⟨hm, hno⟩ := modify_refines h key f
    · rw [hm] at hs
      cases hs
      exact ⟨_, .modify hv, href⟩
    · rw [hm] at hs
      cases hs
      exact ⟨M, .modifyNone hno, h⟩
  | remove key =>
    obtain ⟨⟨c1, r⟩, hr, heq⟩ := Option.map_eq_some_iff.mp hs
    obtain ⟨v, rfl, hv, href⟩ | ⟨rfl, hno, rfl⟩ := remove_refines h hr
    · cases heq
      exact ⟨_, .remove hv, href⟩
    · cases heq
      exact ⟨M, .removeNone hno, h⟩
  | clear =>
    cases hs
    exact ⟨_, .clear, refines_empty⟩
  | get key =>
    cases hs
    exact ⟨M, get_refines h key ▸ .get, h⟩
  | size =>
    cases hs
    exact ⟨M, h.1.fill ▸ .size h.2, h⟩
  | iterator =>
    cases hs
    refine ⟨M, .iterator ?_, h⟩
    rw [iterator, filterMap_cells]
    exact h.2
  | flush select =>
    obtain ⟨t', ht, heq⟩ := Option.map_eq_some_iff.mp hs
    cases heq
    obtain ⟨hw, hperm, hvisited⟩ := flush_spec h.1 ht
    refine ⟨_, .flush (hvisited.symm ▸ h.2), hw, (h.2.filter select).perm hperm.symm⟩

/-! ## The searches end -/

section Total

variable {S : K → Prop} (hf : Finds hash α S)

include hf

omit [DecidableEq K] in
theorem rehash_total (hw : Wf hash c) (hS : ∀ k ∈ keys c, S k) : ∃ N c', ∀ tries ≥ N, rehash hash tries c = some c' := by
  obtain ⟨n, hn⟩ := hf (entries c.mask c.table) hw.nodup (fun r hr => hS r.1 (List.mem_map_of_mem hr)) c.fill (.inl hw.fill)
    (c.seed + 1)
  obtain ⟨m, -, t, hre⟩ := rehash_some hn (Nat.lt_succ_self n)
  exact ⟨n + 1, _, fun tries htries => rehash_mono htries hre⟩

theorem loop_total {insert : Cuckoo K α → K → α → Option (Insert K α)} {P : Insert K α → Prop} (hins : Inserts hash insert P)
    (hw : Wf hash c) (hS : ∀ k ∈ keys c, S k) {key : K} (hkey : S key) (value : α) :
    ∃ tries r, insertLoop hash insert tries c key value = some r := by
  by_cases hk : key ∈ keys c
  · obtain ⟨o, ho, hi, -⟩ := (hins c key value hw).1
    refine ⟨0, ?_⟩
    unfold insertLoop
    rw [ho]
    cases hi with
    | «exists» hk => exact ⟨_, rfl⟩
    | replace hp hold hnew => exact ⟨_, rfl⟩
    | grow hno hp hnew => exact absurd hk hno
    | overflow hno hp hsame => exact absurd hk hno
  · have hS' : ∀ r ∈ (key, value) :: entries c.mask c.table, S r.1 := by
      intro r hr
      obtain rfl | hr := List.mem_cons.mp hr
      · exact hkey
      · exact hS r.1 (List.mem_map_of_mem hr)
    obtain ⟨n, hn⟩ := hf ((key, value) :: entries c.mask c.table) (List.nodup_cons.mpr ⟨hk, hw.nodup⟩) hS' c.fill
      (.inr (by rw [List.length_cons, ← hw.fill])) (c.seed + 1)
    exact ⟨n + 1, loop_some hins hw hk hn (Nat.lt_succ_self n)⟩

theorem remove_total (hw : Wf hash c) (hS : ∀ k ∈ keys c, S k) (key : K) : ∃ tries r, remove hash tries c key = some r := by
  unfold remove
  obtain ⟨i, v, hfind, hi⟩ | ⟨hfind, -⟩ := find_spec hw key
  · obtain ⟨hwe, hperm⟩ := erase_spec hw hi
    have hSe : ∀ k ∈ keys (erase c i), S k := fun k hk => hS k ((hperm.map Prod.fst).mem_iff.mpr (List.mem_cons_of_mem _ hk))
    obtain ⟨N, c', hre⟩ := rehash_total hf hwe hSe
    refine ⟨N, ?_⟩
    rw [hfind]
    dsimp only
    split
    · rw [hre N (Nat.le_refl N)]
      exact ⟨_, rfl⟩
    · exact ⟨_, rfl⟩
  · exact ⟨0, _, by rw [hfind]⟩

variable {c0 : Cuckoo K α} {select : K × α → Bool} {done todo : List Nat} {i : Nat} {t : Traversal K α}

theorem visit_total (hS : ∀ k ∈ keys c0, S k) (hsub : ∀ j ∈ done ++ i :: todo, j ≤ c0.mask.toNat)
    (h : Midway hash c0 select done (i :: todo) t) (hnodup : (i :: todo).Nodup) :
    ∃ N t', ∀ tries ≥ N, visit hash tries select t i = some t' := by
  unfold visit
  rw [h.array i List.mem_cons_self]
  cases hi : c0.table i with
  | none => exact ⟨0, _, fun _ _ => rfl⟩
  | some r =>
    dsimp only
    by_cases hsel : select r = true
    · obtain ⟨j, hfind, hw, hperm, -⟩ := visit_selected h hnodup hi hsel
      -- what is left was there at the beginning
      have hSe : ∀ k ∈ keys (erase t.cuckoo j), S k := by
        intro k hk
        obtain ⟨x, hx, rfl⟩ := List.mem_map.mp hk
        have hx := hperm.mem_iff.mp hx
        rw [List.mem_append, List.mem_filter, List.mem_filterMap, List.mem_filterMap] at hx
        obtain ⟨⟨a, ha, hax⟩, -⟩ | ⟨a, ha, hax⟩ := hx
        · refine hS _ (mem_keys.mpr ⟨a, hsub a ?_, x.2, hax⟩)
          obtain ha | ha := List.mem_append.mp ha
          · exact List.mem_append_left _ ha
          · exact List.mem_append_right _ (List.mem_singleton.mp ha ▸ List.mem_cons_self)
        · exact hS _ (mem_keys.mpr ⟨a, hsub a (List.mem_append_right _ (List.mem_cons_of_mem _ ha)), x.2, hax⟩)
      obtain ⟨N, c', hre⟩ := rehash_total hf hw hSe
      have hnsel : (!select (r.1, r.2)) = false := by
        show (!select r) = false
        rw [hsel]
        rfl
      rw [hnsel, hfind]
      simp only [Bool.false_eq_true, if_false]
      by_cases hshr : shrinks t.cuckoo = true
      · refine ⟨N, ⟨c', if t.shared then update t.array j none else t.array, false, t.visited ++ [(r.1, r.2)]⟩,
          fun tries htries => ?_⟩
        rw [if_pos hshr, hre tries htries]
        rfl
      · exact ⟨0, _, fun _ _ => if_neg hshr⟩
    · have hnsel : (!select (r.1, r.2)) = true := by
        show (!select r) = true
        rw [Bool.not_eq_true] at hsel
        rw [hsel]
        rfl
      rw [hnsel]
      exact ⟨0, _, fun _ _ => rfl⟩

theorem visits_total (hS : ∀ k ∈ keys c0, S k) (hsub : ∀ j ∈ done ++ todo, j ≤ c0.mask.toNat)
    (h : Midway hash c0 select done todo t) (hnodup : todo.Nodup) :
    ∃ N t', ∀ tries ≥ N, todo.foldlM (visit hash tries select) t = some t' := by
  induction todo generalizing done t with
  | nil => exact ⟨0, t, fun _ _ => rfl⟩
  | cons i todo ih =>
    obtain ⟨N1, t1, h1⟩ := visit_total hf hS hsub h hnodup
    have hsub' : ∀ j ∈ (done ++ [i]) ++ todo, j ≤ c0.mask.toNat := by
      intro j hj
      rw [List.append_assoc] at hj
      exact hsub j hj
    obtain ⟨N2, t2, h2⟩ := ih hsub' (visit_spec h hnodup (h1 N1 (Nat.le_refl N1))) (List.nodup_cons.mp hnodup).2
    refine ⟨max N1 N2, t2, fun tries htries => ?_⟩
    rw [List.foldlM_cons, h1 tries (le_trans (le_max_left N1 N2) htries)]
    exact h2 tries (le_trans (le_max_right N1 N2) htries)

theorem flush_total (hw : Wf hash c) (hS : ∀ k ∈ keys c, S k) (select : K × α → Bool) :
    ∃ tries r, flush hash tries c select = some r := by
  have hsub : ∀ j ∈ [] ++ List.range (c.mask.toNat + 1), j ≤ c.mask.toNat := by
    intro j hj
    rw [List.nil_append, List.mem_range] at hj
    omega
  obtain ⟨N, t', h⟩ := visits_total hf hS hsub (midway_start select hw) List.nodup_range
  exact ⟨N, t', h N (Nat.le_refl N)⟩

end Total

/-! ## Runs -/

/-- The key an operation may add. -/
def Op.key? : Op K α → Option K
  | .add key _ => some key
  | .set key _ => some key
  | _ => none

theorem step_total {S : K → Prop} (hf : Finds hash α S) (h : Refines hash c M) (hS : ∀ k v, M k = some v → S k) {op : Op K α}
    (hkey : ∀ k, op.key? = some k → S k) : ∃ tries r, step hash tries c op = some r := by
  have hkeys : ∀ k ∈ keys c, S k := by
    intro k hk
    obtain ⟨v, hv⟩ := h.2.mem_keys.mp hk
    exact hS k v hv
  cases op with
  | add key value =>
    obtain ⟨tries, r, hr⟩ := loop_total hf (insertAdd_inserts hash) h.1 hkeys (hkey key rfl) value
    exact ⟨tries, _, Option.map_eq_some_iff.mpr ⟨r, hr, rfl⟩⟩
  | set key value =>
    obtain ⟨tries, r, hr⟩ := loop_total hf (insertSet_inserts hash) h.1 hkeys (hkey key rfl) value
    exact ⟨tries, _, Option.map_eq_some_iff.mpr ⟨r, hr, rfl⟩⟩
  | modify key f =>
    unfold step
    dsimp only
    cases modify hash c key f with
    | ok c' => exact ⟨0, _, rfl⟩
    | error e => exact ⟨0, _, rfl⟩
  | remove key =>
    obtain ⟨tries, r, hr⟩ := remove_total hf h.1 hkeys key
    exact ⟨tries, _, Option.map_eq_some_iff.mpr ⟨r, hr, rfl⟩⟩
  | clear => exact ⟨0, _, rfl⟩
  | get key => exact ⟨0, _, rfl⟩
  | size => exact ⟨0, _, rfl⟩
  | iterator => exact ⟨0, _, rfl⟩
  | flush select =>
    obtain ⟨tries, r, hr⟩ := flush_total hf h.1 hkeys select
    exact ⟨tries, _, Option.map_eq_some_iff.mpr ⟨r, hr, rfl⟩⟩

/-- Operations one after the other. Each tries seeds for as long as it takes. -/
inductive Runs (hash : Hash K) : Cuckoo K α → List (Op K α) → List (Out K α) → Cuckoo K α → Prop
  | nil {c : Cuckoo K α} : Runs hash c [] [] c
  | cons {c c' c'' : Cuckoo K α} {op : Op K α} {ops : List (Op K α)} {out : Out K α} {outs : List (Out K α)} (tries : Nat)
      (h : step hash tries c op = some (c', out)) (hr : Runs hash c' ops outs c'') : Runs hash c (op :: ops) (out :: outs) c''

inductive ObsRun : (K → Option α) → List (Op K α) → List (Out K α) → (K → Option α) → Prop
  | nil {M : K → Option α} : ObsRun M [] [] M
  | cons {M M' M'' : K → Option α} {op : Op K α} {ops : List (Op K α)} {out : Out K α} {outs : List (Out K α)}
      (h : Obs M op out M') (hr : ObsRun M' ops outs M'') : ObsRun M (op :: ops) (out :: outs) M''

theorem run_refines (h : Refines hash c M) {ops : List (Op K α)} {outs : List (Out K α)} {c' : Cuckoo K α}
    (hr : Runs hash c ops outs c') : ∃ M', ObsRun M ops outs M' ∧ Refines hash c' M' := by
  induction hr generalizing M with
  | nil => exact ⟨M, .nil, h⟩
  | cons tries hs hr ih =>
    obtain ⟨M1, hobs, h1⟩ := step_refines h hs
    obtain ⟨M2, hrun, h2⟩ := ih h1
    exact ⟨M2, .cons hobs hrun, h2⟩

/-- A key that is bound was bound before, or is the operation's. -/
theorem obs_keys {M' : K → Option α} {op : Op K α} {out : Out K α} (h : Obs M op out M') {k : K} {v : α}
    (hv : M' k = some v) : (∃ w, M k = some w) ∨ op.key? = some k := by
  have hupd : ∀ {k' : K} {x : Option α}, update M k' x k = some v → (∃ w, M k = some w) ∨ k' = k := by
    intro k' x hx
    by_cases he : k = k'
    · exact .inr he.symm
    · rw [update_of_ne he] at hx
      exact .inl ⟨v, hx⟩
  cases h with
  | addExists => exact .inl ⟨v, hv⟩
  | add => exact (hupd hv).imp_right (congrArg some)
  | set => exact (hupd hv).imp_right (congrArg some)
  | modify hm =>
    obtain h | rfl := hupd hv
    · exact .inl h
    · exact .inl ⟨_, hm⟩
  | modifyNone => exact .inl ⟨v, hv⟩
  | remove hm =>
    obtain h | rfl := hupd hv
    · exact .inl h
    · exact .inl ⟨_, hm⟩
  | removeNone => exact .inl ⟨v, hv⟩
  | clear => cases hv
  | get => exact .inl ⟨v, hv⟩
  | size => exact .inl ⟨v, hv⟩
  | iterator => exact .inl ⟨v, hv⟩
  | flush =>
    obtain ⟨h, -⟩ := Option.filter_eq_some_iff.mp hv
    exact .inl ⟨v, h⟩

theorem run_total {S : K → Prop} (hf : Finds hash α S) {ops : List (Op K α)} (h : Refines hash c M)
    (hS : ∀ k v, M k = some v → S k) (hkeys : ∀ op ∈ ops, ∀ k, op.key? = some k → S k) : ∃ outs c', Runs hash c ops outs c' := by
  induction ops generalizing c M with
  | nil => exact ⟨[], c, .nil⟩
  | cons op ops ih =>
    obtain ⟨tries, ⟨c1, out⟩, hs⟩ := step_total hf h hS (hkeys op List.mem_cons_self)
    obtain ⟨M1, hobs, h1⟩ := step_refines h hs
    have hS1 : ∀ k v, M1 k = some v → S k := by
      intro k v hv
      obtain ⟨w, hw⟩ | hk := obs_keys hobs hv
      · exact hS k w hw
      · exact hkeys op List.mem_cons_self k hk
    obtain ⟨outs, c2, hr⟩ := ih h1 hS1 fun op hop => hkeys op (List.mem_cons_of_mem _ hop)
    exact ⟨out :: outs, c2, .cons tries hs hr⟩

/-- Whatever is done with a table, it ends, and it is what is done with a map; and a
    displaced record always finds a place in the end, or the new one is left over. -/
theorem refines_map (hash : Hash K) (ops : List (Op K α)) (hf : Finds hash α fun k => ∃ op ∈ ops, op.key? = some k) :
    (∃ outs c, Runs hash emptyData ops outs c) ∧
      (∀ outs c, Runs hash emptyData ops outs c → ∃ M, ObsRun (fun _ => none) ops outs M ∧ Refines hash c M) ∧
      ∀ mask seed (t : Table K α) o r old, Placed hash mask seed t → t o = some old →
        (o = off1 hash mask seed r.1 ∨ o = off2 hash mask seed r.1) →
        ∃ t' res, shove hash mask seed (update t o (some r)) o (some old) = some (t', res) ∧ Placed hash mask seed t' ∧
          (r :: entries mask t).Perm (res.toList ++ entries mask t') ∧ (res = none ∨ res = some r) := by
  refine ⟨?_, fun outs c hr => run_refines refines_empty hr, fun mask seed t o r old hp hold hr => displaced hp hold hr⟩
  exact run_total hf refines_empty (fun _ _ h => by cases h) fun op hop k hk => ⟨op, hop, hk⟩

/-- Two keys, each with a place of its own. -/
def apart (b : Bool) (_ : BitVec 32) : BitVec 32 × BitVec 32 := if b then (1, 1) else (0, 0)

theorem places_apart {mask seed : BitVec 32} {l : List (Bool × α)} (hnodup : (l.map Prod.fst).Nodup)
    (hmask : l.length = 2 → mask &&& 1 = 1) : Places apart mask seed l := by
  intro l' hperm
  have hnodup' := (hperm.map Prod.fst).nodup_iff.mpr hnodup
  have hlen := List.Nodup.length_le_card hnodup'
  rw [List.length_map, Fintype.card_bool] at hlen
  match l', hlen with
  | [], _ => exact ⟨_, rfl⟩
  | [a], _ => exact ⟨_, rfl⟩
  | [a, b], _ =>
    have hmask := hmask hperm.length_eq.symm
    have hne : a.1 ≠ b.1 := by simpa using hnodup'
    have hoff : off2 apart mask seed b.1 ≠ off2 apart mask seed a.1 := by
      unfold off2 address apart
      cases ha : a.1 <;> cases hb : b.1 <;> rw [ha, hb] at hne <;> simp_all [BitVec.and_comm]
    refine ⟨update (update (fun _ => none) (off2 apart mask seed a.1) (some a)) (off2 apart mask seed b.1) (some b), ?_⟩
    show (rawadd apart mask seed (update (fun _ => none) (off2 apart mask seed a.1) (some a)) b).bind some = _
    rw [rawadd, update_of_ne hoff]
    rfl

theorem finds_apart (S : Bool → Prop) : Finds apart Nat S := by
  intro l hnodup _ fill hfill seed
  refine ⟨0, places_apart hnodup fun hlen => ?_⟩
  obtain rfl | rfl : fill = 2 ∨ fill = 1 := by omega
  · decide
  · decide

/-- A binding is added, and removed by a traversal. -/
def addFlush : List (Op Bool Nat) := [.add true 5, .add false 6, .flush fun r => r.1, .size]

theorem refines_map_example :
    (∃ outs c, Runs apart emptyData addFlush outs c) ∧
      (∀ outs c, Runs apart emptyData addFlush outs c → ∃ M, ObsRun (fun _ => none) addFlush outs M ∧ Refines apart c M) ∧
      ∀ mask seed (t : Table Bool Nat) o r old, Placed apart mask seed t → t o = some old →
        (o = off1 apart mask seed r.1 ∨ o = off2 apart mask seed r.1) →
        ∃ t' res, shove apart mask seed (update t o (some r)) o (some old) = some (t', res) ∧ Placed apart mask seed t' ∧
          (r :: entries mask t).Perm (res.toList ++ entries mask t') ∧ (res = none ∨ res = some r) :=
  refines_map apart addFlush (finds_apart _)

end BubbleStorm.Util.HashTable
