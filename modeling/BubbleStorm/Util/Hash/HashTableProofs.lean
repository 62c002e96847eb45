/-
  BubbleStorm.Util.Hash.HashTableProofs — the cuckoo hash table is a finite map
  (see `BubbleStorm.Util.Hash.HashTable`).

  Every record is in one of the two places of its key (`Placed`), and every write of a
  cell is an exchange of what it held (`entries_update`), so a record is in the table or
  in the hand, once. `shove` goes from cell to cell; when it comes to a cell it was at
  before, it goes back the way it came (`store_back`), and leaves the table as it found it
  but for the new record in its hand.
-/

import Mathlib.Data.List.Perm.Basic
import Mathlib.Data.List.Nodup
import Mathlib.Data.List.Range
import BubbleStorm.Util.Hash.HashTable

namespace BubbleStorm.Util.HashTable

open BitVec (ofNat)
open Function (update update_idem update_of_ne update_self)

variable {K α : Type} {hash : Hash K} {mask seed : BitVec 32} {t : Table K α} {c : Cuckoo K α}

/-! ## Entries -/

/-- The records of a table, in the order of their cells. -/
def entries (mask : BitVec 32) (t : Table K α) : List (K × α) := (List.range (mask.toNat + 1)).filterMap t

theorem filterMap_cells (mask : BitVec 32) (t : Table K α) : (cells mask t).filterMap id = entries mask t := by
  rw [cells, List.filterMap_map]
  rfl

theorem filterMap_update {l : List Nat} (hl : l.Nodup) {i : Nat} (hi : i ∈ l) (t : Table K α) (x : Option (K × α)) :
    (x.toList ++ l.filterMap t).Perm ((t i).toList ++ l.filterMap (update t i x)) := by
  have toList_eq : ∀ (j : Nat) (r : List Nat) (f : Table K α), (j :: r).filterMap f = (f j).toList ++ r.filterMap f := by
    intro j r f
    rw [List.filterMap_cons]
    cases f j <;> rfl
  induction l with
  | nil => cases hi
  | cons j r ih =>
    rw [List.nodup_cons] at hl
    rw [toList_eq, toList_eq]
    by_cases h : j = i
    · subst h
      have hr : r.filterMap (update t j x) = r.filterMap t := by
        refine List.filterMap_congr fun k hk => ?_
        rw [update_of_ne]
        exact fun hkj => hl.1 (hkj ▸ hk)
      rw [hr, update_self]
      exact List.perm_append_comm_assoc _ _ _
    · have hi' : i ∈ r := (List.mem_cons.mp hi).resolve_left (Ne.symm h)
      rw [update_of_ne h]
      refine (List.perm_append_comm_assoc _ _ _).trans ?_
      exact ((ih hl.2 hi').append_left _).trans (List.perm_append_comm_assoc _ _ _)

/-- What is written into a cell takes the place of what was there. -/
theorem entries_update {i : Nat} (hi : i ≤ mask.toNat) (t : Table K α) (x : Option (K × α)) :
    (x.toList ++ entries mask t).Perm ((t i).toList ++ entries mask (update t i x)) :=
  filterMap_update List.nodup_range (List.mem_range.mpr (by omega)) t x

theorem mem_entries {r : K × α} : r ∈ entries mask t ↔ ∃ i ≤ mask.toNat, t i = some r := by
  unfold entries
  rw [List.mem_filterMap]
  constructor
  · rintro ⟨i, hi, h⟩
    rw [List.mem_range] at hi
    exact ⟨i, by omega, h⟩
  · rintro ⟨i, hi, h⟩
    exact ⟨i, List.mem_range.mpr (by omega), h⟩

/-! ## Places -/

/-- Every record is at one of its two places. -/
def Placed (hash : Hash K) (mask seed : BitVec 32) (t : Table K α) : Prop :=
  ∀ i r, t i = some r → i = off1 hash mask seed r.1 ∨ i = off2 hash mask seed r.1

theorem address_le (k mask : BitVec 32) : address k mask ≤ mask.toNat := by
  unfold address
  rw [BitVec.toNat_and]
  exact Nat.and_le_right

theorem off_le {i : Nat} {k : K} (h : i = off1 hash mask seed k ∨ i = off2 hash mask seed k) : i ≤ mask.toNat := by
  obtain rfl | rfl := h
  · exact address_le _ _
  · exact address_le _ _

theorem Placed.le (hp : Placed hash mask seed t) {i : Nat} {r : K × α} (h : t i = some r) : i ≤ mask.toNat :=
  off_le (hp i r h)

theorem Placed.update (hp : Placed hash mask seed t) {i : Nat} {r : K × α}
    (hr : i = off1 hash mask seed r.1 ∨ i = off2 hash mask seed r.1) : Placed hash mask seed (update t i (some r)) := by
  intro j x hx
  by_cases h : j = i
  · subst h
    rw [update_self] at hx
    cases hx
    exact hr
  · rw [update_of_ne h] at hx
    exact hp j x hx

theorem Placed.erase (hp : Placed hash mask seed t) (i : Nat) : Placed hash mask seed (Function.update t i none) := by
  intro j x hx
  by_cases h : j = i
  · subst h
    rw [update_self] at hx
    cases hx
  · rw [update_of_ne h] at hx
    exact hp j x hx

theorem placed_empty (hash : Hash K) (mask seed : BitVec 32) : Placed hash mask seed (fun _ => none : Table K α) := fun _ _ h => by cases h

theorem alternative_place (hash : Hash K) (mask seed : BitVec 32) (p : Nat) (k : K) :
    alternative hash mask seed p k = off1 hash mask seed k ∨ alternative hash mask seed p k = off2 hash mask seed k := by
  unfold alternative
  split
  · exact .inr rfl
  · exact .inl rfl

/-- The other place of the other place. -/
theorem alternative_back {p : Nat} {k : K} (h : p = off1 hash mask seed k ∨ p = off2 hash mask seed k) :
    alternative hash mask seed (alternative hash mask seed p k) k = p := by
  unfold alternative
  by_cases h2 : off2 hash mask seed k = p
  · rw [if_neg (not_not.mpr h2)]
    by_cases h1 : off2 hash mask seed k = off1 hash mask seed k
    · rw [if_neg (not_not.mpr h1), ← h1, h2]
    · rw [if_pos h1, h2]
  · have h1 : p = off1 hash mask seed k := h.resolve_right (Ne.symm h2)
    rw [if_pos h2, if_neg (not_not.mpr rfl), h1]

/-! ## Shoving -/

/-- Nothing is lost or doubled, and what is left over is the record at `origoff`. -/
theorem store_spec {orig n prev : Nat} {hand res : Option (K × α)} {t t' : Table K α} {r0 : K × α}
    (hp : Placed hash mask seed t) (h0 : t orig = some r0) (h : store hash mask seed orig n t prev hand = some (t', res)) :
    Placed hash mask seed t' ∧ (hand.toList ++ entries mask t).Perm (res.toList ++ entries mask t') ∧
      (res = none ∨ res = some r0) := by
  induction n generalizing t prev hand with
  | zero =>
    cases hand with
    | none =>
      cases h
      exact ⟨hp, List.Perm.refl _, .inl rfl⟩
    | some r => cases h
  | succ n ih =>
    cases hand with
    | none =>
      cases h
      exact ⟨hp, List.Perm.refl _, .inl rfl⟩
    | some r =>
      have hplace := alternative_place hash mask seed prev r.1
      have hupd := entries_update (off_le hplace) t (some r)
      have hp' := hp.update hplace
      unfold store at h
      dsimp only at h
      split at h
      · rename_i heq
        cases h
        refine ⟨hp', hupd, .inr ?_⟩
        rw [heq]
        exact h0
      · rename_i hne
        obtain ⟨h1, h2, h3⟩ := ih hp' (by rw [update_of_ne (Ne.symm hne)]; exact h0) h
        exact ⟨h1, hupd.trans h2, h3⟩

/-- The cells it came by, the last one first: the record in each goes to the one before. -/
def Trail (hash : Hash K) (mask seed : BitVec 32) (t : Table K α) : List Nat → Prop
  | [] => True
  | [_] => True
  | i :: p :: rest => (∃ r, t i = some r ∧ alternative hash mask seed i r.1 = p) ∧ Trail hash mask seed t (p :: rest)

theorem trail_update {path : List Nat} {i : Nat} {x : Option (K × α)} (h : Trail hash mask seed t path) (hi : i ∉ path) :
    Trail hash mask seed (update t i x) path := by
  induction path with
  | nil => trivial
  | cons j rest ih =>
    cases rest with
    | nil => trivial
    | cons p rest =>
      obtain ⟨⟨r, hr, halt⟩, h⟩ := h
      have hj : j ≠ i := fun hji => hi (hji ▸ List.mem_cons_self)
      refine ⟨⟨r, ?_, halt⟩, ih h fun hmem => hi (List.mem_cons_of_mem _ hmem)⟩
      rw [update_of_ne hj]
      exact hr

/-- Back along the trail, to where it began. -/
theorem store_back {orig n prev p : Nat} {rest : List Nat} {r : K × α} (htrail : Trail hash mask seed t (p :: rest))
    (hnodup : (p :: rest).Nodup) (hlast : (p :: rest).getLast? = some orig) (halt : alternative hash mask seed prev r.1 = p)
    (hn : (p :: rest).length ≤ n) : ∃ res, store hash mask seed orig n t prev (some r) = some res := by
  induction rest generalizing t n prev p r with
  | nil =>
    obtain ⟨n, rfl⟩ : ∃ m, n = m + 1 := ⟨n - 1, by simp at hn; omega⟩
    have heq : p = orig := by simpa using hlast
    unfold store
    rw [halt, if_pos heq]
    exact ⟨_, rfl⟩
  | cons q rest ih =>
    obtain ⟨n, rfl⟩ : ∃ m, n = m + 1 := ⟨n - 1, by simp at hn; omega⟩
    rw [List.nodup_cons] at hnodup
    have hlast' : (q :: rest).getLast? = some orig := by rwa [List.getLast?_cons_cons] at hlast
    have hne : p ≠ orig := fun heq => hnodup.1 (heq ▸ List.mem_of_getLast? hlast')
    obtain ⟨⟨x, hx, hxalt⟩, htrail⟩ := htrail
    unfold store
    rw [halt, if_neg hne, hx]
    refine ih (trail_update htrail hnodup.1) hnodup.2 hlast' hxalt ?_
    simp only [List.length_cons] at hn ⊢
    omega

theorem length_le_of_nodup {l : List Nat} {m : Nat} (hl : l.Nodup) (h : ∀ x ∈ l, x ≤ m) : l.length ≤ m + 1 := by
  have hsub : l.Subperm (List.range (m + 1)) := List.subperm_of_subset hl fun x hx => List.mem_range.mpr (by have := h x hx; omega)
  have := hsub.length_le
  rwa [List.length_range] at this

theorem trail_suffix {pre rest : List Nat} {i : Nat} (h : Trail hash mask seed t (pre ++ i :: rest)) :
    Trail hash mask seed t (i :: rest) := by
  induction pre with
  | nil => exact h
  | cons j pre ih =>
    refine ih ?_
    cases pre with
    | nil => exact h.2
    | cons q pre => exact h.2

theorem store_some {orig n cur : Nat} {rest : List Nat} {r : K × α} (hp : Placed hash mask seed t)
    (htrail : Trail hash mask seed t (cur :: rest)) (hnodup : (cur :: rest).Nodup) (hle : ∀ i ∈ cur :: rest, i ≤ mask.toNat)
    (hlast : (cur :: rest).getLast? = some orig) (hr : cur = off1 hash mask seed r.1 ∨ cur = off2 hash mask seed r.1)
    (hn : 2 * (mask.toNat + 1) + 2 ≤ n + (cur :: rest).length) :
    ∃ res, store hash mask seed orig n t cur (some r) = some res := by
  have hlen := length_le_of_nodup hnodup hle
  induction n generalizing t cur rest r with
  | zero => omega
  | succ n ih =>
    have hplace := alternative_place hash mask seed cur r.1
    unfold store
    dsimp only
    split
    · exact ⟨_, rfl⟩
    · rename_i hne
      cases hx : t (alternative hash mask seed cur r.1) with
      | none =>
        unfold store
        exact ⟨_, rfl⟩
      | some x =>
        by_cases hmem : alternative hash mask seed cur r.1 ∈ cur :: rest
        · -- it was here before
          obtain ⟨pre, suf, hsplit⟩ := List.append_of_mem hmem
          have htrail' := trail_suffix (hsplit ▸ htrail)
          have hnodup' : (alternative hash mask seed cur r.1 :: suf).Nodup :=
            (hsplit ▸ hnodup).sublist (List.sublist_append_right _ _)
          have hlen' : (alternative hash mask seed cur r.1 :: suf).length ≤ (cur :: rest).length := by
            rw [hsplit]
            exact (List.sublist_append_right _ _).length_le
          have hlast' : (alternative hash mask seed cur r.1 :: suf).getLast? = some orig := by
            rw [hsplit, List.getLast?_append_of_ne_nil _ (List.cons_ne_nil _ _)] at hlast
            exact hlast
          rw [List.nodup_cons] at hnodup'
          cases suf with
          | nil => exact absurd (by simpa using hlast') hne
          | cons q suf =>
            obtain ⟨⟨y, hy, hyalt⟩, htrail'⟩ := htrail'
            rw [hx] at hy
            cases hy
            refine store_back (trail_update htrail' hnodup'.1) hnodup'.2 ?_ hyalt ?_
            · rwa [List.getLast?_cons_cons] at hlast'
            · simp only [List.length_cons] at hlen' hn hlen ⊢
              omega
        · have hnodup' := List.nodup_cons.mpr ⟨hmem, hnodup⟩
          have hle' : ∀ i ∈ alternative hash mask seed cur r.1 :: cur :: rest, i ≤ mask.toNat := by
            intro i hi
            obtain rfl | hi := List.mem_cons.mp hi
            · exact off_le hplace
            · exact hle i hi
          have htrail' : Trail hash mask seed (update t (alternative hash mask seed cur r.1) (some r))
              (alternative hash mask seed cur r.1 :: cur :: rest) :=
            ⟨⟨r, update_self .., alternative_back hr⟩, trail_update htrail hmem⟩
          refine ih (hp.update hplace) htrail' hnodup' hle' (by rw [List.getLast?_cons_cons]; exact hlast) (hp _ x hx) ?_ (length_le_of_nodup hnodup' hle')
          simp only [List.length_cons] at hn ⊢
          omega

theorem shove_some {orig : Nat} {r : K × α} (hp : Placed hash mask seed t)
    (hr : orig = off1 hash mask seed r.1 ∨ orig = off2 hash mask seed r.1) :
    ∃ res, shove hash mask seed t orig (some r) = some res := by
  have htrail : Trail hash mask seed t [orig] := trivial
  refine store_some hp htrail (List.nodup_singleton orig) ?_ rfl hr ?_
  · intro i hi
    rw [List.mem_singleton] at hi
    rw [hi]
    exact off_le hr
  · simp

/-- A record `r` is put where `old` was: it stays, or it is what is left over. -/
theorem displaced {o : Nat} {r old : K × α} (hp : Placed hash mask seed t) (hold : t o = some old)
    (hr : o = off1 hash mask seed r.1 ∨ o = off2 hash mask seed r.1) :
    ∃ t' res, shove hash mask seed (update t o (some r)) o (some old) = some (t', res) ∧ Placed hash mask seed t' ∧
      (r :: entries mask t).Perm (res.toList ++ entries mask t') ∧ (res = none ∨ res = some r) := by
  have hp' := hp.update hr
  have hplace := hp o old hold
  obtain ⟨⟨t', res⟩, h⟩ := shove_some hp' (r := old) hplace
  obtain ⟨h1, h2, h3⟩ := store_spec hp' (update_self ..) h
  have hupd := entries_update (off_le hr) t (some r)
  rw [hold] at hupd
  exact ⟨t', res, h, h1, hupd.trans h2, h3⟩

/-! ## Rehashing -/

theorem rawadd_spec (hp : Placed hash mask seed t) (r : K × α) : ∃ t' res, rawadd hash mask seed t r = some (t', res) ∧
    Placed hash mask seed t' ∧ (r :: entries mask t).Perm (res.toList ++ entries mask t') ∧ (res = none ∨ res = some r) := by
  have hgrow : ∀ {o : Nat}, (o = off1 hash mask seed r.1 ∨ o = off2 hash mask seed r.1) → t o = none →
      Placed hash mask seed (update t o (some r)) ∧ (r :: entries mask t).Perm (entries mask (update t o (some r))) := by
    intro o ho hnone
    have hupd := entries_update (off_le ho) t (some r)
    rw [hnone] at hupd
    exact ⟨hp.update ho, hupd⟩
  unfold rawadd
  dsimp only
  cases h2 : t (off2 hash mask seed r.1) with
  | none =>
    obtain ⟨h1, h3⟩ := hgrow (.inr rfl) h2
    exact ⟨_, none, rfl, h1, h3, .inl rfl⟩
  | some x =>
    cases h1 : t (off1 hash mask seed r.1) with
    | none =>
      obtain ⟨h1, h3⟩ := hgrow (.inl rfl) h1
      exact ⟨_, none, rfl, h1, h3, .inl rfl⟩
    | some old => exact displaced hp h1 (.inl rfl)

theorem copy_left (l : List (Option (K × α))) (t : Table K α) (x : K × α) :
    l.foldlM (copy hash mask seed) (t, some x) = some (t, some x) := by
  induction l with
  | nil => rfl
  | cons y l ih =>
    rw [List.foldlM_cons]
    cases y with
    | none => exact ih
    | some y => exact ih

theorem copies_spec (hp : Placed hash mask seed t) (l : List (Option (K × α))) :
    ∃ t' res, l.foldlM (copy hash mask seed) (t, none) = some (t', res) ∧ Placed hash mask seed t' ∧
      (res = none → (l.filterMap id ++ entries mask t).Perm (entries mask t')) := by
  induction l generalizing t with
  | nil => exact ⟨t, none, rfl, hp, fun _ => List.Perm.refl _⟩
  | cons y l ih =>
    rw [List.foldlM_cons]
    cases y with
    | none => exact ih hp
    | some r =>
      obtain ⟨t1, res, h1, hp1, hperm, -⟩ := rawadd_spec hp r
      have hcopy : copy hash mask seed (t, none) (some r) = some (t1, res) := h1
      rw [hcopy]
      cases res with
      | some x => exact ⟨t1, some x, copy_left l t1 x, hp1, fun h => by cases h⟩
      | none =>
        obtain ⟨t2, res, h2, hp2, hperm2⟩ := ih hp1
        refine ⟨t2, res, h2, hp2, fun hres => ?_⟩
        refine List.Perm.trans ?_ (hperm2 hres)
        exact List.perm_middle.symm.trans (hperm.append_left _)

theorem entries_empty (mask : BitVec 32) : entries mask (fun _ => none : Table K α) = [] := by
  rw [entries, List.filterMap_eq_nil_iff]
  exact fun _ _ => rfl

/-- A seed under which every record finds a place. -/
def WorksAt (hash : Hash K) (mask : BitVec 32) (old : List (Option (K × α))) (seed : BitVec 32) : Prop :=
  ∃ t, old.foldlM (copy hash mask seed) (fun _ => none, none) = some (t, none)

theorem attempt_spec {old : List (Option (K × α))} {tries : Nat} {s : BitVec 32} {t : Table K α}
    (h : attempt hash mask old tries seed = some (s, t)) :
    old.foldlM (copy hash mask s) (fun _ => none, none) = some (t, none) ∧ Placed hash mask s t ∧
      (old.filterMap id).Perm (entries mask t) := by
  induction tries generalizing seed with
  | zero => cases h
  | succ tries ih =>
    obtain ⟨t', res, h', hp, hperm⟩ := copies_spec (placed_empty hash mask seed) old
    unfold attempt at h
    rw [h'] at h
    cases res with
    | none =>
      cases h
      have hperm := hperm rfl
      rw [entries_empty, List.append_nil] at hperm
      exact ⟨h', hp, hperm⟩
    | some x => exact ih h

/-- The search ends with the first seed that works. -/
theorem attempt_some {old : List (Option (K × α))} {n tries : Nat} (hw : WorksAt hash mask old (seed + ofNat 32 n))
    (hn : n < tries) : ∃ m ≤ n, ∃ t, attempt hash mask old tries seed = some (seed + ofNat 32 m, t) := by
  induction n generalizing seed tries with
  | zero =>
    obtain ⟨tries, rfl⟩ : ∃ m, tries = m + 1 := ⟨tries - 1, by omega⟩
    obtain ⟨t, ht⟩ := hw
    refine ⟨0, le_refl _, t, ?_⟩
    unfold attempt
    simp only [BitVec.ofNat_eq_ofNat, BitVec.add_zero] at ht ⊢
    rw [ht]
  | succ n ih =>
    obtain ⟨tries, rfl⟩ : ∃ m, tries = m + 1 := ⟨tries - 1, by omega⟩
    have hnext : ∀ m : Nat, seed + 1 + ofNat 32 m = seed + ofNat 32 (m + 1) := by
      intro m
      bv_omega
    obtain ⟨t', res, h', -⟩ := copies_spec (placed_empty hash mask seed) old
    unfold attempt
    rw [h']
    cases res with
    | none => exact ⟨0, Nat.zero_le _, t', by simp⟩
    | some x =>
      obtain ⟨m, hm, t, h⟩ := ih ((hnext n).symm ▸ hw) (by omega : n < tries)
      exact ⟨m + 1, by omega, t, by rw [← hnext]; exact h⟩

theorem attempt_mono {old : List (Option (K × α))} {tries more : Nat} {r : BitVec 32 × Table K α} (hle : tries ≤ more)
    (h : attempt hash mask old tries seed = some r) : attempt hash mask old more seed = some r := by
  induction tries generalizing seed more with
  | zero => cases h
  | succ tries ih =>
    obtain ⟨more, rfl⟩ : ∃ m, more = m + 1 := ⟨more - 1, by omega⟩
    unfold attempt at h ⊢
    split at h
    · cases h
    · exact h
    · exact ih (by omega) h

/-! ## The invariant -/

def keys (c : Cuckoo K α) : List K := (entries c.mask c.table).map (·.1)

/-- Each record is at one of the places of its key, no key is there twice, and `fill` is
    how many there are. -/
structure Wf (hash : Hash K) (c : Cuckoo K α) : Prop where
  placed : Placed hash c.mask c.seed c.table
  nodup : (keys c).Nodup
  fill : c.fill = (entries c.mask c.table).length

theorem wf_empty : Wf hash (emptyData : Cuckoo K α) := by
  have h : entries (emptyData : Cuckoo K α).mask (emptyData : Cuckoo K α).table = [] := entries_empty _
  refine ⟨placed_empty _ _ _, ?_, ?_⟩
  · rw [keys, h]
    exact List.nodup_nil
  · rw [h]
    rfl

/-- The records decide whether a placed table is well formed. -/
theorem wf_of_perm {c' : Cuckoo K α} {l : List (K × α)} (hp : Placed hash c'.mask c'.seed c'.table)
    (hperm : l.Perm (entries c'.mask c'.table)) (hl : (l.map (·.1)).Nodup) (hfill : c'.fill = l.length) : Wf hash c' :=
  ⟨hp, (hperm.map _).nodup_iff.mp hl, hfill.trans hperm.length_eq⟩

theorem nodup_perm (hw : Wf hash c) {l : List (K × α)} (h : (entries c.mask c.table).Perm l) : (l.map Prod.fst).Nodup :=
  (h.map Prod.fst).nodup_iff.mp hw.nodup

/-- A rehash keeps the records. -/
theorem rehash_spec {tries : Nat} {c' : Cuckoo K α} (hw : Wf hash c) (h : rehash hash tries c = some c') :
    Wf hash c' ∧ (entries c.mask c.table).Perm (entries c'.mask c'.table) ∧ c'.fill = c.fill ∧
      c'.mask = pickmask (ofNat 32 (c.fill * 3)) := by
  unfold rehash at h
  dsimp only at h
  split at h
  · cases h
  · rename_i hattempt
    cases h
    obtain ⟨-, hp, hperm⟩ := attempt_spec hattempt
    rw [filterMap_cells] at hperm
    exact ⟨wf_of_perm hp hperm hw.nodup hw.fill, hperm, rfl, rfl⟩

/-! ## Looking up -/

/-- A key is in one cell at most. -/
theorem cell_unique (hw : Wf hash c) {i j : Nat} {k : K} {v w : α} (hi : c.table i = some (k, v))
    (hj : c.table j = some (k, w)) : i = j := by
  by_contra hne
  have hi' := hw.placed.le hi
  have hupd := entries_update hi' c.table none
  rw [hi, Option.toList_none, List.nil_append] at hupd
  have hmem : (k, w) ∈ entries c.mask (update c.table i none) := by
    rw [mem_entries]
    refine ⟨j, hw.placed.le hj, ?_⟩
    rw [update_of_ne (Ne.symm hne)]
    exact hj
  have hnodup := nodup_perm hw hupd
  rw [Option.toList_some, List.singleton_append, List.map_cons, List.nodup_cons] at hnodup
  exact hnodup.1 (List.mem_map.mpr ⟨(k, w), hmem, rfl⟩)

theorem mem_keys {k : K} : k ∈ keys c ↔ ∃ i ≤ c.mask.toNat, ∃ v, c.table i = some (k, v) := by
  unfold keys
  rw [List.mem_map]
  constructor
  · rintro ⟨⟨k', v⟩, hr, rfl⟩
    obtain ⟨i, hi, h⟩ := mem_entries.mp hr
    exact ⟨i, hi, v, h⟩
  · rintro ⟨i, hi, v, h⟩
    exact ⟨(k, v), mem_entries.mpr ⟨i, hi, h⟩, rfl⟩

/-- A record in a cell, taken out of it. -/
theorem entries_erase {i : Nat} {r : K × α} (hp : Placed hash mask seed t) (hi : t i = some r) :
    (entries mask t).Perm (r :: entries mask (update t i none)) := by
  have hupd := entries_update (hp.le hi) t none
  rwa [hi] at hupd

/-- A key that is at neither of its places is not there. -/
theorem not_mem_keys (hw : Wf hash c) {k : K} (h1 : ∀ v, c.table (off1 hash c.mask c.seed k) ≠ some (k, v))
    (h2 : ∀ v, c.table (off2 hash c.mask c.seed k) ≠ some (k, v)) : k ∉ keys c := by
  intro hk
  obtain ⟨i, -, v, hi⟩ := mem_keys.mp hk
  obtain rfl | rfl := hw.placed i (k, v) hi
  · exact h1 v hi
  · exact h2 v hi

theorem key_at (hw : Wf hash c) {i : Nat} {k : K} {v : α} (hi : c.table i = some (k, v)) : k ∈ keys c :=
  mem_keys.mpr ⟨i, hw.placed.le hi, v, hi⟩

/-! ## Inserting -/

/-- What an insertion does to the records. -/
inductive Inserted (hash : Hash K) (c : Cuckoo K α) (key : K) (value : α) : Insert K α → Prop
  | exists (hk : key ∈ keys c) : Inserted hash c key value .exists
  | replace {t : Table K α} {v : α} {rest : List (K × α)} (hp : Placed hash c.mask c.seed t)
      (hold : (entries c.mask c.table).Perm ((key, v) :: rest)) (hnew : ((key, value) :: rest).Perm (entries c.mask t)) :
      Inserted hash c key value (.replace t)
  | grow {t : Table K α} (hk : key ∉ keys c) (hp : Placed hash c.mask c.seed t)
      (hnew : ((key, value) :: entries c.mask c.table).Perm (entries c.mask t)) : Inserted hash c key value (.grow t)
  | overflow {t : Table K α} (hk : key ∉ keys c) (hp : Placed hash c.mask c.seed t)
      (hsame : (entries c.mask c.table).Perm (entries c.mask t)) : Inserted hash c key value (.overflow t (key, value))

/-- An insertion of a new key is a `rawadd`. -/
def Insert.ofRaw : Table K α × Option (K × α) → Insert K α
  | (t, none) => .grow t
  | (t, some x) => .overflow t x

theorem inserted_raw (hw : Wf hash c) {key : K} (hk : key ∉ keys c) (value : α) :
    ∃ r, rawadd hash c.mask c.seed c.table (key, value) = some r ∧ Inserted hash c key value (Insert.ofRaw r) := by
  obtain ⟨t', res, h, hp, hperm, hres⟩ := rawadd_spec hw.placed (key, value)
  refine ⟨_, h, ?_⟩
  obtain rfl | rfl := hres
  · exact .grow hk hp hperm
  · exact .overflow hk hp hperm.cons_inv

/-- The table with a record left over has the same records as before. -/
theorem wf_overflow (hw : Wf hash c) {t : Table K α} (hp : Placed hash c.mask c.seed t)
    (hsame : (entries c.mask c.table).Perm (entries c.mask t)) : Wf hash { c with table := t } :=
  wf_of_perm hp hsame hw.nodup hw.fill

theorem keys_perm {c c' : Cuckoo K α} (h : (entries c.mask c.table).Perm (entries c'.mask c'.table)) {k : K} :
    k ∈ keys c ↔ k ∈ keys c' := (h.map (·.1)).mem_iff

theorem inserted_replace (hw : Wf hash c) {i : Nat} {key : K} {v value : α} (hi : c.table i = some (key, v)) :
    Inserted hash c key value (.replace (update c.table i (some (key, value)))) := by
  have hp : Placed hash c.mask c.seed (update c.table i (some (key, value))) := hw.placed.update (hw.placed i (key, v) hi)
  have hnew := entries_erase hp (update_self i (some (key, value)) c.table)
  rw [update_idem] at hnew
  exact .replace hp (entries_erase hw.placed hi) hnew.symm

theorem other_key {i : Nat} {x : K × α} {key : K} (h : c.table i = some x) (hne : x.1 ≠ key) (v : α) :
    c.table i ≠ some (key, v) := by
  rw [h]
  exact fun heq => hne (congrArg Prod.fst (Option.some.inj heq))

section Keyed

variable [DecidableEq K]

theorem insertAdd_eq (hw : Wf hash c) (key : K) (value : α) :
    (key ∈ keys c ∧ insertAdd hash c key value = some .exists) ∨
      (key ∉ keys c ∧ insertAdd hash c key value = (rawadd hash c.mask c.seed c.table (key, value)).map Insert.ofRaw) := by
  unfold insertAdd rawadd
  dsimp only
  cases h2 : c.table (off2 hash c.mask c.seed key) with
  | none =>
    cases h1 : c.table (off1 hash c.mask c.seed key) with
    | none => exact .inr ⟨not_mem_keys hw (fun v => by simp [h1]) (fun v => by simp [h2]), rfl⟩
    | some r1 =>
      by_cases he : r1.1 = key
      · exact .inl ⟨he ▸ key_at hw h1, if_pos he⟩
      · exact .inr ⟨not_mem_keys hw (other_key h1 he) (fun v => by simp [h2]), if_neg he⟩
  | some r2 =>
    by_cases he2 : r2.1 = key
    · exact .inl ⟨he2 ▸ key_at hw h2, if_pos he2⟩
    · have hno2 := other_key h2 he2
      dsimp only
      rw [if_neg he2]
      cases h1 : c.table (off1 hash c.mask c.seed key) with
      | none => exact .inr ⟨not_mem_keys hw (fun v => by simp [h1]) hno2, rfl⟩
      | some old =>
        dsimp only
        by_cases he1 : old.1 = key
        · exact .inl ⟨he1 ▸ key_at hw h1, if_pos he1⟩
        · refine .inr ⟨not_mem_keys hw (other_key h1 he1) hno2, ?_⟩
          rw [if_neg he1, displace]
          cases shove hash c.mask c.seed (update c.table (off1 hash c.mask c.seed key) (some (key, value)))
            (off1 hash c.mask c.seed key) (some old) with
          | none => rfl
          | some r =>
            obtain ⟨t', _ | x⟩ := r
            · rfl
            · rfl

theorem insertSet_eq (hw : Wf hash c) (key : K) (value : α) :
    (∃ i v, c.table i = some (key, v) ∧
        insertSet hash c key value = some (.replace (update c.table i (some (key, value))))) ∨
      (key ∉ keys c ∧ insertSet hash c key value = (rawadd hash c.mask c.seed c.table (key, value)).map Insert.ofRaw) := by
  unfold insertSet rawadd
  dsimp only
  cases h2 : c.table (off2 hash c.mask c.seed key) with
  | none =>
    cases h1 : c.table (off1 hash c.mask c.seed key) with
    | none => exact .inr ⟨not_mem_keys hw (fun v => by simp [h1]) (fun v => by simp [h2]), rfl⟩
    | some r1 =>
      by_cases he : r1.1 = key
      · subst he
        exact .inl ⟨_, r1.2, h1, if_pos rfl⟩
      · exact .inr ⟨not_mem_keys hw (other_key h1 he) (fun v => by simp [h2]), if_neg he⟩
  | some r2 =>
    by_cases he2 : r2.1 = key
    · subst he2
      exact .inl ⟨_, r2.2, h2, if_pos rfl⟩
    · have hno2 := other_key h2 he2
      dsimp only
      rw [if_neg he2]
      cases h1 : c.table (off1 hash c.mask c.seed key) with
      | none => exact .inr ⟨not_mem_keys hw (fun v => by simp [h1]) hno2, rfl⟩
      | some old =>
        dsimp only
        by_cases he1 : old.1 = key
        · subst he1
          exact .inl ⟨_, old.2, h1, if_pos rfl⟩
        · refine .inr ⟨not_mem_keys hw (other_key h1 he1) hno2, ?_⟩
          rw [if_neg he1, displace]
          cases shove hash c.mask c.seed (update c.table (off1 hash c.mask c.seed key) (some (key, value)))
            (off1 hash c.mask c.seed key) (some old) with
          | none => rfl
          | some r =>
            obtain ⟨t', _ | x⟩ := r
            · rfl
            · rfl

/-- The two ways to insert. They differ in what they do with a key that is there. -/
def Inserts (hash : Hash K) (insert : Cuckoo K α → K → α → Option (Insert K α)) (P : Insert K α → Prop) : Prop :=
  ∀ c key value, Wf hash c → (∃ o, insert c key value = some o ∧ Inserted hash c key value o ∧ P o) ∧
    (key ∉ keys c → insert c key value = (rawadd hash c.mask c.seed c.table (key, value)).map Insert.ofRaw)

theorem insertAdd_inserts (hash : Hash K) : Inserts hash (insertAdd (α := α) hash) (fun o => ∀ t, o ≠ .replace t) := by
  intro c key value hw
  obtain ⟨hk, h⟩ | ⟨hk, h⟩ := insertAdd_eq hw key value
  · exact ⟨⟨_, h, .exists hk, fun _ h => by cases h⟩, fun hno => absurd hk hno⟩
  · obtain ⟨⟨t', res⟩, hr, hins⟩ := inserted_raw hw hk value
    refine ⟨⟨_, by rw [h, hr]; rfl, hins, fun t ht => ?_⟩, fun _ => h⟩
    cases res <;> cases ht

theorem insertSet_inserts (hash : Hash K) : Inserts hash (insertSet (α := α) hash) (fun o => o ≠ .exists) := by
  intro c key value hw
  obtain ⟨i, v, hi, h⟩ | ⟨hk, h⟩ := insertSet_eq hw key value
  · exact ⟨⟨_, h, inserted_replace hw hi, fun h => by cases h⟩, fun hno => absurd (key_at hw hi) hno⟩
  · obtain ⟨⟨t', res⟩, hr, hins⟩ := inserted_raw hw hk value
    refine ⟨⟨_, by rw [h, hr]; rfl, hins, fun ht => ?_⟩, fun _ => h⟩
    cases res <;> cases ht

end Keyed

section Loop

variable {insert : Cuckoo K α → K → α → Option (Insert K α)} {P : Insert K α → Prop}

/-- What the loop leaves: the key is there and the call raises, or its value is replaced,
    or the record is added. -/
inductive Looped (c : Cuckoo K α) (key : K) (value : α) (P : Insert K α → Prop) (c' : Cuckoo K α) (e : Option Exn) : Prop
  | exists (hP : P .exists) (hk : key ∈ keys c) (he : e = some .keyExists) (hc : c' = c)
  | replace (t : Table K α) (hP : P (.replace t)) (v : α) (rest : List (K × α)) (he : e = none)
      (hold : (entries c.mask c.table).Perm ((key, v) :: rest))
      (hnew : ((key, value) :: rest).Perm (entries c'.mask c'.table))
  | grow (hk : key ∉ keys c) (he : e = none) (hnew : ((key, value) :: entries c.mask c.table).Perm (entries c'.mask c'.table))

theorem loop_spec (hins : Inserts hash insert P) (hw : Wf hash c) {tries : Nat} {key : K} {value : α} {c' : Cuckoo K α}
    {e : Option Exn} (h : insertLoop hash insert tries c key value = some (c', e)) :
    Wf hash c' ∧ Looped c key value P c' e := by
  induction tries using Nat.strong_induction_on generalizing c with
  | _ tries ih =>
    obtain ⟨o, ho, hi, hP⟩ := (hins c key value hw).1
    unfold insertLoop at h
    rw [ho] at h
    cases hi with
    | «exists» hk =>
      cases h
      exact ⟨hw, .exists hP hk rfl rfl⟩
    | replace hp hold hnew =>
      cases h
      have hnodup := nodup_perm hw hold
      exact ⟨wf_of_perm hp hnew hnodup (hw.fill.trans hold.length_eq), .replace _ hP _ _ rfl hold hnew⟩
    | grow hk hp hnew =>
      cases h
      refine ⟨wf_of_perm hp hnew (List.nodup_cons.mpr ⟨hk, hw.nodup⟩) ?_, .grow hk rfl hnew⟩
      rw [List.length_cons, ← hw.fill]
    | overflow hk hp hsame =>
      dsimp only at h
      split at h
      · cases h
      · rename_i n
        split at h
        · cases h
        · rename_i c1 hre
          obtain ⟨hw1, hperm, -⟩ := rehash_spec (wf_overflow hw hp hsame) hre
          have hperm := hsame.trans hperm
          obtain ⟨hw', hl⟩ := ih n (Nat.lt_succ_self n) hw1 h
          have hk1 : key ∉ keys c1 := fun h => hk ((keys_perm hperm).mpr h)
          refine ⟨hw', ?_⟩
          cases hl with
          | «exists» _ hk' => exact absurd hk' hk1
          | replace t _ v rest _ hold _ =>
            have : key ∈ keys c1 := (hold.map Prod.fst).mem_iff.mpr List.mem_cons_self
            exact absurd this hk1
          | grow _ he hnew => exact .grow hk he ((hperm.cons _).trans hnew)

end Loop

/-! ## Seeds that work -/

/-- Under the seed the records find a place whatever order they come in. -/
def Places (hash : Hash K) (mask seed : BitVec 32) (l : List (K × α)) : Prop :=
  ∀ l' : List (K × α), l'.Perm l → WorksAt hash mask (l'.map some) seed

/-- The search for a seed succeeds: the size of the table is chosen for the records, or
    for all but the one that is then added. -/
def Finds (hash : Hash K) (α : Type) (S : K → Prop) : Prop :=
  ∀ l : List (K × α), (l.map Prod.fst).Nodup → (∀ r ∈ l, S r.1) → ∀ fill, fill = l.length ∨ fill + 1 = l.length →
    ∀ seed, ∃ n, Places hash (pickmask (ofNat 32 (fill * 3))) (seed + ofNat 32 n) l

theorem copies_cells (l : List (Option (K × α))) (new : Table K α × Option (K × α)) :
    l.foldlM (copy hash mask seed) new = ((l.filterMap id).map some).foldlM (copy hash mask seed) new := by
  induction l generalizing new with
  | nil => rfl
  | cons x l ih =>
    cases x with
    | none => exact ih new
    | some r =>
      show (copy hash mask seed new (some r)).bind _ = (copy hash mask seed new (some r)).bind _
      cases copy hash mask seed new (some r) with
      | none => rfl
      | some new' => exact ih new'

theorem Places.perm {l l' : List (K × α)} (h : Places hash mask seed l) (hperm : l'.Perm l) : Places hash mask seed l' :=
  fun l'' h' => h l'' (h'.trans hperm)

theorem Places.cells {m : BitVec 32} (h : Places hash mask seed (entries m t)) : WorksAt hash mask (cells m t) seed := by
  obtain ⟨t', h'⟩ := h _ (List.Perm.refl _)
  exact ⟨t', by rw [copies_cells, filterMap_cells, h']⟩

/-- The last record to come finds a place too. -/
theorem Places.last {l l' : List (K × α)} {r : K × α} (h : Places hash mask seed (r :: l)) (hl : l'.Perm l) :
    ∃ t, (l'.map some).foldlM (copy hash mask seed) (fun _ => none, none) = some (t, none) ∧
      ∃ t', rawadd hash mask seed t r = some (t', none) := by
  obtain ⟨t', h'⟩ := h (l' ++ [r]) ((List.perm_append_singleton r l').trans (hl.cons r))
  obtain ⟨t, res, h1, -⟩ := copies_spec (placed_empty hash mask seed) (l'.map some)
  rw [List.map_append, List.foldlM_append, h1] at h'
  cases res with
  | some x => cases h'
  | none =>
    refine ⟨t, h1, t', ?_⟩
    have hfold : [some r].foldlM (copy hash mask seed) (t, none) = rawadd hash mask seed t r := bind_pure _
    exact hfold.symm.trans h'

theorem Places.tail {l : List (K × α)} {r : K × α} (h : Places hash mask seed (r :: l)) : Places hash mask seed l := by
  intro l' hl
  obtain ⟨t, ht, -⟩ := h.last hl
  exact ⟨t, ht⟩

theorem rehash_some {n tries : Nat} (h : Places hash (pickmask (ofNat 32 (c.fill * 3)))
    (c.seed + 1 + ofNat 32 n) (entries c.mask c.table)) (hn : n < tries) :
    ∃ m ≤ n, ∃ t, rehash hash tries c =
      some ⟨pickmask (ofNat 32 (c.fill * 3)), c.seed + 1 + ofNat 32 m, c.fill, t⟩ := by
  obtain ⟨m, hm, t, ht⟩ := attempt_some h.cells hn
  refine ⟨m, hm, t, ?_⟩
  rw [rehash, ht]

theorem rehash_mono {tries more : Nat} {c' : Cuckoo K α} (hle : tries ≤ more) (h : rehash hash tries c = some c') :
    rehash hash more c = some c' := by
  unfold rehash at h ⊢
  dsimp only at h ⊢
  split at h
  · cases h
  · rename_i hattempt
    rw [attempt_mono hle hattempt]
    exact h

/-- The table after a rehash is what the copies made. -/
theorem rehash_table {tries : Nat} {c' : Cuckoo K α} (h : rehash hash tries c = some c') :
    ((entries c.mask c.table).map some).foldlM (copy hash c'.mask c'.seed) (fun _ => none, none) = some (c'.table, none) := by
  unfold rehash at h
  dsimp only at h
  split at h
  · cases h
  · rename_i hattempt
    cases h
    have hcopies := (attempt_spec hattempt).1
    rwa [copies_cells, filterMap_cells] at hcopies

/-- The loop ends with a seed that has a place for the new record too, if not before. -/
theorem loop_some {insert : Cuckoo K α → K → α → Option (Insert K α)} {P : Insert K α → Prop} (hins : Inserts hash insert P)
    (hw : Wf hash c) {n tries : Nat} {key : K} {value : α} (hk : key ∉ keys c)
    (hplaces : Places hash (pickmask (ofNat 32 (c.fill * 3))) (c.seed + 1 + ofNat 32 n)
      ((key, value) :: entries c.mask c.table)) (hn : n < tries) :
    ∃ r, insertLoop hash insert tries c key value = some r := by
  induction tries generalizing c n with
  | zero => omega
  | succ tries ih =>
    obtain ⟨o, ho, hi, -⟩ := (hins c key value hw).1
    unfold insertLoop
    rw [ho]
    cases hi with
    | «exists» hk => exact ⟨_, rfl⟩
    | replace hp hold hnew => exact ⟨_, rfl⟩
    | grow hk hp hnew => exact ⟨_, rfl⟩
    | @overflow t _ hp hsame =>
      have hw' := wf_overflow hw hp hsame
      have hplaces' : Places hash (pickmask (ofNat 32 (c.fill * 3))) (c.seed + 1 + ofNat 32 n)
          ((key, value) :: entries c.mask t) := hplaces.perm (hsame.symm.cons _)
      have hre := rehash_some (c := { c with table := t }) (n := n) hplaces'.tail hn
      obtain ⟨m, hm, t1, hre⟩ := hre
      dsimp only
      rw [hre]
      dsimp only
      obtain ⟨hw1, hperm, -⟩ := rehash_spec hw' hre
      have hperm := hsame.trans hperm
      have hk1 := fun h => hk ((keys_perm hperm).mpr h)
      have hplaces1 := hplaces.perm (hperm.symm.cons _)
      by_cases heq : m = n
      · subst heq
        -- this is the seed
        obtain ⟨t2, ht2, t3, ht3⟩ := hplaces'.last (List.Perm.refl _)
        have htable := rehash_table hre
        rw [ht2] at htable
        cases htable
        have hgrow := (hins _ key value hw1).2 hk1
        rw [ht3] at hgrow
        unfold insertLoop
        rw [hgrow]
        exact ⟨_, rfl⟩
      · refine ih hw1 hk1 (n := n - m - 1) ?_ (by omega)
        have hseed : c.seed + 1 + ofNat 32 m + 1 + ofNat 32 (n - m - 1) = c.seed + 1 + ofNat 32 n := by
          obtain ⟨d, rfl⟩ : ∃ d, n = m + 1 + d := ⟨n - m - 1, by omega⟩
          have : m + 1 + d - m - 1 = d := by omega
          rw [this]
          bv_omega
        dsimp only
        rw [hseed]
        exact hplaces1

end BubbleStorm.Util.HashTable
