/-
  BubbleStorm.HostCache.Restore — loading the cache, and every run of it.

  Proved: data is loaded iff it can be parsed and no address comes twice in it and the
  well-known addresses; otherwise an exception, never `InvalidHostCacheData`, leaves the
  cleared cache half loaded (`setHostCacheData_spec`). The data of a cache is loaded again
  iff no well-known address is in the cache (`reload_iff`). Every step of a run keeps table
  and heap the same iff each trims no cache over the limit and loads such data only
  (`host_cache`).
-/

import BubbleStorm.HostCache.Coherence

namespace BubbleStorm.HostCache

open Util.Heap (ManagedHeap)
open Util.Heap.ManagedHeap (Queue)

variable {Address : Type} [DecidableEq Address]

/-! ## Loading -/

/-- The entries of the data, if it is made of entries. -/
def parseAll (s : Codec Address) : Nat → List UInt8 → Option (List (Address × ℚ))
  | 0, _ => some []
  | fuel + 1, slice =>
    if slice = [] then some []
    else
      match s.parse slice with
      | none => none
      | some entry => (parseAll s fuel (slice.drop s.length)).map (entry :: ·)

/-- Both loops of `setHostCacheData` are this one. -/
def addEntries : List (Address × ℚ) → Cache Address → Cache Address × Option Exn
  | [], c => (c, none)
  | (addr, v) :: entries, c =>
    match addEntry c addr v with
    | (c, some e) => (c, some e)
    | (c, none) => addEntries entries c

theorem addWellKnownEntries_eq (addrs : List Address) (c : Cache Address) :
    addWellKnownEntries addrs c = addEntries (addrs.map fun addr => (addr, 1)) c := by
  induction addrs generalizing c with
  | nil => rfl
  | cons addr addrs ih =>
    simp only [addWellKnownEntries, List.map_cons, addEntries]
    cases addEntry c addr 1 with
    | mk c1 out =>
      cases out with
      | none => exact ih c1
      | some e => rfl

theorem addEl_eq (s : Codec Address) {fuel : Nat} {slice : List UInt8} {entries : List (Address × ℚ)}
    (hparse : parseAll s fuel slice = some entries) (c : Cache Address) : addEl s fuel slice c = addEntries entries c := by
  induction fuel generalizing slice entries c with
  | zero =>
    cases hparse
    rfl
  | succ fuel ih =>
    unfold parseAll at hparse
    unfold addEl
    split at hparse
    · cases hparse
      rw [if_pos ‹_›]
      rfl
    · rw [if_neg ‹_›]
      cases hentry : s.parse slice with
      | none =>
        rw [hentry] at hparse
        cases hparse
      | some entry =>
        rw [hentry] at hparse
        obtain ⟨rest, hrest, rfl⟩ := Option.map_eq_some_iff.mp hparse
        simp only [addEntries]
        cases addEntry c entry.1 entry.2 with
        | mk c1 out =>
          cases out with
          | none => exact ih hrest c1
          | some e => rfl

variable {c : Cache Address} {q : Queue Nat ℚ Address} {e : List (Nat × ℚ)}

theorem addEl_none (s : Codec Address) {fuel : Nat} {slice : List UInt8} (hinv : Inv c q e) (hparse : parseAll s fuel slice = none) :
    (addEl s fuel slice c).2 = some .keyExists ∨ (addEl s fuel slice c).2 = some .subscript := by
  induction fuel generalizing slice c q e with
  | zero => cases hparse
  | succ fuel ih =>
    unfold parseAll at hparse
    unfold addEl
    split at hparse
    · cases hparse
    · rw [if_neg ‹_›]
      cases hentry : s.parse slice with
      | none => exact .inr rfl
      | some entry =>
        rw [hentry] at hparse
        have hrest := Option.map_eq_none_iff.mp hparse
        by_cases haddr : entry.1 ∈ c.hostMap.map (·.1)
        · have hraise := addEntry_exists hinv haddr entry.2
          cases hadd : addEntry c entry.1 entry.2 with
          | mk c1 out =>
            rw [hadd] at hraise
            cases hraise
            left
            simp only [hadd]
        · obtain ⟨c1, q1, e1, hadd, hinv1, _, _⟩ := addEntry_new hinv haddr entry.2
          simp only [hadd]
          exact ih hinv1 hrest

theorem addEntries_spec (hinv : Inv c q e) (entries : List (Address × ℚ))
    (hnodup : (c.hostMap.map (·.1) ++ entries.map (·.1)).Nodup) :
    ∃ c' q' e', addEntries entries c = (c', none) ∧ Inv c' q' e' ∧
      c'.hostMap.map (·.1) = c.hostMap.map (·.1) ++ entries.map (·.1) ∧ (Full c q → Full c' q') := by
  induction entries generalizing c q e with
  | nil => exact ⟨c, q, e, rfl, hinv, (List.append_nil _).symm, fun hfull => hfull⟩
  | cons entry entries ih =>
    have haddr : entry.1 ∉ c.hostMap.map (·.1) := by
      intro hin
      exact (List.nodup_append.mp hnodup).2.2 _ hin _ List.mem_cons_self rfl
    obtain ⟨c1, q1, e1, hadd, hinv1, hmap1, hfull1⟩ := addEntry_new hinv haddr entry.2
    have hkeys : c1.hostMap.map (·.1) = c.hostMap.map (·.1) ++ [entry.1] := by
      rw [hmap1, List.map_append]
      rfl
    obtain ⟨c2, q2, e2, hrest, hinv2, hmap2, hfull2⟩ := ih hinv1 (by rw [hkeys, List.append_assoc]; exact hnodup)
    refine ⟨c2, q2, e2, ?_, hinv2, ?_, fun hfull => hfull2 (hfull1 hfull)⟩
    · simp only [addEntries, hadd]
      exact hrest
    · rw [hmap2, hkeys, List.append_assoc]
      rfl

/-- It stops at the first address that the table has. -/
theorem addEntries_exists (hinv : Inv c q e) (entries : List (Address × ℚ))
    (hnodup : ¬(c.hostMap.map (·.1) ++ entries.map (·.1)).Nodup) : (addEntries entries c).2 = some .keyExists := by
  induction entries generalizing c q e with
  | nil => exact absurd (by rw [List.map_nil, List.append_nil]; exact hinv.keys) hnodup
  | cons entry entries ih =>
    by_cases haddr : entry.1 ∈ c.hostMap.map (·.1)
    · have hraise := addEntry_exists hinv haddr entry.2
      cases hadd : addEntry c entry.1 entry.2 with
      | mk c1 out =>
        rw [hadd] at hraise
        cases hraise
        simp only [addEntries, hadd]
    · obtain ⟨c1, q1, e1, hadd, hinv1, hmap1, _⟩ := addEntry_new hinv haddr entry.2
      simp only [addEntries, hadd]
      refine ih hinv1 ?_
      rw [hmap1, List.map_append, List.append_assoc]
      exact hnodup

omit [DecidableEq Address] in
theorem clear_inv (hinv : Inv c q e) (bootstrap : Option Address) :
    ∃ q', Inv { clear c with explicitBootstrapAddr := bootstrap } q' [] ∧ Full { clear c with explicitBootstrapAddr := bootstrap } q' := by
  refine ⟨⟨∅, q.key, q.value⟩, ⟨⟨⟨?_, ?_, hinv.heap.kept.key, hinv.heap.kept.value, fun i x hx => ?_, fun r _ => rfl⟩, ?_, rfl⟩,
    fun r hr => ?_, List.nodup_nil, List.nodup_nil, nofun, nofun⟩, nofun⟩
  · exact Util.Stack.holds_emptyData _
  · exact hinv.heap.kept.nill
  · cases hx
  · intro i x p _ hx
    cases hx
  · exact absurd hr (Finset.notMem_empty r)

/-- The data is made of entries, and no address is in it or in the list twice. -/
def Loads (s : Codec Address) (data : List UInt8) (wellKnownEntries : List Address) : Prop :=
  ∃ entries, parseAll s data.length data = some entries ∧ (wellKnownEntries ++ entries.map (·.1)).Nodup

omit [DecidableEq Address] in
theorem wellKnown_keys (addrs : List Address) : (addrs.map fun addr => (addr, (1 : ℚ))).map (·.1) = addrs := by
  rw [List.map_map]
  exact List.map_id _

theorem setHostCacheData_loads (s : Codec Address) (hinv : Inv c q e) {data : List UInt8} {wellKnownEntries : List Address}
    {entries : List (Address × ℚ)} (hparse : parseAll s data.length data = some entries)
    (hnodup : (wellKnownEntries ++ entries.map (·.1)).Nodup) (bootstrap : Option Address) :
    ∃ c' q' e', setHostCacheData s c data wellKnownEntries bootstrap = (c', none) ∧ Inv c' q' e' ∧ Full c' q' ∧
      c'.hostMap.map (·.1) = wellKnownEntries ++ entries.map (·.1) := by
  obtain ⟨q0, hinv0, hfull0⟩ := clear_inv hinv bootstrap
  obtain ⟨c1, q1, e1, hadd1, hinv1, hmap1, hfull1⟩ := addEntries_spec hinv0 (wellKnownEntries.map fun addr => (addr, 1)) (by
    rw [wellKnown_keys]
    exact (List.nodup_append.mp hnodup).1)
  have hkeys : c1.hostMap.map (·.1) = wellKnownEntries := hmap1.trans (by rw [wellKnown_keys]; rfl)
  obtain ⟨c2, q2, e2, hadd2, hinv2, hmap2, hfull2⟩ := addEntries_spec hinv1 entries (by rw [hkeys]; exact hnodup)
  refine ⟨c2, q2, e2, ?_, hinv2, hfull2 (hfull1 hfull0), by rw [hmap2, hkeys]⟩
  simp only [setHostCacheData, addWellKnownEntries_eq, hadd1, addEl_eq s hparse, hadd2]

/-- Whatever is not loaded raises one of two exceptions, and neither is `InvalidHostCacheData`. -/
theorem setHostCacheData_raises (s : Codec Address) (hinv : Inv c q e) {data : List UInt8} {wellKnownEntries : List Address}
    (hloads : ¬Loads s data wellKnownEntries) (bootstrap : Option Address) :
    (setHostCacheData s c data wellKnownEntries bootstrap).2 = some .keyExists ∨
      (setHostCacheData s c data wellKnownEntries bootstrap).2 = some .subscript := by
  obtain ⟨q0, hinv0, _⟩ := clear_inv hinv bootstrap
  by_cases hnodup : wellKnownEntries.Nodup
  · obtain ⟨c1, q1, e1, hadd1, hinv1, hmap1, _⟩ := addEntries_spec hinv0 (wellKnownEntries.map fun addr => (addr, 1)) (by
      rw [wellKnown_keys]
      exact hnodup)
    have hkeys : c1.hostMap.map (·.1) = wellKnownEntries := hmap1.trans (by rw [wellKnown_keys]; rfl)
    simp only [setHostCacheData, addWellKnownEntries_eq, hadd1]
    cases hparse : parseAll s data.length data with
    | none => exact addEl_none s hinv1 hparse
    | some entries =>
      rw [addEl_eq s hparse]
      exact .inl (addEntries_exists hinv1 entries (by
        rw [hkeys]
        exact fun hboth => hloads ⟨entries, hparse, hboth⟩))
  · left
    have hraise := addEntries_exists hinv0 (wellKnownEntries.map fun addr => (addr, 1)) (by
      rw [wellKnown_keys]
      exact hnodup)
    simp only [setHostCacheData, addWellKnownEntries_eq]
    cases hadd : addEntries (wellKnownEntries.map fun addr => (addr, (1 : ℚ))) { clear c with explicitBootstrapAddr := bootstrap } with
    | mk c1 out =>
      rw [hadd] at hraise
      cases hraise
      rfl

/-! ## The stored data -/

omit [DecidableEq Address] in
theorem parseAll_flatMap (s : Codec Address) (entries : List (Address × ℚ)) {fuel : Nat} (hfuel : entries.length ≤ fuel) :
    parseAll s fuel (entries.flatMap s.toVector) = some (entries.map fun entry => (entry.1, s.round entry.2)) := by
  induction entries generalizing fuel with
  | nil =>
    cases fuel with
    | zero => rfl
    | succ fuel => exact if_pos rfl
  | cons entry entries ih =>
    obtain ⟨fuel, rfl⟩ : ∃ f, fuel = f + 1 := ⟨fuel - 1, by rw [List.length_cons] at hfuel; omega⟩
    rw [List.length_cons] at hfuel
    have hne : (entry :: entries).flatMap s.toVector ≠ [] := by
      intro hnil
      have hlength := congrArg List.length hnil
      rw [List.flatMap_cons, List.length_append, s.size, List.length_nil] at hlength
      have := s.pos
      omega
    unfold parseAll
    rw [if_neg hne, List.flatMap_cons, s.parse_append entry.1 entry.2]
    simp only [List.drop_left' (s.size entry), ih (Nat.le_of_succ_le_succ hfuel)]
    rfl

omit [DecidableEq Address] in
theorem length_flatMap (s : Codec Address) (entries : List (Address × ℚ)) : entries.length ≤ (entries.flatMap s.toVector).length := by
  induction entries with
  | nil => exact le_refl 0
  | cons entry entries ih =>
    rw [List.flatMap_cons, List.length_append, s.size, List.length_cons]
    have := s.pos
    omega

omit [DecidableEq Address] in
theorem reload_iff (s : Codec Address) (c : Cache Address) (wellKnownEntries : List Address) :
    Loads s (getHostCacheData s c) wellKnownEntries ↔ (wellKnownEntries ++ hosts c).Nodup := by
  let entries := (records c).map fun record => ((c.hostHeap.sub record).2.2, (c.hostHeap.sub record).2.1)
  have hdata : getHostCacheData s c = entries.flatMap s.toVector := by
    rw [List.flatMap_map]
    rfl
  have hparse := parseAll_flatMap s entries (length_flatMap s entries)
  have haddrs : (entries.map fun entry => (entry.1, s.round entry.2)).map (·.1) = hosts c := by
    rw [List.map_map, List.map_map]
    rfl
  unfold Loads
  rw [hdata, hparse]
  constructor
  · rintro ⟨_, hsome, hnodup⟩
    cases hsome
    rw [haddrs] at hnodup
    exact hnodup
  · intro hnodup
    exact ⟨_, rfl, by rw [haddrs]; exact hnodup⟩

/-! ## Every run -/

/-- The step trims no cache over the limit, and loads only what can be loaded. -/
def Meets (s : Codec Address) (c : Cache Address) : Op Address → Prop
  | .trimCache => c.hostHeap.size ≤ hostCacheLimit
  | .setHostCacheData data wellKnownEntries _ => Loads s data wellKnownEntries
  | _ => True

/-- What a step has to leave: after a trim, a decay must leave no cache over the limit, and
    after data was loaded the addresses are those of the data and of the list. -/
def Left (s : Codec Address) (c : Cache Address) : Op Address → Prop
  | .trimCache => (decayAvailabilities c).1.hostHeap.size ≤ hostCacheLimit
  | .setHostCacheData data wellKnownEntries _ =>
    ∃ entries, parseAll s data.length data = some entries ∧ ∀ addr, addr ∈ hosts c ↔ addr ∈ wellKnownEntries ++ entries.map (·.1)
  | _ => True

/-- The step raises nothing and leaves table and heap the same, or the cache stays as it was. -/
def Keeps (s : Codec Address) (c : Cache Address) (op : Op Address) : Prop :=
  (step s c op).2 = none ∧ Coherent (step s c op).1 ∧ Left s (step s c op).1 op ∨ step s c op = (c, some .invalidHostCacheData)

/-- Every step of the run, at the state it is taken in. -/
def Every (s : Codec Address) (P : Cache Address → Op Address → Prop) (c : Cache Address) : List (Op Address) → Prop
  | [] => True
  | op :: ops => P c op ∧ Every s P (step s c op).1 ops

theorem step_meets (s : Codec Address) (hinv : Inv c q e) (hfull : Full c q) {op : Op Address} (hmeets : Meets s c op) :
    ∃ c' q' e', step s c op = (c', none) ∧ Inv c' q' e' ∧ Full c' q' ∧ Left s c' op := by
  cases op with
  | addAddress addr =>
    obtain ⟨c', q', e', hadd, hinv', hfull'⟩ := addAddress_spec hinv hfull addr
    exact ⟨c', q', e', hadd, hinv', hfull', trivial⟩
  | trimCache =>
    obtain ⟨c', q', e', htrim, hinv', hmap, hcard⟩ := trimCache_spec hinv
    have hsize : c.hostHeap.size ≤ hostCacheLimit := hmeets
    have hcoherent := (trim_coherent_iff hinv hfull).mpr (hsize.trans (Nat.le_succ hostCacheLimit))
    have hdecay := trim_decay_size hinv hfull
    rw [htrim] at hcoherent hdecay
    exact ⟨c', q', e', htrim, hinv', (coherent_iff hinv').mp hcoherent, le_of_eq_of_le hdecay hsize⟩
  | decayAvailabilities =>
    obtain ⟨c', q', e', hdecay, hinv', _, hfull'⟩ := decayAvailabilities_spec hinv
    exact ⟨c', q', e', hdecay, hinv', hfull', trivial⟩
  | setHostCacheData data wellKnownEntries bootstrap =>
    obtain ⟨entries, hparse, hnodup⟩ := hmeets
    obtain ⟨c', q', e', hset, hinv', hfull', hkeys⟩ := setHostCacheData_loads s hinv hparse hnodup bootstrap
    refine ⟨c', q', e', hset, hinv', hfull', entries, hparse, fun addr => ?_⟩
    rw [← hkeys]
    exact ((coherent_iff hinv').mpr hfull').same addr

theorem keeps_iff (s : Codec Address) (hinv : Inv c q e) (hfull : Full c q) (op : Op Address) : Keeps s c op ↔ Meets s c op := by
  constructor
  · intro hkeeps
    cases op with
    | addAddress addr => trivial
    | decayAvailabilities => trivial
    | trimCache =>
      obtain ⟨c', q', e', htrim, hinv', _, _⟩ := trimCache_spec hinv
      have hdecay := trim_decay_size hinv hfull
      rcases hkeeps with ⟨_, _, hleft⟩ | hraise
      · simp only [Left, step, hdecay] at hleft
        exact hleft
      · have hnone : step s c .trimCache = (c', none) := htrim
        rw [hnone] at hraise
        cases hraise
    | setHostCacheData data wellKnownEntries bootstrap =>
      by_contra hloads
      have hraises := setHostCacheData_raises s hinv hloads bootstrap
      rcases hkeeps with ⟨hnone, _⟩ | hraise
      · have hnone' : (setHostCacheData s c data wellKnownEntries bootstrap).2 = none := hnone
        rw [hnone'] at hraises
        rcases hraises with h | h <;> cases h
      · have hraise' : (setHostCacheData s c data wellKnownEntries bootstrap).2 = some .invalidHostCacheData := congrArg Prod.snd hraise
        rw [hraise'] at hraises
        rcases hraises with h | h <;> cases h
  · intro hmeets
    obtain ⟨c', q', e', hstep, hinv', hfull', hleft⟩ := step_meets s hinv hfull hmeets
    left
    rw [hstep]
    exact ⟨rfl, (coherent_iff hinv').mpr hfull', hleft⟩

theorem every_iff (s : Codec Address) (ops : List (Op Address)) (hinv : Inv c q e) (hfull : Full c q) :
    Every s (Keeps s) c ops ↔ Every s (Meets s) c ops := by
  induction ops generalizing c q e with
  | nil => exact Iff.rfl
  | cons op ops ih =>
    unfold Every
    rw [keeps_iff s hinv hfull op]
    refine and_congr_right fun hmeets => ?_
    obtain ⟨c', q', e', hstep, hinv', hfull', _⟩ := step_meets s hinv hfull hmeets
    rw [hstep]
    exact ih hinv' hfull'

theorem run_inv (s : Codec Address) (ops : List (Op Address)) (hinv : Inv c q e) (hfull : Full c q) (hmeets : Every s (Meets s) c ops) :
    ∃ q' e', Inv (run s c ops) q' e' ∧ Full (run s c ops) q' := by
  induction ops generalizing c q e with
  | nil => exact ⟨q, e, hinv, hfull⟩
  | cons op ops ih =>
    obtain ⟨c', q', e', hstep, hinv', hfull', _⟩ := step_meets s hinv hfull hmeets.1
    have hrest := hmeets.2
    rw [hstep] at hrest
    obtain ⟨q2, e2, h2⟩ := ih hinv' hfull' hrest
    refine ⟨q2, e2, ?_⟩
    show Inv (run s (step s c op).1 ops) q2 e2 ∧ Full (run s (step s c op).1 ops) q2
    rw [hstep]
    exact h2

omit [DecidableEq Address] in
theorem new_inv (nobody : Address) : ∃ q, Inv (new nobody) q [] ∧ Full (new nobody) q :=
  ⟨⟨∅, fun _ => 0, fun _ => nobody⟩, ⟨⟨ManagedHeap.kept_new _ _, fun _ _ _ _ hx => (nomatch hx), rfl⟩,
    fun r hr => absurd hr (Finset.notMem_empty r), List.nodup_nil, List.nodup_nil, nofun, nofun⟩, nofun⟩

/-- Every step of a run from a new cache does what it should iff none trims a cache over the
    limit and none loads data that is no list of entries or has an address twice, counted
    with the well-known ones. In every state of such a run the stored data can be loaded
    again iff no well-known address is among the hosts and none is in the list twice. -/
theorem host_cache (s : Codec Address) (nobody : Address) (ops : List (Op Address)) :
    (Every s (Keeps s) (new nobody) ops ↔ Every s (Meets s) (new nobody) ops) ∧
    ∀ c, c = run s (new nobody) ops → Every s (Meets s) (new nobody) ops → ∀ wellKnownEntries bootstrap,
      Keeps s c (.setHostCacheData (getHostCacheData s c) wellKnownEntries bootstrap) ↔
        wellKnownEntries.Nodup ∧ ∀ addr ∈ wellKnownEntries, addr ∉ hosts c := by
  obtain ⟨q, hinv, hfull⟩ := new_inv nobody
  refine ⟨every_iff s ops hinv hfull, ?_⟩
  rintro c rfl hmeets wellKnownEntries bootstrap
  obtain ⟨q', e', hinv', hfull'⟩ := run_inv s ops hinv hfull hmeets
  have hhosts := ((coherent_iff hinv').mpr hfull').heap
  rw [keeps_iff s hinv' hfull']
  refine (reload_iff s _ wellKnownEntries).trans ?_
  rw [List.nodup_append]
  constructor
  · rintro ⟨hnodup, _, hne⟩
    exact ⟨hnodup, fun addr haddr hin => hne addr haddr addr hin rfl⟩
  · rintro ⟨hnodup, hout⟩
    refine ⟨hnodup, hhosts, fun a ha b hb heq => ?_⟩
    rw [heq] at ha
    exact hout b ha hb

/-- An address is a byte, and no availability is stored. -/
def byteCodec : Codec UInt8 where
  length := 1
  pos := Nat.one_pos
  round _ := 0
  toVector entry := [entry.1]
  parse slice := slice.head?.map fun addr => (addr, 0)
  size _ := rfl
  parse_append _ _ _ := rfl
  parse_short slice hshort := by
    cases slice with
    | nil => rfl
    | cons x slice => exact absurd hshort (by rw [List.length_cons]; omega)

theorem host_cache_byte : getHostCacheData byteCodec (run byteCodec (new 0) [.addAddress 7]) = [7] ∧
    Keeps byteCodec (run byteCodec (new 0) [.addAddress 7]) (.setHostCacheData [7] [8] none) := by
  have hdata : getHostCacheData byteCodec (run byteCodec (new 0) [.addAddress 7]) = [7] := by decide +kernel
  have hhosts : hosts (run byteCodec (new 0) [.addAddress 7]) = [7] := by decide +kernel
  have hreload := (host_cache byteCodec 0 [.addAddress 7]).2 _ rfl ⟨trivial, trivial⟩ [8] none
  rw [hdata, hhosts] at hreload
  exact ⟨hdata, hreload.mpr (by decide +kernel)⟩

/-- The well-known address is in the stored data, so loading both raises. -/
theorem reload_well_known : getHostCacheData byteCodec (run byteCodec (new 0) [.setHostCacheData [] [7] none]) = [7] ∧
    ¬ Every byteCodec (Keeps byteCodec) (new 0) [.setHostCacheData [] [7] none, .setHostCacheData [7] [7] none] := by
  refine ⟨by decide +kernel, ?_⟩
  have hraise : (step byteCodec (step byteCodec (new 0) (.setHostCacheData [] [7] none)).1 (.setHostCacheData [7] [7] none)).2 = some .keyExists := by
    decide +kernel
  rintro ⟨_, ⟨hnone, _⟩ | hinvalid, _⟩
  · rw [hraise] at hnone
    cases hnone
  · rw [hinvalid] at hraise
    cases hraise

end BubbleStorm.HostCache
