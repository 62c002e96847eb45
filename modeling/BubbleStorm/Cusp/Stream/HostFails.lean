/-
  BubbleStorm.Cusp.Stream.HostFails — what the dispatcher calls impossible.

  A host stays `Sane` as long as no CONNECT makes an in-stream under the id 0xffff, which
  is the mark of a stream without an id, and an id is allocated from an empty free list
  only while the tables can still double (`Roomy`). A table that grows to all 2^16
  entries drops its free list: the chain of the new ids ends at 0xffff.
-/

import BubbleStorm.Cusp.Stream.HostIds

namespace BubbleStorm.Cusp.Stream.HostDispatch

open BubbleStorm.Lib (Chain)
open Function (update update_of_ne update_self)
open PacketFormat (Segment Reader Writer)

variable {t t' : T} {L : Nat → List Nat} {down : Nat → Bool} {r id B : Nat}

/-! ## Making ids -/

/-- A list of old ids keeps its links. -/
theorem expand_old {newLen head : Nat} {l : List Nat} (hs : ∀ x ∈ l, x < t.len) (hc : Chain nill (nextOf t.outStreams) head l) :
    Chain nill (nextOf (expand t newLen).outStreams) head l := by
  refine hc.congr fun x hx => ?_
  unfold nextOf expand
  dsimp only
  rw [if_pos (hs x hx)]

/-- The new ids are in front of the free list, which is lost at the end of the id space. -/
theorem expand_chain (h : Lists t L) {newLen : Nat} (hlt : t.len < newLen) (hle : newLen ≤ 2 ^ 16) :
    ∃ n m, t.len + n ≤ newLen ∧ (m = [] ∨ m = L 0) ∧ (newLen < 2 ^ 16 → t.len + n = newLen ∧ m = L 0) ∧
      Chain nill (nextOf (expand t newLen).outStreams) (expand t newLen).writeFree (List.range' t.len n ++ m) := by
  have hnew : ∀ i, t.len ≤ i → nextOf (expand t newLen).outStreams i =
      some (if i = newLen - 1 then t.writeFree else (i + 1) % 2 ^ 16) := by
    intro i hi
    unfold nextOf expand
    dsimp only
    rw [if_neg (Nat.not_lt.mpr hi)]
  have hnill : nill = 2 ^ 16 - 1 := rfl
  have hfree : (expand t newLen).writeFree = t.len := Nat.mod_eq_of_lt (Nat.lt_of_lt_of_le hlt hle)
  by_cases hfull : newLen = 2 ^ 16
  · have hc : Chain nill (nextOf (expand t newLen).outStreams) (if 2 ^ 16 - 1 - t.len = 0 then nill else t.len)
        (List.range' t.len (2 ^ 16 - 1 - t.len) ++ []) := by
      refine Chain.range (fun i _ hi => by omega) (fun i hi1 hi2 => ?_) rfl
      have hmod : (i + 1) % 2 ^ 16 = i + 1 := Nat.mod_eq_of_lt (by omega)
      rw [hnew i hi1, if_neg (by omega), hmod]
      split
      · rename_i hlast
        rw [hlast]
        exact congrArg some (by omega)
      · rfl
    have hfit : t.len + (2 ^ 16 - 1 - t.len) ≤ newLen := by omega
    refine ⟨2 ^ 16 - 1 - t.len, [], hfit, .inl rfl, fun hlt => by omega, ?_⟩
    rw [hfree]
    by_cases h0 : 2 ^ 16 - 1 - t.len = 0
    · rw [if_pos h0] at hc
      have hlen : t.len = nill := by omega
      rwa [hlen] at hc ⊢
    · rwa [if_neg h0] at hc
  · have hc : Chain nill (nextOf (expand t newLen).outStreams) (if newLen - t.len = 0 then t.writeFree else t.len)
        (List.range' t.len (newLen - t.len) ++ L 0) := by
      refine Chain.range (fun i _ hi => by omega) (fun i hi1 hi2 => ?_) (expand_old (h.small 0) (h.chain 0))
      rw [hnew i hi1]
      by_cases hi : i = newLen - 1
      · rw [if_pos hi, if_pos (by omega)]
      · rw [if_neg hi, if_neg (by omega), Nat.mod_eq_of_lt (by omega)]
    have hfit : t.len + (newLen - t.len) ≤ newLen := by omega
    refine ⟨newLen - t.len, L 0, hfit, .inr rfl, fun _ => ⟨by omega, rfl⟩, ?_⟩
    rw [hfree]
    rwa [if_neg (by omega)] at hc

/-- The other lists stay, and without the end of the id space nothing is lost. -/
theorem expand_lists (h : Lists t L) {newLen : Nat} (hlt : t.len < newLen) (hle : newLen ≤ 2 ^ 16) :
    ∃ l, Lists (expand t newLen) (update L 0 l) ∧
      (newLen < 2 ^ 16 → ∀ x, t.len ≤ x ∧ x < newLen ∨ x ∈ L 0 → x ∈ l) := by
  obtain ⟨n, m, hn, hm, hall, hchain⟩ := expand_chain h hlt hle
  have hmL : ∀ x ∈ m, x ∈ L 0 := by
    rcases hm with rfl | rfl
    · intro x hx
      cases hx
    · exact fun _ hx => hx
  have hmd : m.Nodup := by
    rcases hm with rfl | rfl
    · exact List.nodup_nil
    · exact h.once 0
  have old : ∀ k x, x ∈ update L 0 (List.range' t.len n ++ m) k → t.len ≤ x ∧ x < newLen ∧ k = 0 ∨ x ∈ L k := by
    intro k x hx
    by_cases hk : k = 0
    · subst hk
      rw [update_self] at hx
      rcases List.mem_append.mp hx with hx | hx
      · rw [List.mem_range'_1] at hx
        exact .inl ⟨hx.1, by omega, rfl⟩
      · exact .inr (hmL x hx)
    · rw [update_of_ne hk] at hx
      exact .inr hx
  refine ⟨List.range' t.len n ++ m, ⟨fun k => ?_, fun k => ?_, fun j k x hj hk => ?_, fun k x hx => ?_⟩, fun hsmall x hx => ?_⟩
  · cases k with
    | zero =>
      rw [update_self]
      exact hchain
    | succ k =>
      rw [update_of_ne (Nat.succ_ne_zero k)]
      exact expand_old (h.small _) (h.chain (k + 1))
  · by_cases hk : k = 0
    · subst hk
      rw [update_self]
      refine List.nodup_append.mpr ⟨List.nodup_range', hmd, fun x hx y hy heq => ?_⟩
      rw [List.mem_range'_1] at hx
      have hy' := h.small 0 y (hmL y hy)
      omega
    · rw [update_of_ne hk]
      exact h.once k
  · rcases old j x hj with ⟨h1, -, rfl⟩ | hj1
    · rcases old k x hk with ⟨-, -, rfl⟩ | hk1
      · rfl
      · exact absurd (h.small k x hk1) (Nat.not_lt.mpr h1)
    · rcases old k x hk with ⟨h1, -, rfl⟩ | hk1
      · exact absurd (h.small j x hj1) (Nat.not_lt.mpr h1)
      · exact h.apart j k x hj1 hk1
  · show x < newLen
    rcases old k x hx with ⟨-, h2, -⟩ | hx
    · exact h2
    · exact Nat.lt_trans (h.small k x hx) hlt
  · obtain ⟨hend, rfl⟩ := hall hsmall
    rcases hx with hx | hx
    · exact List.mem_append_left _ (List.mem_range'_1.mpr ⟨hx.1, hend ▸ hx.2⟩)
    · exact List.mem_append_right _ hx

theorem Sane.expand (h : Sane B t L down) {newLen : Nat} (hlt : t.len < newLen) (hle : newLen ≤ B) :
    ∃ L', Sane B (expand t newLen) L' down := by
  obtain ⟨l, hlists, hall⟩ := expand_lists h.lists hlt (Nat.le_trans hle h.room.2.2)
  have hold : ∀ id < t.len, (HostDispatch.expand t newLen).outStreams id = t.outStreams id := fun id hid => if_pos hid
  refine ⟨_, { (less_expand (Nat.le_of_lt hlt)).sound h.toSound with
    lists := hlists, room := ⟨Nat.lt_trans h.room.1 hlt, hle, h.room.2.2⟩, index := h.index, owns := fun r q hq hid => ?_,
    live := fun id r ha => ?_, covers := fun hsmall id hid => ?_, streams := h.streams,
    calm := h.calm, unborn := h.unborn }⟩
  · exact (hold _ ((h.placed r).resolve_left hid)).trans (h.owns r q hq hid)
  · by_cases hid : id < t.len
    · rw [hold id hid] at ha
      exact h.live id r ha
    · have hfree : (HostDispatch.expand t newLen).outStreams id = .free _ := if_neg hid
      rw [hfree] at ha
      cases ha
  · have hsmall : newLen < 2 ^ 16 := hsmall
    have hid : id < newLen := hid
    by_cases hlen : id < t.len
    · rcases h.covers (Nat.lt_trans hlt hsmall) id hlen with ⟨k, hk, hmem⟩ | ⟨r, ha⟩
      · refine .inl ⟨k, hk, ?_⟩
        cases k with
        | zero =>
          rw [update_self]
          exact hall hsmall id (.inr hmem)
        | succ k => rwa [update_of_ne (Nat.succ_ne_zero k)]
      · exact .inr ⟨r, (hold id hlen).trans ha⟩
    · refine .inl ⟨0, Nat.zero_le _, ?_⟩
      rw [update_self]
      exact hall hsmall id (.inl ⟨Nat.not_lt.mp hlen, hid⟩)

theorem setRecord_self (t : T) (r : Nat) (record : Record) : (t.setRecord r record).records r = record :=
  update_self ..

theorem setRecord_ne {r' : Nat} (h : r' ≠ r) (t : T) (record : Record) : (t.setRecord r record).records r' = t.records r' :=
  update_of_ne h ..

/-- The first id comes off the free list. -/
theorem Lists.pop (h : Lists t L) (hne : t.writeFree ≠ nill) :
    ∃ next l, t.outStreams t.writeFree = .free next ∧ t.writeFree < t.len ∧ L 0 = t.writeFree :: l ∧
      Lists { t with writeFree := next } (update L 0 l) ∧ ∀ k, t.writeFree ∉ update L 0 l k := by
  obtain ⟨next, l, hL, hnext, hl⟩ := (h.chain 0).uncons hne
  have hL : L 0 = t.writeFree :: l := hL
  have hmem : t.writeFree ∈ L 0 := by
    rw [hL]
    exact .head _
  have hd : t.writeFree ∉ l ∧ l.Nodup := List.nodup_cons.mp (hL ▸ h.once 0)
  have sub : ∀ k x, x ∈ update L 0 l k → x ∈ L k := by
    intro k x hx
    by_cases hk : k = 0
    · subst hk
      rw [update_self] at hx
      rw [hL]
      exact .tail _ hx
    · rwa [update_of_ne hk] at hx
  refine ⟨next, l, nextOf_some hnext, h.small 0 _ hmem, hL, ⟨fun k => ?_, fun k => ?_,
    fun j k x hj hk => h.apart j k x (sub j x hj) (sub k x hk), fun k x hx => h.small k x (sub k x hx)⟩, ?_⟩
  · cases k with
    | zero =>
      rw [update_self]
      exact hl
    | succ k =>
      rw [update_of_ne (Nat.succ_ne_zero k)]
      exact h.chain (k + 1)
  · by_cases hk : k = 0
    · subst hk
      rw [update_self]
      exact hd.2
    · rw [update_of_ne hk]
      exact h.once k
  · intro k hk
    have h0 := h.apart k 0 _ (sub k _ hk) hmem
    subst h0
    rw [update_self] at hk
    exact hd.1 hk

/-- The first id of the free list is allocated to a stream that has none. -/
theorem Sane.take (h : Sane B t L down) (hne : t.writeFree ≠ nill) {q : OutStreamQueue.T} (hq : (t.records r).stream = .outStream q)
    (hr : r < t.created) (hin : (t.records r).inHeap = true) (hid : (t.records r).id = nill) :
    ∃ next L', t.outStreams t.writeFree = .free next ∧ t.writeFree < t.len ∧
      Sane B { t.setRecord r { t.records r with stream := .outStream { q with id := t.writeFree }, id := t.writeFree } with
        writeFree := next, outStreams := update t.outStreams t.writeFree (.alloc r) } L' down := by
  obtain ⟨next, l, hfree, hlt, hL, htaken, hout⟩ := h.lists.pop hne
  have hwritten := htaken.write hout (.alloc r)
  refine ⟨next, update L 0 l, hfree, hlt, ?_⟩
  exact {
    placed := fun r' => by
      by_cases hr' : r' = r
      · subst hr'
        refine .inr ?_
        show ((t.setRecord r' _).records r').id < t.len
        rw [setRecord_self]
        exact hlt
      · show ((t.setRecord r _).records r').id = nill ∨ ((t.setRecord r _).records r').id < t.len
        rw [setRecord_ne hr']
        exact h.placed r'
    seated := fun r' hne' => by
      have hne' : ((t.setRecord r _).records r').id ≠ nill := hne'
      show ((t.setRecord r _).records r').inHeap = true
      by_cases hr1 : r' = r
      · subst hr1
        rw [setRecord_self]
        exact hin
      · rw [setRecord_ne hr1] at hne' ⊢
        exact h.seated r' hne'
    fresh := fun r' hr' => by
      show ((t.setRecord r _).records r').id = nill
      rw [setRecord_ne fun (heq : r' = r) => absurd hr (Nat.not_lt.mpr (heq ▸ hr'))]
      exact h.fresh r' hr'
    ins := fun id' r' hr' => by
      obtain ⟨hc, x, hx⟩ := h.ins id' r' hr'
      refine ⟨hc, x, ?_⟩
      show ((t.setRecord r _).records r').stream = _
      rw [setRecord_ne fun (heq : r' = r) => by rw [heq, hq] at hx; cases hx]
      exact hx
    outs := fun id' r' hr' => by
      by_cases hr1 : r' = r
      · subst hr1
        exact ⟨hr, { q with id := t.writeFree }, congrArg Record.stream (setRecord_self ..)⟩
      · have hr' : update t.outStreams t.writeFree (.alloc r) id' = .alloc r' := hr'
        by_cases hx : id' = t.writeFree
        · subst hx
          rw [update_self] at hr'
          cases hr'
          exact absurd rfl hr1
        · rw [update_of_ne hx] at hr'
          obtain ⟨hc, x, hx⟩ := h.outs id' r' hr'
          refine ⟨hc, x, ?_⟩
          show ((t.setRecord r _).records r').stream = _
          rw [setRecord_ne hr1]
          exact hx
    lists := hwritten.congr rfl rfl rfl rfl
    room := h.room
    index := h.index
    owns := fun r' x hx hne' => by
      show update t.outStreams t.writeFree (.alloc r) ((t.setRecord r _).records r').id = _
      by_cases hr' : r' = r
      · subst hr'
        rw [setRecord_self]
        exact update_self ..
      · have hx : ((t.setRecord r _).records r').stream = _ := hx
        have hne' : ((t.setRecord r _).records r').id ≠ nill := hne'
        rw [setRecord_ne hr'] at hx hne' ⊢
        have howns := h.owns r' x hx hne'
        rw [update_of_ne fun heq => by rw [heq, hfree] at howns; cases howns]
        exact howns
    live := fun id' r' ha => by
      have ha : update t.outStreams t.writeFree (.alloc r) id' = .alloc r' := ha
      show id' ≠ nill ∧ ((t.setRecord r _).records r').id = id' ∧ ((t.setRecord r _).records r').inHeap = true
      by_cases hx : id' = t.writeFree
      · subst hx
        rw [update_self] at ha
        cases ha
        rw [setRecord_self]
        exact ⟨hne, rfl, hin⟩
      · rw [update_of_ne hx] at ha
        have hlive := h.live id' r' ha
        rw [setRecord_ne fun heq => hlive.1 (by rw [← hlive.2.1, heq, hid])]
        exact hlive
    covers := fun hsmall id' hid' => by
      show (∃ k ≤ 16, id' ∈ update L 0 l k) ∨ ∃ r', update t.outStreams t.writeFree (.alloc r) id' = .alloc r'
      by_cases hx : id' = t.writeFree
      · subst hx
        exact .inr ⟨r, update_self ..⟩
      · rw [update_of_ne hx]
        rcases h.covers hsmall id' hid' with ⟨k, hk, hmem'⟩ | ha
        · refine .inl ⟨k, hk, ?_⟩
          cases k with
          | zero =>
            rw [update_self]
            rw [hL] at hmem'
            exact (List.mem_cons.mp hmem').resolve_left hx
          | succ k => rwa [update_of_ne (Nat.succ_ne_zero k)]
        · exact .inr ha
    streams := fun r' hr' => by
      show ((t.setRecord r _).records r').stream ≠ _
      by_cases hr1 : r' = r
      · subst hr1
        rw [setRecord_self]
        exact Stream.noConfusion
      · rw [setRecord_ne hr1]
        exact h.streams r' hr'
    calm := fun r' x hx hheap => by
      have hx : ((t.setRecord r _).records r').stream = _ := hx
      have hheap : ((t.setRecord r _).records r').inHeap = true := hheap
      show ∃ i, i ≠ nill ∧ Calm i (down r') x.log x ∧ Hears ((t.setRecord r _).records r') (mood i x)
      by_cases hr1 : r' = r
      · subst hr1
        rw [setRecord_self] at hx
        cases hx
      · rw [setRecord_ne hr1] at hx hheap ⊢
        exact h.calm r' x hx hheap
    unborn := h.unborn }

/-- A record is pulled for the first time, while the tables can still double. -/
theorem Sane.assign (h : Sane B t L down) (hr : r < t.created) (hin : (t.records r).inHeap = true)
    (hin0 : ∀ q, (t.records r).stream = .inStream q → (t.records r).id ≠ nill)
    (hroom : (t.records r).id = nill → t.writeFree = nill → t.len * 2 ≤ B) :
    ∃ t' id L', assign t r = .ok (t', id) ∧ Sane B t' L' down ∧ t'.created = t.created ∧
      (t' = t ∧ id = (t.records r).id ∨ ∃ q, (t'.records r).stream = .outStream q) := by
  by_cases hid : (t.records r).id = nill
  · cases hq : (t.records r).stream with
    | noStream => exact absurd hq (h.streams r hr)
    | inStream q => exact absurd hid (hin0 q hq)
    | outStream q =>
      obtain ⟨t1, L1, ht1, h1, hne, hrec, hcr⟩ : ∃ t1 L1, (if t.writeFree = nill then HostDispatch.expand t (t.len * 2) else t) = t1 ∧
          Sane B t1 L1 down ∧ t1.writeFree ≠ nill ∧ t1.records = t.records ∧ t1.created = t.created := by
        by_cases hfree : t.writeFree = nill
        · have hle := hroom hid hfree
          obtain ⟨hpos, -, hB⟩ := h.room
          obtain ⟨L1, h1⟩ := h.expand (show t.len < t.len * 2 by omega) hle
          refine ⟨_, L1, if_pos hfree, h1, ?_, rfl, rfl⟩
          show t.len % 2 ^ 16 ≠ nill
          rw [Nat.mod_eq_of_lt (by omega)]
          have hnill : nill = 2 ^ 16 - 1 := rfl
          omega
        · exact ⟨t, L, if_neg hfree, h, hfree, rfl, rfl⟩
      rw [← hrec] at hq hin hid
      obtain ⟨next, L2, hnext, hlt, h2⟩ := h1.take hne hq (hcr ▸ hr) hin hid
      have halloc : allocId t = .ok ({ t1 with writeFree := next }, t1.writeFree) := by
        unfold allocId
        dsimp only
        rw [ht1, if_neg (Nat.not_le.mpr hlt), hnext]
      refine ⟨_, t1.writeFree, L2, ?_, h2, hcr, .inr ⟨{ q with id := t1.writeFree }, ?_⟩⟩
      · unfold HostDispatch.assign
        dsimp only
        rw [← hrec, if_neg (fun hne => hne hid), halloc]
        simp only [bind, Except.bind, hq]
        rfl
      · show ((t1.setRecord r _).records r).stream = _
        rw [setRecord_self]
  · refine ⟨t, (t.records r).id, L, ?_, h, rfl, .inl ⟨rfl, rfl⟩⟩
    unfold HostDispatch.assign
    dsimp only
    rw [if_pos hid]
    rfl

/-- The ids that cooled down long enough go in front of the free list. -/
theorem Lists.tick (h : Lists t L) (k i : Nat) :
    ∃ f new, drain t.len t (t.cooldowns k) t.writeFree = .ok ({ t with outStreams := f }, new) ∧
      Lists { t with outStreams := f, writeFree := new, cooldownIndex := i, cooldowns := update t.cooldowns k nill }
        (update (update L 0 ((L (k + 1)).reverse ++ L 0)) (k + 1) []) ∧
      ∀ id r, f id = .alloc r ↔ t.outStreams id = .alloc r := by
  have happend : (L (k + 1) ++ L 0).Nodup := by
    refine List.nodup_append.mpr ⟨h.once _, h.once 0, fun x hx y hy heq => ?_⟩
    have hxy := h.apart (k + 1) 0 x hx (heq ▸ hy)
    exact Nat.succ_ne_zero k hxy
  have hlen : (L (k + 1)).length ≤ t.len := by
    have hsub : (L (k + 1)).Subperm (List.range t.len) :=
      List.subperm_of_subset (h.once _) fun x hx => List.mem_range.mpr (h.small _ x hx)
    have hle := hsub.length_le
    rwa [List.length_range] at hle
  obtain ⟨f, new, hdrain, hchain, hsame⟩ := drain_chain (h.chain (k + 1)) (h.chain 0) happend (h.small _) hlen
  have hother : ∀ j, j ≠ 0 → j ≠ k + 1 → Chain nill (nextOf f) (head t j) (L j) := fun j _ hj =>
    (h.chain j).congr fun x hx => by
      unfold nextOf
      rw [hsame x fun hmem => hj (h.apart j (k + 1) x hx hmem)]
  have sub : ∀ j x, x ∈ update (update L 0 ((L (k + 1)).reverse ++ L 0)) (k + 1) [] j →
      x ∈ L j ∧ j ≠ k + 1 ∨ j = 0 ∧ x ∈ L (k + 1) := by
    intro j x hx
    by_cases hj : j = k + 1
    · subst hj
      rw [update_self] at hx
      cases hx
    · rw [update_of_ne hj] at hx
      by_cases h0 : j = 0
      · subst h0
        rw [update_self] at hx
        rcases List.mem_append.mp hx with hx | hx
        · exact .inr ⟨rfl, List.mem_reverse.mp hx⟩
        · exact .inl ⟨hx, hj⟩
      · rw [update_of_ne h0] at hx
        exact .inl ⟨hx, hj⟩
  refine ⟨f, new, hdrain, ⟨fun j => ?_, fun j => ?_, fun i j x hi hj => ?_, fun j x hx => ?_⟩, fun id r => ⟨fun ha => ?_, fun ha => ?_⟩⟩
  · by_cases hj : j = k + 1
    · subst hj
      rw [update_self]
      exact update_self ..
    · rw [update_of_ne hj]
      by_cases h0 : j = 0
      · subst h0
        rw [update_self]
        exact hchain
      · rw [update_of_ne h0]
        cases j with
        | zero => exact absurd rfl h0
        | succ j =>
          have hne : j ≠ k := fun heq => hj (congrArg Nat.succ heq)
          show Chain nill (nextOf f) (update t.cooldowns k nill j) _
          rw [update_of_ne hne]
          exact hother (j + 1) h0 hj
  · by_cases hj : j = k + 1
    · subst hj
      rw [update_self]
      exact List.nodup_nil
    · rw [update_of_ne hj]
      by_cases h0 : j = 0
      · subst h0
        rw [update_self]
        have hperm : ((L (k + 1)).reverse ++ L 0).Perm (L (k + 1) ++ L 0) := (List.reverse_perm _).append_right _
        exact hperm.nodup_iff.mpr happend
      · rw [update_of_ne h0]
        exact h.once j
  · rcases sub i x hi with ⟨hi1, hik⟩ | ⟨rfl, hi1⟩
    · rcases sub j x hj with ⟨hj1, -⟩ | ⟨rfl, hj1⟩
      · exact h.apart i j x hi1 hj1
      · exact absurd (h.apart i (k + 1) x hi1 hj1) hik
    · rcases sub j x hj with ⟨hj1, hjk⟩ | ⟨rfl, -⟩
      · exact absurd (h.apart j (k + 1) x hj1 hi1) hjk
      · rfl
  · rcases sub j x hx with ⟨hx, -⟩ | ⟨-, hx⟩
    · exact h.small j x hx
    · exact h.small _ x hx
  · by_cases hmem : id ∈ L (k + 1)
    · have hin : id ∈ (L (k + 1)).reverse ++ L 0 := List.mem_append_left _ (List.mem_reverse.mpr hmem)
      obtain ⟨-, y, hy⟩ := hchain.entry hin
      rw [nextOf_some hy] at ha
      cases ha
    · exact (hsame id hmem).symm.trans ha
  · exact (hsame id (h.allocated ha _)).trans ha

theorem Sane.tick (h : Sane B t L down) : ∃ t' L', tickCooldown t = .ok t' ∧ Sane B t' L' down := by
  obtain ⟨k, hk⟩ : ∃ k, k = if t.cooldownIndex = 15 then 0 else t.cooldownIndex + 1 := ⟨_, rfl⟩
  obtain ⟨f, new, hdrain, hlists, halloc⟩ := h.lists.tick k k
  refine ⟨{ t with outStreams := f, writeFree := new, cooldownIndex := k, cooldowns := update t.cooldowns k nill },
    update (update L 0 ((L (k + 1)).reverse ++ L 0)) (k + 1) [], ?_, ?_⟩
  · unfold tickCooldown
    rw [← hk]
    dsimp only
    rw [hdrain]
    rfl
  exact {
    placed := h.placed
    seated := h.seated
    fresh := h.fresh
    ins := h.ins
    outs := fun id r ha => h.outs id r ((halloc id r).mp ha)
    lists := hlists
    room := h.room
    index := by
      rw [hk]
      have hindex := h.index
      show (if t.cooldownIndex = 15 then 0 else t.cooldownIndex + 1) < 16
      split
      · exact Nat.succ_pos _
      · omega
    owns := fun r q hq hid => (halloc _ r).mpr (h.owns r q hq hid)
    live := fun id r ha => h.live id r ((halloc id r).mp ha)
    covers := fun hsmall id hid => by
      rcases h.covers hsmall id hid with ⟨j, hj, hmem⟩ | ⟨r, ha⟩
      · by_cases hjk : j = k + 1
        · subst hjk
          refine .inl ⟨0, Nat.zero_le _, ?_⟩
          rw [update_of_ne (Nat.succ_ne_zero k).symm, update_self]
          exact List.mem_append_left _ (List.mem_reverse.mpr hmem)
        · refine .inl ⟨j, hj, ?_⟩
          rw [update_of_ne hjk]
          by_cases h0 : j = 0
          · subst h0
            rw [update_self]
            exact List.mem_append_right _ hmem
          · rwa [update_of_ne h0]
      · exact .inr ⟨r, (halloc id r).mpr ha⟩
    streams := h.streams
    calm := h.calm
    unborn := h.unborn }

/-! ## The application -/

/-- Streams are made, and keep their kind. -/
structure Grows (t t' : T) : Prop where
  created : t.created ≤ t'.created
  kinds : ∀ r < t.created, sameKind (t.records r).stream (t'.records r).stream

theorem grows_refl (t : T) : Grows t t := ⟨Nat.le_refl _, fun _ _ => sameKind_refl _⟩

theorem Less.grows (h : Less t t') : Grows t t' := ⟨Nat.le_of_eq h.created.symm, fun r _ => h.kinds r⟩

theorem sameKind_trans {a b c : Stream} (h : sameKind a b) (h' : sameKind b c) : sameKind a c := by
  cases a <;> cases b <;> cases c <;> trivial

theorem Grows.trans {t'' : T} (h : Grows t t') (h' : Grows t' t'') : Grows t t'' :=
  ⟨Nat.le_trans h.created h'.created, fun r hr =>
    sameKind_trans (h.kinds r hr) (h'.kinds r (Nat.lt_of_lt_of_le hr h.created))⟩

theorem push_self (t : T) (stream : Stream) (id service : Nat) :
    (t.push stream id service).records t.created = ⟨stream, id, service, true, .negInf⟩ := update_self ..

theorem push_ne (h : r ≠ t.created) (stream : Stream) (id service : Nat) :
    (t.push stream id service).records r = t.records r := update_of_ne h ..

theorem grows_push (t : T) (stream : Stream) (id service : Nat) : Grows t (t.push stream id service) := by
  refine ⟨Nat.le_succ _, fun r hr => ?_⟩
  rw [push_ne (Nat.ne_of_lt hr)]
  exact sameKind_refl _

/-- A new record in the heap. -/
theorem Records.push (h : Records t down) {stream : Stream} {service : Nat} (hid : id = nill ∨ id < t.len)
    (hs : stream ≠ .noStream) (hcalm : ∀ q, stream = .inStream q → id ≠ nill ∧ q = InStreamQueue.new id) :
    Records (t.push stream id service) down := by
  refine { sound_push h.toSound stream hid service with
    streams := fun r hr => ?_, calm := fun r q hq hin => ?_, unborn := fun r hr => ?_ }
  · by_cases hr' : r = t.created
    · subst hr'
      rw [push_self]
      exact hs
    · rw [push_ne hr']
      exact h.streams r (Nat.lt_of_le_of_ne (Nat.le_of_lt_succ hr) hr')
  · by_cases hr' : r = t.created
    · subst hr'
      rw [push_self] at hq ⊢
      obtain ⟨hne, rfl⟩ := hcalm q hq
      refine ⟨id, hne, ?_, rfl, rfl, rfl⟩
      rw [h.unborn _ (Nat.le_refl _)]
      exact calm_new id
    · rw [push_ne hr'] at hq hin ⊢
      exact h.calm r q hq hin
  · have hr' : t.created + 1 ≤ r := hr
    exact h.unborn r (by omega)

theorem Table.push (h : Table B t L) (hs : Sound t) {stream : Stream} {service : Nat}
    (hq : ∀ q, stream = .outStream q → id = nill) : Table B (t.push stream id service) L := by
  refine { h with lists := h.lists.congr rfl rfl rfl rfl, owns := fun r q hr hid => ?_, live := fun id' r ha => ?_ }
  · by_cases hr' : r = t.created
    · subst hr'
      rw [push_self] at hr hid
      exact absurd (hq q hr) hid
    · rw [push_ne hr'] at hr hid ⊢
      exact h.owns r q hr hid
  · have hlt := (hs.outs id' r ha).1
    rw [push_ne (Nat.ne_of_lt hlt)]
    exact h.live id' r ha

/-- The services that are listened for are no part of it. -/
theorem Records.listen (h : Records t down) (l : List Nat) : Records { t with listen := l } down ∧
    Grows t { t with listen := l } ∧ ∀ B L, Table B t L → ∃ L', Table B { t with listen := l } L' :=
  ⟨⟨⟨h.placed, h.seated, h.fresh, h.ins, h.outs⟩, h.streams, h.calm, h.unborn⟩, ⟨Nat.le_refl _, fun _ _ => sameKind_refl _⟩,
    fun _ L ht => ⟨L, ht.lists.congr rfl rfl rfl rfl, ht.room, ht.index, ht.owns, ht.live, ht.covers⟩⟩

/-- A call of the application. -/
theorem Records.call (h : Records t down) (a : App) :
    ∃ t', call t a = .ok t' ∧ Records t' down ∧ Grows t t' ∧ ∀ B L, Table B t L → ∃ L', Table B t' L' := by
  cases a with
  | connect port =>
    refine ⟨_, rfl, h.push (.inl rfl) Stream.noConfusion ?_, grows_push .., fun _ L ht => ⟨L, ht.push h.toSound fun _ _ => rfl⟩⟩
    intro q hq
    cases hq
  | outStream r op =>
    unfold HostDispatch.call
    dsimp only
    split
    · rename_i q hq
      obtain ⟨t', ht', hrec, hless, htable⟩ := h.ranOut hq (OutStreamQueue.exec q op)
      exact ⟨t', ht', hrec, hless.grows, htable⟩
    · exact ⟨t, rfl, h, grows_refl t, fun _ L ht => ⟨L, ht⟩⟩
  | inStream r op =>
    unfold HostDispatch.call
    dsimp only
    split
    · rename_i q hq
      obtain ⟨t', ht', hrec, -, hless, htable⟩ := h.ranIn hq fun _ hc => hc.exec op
      exact ⟨t', ht', hrec, hless.grows, fun B L ht => ⟨L, htable B L ht⟩⟩
    · exact ⟨t, rfl, h, grows_refl t, fun _ L ht => ⟨L, ht⟩⟩
  | listen port => exact ⟨_, rfl, h.listen _⟩
  | unlisten port => exact ⟨_, rfl, h.listen _⟩

theorem Records.calls (h : Records t down) (app : List App) :
    ∃ t', app.foldlM HostDispatch.call t = .ok t' ∧ Records t' down ∧ Grows t t' := by
  induction app generalizing t with
  | nil => exact ⟨t, rfl, h, grows_refl t⟩
  | cons a app ih =>
    obtain ⟨t1, ht1, h1, hg1, -⟩ := h.call a
    obtain ⟨t2, ht2, h2, hg2⟩ := ih h1
    exact ⟨t2, by rw [List.foldlM_cons, ht1]; exact ht2, h2, hg1.trans hg2⟩

/-! ## Receiving -/

/-- No `Fail` is raised. -/
def NoFail {α : Type} (x : Except Exn α) : Prop := ∀ msg, x ≠ .error (.fail msg)

theorem noFail_ok {α : Type} (a : α) : NoFail (.ok a : Except Exn α) := fun _ h => by cases h

theorem NoFail.bind {α β : Type} {x : Except Exn α} {f : α → Except Exn β} (hx : NoFail x) (hf : ∀ a, x = .ok a → NoFail (f a)) :
    NoFail (x >>= f) := by
  intro msg h
  cases hcase : x with
  | error e =>
    rw [hcase] at h
    cases h
    exact hx msg hcase
  | ok a =>
    rw [hcase] at h
    exact hf a hcase msg h

theorem noFail_ite {α : Type} {c : Prop} [Decidable c] {x y : Except Exn α} (hx : NoFail x) (hy : NoFail y) :
    NoFail (if c then x else y) := by
  split
  · exact hx
  · exact hy

theorem noFail_subscript {α : Type} : NoFail (.error .subscript : Except Exn α) := fun _ h => by cases h

theorem parseSlice_noFail (data : Slice) : NoFail (parseSlice data) :=
  noFail_ite (fun _ h => by cases h) (noFail_ite noFail_subscript (noFail_ok _))

theorem parse_noFail (data : Slice) : NoFail (PacketFormat.parse data) :=
  noFail_ite (noFail_ok _) ((parseSlice_noFail data).bind fun _ _ => noFail_ok _)

theorem parser_noFail (data : Slice) : NoFail (parser data) :=
  NoFail.bind (noFail_ite noFail_subscript (noFail_ok _)) fun _ _ => parseSlice_noFail _

theorem recvIn_noFail (q : InStreamQueue.T) (data : Slice) (msg : Reader) (own : List InStreamQueue.Op) :
    NoFail (InStreamQueue.recv q data msg own) := by
  cases msg with
  | writerResets => exact noFail_ok _
  | data eof offset length =>
    have hslice : ∀ (start : Nat) (f : Slice → Except Exn (InStreamQueue.T × Int)), (∀ d, NoFail (f d)) →
        NoFail (data.subslice start length >>= f) := fun start f hf =>
      NoFail.bind (noFail_ite noFail_subscript (noFail_ok _)) fun d _ => hf d
    refine noFail_ite (noFail_ok _) (noFail_ite ?_ ?_)
    · exact (parser_noFail data).bind fun _ _ => hslice _ _ fun _ => noFail_ok _
    · exact (noFail_ok _).bind fun _ _ => hslice _ _ fun _ => noFail_ok _

theorem recvOut_noFail (q : OutStreamQueue.T) (data : Slice) (msg : Writer) : NoFail (OutStreamQueue.recv q data msg) := by
  cases msg with
  | readerResets => exact noFail_ok _
  | readerBarrier => exact (parser_noFail data).bind fun _ _ => noFail_ok _

theorem contain_lt {w : Nat} {k : Nat} (h : w < 2 ^ k) : contain w < 2 ^ k := by
  have hslide : ∀ {v : Nat} (i : Nat), v < 2 ^ k → v ||| (v >>> i) < 2 ^ k := fun i hv =>
    Nat.or_lt_two_pow hv (Nat.lt_of_le_of_lt (Nat.shiftRight_le _ i) hv)
  exact hslide 8 (hslide 4 (hslide 2 (hslide 1 h)))

/-- The id of the in-stream that a segment makes. -/
def makes (t : T) (data : Slice) : Option Nat :=
  match PacketFormat.parse data, data.tail 4 with
  | .ok (.connect _ seq), .ok subdata =>
    match PacketFormat.parse subdata with
    | .ok (.reader _ id) => if seq = getReaderSeq t id ∧ noExpandSubReader t id = none then some id else none
    | _ => none
  | _, _ => none

theorem Sane.gotConnection (h : Sane B t L down) (hid : id ≠ nill) (hlt : id < t.len) (service : Nat) :
    ∃ t', gotConnection t id service = .ok t' ∧ Sane B t' L down := by
  have hrec : Records (t.push (.inStream (InStreamQueue.new id)) id 0) down := by
    refine h.toRecords.push (.inr hlt) Stream.noConfusion fun q hq => ?_
    cases hq
    exact ⟨hid, rfl⟩
  have htable : Table B (t.push (.inStream (InStreamQueue.new id)) id 0) L := by
    refine h.toTable.push h.toSound fun q hq => ?_
    cases hq
  have hself : ((t.push (.inStream (InStreamQueue.new id)) id 0).records t.created).stream = .inStream (InStreamQueue.new id) := by
    rw [push_self]
  have hs : Sane B { t.push (.inStream (InStreamQueue.new id)) id 0 with
      inStreams := update (t.push (.inStream (InStreamQueue.new id)) id 0).inStreams id (some t.created) } L down := by
    refine { hrec, htable with
      ins := fun id' r hr => ?_, lists := htable.lists.congr rfl rfl rfl rfl }
    by_cases hx : id' = id
    · subst hx
      have hr : update t.inStreams id' (some t.created) id' = some r := hr
      rw [update_self] at hr
      cases hr
      exact ⟨Nat.lt_succ_self _, _, hself⟩
    · have hr : update t.inStreams id (some t.created) id' = some r := hr
      rw [update_of_ne hx] at hr
      exact hrec.ins id' r hr
  unfold HostDispatch.gotConnection
  dsimp only
  rw [if_neg (Nat.not_le.mpr (show id < (t.push (.inStream (InStreamQueue.new id)) id 0).len from hlt))]
  split
  · exact ⟨_, rfl, hs⟩
  · obtain ⟨t', ht', hs', -⟩ := hs.ranIn (r := t.created) hself fun _ hc => calm_reset (.inr hc) hc.grew
    exact ⟨t', ht', hs'⟩

/-- A segment that makes no in-stream under 0xffff, and none the tables have no room for. -/
theorem Sane.recvSegment (h : Sane B t L down) {data : Slice} (hmakes : ∀ id, makes t data = some id → id ≠ nill ∧ (t.len ≤ id → contain id < B))
    (own : List InStreamQueue.Op) :
    NoFail (recvSegment t data own) ∧ ∀ t' n, recvSegment t data own = .ok (t', n) → ∃ L', Sane B t' L' down := by
  have keep : ∀ n : Int, NoFail (.ok (t, n) : Except Exn (T × Int)) ∧
      ∀ t' n', (.ok (t, n) : Except Exn (T × Int)) = .ok (t', n') → ∃ L', Sane B t' L' down := by
    refine fun n => ⟨noFail_ok _, fun t' n' heq => ?_⟩
    cases heq
    exact ⟨L, h⟩
  unfold HostDispatch.recvSegment
  cases hparse : PacketFormat.parse data with
  | error e => exact ⟨fun msg heq => parse_noFail data msg (hparse.trans (by cases heq; rfl)), fun _ _ heq => by cases heq⟩
  | ok seg =>
    cases seg with
    | corrupt => exact keep (-1)
    | reader msg id =>
      dsimp only [Bind.bind, Except.bind]
      cases hn : noExpandSubReader t id with
      | none => exact keep _
      | some r =>
        obtain ⟨q, hq⟩ := noExpandSubReader_some h.toSound hn
        cases hrecv : InStreamQueue.recv q data msg own with
        | error e =>
          simp only [hq, hrecv]
          refine ⟨fun msg' heq => recvIn_noFail q data msg own msg' (hrecv.trans ?_), fun _ _ heq => by cases heq⟩
          cases heq
          rfl
        | ok p =>
          obtain ⟨q', n⟩ := p
          obtain ⟨t', ht', hs, -⟩ := h.ranIn hq fun _ hc => hc.recv hrecv
          simp only [hq, hrecv, ht', pure, Except.pure]
          refine ⟨noFail_ok _, fun _ _ heq => ?_⟩
          cases heq
          exact ⟨L, hs⟩
    | writer msg id seq =>
      dsimp only [Bind.bind, Except.bind]
      split
      · exact keep _
      · cases hn : noExpandSubWriter t id with
        | free next => exact keep _
        | alloc r =>
          obtain ⟨q, hq⟩ := noExpandSubWriter_alloc h.toSound hn
          cases hrecv : OutStreamQueue.recv q data msg with
          | error e =>
            simp only [hq, hrecv]
            refine ⟨fun msg' heq => recvOut_noFail q data msg msg' (hrecv.trans ?_), fun _ _ heq => by cases heq⟩
            cases heq
            rfl
          | ok p =>
            obtain ⟨q', n⟩ := p
            obtain ⟨t', L', ht', hs, -⟩ := h.ranOut hq q'
            simp only [hq, hrecv, ht', pure, Except.pure]
            refine ⟨noFail_ok _, fun _ _ heq => ?_⟩
            cases heq
            exact ⟨L', hs⟩
    | connect service seq =>
      dsimp only [Bind.bind, Except.bind]
      cases htail : data.tail 4 with
      | error e =>
        have htail0 := htail
        unfold Slice.tail at htail0
        split at htail0
        · cases htail0
          exact ⟨noFail_subscript, fun _ _ heq => by cases heq⟩
        · cases htail0
      | ok subdata =>
        dsimp only
        cases hsub : PacketFormat.parse subdata with
        | error e => exact ⟨fun msg heq => parse_noFail subdata msg (hsub.trans (by cases heq; rfl)), fun _ _ heq => by cases heq⟩
        | ok seg =>
          cases seg with
          | reader msg id =>
            dsimp only
            split
            · exact keep _
            · rename_i hseq
              have hmade : noExpandSubReader t id = none → id ≠ nill ∧ (t.len ≤ id → contain id < B) := by
                intro hnone
                refine hmakes id ?_
                unfold makes
                simp only [hparse, htail, hsub]
                exact if_pos ⟨Decidable.not_not.mp hseq, hnone⟩
              obtain ⟨t1, L1, ht1, h1, hlt, hnone⟩ : ∃ t1 L1, expandSubReader t id = .ok (t1, t1.inStreams id) ∧ Sane B t1 L1 down ∧
                  id < t1.len ∧ (t1.inStreams id = none → noExpandSubReader t id = none) := by
                unfold expandSubReader
                dsimp only
                by_cases hlen : t.len ≤ id
                · have hlt : id < contain id + 1 := Nat.lt_succ_of_le (le_contain id)
                  obtain ⟨L1, h1⟩ := h.expand (Nat.lt_of_le_of_lt hlen hlt) ((hmade (if_pos hlen)).2 hlen)
                  rw [if_pos hlen, if_pos (show id < (HostDispatch.expand t (contain id + 1)).len from hlt)]
                  exact ⟨_, L1, rfl, h1, hlt, fun _ => if_pos hlen⟩
                · rw [if_neg hlen, if_pos (Nat.not_le.mp hlen)]
                  exact ⟨t, L, rfl, h, Nat.not_le.mp hlen, fun hin => (if_neg hlen).trans hin⟩
              rw [ht1]
              cases hin : t1.inStreams id with
              | some r =>
                refine ⟨noFail_ok _, fun _ _ heq => ?_⟩
                cases heq
                exact ⟨L1, h1⟩
              | none =>
                obtain ⟨t2, ht2, h2⟩ := h1.gotConnection (hmade (hnone hin)).1 hlt service
                dsimp only
                rw [ht2]
                refine ⟨noFail_ok _, fun _ _ heq => ?_⟩
                cases heq
                exact ⟨L1, h2⟩
          | corrupt => exact keep _
          | writer _ _ _ => exact keep _
          | connect _ _ => exact keep _

end BubbleStorm.Cusp.Stream.HostDispatch
