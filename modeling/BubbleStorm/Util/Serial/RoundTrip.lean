/-
  BubbleStorm.Util.Serial.RoundTrip — when what was written is read back.

  `round_trips_iff`: exactly when every word is straight. A word that is not straight
  lands before its place, so some byte of the value is not written at all (`uncovered`),
  and what was in the array shows through.
-/

import Mathlib.Algebra.BigOperators.Group.List.Basic
import BubbleStorm.Util.Serial.Layout

namespace BubbleStorm.Util.Serial

open BubbleStorm.Cusp (Exn Bytes)
open BubbleStorm.Cusp.Stream (bind_ok)

/-- Every value of the type is stored as some `v`, whatever was in the array, and read
    back from it, as a vector and in every slice that is aligned and large enough. -/
def RoundTrips {α : Type} (s : Shape α) : Prop :=
  ∀ x, s.Dom x → ∃ v : Bytes, v.length = s.serial.length ∧
    (∀ a0 : Bytes, a0.length = s.serial.length → toVector s.serial a0 x = .ok v) ∧ fromVector s.serial v = .ok x ∧
    ∀ slice : ArraySlice, slice.i + slice.n ≤ slice.array.length → slice.i &&& s.serial.align = 0 →
      s.serial.length ≤ slice.n →
      writeSlice s.serial slice x = .ok (splice slice.array slice.i v) ∧
        parseSlice s.serial { slice with array := splice slice.array slice.i v } = .ok x

/-! ## Aligned slices -/

theorem padWords_le {pad off j : Nat} {w : Word} (h : w ∈ padWords pad off j) : w.j = j ∧ 2 ^ w.k ≤ pad := by
  have bit : ∀ m, pad &&& m ≠ 0 → m = 1 ∨ m = 2 ∨ m = 4 → m ≤ pad := by
    intro m hm hcases
    by_contra hlt
    apply hm
    rcases hcases with rfl | rfl | rfl
    · have : pad < 1 := by omega
      interval_cases pad
      rfl
    · have : pad < 2 := by omega
      interval_cases pad <;> rfl
    · have : pad < 4 := by omega
      interval_cases pad <;> rfl
  unfold padWords at h
  simp only [List.mem_append, List.mem_ite_nil_right, List.mem_singleton] at h
  rcases h with (⟨hb, rfl⟩ | ⟨hb, rfl⟩) | ⟨hb, rfl⟩
  · exact ⟨rfl, bit 1 hb (.inl rfl)⟩
  · exact ⟨rfl, bit 2 hb (.inr (.inl rfl))⟩
  · exact ⟨rfl, bit 4 hb (.inr (.inr rfl))⟩

theorem Word.Straight.add {k i j m : Nat} (h : Word.Straight ⟨k, i, j⟩) (hm : 2 ^ k ∣ m) : Word.Straight ⟨k, i, j + m⟩ := by
  have hj : j % 2 ^ k = 0 := h
  show (j + m) % 2 ^ k = 0
  exact Nat.mod_eq_zero_of_dvd (Nat.dvd_add (Nat.dvd_of_mod_eq_zero hj) hm)

theorem padWords_add {pad off j m a : Nat} (ha : Mask a) (hpad : pad < a + 1) (hm : a + 1 ∣ m)
    (h : ∀ w ∈ padWords pad off j, w.Straight) : ∀ w ∈ padWords pad off (j + m), w.Straight := by
  intro w hw
  obtain ⟨hj, hle⟩ := padWords_le hw
  have hw' : Word.mk w.k w.i j ∈ padWords pad off j := by
    unfold padWords at hw ⊢
    simp only [List.mem_append, List.mem_ite_nil_right, List.mem_singleton] at hw ⊢
    rcases hw with (⟨hb, rfl⟩ | ⟨hb, rfl⟩) | ⟨hb, rfl⟩
    · exact .inl (.inl ⟨hb, rfl⟩)
    · exact .inl (.inr ⟨hb, rfl⟩)
    · exact .inr ⟨hb, rfl⟩
  obtain ⟨k, -, hk⟩ := ha
  have hlt : w.k < k := by
    by_contra hge
    have := Nat.pow_le_pow_right (n := 2) (by decide) (Nat.le_of_not_lt hge)
    omega
  have hdvd : 2 ^ w.k ∣ m := Nat.dvd_trans (Nat.pow_dvd_pow 2 (Nat.le_of_lt hlt)) (hk ▸ hm)
  have := (h _ hw').add hdvd
  rwa [← hj] at this

mutual

/-- Moving a value by a multiple of its alignment keeps its words straight. -/
theorem Shape.straight_add : ∀ {α : Type} (s : Shape α) {i j m : Nat}, s.serial.align + 1 ∣ m →
    (∀ w ∈ s.words i j, w.Straight) → ∀ w ∈ s.words i (j + m), w.Straight
  | _, .basic p, i, j, m, hm, h => by
    cases p with
    | unit => exact nofun
    | wordl k hk | wordb k hk =>
      have hm' : 2 ^ k - 1 + 1 ∣ m := hm
      rw [Nat.sub_add_cancel (Nat.two_pow_pos k)] at hm'
      intro w hw
      rw [List.mem_singleton.mp hw]
      exact (h _ (.head _)).add hm'
    | bool =>
      intro w hw
      rw [List.mem_singleton.mp hw]
      exact Nat.mod_one _
  | _, .map _ _ base, i, j, m, hm, h => base.straight_add hm h
  | _, .aggregate _ _ c, i, j, m, hm, h => c.straight_add hm h
  | _, .vector base len, i, j, m, hm, h => by
    intro w hw
    obtain ⟨n, hn, hw⟩ := List.mem_flatMap.mp hw
    have e : i + (j + m) + n * base.serial.length = i + j + n * base.serial.length + m := by omega
    rw [e] at hw
    exact base.straight_add hm (fun u hu => h u (List.mem_flatMap.mpr ⟨n, hn, hu⟩)) w hw

theorem Components.straight_add : ∀ {γ : Type} (c : Components γ) {off j m : Nat}, c.serial.align + 1 ∣ m →
    (∀ w ∈ c.words off j, w.Straight) → ∀ w ∈ c.words off (j + m), w.Straight
  | _, .nil, off, j, m, hm, h => nofun
  | _, .cons base rest, off, j, m, hm, h => by
    have hb : base.serial.align + 1 ∣ m :=
      Nat.dvd_trans (base.mask.dvd (base.mask.max rest.mask) (Nat.le_max_left _ _)) hm
    have hr : rest.serial.align + 1 ∣ m :=
      Nat.dvd_trans (rest.mask.dvd (base.mask.max rest.mask) (Nat.le_max_right _ _)) hm
    intro w hw
    rcases List.mem_append.mp hw with hw | hw
    · rcases List.mem_append.mp hw with hw | hw
      · refine padWords_add base.mask (alignTo_sub_lt off _) hb (fun u hu => h u ?_) w hw
        exact List.mem_append.mpr (.inl (List.mem_append.mpr (.inl hu)))
      · refine base.straight_add hb (fun u hu => h u ?_) w hw
        exact List.mem_append.mpr (.inl (List.mem_append.mpr (.inr hu)))
    · exact rest.straight_add hr (fun u hu => h u (List.mem_append.mpr (.inr hu))) w hw

end

/-! ## What a write leaves alone -/

/-- Where a word lands. -/
def Word.cells (w : Word) : List Nat := List.range' (shr w.i w.j w.k * 2 ^ w.k) (2 ^ w.k)

/-- `a'` is `a` with other bytes in the cells only. -/
structure Keeps (cells : List Nat) (a a' : Bytes) : Prop where
  length : a'.length = a.length
  same : ∀ p, p ∉ cells → a'[p]? = a[p]?

theorem Keeps.refl (a : Bytes) : Keeps [] a a := ⟨rfl, fun _ _ => rfl⟩

theorem Keeps.trans {c c' : List Nat} {a b d : Bytes} (h : Keeps c a b) (h' : Keeps c' b d) : Keeps (c ++ c') a d where
  length := h'.length.trans h.length
  same p hp := by
    rw [List.mem_append, not_or] at hp
    exact (h'.same p hp.2).trans (h.same p hp.1)

theorem packUpdate_keeps {k i j : Nat} {a a' v : Bytes} (hv : v.length = 2 ^ k)
    (h : packUpdate (2 ^ k) a (shr i j k) v = .ok a') : Keeps (Word.cells ⟨k, i, j⟩) a a' := by
  unfold packUpdate at h
  split at h
  · rename_i hle
    cases h
    generalize hcell : shr i j k * 2 ^ k = p at *
    have hp : (a.take p).length = p := List.length_take_of_le (by omega)
    refine ⟨by simp only [List.length_append, List.length_take, List.length_drop]; omega, fun q hq => ?_⟩
    have hq' : q < p ∨ p + 2 ^ k ≤ q := by
      by_contra hc
      apply hq
      show q ∈ List.range' (shr i j k * 2 ^ k) (2 ^ k)
      rw [hcell, List.mem_range'_1]
      omega
    rw [List.append_assoc]
    rcases hq' with hq' | hq'
    · rw [List.getElem?_append_left (by omega), List.getElem?_take_of_lt hq']
    · rw [List.getElem?_append_right (by omega), List.getElem?_append_right (by omega), List.getElem?_drop]
      congr 1
      omega
  · cases h

theorem basic_keeps {α : Type} {k i j : Nat} {s : α → Bytes} {load : Bytes → α} {x : α} {a a' : Bytes}
    (hv : (s x).length = 2 ^ k) (h : (basic k s load).write a i j x = .ok a') : Keeps (Word.cells ⟨k, i, j⟩) a a' :=
  packUpdate_keeps hv h

theorem padding_keeps {pad : Nat} (hp : pad < 8) {a a' : Bytes} {off j : Nat} (h : padding a pad off j = .ok a') :
    Keeps ((padWords pad off j).flatMap Word.cells) a a' := by
  rw [padding_eq hp] at h
  generalize padWords pad off j = ws at h
  induction ws generalizing a with
  | nil =>
    cases h
    exact .refl _
  | cons w ws ih =>
    rw [List.foldlM_cons] at h
    obtain ⟨b, hb, h⟩ := bind_ok h
    exact (packUpdate_keeps List.length_replicate hb).trans (ih h)

theorem writeAll_keeps {α : Type} {base : S α} {p : Nat} {w : Nat → List Word} {v : List α} {n : Nat} {a a' : Bytes}
    (hb : ∀ m x, ∀ a a', base.write a 0 (p + m * base.length) x = .ok a' → Keeps ((w m).flatMap Word.cells) a a')
    (h : writeAll base p n v a = .ok a') : Keeps (((List.range' n v.length).flatMap w).flatMap Word.cells) a a' := by
  induction v generalizing n a with
  | nil =>
    cases h
    exact .refl _
  | cons x v ih =>
    obtain ⟨b, hw, h⟩ := bind_ok h
    rw [List.length_cons, List.range'_succ, List.flatMap_cons, List.flatMap_append]
    exact (hb n x a b hw).trans (ih h)

mutual

theorem Shape.keeps : ∀ {α : Type} (s : Shape α) {i j : Nat} {x : α} {a a' : Bytes}, s.serial.write a i j x = .ok a' →
    Keeps ((s.words i j).flatMap Word.cells) a a'
  | _, .basic p, i, j, x, a, a', h => by
    cases p with
    | unit =>
      cases h
      exact .refl _
    | wordl k hk => exact (basic_keeps (little_length _ _) h).trans (.refl a')
    | wordb k hk =>
      refine (basic_keeps (s := fun w => (little (2 ^ k) w).reverse) ?_ h).trans (.refl a')
      rw [List.length_reverse, little_length]
    | bool => exact (basic_keeps (s := fun x => [boolToWord8 x]) rfl h).trans (.refl a')
  | _, .map _ _ base, i, j, x, a, a', h => base.keeps h
  | _, .aggregate _ _ c, i, j, x, a, a', h => c.keeps h
  | _, .vector base len, i, j, x, a, a', h => by
    have h' : (if x.length ≠ len then Except.error Exn.subscript else writeAll base.serial (i + j) 0 x a) = .ok a' := h
    split at h'
    · cases h'
    · rename_i hlen
      rw [ne_eq, not_not] at hlen
      have hk := writeAll_keeps (w := fun n => base.words 0 (i + j + n * base.serial.length))
        (fun m y b b' hb => base.keeps hb) h'
      rw [← List.range_eq_range', hlen] at hk
      exact hk

theorem Components.keeps : ∀ {γ : Type} (c : Components γ) {off j : Nat} {x : γ} {a a' : Bytes},
    c.serial.store a off j x = .ok a' → Keeps ((c.words off j).flatMap Word.cells) a a'
  | _, .nil, off, j, x, a, a', h => by
    cases h
    exact .refl _
  | _, .cons base rest, off, j, x, a, a', h => by
    obtain ⟨b, hp, h⟩ := bind_ok h
    obtain ⟨d, hw, h⟩ := bind_ok h
    have h8 : alignTo off base.serial.align - off < 8 := by
      obtain ⟨k, hk, he⟩ := base.mask
      have := alignTo_sub_lt off base.serial.align
      have : 2 ^ k ≤ 2 ^ 3 := Nat.pow_le_pow_right (by decide) hk
      omega
    show Keeps ((_ ++ _ ++ _ : List Word).flatMap Word.cells) a a'
    rw [List.flatMap_append, List.flatMap_append]
    exact ((padding_keeps h8 hp).trans (base.keeps hw)).trans (rest.keeps h)

end

/-! ## A word that is not straight leaves a byte out -/

theorem range'_sum_le (n : Nat) {p q : Nat} (h : p ≤ q) :
    (List.range' p n).sum ≤ (List.range' q n).sum ∧ (p < q → 0 < n → (List.range' p n).sum < (List.range' q n).sum) := by
  induction n generalizing p q with
  | zero => exact ⟨Nat.le_refl _, fun _ h => absurd h (Nat.lt_irrefl 0)⟩
  | succ n ih =>
    rw [List.range'_succ, List.range'_succ, List.sum_cons, List.sum_cons]
    have := (ih (p := p + 1) (q := q + 1) (by omega)).1
    exact ⟨by omega, fun _ _ => by omega⟩

theorem shr_le (i j k : Nat) (hi : i % 2 ^ k = 0) : shr i j k * 2 ^ k ≤ i + j ∧ (shr i j k * 2 ^ k = i + j → j % 2 ^ k = 0) := by
  unfold shr
  rw [Nat.shiftRight_eq_div_pow, Nat.shiftRight_eq_div_pow, Nat.add_mul, Nat.div_mul_cancel (Nat.dvd_of_mod_eq_zero hi)]
  have := Nat.div_add_mod j (2 ^ k)
  rw [Nat.mul_comm] at this
  exact ⟨by omega, fun h => by omega⟩

/-- Words land at or before their places, so the sum of the indices tells whether all
    are straight. -/
theorem Tiles.cells {ws : List Word} {p e : Nat} (h : Tiles ws p e) :
    p ≤ e ∧ (ws.flatMap Word.cells).length = e - p ∧ (ws.flatMap Word.cells).sum ≤ (List.range' p (e - p)).sum ∧
      ((ws.flatMap Word.cells).sum = (List.range' p (e - p)).sum → ∀ w ∈ ws, w.Straight) := by
  induction ws generalizing p with
  | nil =>
    cases h
    refine ⟨Nat.le_refl _, by simp, by simp, fun _ => nofun⟩
  | cons w ws ih =>
    obtain ⟨hi, hij, ht⟩ := h
    obtain ⟨hle, hlen, hsum, heq⟩ := ih ht
    have hpos := Nat.two_pow_pos w.k
    obtain ⟨h1, h2⟩ := shr_le w.i w.j w.k hi
    obtain ⟨h3, h4⟩ := range'_sum_le (2 ^ w.k) h1
    rw [hij] at h1 h2 h3 h4
    have hsplit : List.range' p (e - p) = List.range' p (2 ^ w.k) ++ List.range' (p + 2 ^ w.k) (e - (p + 2 ^ w.k)) := by
      rw [List.range'_append_1]
      congr 1
      omega
    rw [List.flatMap_cons, List.length_append, List.sum_append, hsplit, List.sum_append]
    have hcell : w.cells.length = 2 ^ w.k := List.length_range'
    have hcsum : w.cells.sum = (List.range' (shr w.i w.j w.k * 2 ^ w.k) (2 ^ w.k)).sum := rfl
    refine ⟨by omega, by omega, by omega, fun hs => ?_⟩
    have hw : w.Straight := by
      apply h2
      by_contra hne
      have := h4 (by omega) hpos
      omega
    intro u hu
    rcases List.mem_cons.mp hu with rfl | hu
    · exact hw
    · exact heq (by omega) u hu

/-- If every byte is covered, then by words that are straight. -/
theorem Tiles.straight {ws : List Word} {p e : Nat} (h : Tiles ws p e)
    (hcover : ∀ q, p ≤ q → q < e → q ∈ ws.flatMap Word.cells) : ∀ w ∈ ws, w.Straight := by
  obtain ⟨hle, hlen, -, heq⟩ := h.cells
  apply heq
  have hsub : (List.range' p (e - p)).Subperm (ws.flatMap Word.cells) := by
    apply List.subperm_of_subset List.nodup_range'
    intro q hq
    rw [List.mem_range'_1] at hq
    exact hcover q hq.1 (by omega)
  exact (hsub.perm_of_length_le (by rw [hlen, List.length_range'])).sum_eq.symm

mutual

theorem Shape.inhabited : ∀ {α : Type} (s : Shape α), s.Lawful → ∃ x, s.Dom x
  | _, .basic p, _ => by
    cases p with
    | unit => exact ⟨(), trivial⟩
    | wordl k _ | wordb k _ => exact ⟨0, trivial⟩
    | bool => exact ⟨true, trivial⟩
  | _, .map store load base, h => by
    obtain ⟨y, hy⟩ := base.inhabited h.2.2
    exact ⟨load y, by show base.Dom (store (load y)); rw [h.2.1]; exact hy⟩
  | _, .aggregate t f c, h => by
    obtain ⟨y, hy⟩ := c.inhabited h.2.2
    exact ⟨t y, by show c.Dom (f (t y)); rw [h.2.1]; exact hy⟩
  | _, .vector base len, h => by
    obtain ⟨x, hx⟩ := base.inhabited h
    refine ⟨List.replicate len x, List.length_replicate, fun y hy => ?_⟩
    rw [(List.mem_replicate.mp hy).2]
    exact hx

theorem Components.inhabited : ∀ {γ : Type} (c : Components γ), c.Lawful → ∃ x, c.Dom x
  | _, .nil, _ => ⟨(), trivial⟩
  | _, .cons base rest, h => by
    obtain ⟨x, hx⟩ := base.inhabited h.1
    obtain ⟨y, hy⟩ := rest.inhabited h.2
    exact ⟨(x, y), hx, hy⟩

end

theorem RoundTrips.straight {α : Type} {s : Shape α} (hl : s.Lawful) (h : RoundTrips s) :
    ∀ w ∈ s.words 0 0, w.Straight := by
  have ht := s.tiles 0 (Nat.dvd_zero _)
  apply ht.straight
  intro q _ hq
  rw [Nat.add_zero, Nat.zero_add] at hq
  by_contra hout
  obtain ⟨x, hx⟩ := s.inhabited hl
  obtain ⟨v, -, hv, -⟩ := h x hx
  -- two arrays that differ in a byte that is not written
  have h0 := s.keeps (hv (List.replicate s.serial.length 0) List.length_replicate)
  have h1 := s.keeps (hv (List.replicate s.serial.length 1) List.length_replicate)
  have e := (h0.same q hout).symm.trans (h1.same q hout)
  rw [List.getElem?_replicate, List.getElem?_replicate, if_pos hq, if_pos hq] at e
  exact absurd e (by decide)

/-- Exactly the types whose words are all straight round trip. -/
theorem round_trips_iff {α : Type} (s : Shape α) (hl : s.Lawful) : RoundTrips s ↔ ∀ w ∈ s.words 0 0, w.Straight := by
  refine ⟨fun h => h.straight hl, fun hs x hx => ?_⟩
  have h0 := s.puts (Nat.dvd_zero _) hl hs hx
  refine ⟨s.bytes 0 x, h0.length, fun a0 ha => ?_, ?_, fun slice hfit halign hn => ?_⟩
  · have := h0.write a0 (by rw [h0.length, ha]; omega)
    rw [toVector, this]
    unfold splice
    rw [List.take_zero, List.nil_append, List.drop_eq_nil_of_le (by rw [h0.length, ha]; omega), List.append_nil]
  · unfold fromVector
    rw [if_neg (by rw [h0.length]; exact Nat.lt_irrefl _)]
    exact h0.read _ (by unfold holds; rw [List.drop_zero, List.take_length])
  · have hdvd : s.serial.align + 1 ∣ slice.i := by
      obtain ⟨k, -, hk⟩ := s.mask
      rw [show s.serial.align = 2 ^ k - 1 by omega, Nat.and_two_pow_sub_one_eq_mod] at halign
      rw [hk]
      exact Nat.dvd_of_mod_eq_zero halign
    have hstraight := s.straight_add (i := 0) (j := 0) hdvd hs
    rw [Nat.zero_add] at hstraight
    have hp := s.puts (Nat.dvd_zero _) hl hstraight hx
    have hlen := hp.length
    have hcheck : ∀ array, checkSlice s.serial { slice with array := array } = .ok () := by
      intro array
      unfold checkSlice
      rw [if_neg (by simp [halign]), if_neg (by dsimp only; omega)]
    have hroom : slice.i + (s.bytes 0 x).length ≤ slice.array.length := by omega
    refine ⟨?_, ?_⟩
    · have hw := hp.write slice.array (by rw [Nat.zero_add]; exact hroom)
      rw [Nat.zero_add] at hw
      show (do
        checkSlice s.serial slice
        s.serial.write slice.array 0 slice.i x) = _
      rw [hcheck slice.array]
      exact hw
    · show (do
        checkSlice s.serial { slice with array := splice slice.array slice.i (s.bytes 0 x) }
        s.serial.read (splice slice.array slice.i (s.bytes 0 x)) 0 slice.i) = _
      rw [hcheck]
      exact hp.read _ (by rw [Nat.zero_add]; exact holds_splice hroom)

/-- A byte, and two big-endian words. -/
theorem round_trips_iff_example :
    let s : Shape (BitVec 8 × List (BitVec 32) × Unit) :=
      .aggregate id id (.cons (.basic (.wordl 0 (by decide))) (.cons (.vector (.basic (.wordb 2 (by decide))) 2) .nil))
    RoundTrips s ↔ ∀ w ∈ s.words 0 0, w.Straight :=
  round_trips_iff _ ⟨fun _ => rfl, fun _ => rfl, trivial, trivial, trivial⟩

/-- A word and a byte take five bytes, so the second word of the vector is written over
    the first byte. -/
theorem packed_vector : ¬ RoundTrips (.vector (.aggregate id id (.cons (.basic (.wordl 2 (by decide)))
    (.cons (.basic (.wordl 0 (by decide))) .nil))) 2 : Shape (List (BitVec 32 × BitVec 8 × Unit))) := by
  intro h
  obtain ⟨v, -, hv, hx, -⟩ := h [(1, 2, ()), (3, 4, ())] ⟨rfl, by simp [Shape.Dom, Components.Dom]⟩
  have h0 := hv (List.replicate 10 0) rfl
  have e : v = [1, 0, 0, 0, 3, 0, 0, 0, 0, 4] := by
    have hw : toVector (Shape.serial (.vector (.aggregate id id (.cons (.basic (.wordl 2 (by decide)))
      (.cons (.basic (.wordl 0 (by decide))) .nil))) 2 : Shape (List (BitVec 32 × BitVec 8 × Unit))))
      (List.replicate 10 0) [(1, 2, ()), (3, 4, ())] = .ok [1, 0, 0, 0, 3, 0, 0, 0, 0, 4] := rfl
    rw [hw] at h0
    exact (Except.ok.inj h0).symm
  subst e
  have hread : fromVector (Shape.serial (.vector (.aggregate id id (.cons (.basic (.wordl 2 (by decide)))
      (.cons (.basic (.wordl 0 (by decide))) .nil))) 2 : Shape (List (BitVec 32 × BitVec 8 × Unit))))
      [1, 0, 0, 0, 3, 0, 0, 0, 0, 4] = .ok [(1, 3, ()), (3, 4, ())] := rfl
  rw [hread] at hx
  exact absurd (Except.ok.inj hx) (by decide)

end BubbleStorm.Util.Serial
