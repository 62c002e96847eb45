/-
  BubbleStorm.Topology.BubblecastCoverage — which positions of a bubble are processed
  (see `BubbleStorm.Topology.Bubblecast`).

  A call owes the positions of its slice. Handling it processes the first and leaves the
  rest to the calls it makes, unless a sum overflows: then the rest is lost
  (`handle_owed`, `handle_lost`). The ranges of the calls made are together one shorter
  than the call's own (`handle_width`), so a run is no longer than the slices' bubbles.
-/

import Mathlib.Algebra.BigOperators.Group.List.Basic
import Mathlib.Algebra.Order.Ring.Int
import BubbleStorm.Topology.Bubblecast

namespace BubbleStorm.Topology.Bubblecast

variable {Node Payload : Type} {c : Call Node Payload} {loc : Local Node} {s : St Node Payload}

/-! ## Positions -/

/-- The positions of `[a, b)`. -/
def positions (payload : Payload) (a b : Int) : List (Int × Payload) :=
  (List.range (b - a).toNat).map fun i : Nat => (a + i, payload)

@[simp] theorem length_positions (payload : Payload) (a b : Int) : (positions payload a b).length = (b - a).toNat := by
  simp [positions]

theorem positions_nil (payload : Payload) {a b : Int} (h : b ≤ a) : positions payload a b = [] := by
  have e : (b - a).toNat = 0 := by omega
  rw [positions, e]
  rfl

theorem positions_append (payload : Payload) {a m b : Int} (h1 : a ≤ m) (h2 : m ≤ b) :
    positions payload a b = positions payload a m ++ positions payload m b := by
  have e : (b - a).toNat = (m - a).toNat + (b - m).toNat := by omega
  rw [positions, e, List.range_add, List.map_append, List.map_map]
  congr 1
  refine List.map_congr_left fun i _ => ?_
  have : a + ((m - a).toNat : Int) = m := by omega
  simp only [Function.comp_apply, Nat.cast_add, ← add_assoc, this]

theorem positions_cons (payload : Payload) {a b : Int} (h : a < b) :
    positions payload a b = (a, payload) :: positions payload (a + 1) b := by
  rw [positions_append payload (m := a + 1) (by omega) (by omega)]
  have e : (a + 1 - a).toNat = 1 := by omega
  have : positions payload a (a + 1) = [(a, payload)] := by
    rw [positions, e]
    simp
  rw [this]
  rfl

/-! ## Calls -/

/-- The slice is a part of the bubble that begins no earlier than the node's position. -/
structure Wf (c : Call Node Payload) : Prop where
  first : 0 ≤ c.bubbleStart
  start : c.bubbleStart ≤ c.sliceStart
  some : c.sliceStart < c.sliceStop
  stop : c.sliceStop ≤ c.bubbleStop

def covered (c : Call Node Payload) : List (Int × Payload) := positions c.payload c.sliceStart c.sliceStop

def width (c : Call Node Payload) : Nat := (c.bubbleStop - c.bubbleStart).toNat

section Cast

variable (seed : BitVec 64) (n : Neighbour Node) {a b x y : Int}

theorem cast_covered : (cast c seed n a b x y).flatMap covered = positions c.payload x y := by
  unfold cast
  split
  · exact (positions_nil _ ‹_›).symm
  · exact List.append_nil _

theorem cast_wf (h1 : 0 ≤ a) (h2 : a ≤ x) (h3 : y ≤ b) : ∀ d ∈ cast c seed n a b x y, Wf d := by
  unfold cast
  split
  · intro d hd
    cases hd
  · intro d hd
    rw [List.mem_singleton] at hd
    subst hd
    exact ⟨h1, h2, not_le.mp ‹¬ y ≤ x›, h3⟩

theorem cast_width : ((cast c seed n a b x y).map width).sum ≤ (b - a).toNat := by
  unfold cast
  split
  · exact Nat.zero_le _
  · exact le_of_eq (by simp [width])

end Cast

/-! ## Passing on -/

theorem midpoint_between {a b : Int} (h : a ≤ b) : a ≤ (a + b) / 2 ∧ (a + b) / 2 ≤ b := by omega

/-- The half that begins at the next position, and the other one. -/
theorem forward_wf {m y : Int} (hw : Wf c) (h1 : c.bubbleStart + 1 ≤ m) :
    ∀ d ∈ forward c loc (c.bubbleStart + 1) c.bubbleStop m y, Wf d := by
  have h0 := hw.first
  unfold forward
  dsimp only
  split
  · intro d hd
    cases hd
  · intro d hd
    cases hd
  · intro d hd
    obtain hd | hd := List.mem_append.mp hd
    · exact cast_wf _ _ (by omega) (by omega) (by omega) d hd
    · exact cast_wf _ _ (by omega) (by omega) (by omega) d hd

theorem forward_width {m y : Int} (h1 : c.bubbleStart + 1 ≤ m) (h2 : m ≤ c.bubbleStop) :
    ((forward c loc (c.bubbleStart + 1) c.bubbleStop m y).map width).sum < width c := by
  unfold forward width
  dsimp only
  split
  · simp
    omega
  · simp
    omega
  · rename_i left right _ _
    rw [List.map_append, List.sum_append]
    have hl := cast_width (c := c) (c.seed ^^^ BitVec.ofInt 64 (c.bubbleStart + 1)) left (a := c.bubbleStart + 1) (b := m)
      (x := max c.sliceStart (c.bubbleStart + 1)) (y := min y m)
    have hr := cast_width (c := c) (c.seed ^^^ BitVec.ofInt 64 (c.bubbleStart + 1)) right (a := m) (b := c.bubbleStop)
      (x := max c.sliceStart m) (y := min y c.bubbleStop)
    unfold width at hl hr
    omega

/-- Where a neighbour can be picked, one is picked from either end. -/
theorem heads_some (hs : Serves c loc) (h : c.bubbleStart + 1 < c.sliceStop) :
    ∃ left right, (randomSplitTotalNeighbours loc.table c.source loc.permutation).1.head? = some left ∧
      (randomSplitTotalNeighbours loc.table c.source loc.permutation).2.head? = some right := by
  obtain ⟨i, hi, hn⟩ := hs.neighbours h
  obtain ⟨n, hn⟩ := Option.isSome_iff_exists.mp hn
  have hmem : i ∈ loc.permutation := hs.permutation.mem_iff.mpr (List.mem_range.mpr hi)
  have hl : n ∈ (randomSplitTotalNeighbours loc.table c.source loc.permutation).1 :=
    List.mem_filterMap.mpr ⟨i, hmem, hn⟩
  have hr : n ∈ (randomSplitTotalNeighbours loc.table c.source loc.permutation).2 :=
    List.mem_filterMap.mpr ⟨i, List.mem_reverse.mpr hmem, hn⟩
  exact ⟨_, _, List.head?_eq_some_head (List.ne_nil_of_mem hl), List.head?_eq_some_head (List.ne_nil_of_mem hr)⟩

theorem forward_covered {m : Int} (hw : Wf c) (hs : Serves c loc) (h : c.bubbleStart + 1 < c.sliceStop)
    (h1 : c.bubbleStart + 1 ≤ m) :
    (forward c loc (c.bubbleStart + 1) c.bubbleStop m c.sliceStop).flatMap covered =
      positions c.payload (max c.sliceStart (c.bubbleStart + 1)) c.sliceStop := by
  obtain ⟨left, right, hl, hr⟩ := heads_some hs h
  have hstart := hw.start
  have hsome := hw.some
  have hstop := hw.stop
  unfold forward
  dsimp only
  rw [hl, hr]
  dsimp only
  rw [List.flatMap_append, cast_covered, cast_covered, min_eq_left hstop]
  -- the midpoint is before, in or after what is left of the slice
  by_cases hb : m ≤ max c.sliceStart (c.bubbleStart + 1)
  · have e : max c.sliceStart m = max c.sliceStart (c.bubbleStart + 1) := by omega
    rw [positions_nil _ (by omega), List.nil_append, e]
  · by_cases ha : c.sliceStop ≤ m
    · rw [min_eq_left ha, positions_nil (a := max c.sliceStart m) _ (by omega), List.append_nil]
    · have e : max c.sliceStart m = m := by omega
      rw [e, min_eq_right (by omega), ← positions_append _ (by omega) (by omega)]

theorem addInt_eq {a b : Int} (ha : 0 ≤ a) (hb : 0 ≤ b) (h : a + b ≤ maxInt) : addInt a b = some (a + b) := by
  have : minInt ≤ a + b := by
    unfold minInt
    omega
  rw [addInt, if_pos ⟨this, h⟩]

theorem addInt_none {a b : Int} (h : maxInt < a + b) : addInt a b = none := by
  rw [addInt, if_neg fun hle => (not_le.mpr h) hle.2]

theorem addInt_val {a b r : Int} (h : addInt a b = some r) : r = a + b := by
  unfold addInt at h
  split at h
  · exact (Option.some.inj h).symm
  · cases h

/-- Whatever is sent, it is sent by `forward`. -/
theorem pass_cases (hw : Wf c) (hs : Serves c loc) : (pass c loc).getD [] = [] ∨
    (pass c loc).getD [] =
      forward c loc (c.bubbleStart + 1) c.bubbleStop ((c.bubbleStart + 1 + c.bubbleStop) / 2) c.sliceStop := by
  have hstart := hw.start
  have hsome := hw.some
  have hstop := hw.stop
  have hmax := hs.maxSize
  unfold pass
  rw [max_eq_right (show c.bubbleStart ≤ c.bubbleStop by omega), max_eq_right hsome.le]
  cases h1 : addInt c.bubbleStart 1 with
  | none => exact .inl rfl
  | some x =>
    cases h2 : addInt x c.bubbleStop with
    | none => simp [h2]
    | some sum =>
      cases h3 : addInt c.sliceStart loc.maxSize with
      | none => simp
      | some limit =>
        refine .inr ?_
        have e1 := addInt_val h1
        have e2 := addInt_val h2
        have e3 := addInt_val h3
        subst e1 e2 e3
        simp only [Option.bind_eq_bind, Option.bind_some, h2, Option.pure_def, Option.getD_some]
        rw [min_eq_left (show c.sliceStop ≤ c.sliceStart + loc.maxSize by omega), if_neg (by omega)]

theorem pass_fits (hw : Wf c) (hs : Serves c loc) (hf : Fits c loc) (h : c.bubbleStart + 1 < c.sliceStop) :
    (pass c loc).getD [] =
      forward c loc (c.bubbleStart + 1) c.bubbleStop ((c.bubbleStart + 1 + c.bubbleStop) / 2) c.sliceStop := by
  have hfirst := hw.first
  have hstart := hw.start
  have hsome := hw.some
  have hstop := hw.stop
  have hmax := hs.maxSize
  obtain ⟨h1, h2⟩ := hf h
  unfold pass
  rw [max_eq_right (show c.bubbleStart ≤ c.bubbleStop by omega), max_eq_right hsome.le,
    addInt_eq hfirst (by omega) (by omega), addInt_eq (a := c.sliceStart) (by omega) (by omega) h2]
  simp only [Option.bind_eq_bind, Option.bind_some]
  rw [addInt_eq (by omega) (by omega) h1]
  simp only [Option.bind_some, Option.pure_def, Option.getD_some]
  rw [min_eq_left (show c.sliceStop ≤ c.sliceStart + loc.maxSize by omega), if_neg (by omega)]

/-- A sum overflows while there is something to pass on. -/
theorem pass_lost (hw : Wf c) (hf : ¬ Fits c loc) : c.bubbleStart + 1 < c.sliceStop ∧ (pass c loc).getD [] = [] := by
  have hstart := hw.start
  have hsome := hw.some
  have hstop := hw.stop
  unfold Fits at hf
  push Not at hf
  obtain ⟨h, hf⟩ := hf
  refine ⟨h, ?_⟩
  unfold pass
  rw [max_eq_right (show c.bubbleStart ≤ c.bubbleStop by omega), max_eq_right hsome.le]
  cases h1 : addInt c.bubbleStart 1 with
  | none => rfl
  | some x =>
    have e1 := addInt_val h1
    subst e1
    by_cases hsum : c.bubbleStart + 1 + c.bubbleStop ≤ maxInt
    · have h3 := addInt_none (hf hsum)
      simp [h3]
    · have h2 := addInt_none (not_le.mp hsum)
      simp [h2]

/-! ## Handling a call -/

theorem handle_wf (hw : Wf c) (hs : Serves c loc) : ∀ d ∈ (handleBubblecast c loc).2, Wf d := by
  have hsome := hw.some
  have hstart := hw.start
  have hstop := hw.stop
  show ∀ d ∈ (pass c loc).getD [], Wf d
  obtain h | h := pass_cases hw hs
  · rw [h]
    intro d hd
    cases hd
  · rw [h]
    exact forward_wf hw (midpoint_between (by omega)).1

theorem handle_width (hw : Wf c) (hs : Serves c loc) : ((handleBubblecast c loc).2.map width).sum < width c := by
  have hsome := hw.some
  have hstart := hw.start
  have hstop := hw.stop
  show (((pass c loc).getD []).map width).sum < width c
  obtain h | h := pass_cases hw hs
  · rw [h]
    simp only [List.map_nil, List.sum_nil, width]
    omega
  · rw [h]
    exact forward_width (midpoint_between (by omega)).1 (midpoint_between (by omega)).2

/-- The node's own position, if the slice begins with it. -/
theorem covered_eq (hw : Wf c) : covered c = (if c.sliceStart ≤ c.bubbleStart then [(c.bubbleStart, c.payload)] else []) ++
    positions c.payload (max c.sliceStart (c.bubbleStart + 1)) c.sliceStop := by
  have hstart := hw.start
  have hsome := hw.some
  unfold covered
  by_cases h : c.sliceStart ≤ c.bubbleStart
  · have e : c.sliceStart = c.bubbleStart := by omega
    rw [if_pos h, positions_cons _ hsome, e, max_eq_right (by omega)]
    rfl
  · rw [if_neg h, max_eq_left (by omega), List.nil_append]

theorem handle_owed (hw : Wf c) (hs : Serves c loc) (hf : Fits c loc) :
    (handleBubblecast c loc).1 ++ (handleBubblecast c loc).2.flatMap covered = covered c := by
  have hsome := hw.some
  have hstart := hw.start
  have hstop := hw.stop
  rw [covered_eq hw]
  show _ ++ ((pass c loc).getD []).flatMap covered = _
  congr 1
  by_cases h : c.bubbleStart + 1 < c.sliceStop
  · rw [pass_fits hw hs hf h]
    exact forward_covered hw hs h (midpoint_between (by omega)).1
  · -- the node's position was the last one
    rw [positions_nil _ (by omega)]
    obtain hp | hp := pass_cases hw hs
    · rw [hp]
      rfl
    · have hmid := (midpoint_between (a := c.bubbleStart + 1) (b := c.bubbleStop) (by omega)).1
      rw [hp]
      unfold forward
      dsimp only
      split
      · rfl
      · rfl
      · rw [List.flatMap_append, cast_covered, cast_covered, positions_nil _ (by omega), positions_nil _ (by omega)]
        rfl

theorem handle_lost (hw : Wf c) (hf : ¬ Fits c loc) :
    ((handleBubblecast c loc).1 ++ (handleBubblecast c loc).2.flatMap covered).length < (covered c).length := by
  have hsome := hw.some
  obtain ⟨h, hnil⟩ := pass_lost hw hf
  rw [covered_eq hw]
  show (_ ++ ((pass c loc).getD []).flatMap covered).length < _
  rw [hnil, List.length_append, List.length_append, List.flatMap_nil, List.length_nil, length_positions]
  unfold handleBubblecast
  dsimp only
  omega

/-! ## Runs -/

/-- What was processed, and what is still to be. -/
def owed (s : St Node Payload) : List (Int × Payload) := s.processed ++ s.calls.flatMap covered

def work (s : St Node Payload) : Nat := (s.calls.map width).sum

theorem calls_perm {l : List (Call Node Payload)} {k : Nat} (h : l[k]? = some c) : l.Perm (c :: l.eraseIdx k) := by
  obtain ⟨hk, rfl⟩ := List.getElem?_eq_some_iff.mp h
  exact (List.getElem_cons_eraseIdx_perm hk).symm

section Step

variable {e : Ev Node} (hk : s.calls[e.k]? = some c)

include hk

theorem step_eq : step s e = ⟨s.calls.eraseIdx e.k ++ (handleBubblecast c e.loc).2, s.processed ++ (handleBubblecast c e.loc).1⟩ := by
  unfold step
  rw [hk]

theorem step_wf (hw : ∀ d ∈ s.calls, Wf d) (hs : Serves c e.loc) : ∀ d ∈ (step s e).calls, Wf d := by
  rw [step_eq hk]
  intro d hd
  obtain hd | hd := List.mem_append.mp hd
  · exact hw d (List.mem_of_mem_eraseIdx hd)
  · exact handle_wf (hw c (List.mem_of_getElem? hk)) hs d hd

theorem step_work (hw : ∀ d ∈ s.calls, Wf d) (hs : Serves c e.loc) : work (step s e) < work s := by
  have hlt := handle_width (hw c (List.mem_of_getElem? hk)) hs
  have hperm := ((calls_perm hk).map width).sum_eq
  rw [step_eq hk]
  unfold work
  rw [hperm, List.map_append, List.sum_append, List.map_cons, List.sum_cons]
  omega

theorem owed_step : (owed (step s e)).Perm
    ((s.processed ++ (s.calls.eraseIdx e.k).flatMap covered) ++
      ((handleBubblecast c e.loc).1 ++ (handleBubblecast c e.loc).2.flatMap covered)) := by
  rw [step_eq hk]
  unfold owed
  dsimp only
  rw [List.flatMap_append, List.append_assoc, List.append_assoc]
  refine List.Perm.append_left _ ?_
  rw [← List.append_assoc, ← List.append_assoc]
  exact List.perm_append_comm.append_right _

theorem owed_split : (owed s).Perm ((s.processed ++ (s.calls.eraseIdx e.k).flatMap covered) ++ covered c) := by
  unfold owed
  rw [List.append_assoc]
  refine List.Perm.append_left _ (((calls_perm hk).flatMap_right covered).trans ?_)
  rw [List.flatMap_cons]
  exact List.perm_append_comm

theorem step_owed (hw : ∀ d ∈ s.calls, Wf d) (hs : Serves c e.loc) (hf : Fits c e.loc) : (owed (step s e)).Perm (owed s) := by
  refine (owed_step hk).trans ?_
  rw [handle_owed (hw c (List.mem_of_getElem? hk)) hs hf]
  exact (owed_split hk).symm

theorem step_lost (hw : ∀ d ∈ s.calls, Wf d) (hf : ¬ Fits c e.loc) : (owed (step s e)).length < (owed s).length := by
  have hlt := handle_lost (hw c (List.mem_of_getElem? hk)) hf
  rw [(owed_step hk).length_eq, (owed_split hk).length_eq]
  simp only [List.length_append] at hlt ⊢
  omega

end Step

theorem run_cons (e : Ev Node) (evs : List (Ev Node)) : run s (e :: evs) = run (step s e) evs := rfl

/-- Every call handled shortens the work to be done. -/
theorem run_work {evs : List (Ev Node)} (hw : ∀ d ∈ s.calls, Wf d) (hs : Along Serves s evs) :
    evs.length + work (run s evs) ≤ work s := by
  induction evs generalizing s with
  | nil => exact le_of_eq (Nat.zero_add _)
  | cons e evs ih =>
    obtain ⟨⟨c, hk, hserve⟩, hs⟩ := hs
    have hlt := step_work hk hw hserve
    have := ih (step_wf hk hw hserve) hs
    rw [run_cons, List.length_cons]
    omega

theorem run_length {evs : List (Ev Node)} (hw : ∀ d ∈ s.calls, Wf d) (hs : Along Serves s evs) :
    (owed (run s evs)).length ≤ (owed s).length := by
  induction evs generalizing s with
  | nil => exact le_refl _
  | cons e evs ih =>
    obtain ⟨⟨c, hk, hserve⟩, hs⟩ := hs
    refine (ih (step_wf hk hw hserve) hs).trans ?_
    by_cases hf : Fits c e.loc
    · exact (step_owed hk hw hserve hf).length_eq.le
    · exact (step_lost hk hw hf).le

/-- A position that is lost stays lost. -/
theorem run_owed_iff {evs : List (Ev Node)} (hw : ∀ d ∈ s.calls, Wf d) (hs : Along Serves s evs) :
    (owed (run s evs)).Perm (owed s) ↔ Along Fits s evs := by
  induction evs generalizing s with
  | nil => exact iff_of_true (.refl _) trivial
  | cons e evs ih =>
    obtain ⟨⟨c, hk, hserve⟩, hs⟩ := hs
    have hw' := step_wf hk hw hserve
    rw [run_cons]
    by_cases hf : Fits c e.loc
    · have hperm := step_owed hk hw hserve hf
      refine ⟨fun h => ⟨⟨c, hk, hf⟩, (ih hw' hs).mp (h.trans hperm.symm)⟩, fun h => ?_⟩
      exact ((ih hw' hs).mpr h.2).trans hperm
    · refine iff_of_false (fun h => ?_) fun ⟨⟨c', hk', hf'⟩, _⟩ => ?_
      · have hlt := step_lost hk hw hf
        have hle := run_length hw' hs
        rw [h.length_eq] at hle
        omega
      · rw [hk] at hk'
        cases hk'
        exact hf hf'

/-! ## A bubble -/

section Bubble

variable {node : Node} {typ size : Int} {seed : BitVec 64} {slices : List (Int × Int)} {payload : Payload}

theorem slicecast_eq {slice : Int × Int} (h1 : 0 ≤ slice.1) (h2 : slice.2 ≤ size) :
    slicecast node typ seed size slice payload = doBubblecast node typ seed size slice.1 slice.2 payload := by
  rw [slicecast, max_eq_left h1, min_eq_left h2]

theorem start_wf (h : ∀ slice ∈ slices, 0 ≤ slice.1 ∧ slice.1 < slice.2 ∧ slice.2 ≤ size) :
    ∀ c ∈ (start node typ seed size slices payload).calls, Wf c := by
  intro c hc
  obtain ⟨slice, hslice, rfl⟩ := List.mem_map.mp hc
  obtain ⟨h1, h2, h3⟩ := h slice hslice
  rw [slicecast_eq h1 h3]
  exact ⟨le_refl _, h1, h2, h3⟩

theorem start_owed (h : ∀ slice ∈ slices, 0 ≤ slice.1 ∧ slice.1 < slice.2 ∧ slice.2 ≤ size) :
    owed (start node typ seed size slices payload) = slices.flatMap fun slice => positions payload slice.1 slice.2 := by
  unfold owed start
  dsimp only
  rw [List.nil_append, List.flatMap_map]
  refine List.flatMap_congr fun slice hslice => ?_
  obtain ⟨h1, -, h3⟩ := h slice hslice
  rw [slicecast_eq h1 h3]
  rfl

theorem start_work : work (start node typ seed size slices payload) = slices.length * size.toNat := by
  unfold work start
  dsimp only
  rw [List.map_map]
  induction slices with
  | nil => simp
  | cons slice slices ih =>
    rw [List.map_cons, List.sum_cons, ih, List.length_cons, Nat.succ_mul, Nat.add_comm]
    congr 1
    simp [width, slicecast, doBubblecast]

/-- A cast of the slices ends, and it has processed each of their positions once, and no
    other, exactly if no sum overflowed where a position was to be passed on. -/
theorem processed_iff (hslices : ∀ slice ∈ slices, 0 ≤ slice.1 ∧ slice.1 < slice.2 ∧ slice.2 ≤ size) {evs : List (Ev Node)}
    (hs : Along Serves (start node typ seed size slices payload) evs) :
    evs.length ≤ slices.length * size.toNat ∧
      ((run (start node typ seed size slices payload) evs).calls = [] →
        ((run (start node typ seed size slices payload) evs).processed.Perm
            (slices.flatMap fun slice => positions payload slice.1 slice.2) ↔
          Along Fits (start node typ seed size slices payload) evs)) := by
  have hw : ∀ c ∈ (start node typ seed size slices payload).calls, Wf c := start_wf hslices
  constructor
  · have := run_work hw hs
    rw [start_work] at this
    omega
  · intro hnil
    have hend : owed (run (start node typ seed size slices payload) evs) =
        (run (start node typ seed size slices payload) evs).processed := by
      rw [owed, hnil, List.flatMap_nil, List.append_nil]
    rw [← run_owed_iff hw hs, hend, start_owed hslices]

end Bubble

/-- A node with two neighbours. -/
def pair (maxSize : Int) : Local Nat := ⟨[⟨some ⟨1, 1⟩, none⟩, ⟨some ⟨2, 2⟩, none⟩], [0, 1, 2, 3], maxSize⟩

theorem serves_pair (c : Call Nat Payload) {maxSize : Int} (h : c.sliceStop - c.sliceStart ≤ maxSize) :
    Serves c (pair maxSize) := by
  refine ⟨List.Perm.refl _, fun _ => ?_, h⟩
  by_cases hsrc : c.source = some 1
  · refine ⟨1, show 1 < 4 by decide, ?_⟩
    rw [hsrc]
    rfl
  · refine ⟨0, show 0 < 4 by decide, ?_⟩
    cases hc : c.source with
    | none => rfl
    | some exC =>
      have hne : exC ≠ 1 := fun h => hsrc (hc.trans (congrArg some h))
      simp [toTotalNeighbour, pair, hne]

/-- A bubble of four positions, cast as one slice. -/
def four : St Nat Unit := start 0 5 9 4 [(0, 4)] ()

/-- Its calls arrive at nodes that know its size. -/
def known : List (Ev Nat) := [⟨0, pair 4⟩, ⟨0, pair 4⟩, ⟨0, pair 4⟩, ⟨0, pair 4⟩]

theorem serves_known : Along Serves four known :=
  ⟨⟨_, rfl, serves_pair _ (by decide)⟩, ⟨_, rfl, serves_pair _ (by decide)⟩, ⟨_, rfl, serves_pair _ (by decide)⟩,
    ⟨_, rfl, serves_pair _ (by decide)⟩, trivial⟩

theorem processed_iff_example : known.length ≤ 4 ∧ ((run four known).calls = [] →
    ((run four known).processed.Perm (positions () 0 4) ↔ Along Fits four known)) := by
  have hs : Along Serves (start 0 5 9 4 [(0, 4)] ()) known := serves_known
  exact processed_iff (by decide) hs

/-- A node that does not know the type does not shrink the slice, and so does not pass it
    on: the position after its own is lost. -/
theorem unknown_type_loses : Along Serves four [⟨0, pair 4⟩, ⟨1, pair maxInt⟩, ⟨0, pair 4⟩] ∧
    (run four [⟨0, pair 4⟩, ⟨1, pair maxInt⟩, ⟨0, pair 4⟩]).calls = [] ∧
    ¬ (run four [⟨0, pair 4⟩, ⟨1, pair maxInt⟩, ⟨0, pair 4⟩]).processed.Perm (positions () 0 4) := by
  refine ⟨⟨⟨_, rfl, serves_pair _ (by decide)⟩, ⟨_, rfl, serves_pair _ (by decide)⟩, ⟨_, rfl, serves_pair _ (by decide)⟩,
    trivial⟩, by decide, fun h => ?_⟩
  have hlen := h.length_eq
  revert hlen
  decide

end BubbleStorm.Topology.Bubblecast
