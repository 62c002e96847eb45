/-
  BubbleStorm.Topology.BubblecastUnknown — a node passes on a bubble of a type it does not
  know (`unknown bubble type` of `src/bubblestorm/basic/basic-bubble-type.sml`, in the
  handler of `src/bubblestorm/topology/handlers/bubblecast.sml`).

  The size of such a bubble is not known, and is taken to be the largest `int`, so that
  nothing is cut off. But the handler adds the start of the slice to it. A slice that
  begins at zero is passed on whole, to the next position and the two halves after it; for
  every other one the sum overflows (`relays_iff`).
-/

import Mathlib.Data.Rat.Floor
import BubbleStorm.Topology.BubblecastCoverage
import BubbleStorm.Topology.BubblecastReception

namespace BubbleStorm.Topology.BubblecastHandler

open BubbleStorm.Cusp (Exn Bytes)
open BubbleStorm.Lib
open BubbleStorm.Topology.Bubblecast

variable {R F Node : Type}

/-- The calls among what the handler does. -/
def calls (effects : List (Effect R F Node)) : List (Call Node Bytes) :=
  effects.filterMap fun
    | .bubblecast _ _ call => some call
    | _ => none

/-- The node's own position, if the slice begins there. -/
def own (c : Call Node Bytes) : List (Int × Bytes) := if c.sliceStart ≤ c.bubbleStart then [(c.bubbleStart, c.payload)] else []

/-- The handler raises nothing, and the node's own position and the slices of its calls
are the slice. -/
def Relays (N : Reals R F) (state : State R F Node) (c : Call Node Bytes) (permutation : List Nat) : Prop :=
  ∃ effects, handleBubblecast N state c permutation = .ok effects ∧ own c ++ (calls effects).flatMap covered = covered c

variable {N : Reals R F} {state : State R F Node} {c : Call Node Bytes} {permutation : List Nat}

theorem send_call {methods : Methods R F Node} {call : Call Node Bytes} {effect : Effect R F Node}
    (sent : send N methods call = .ok effect) : calls [effect] = [call] := by
  obtain ⟨size, -, rest⟩ := bind_eq_ok.mp sent
  obtain ⟨priority, -, rest⟩ := bind_eq_ok.mp rest
  obtain ⟨reliability, -, rest⟩ := bind_eq_ok.mp rest
  cases rest
  rfl

theorem calls_append (first second : List (Effect R F Node)) : calls (first ++ second) = calls first ++ calls second :=
  List.filterMap_append

/-- Every call that is to be made is made. -/
theorem mapM_calls {methods : Methods R F Node} {l : List (Call Node Bytes)} {effects : List (Effect R F Node)}
    (sent : l.mapM (send N methods) = .ok effects) : calls effects = l := by
  induction l generalizing effects with
  | nil =>
    rw [List.mapM_nil] at sent
    cases sent
    rfl
  | cons call l ih =>
    rw [List.mapM_cons] at sent
    obtain ⟨effect, first, rest⟩ := bind_eq_ok.mp sent
    obtain ⟨effects', others, rest⟩ := bind_eq_ok.mp rest
    cases rest
    rw [← List.singleton_append, calls_append, send_call first, ih others]
    rfl

/-- What is passed on of a slice that nothing is cut off. -/
def halvesOf (state : State R F Node) (c : Call Node Bytes) (permutation : List Nat) : List (Call Node Bytes) :=
  forward c ⟨state.locations, permutation, maxInt⟩ (c.bubbleStart + 1) c.bubbleStop
    ((c.bubbleStart + 1 + c.bubbleStop) / 2) c.sliceStop

theorem maxSize_unknown (type : state.bubbletypes c.typ = none) :
    (bubblecaster N state c.typ).maxSize = .ok ⟨maxInt, by decide⟩ := by
  simp [bubblecaster, type]

theorem processLocally_unknown (type : state.bubbletypes c.typ = none) :
    processLocally (bubblecaster N state c.typ) c = .ok [] := by
  simp [processLocally, bubblecaster, type]

/-- A call of an unknown type that raises nothing begins at zero, and goes on to the halves. -/
theorem unknown_calls (wf : Wf c) (type : state.bubbletypes c.typ = none) {effects : List (Effect R F Node)}
    (done : handleBubblecast N state c permutation = .ok effects) :
    c.sliceStart = 0 ∧ c.bubbleStop + 1 ≤ maxInt ∧ calls effects = halvesOf state c permutation := by
  have first := wf.first
  have start := wf.start
  have some := wf.some
  have stop := wf.stop
  obtain ⟨processed, locally, rest⟩ := bind_eq_ok.mp done
  rw [processLocally_unknown type] at locally
  cases locally
  obtain ⟨next, isNext, rest⟩ := bind_eq_ok.mp rest
  obtain ⟨sum, isSum, rest⟩ := bind_eq_ok.mp rest
  obtain ⟨size, isSize, rest⟩ := bind_eq_ok.mp rest
  obtain ⟨limit, isLimit, rest⟩ := bind_eq_ok.mp rest
  rw [maxSize_unknown type] at isSize
  cases isSize
  have next_eq := toInt32_ok.mp isNext
  have sum_eq := toInt32_ok.mp isSum
  have limit_eq := toInt32_ok.mp isLimit
  rw [next_eq, max_eq_right (by omega)] at sum_eq
  simp only at limit_eq
  have sum_le := sum.property.2
  have limit_le := limit.property.2
  have zero : c.sliceStart = 0 := by omega
  have whole : min (max c.sliceStart c.sliceStop) limit.val = c.sliceStop := by omega
  refine ⟨zero, by omega, ?_⟩
  rw [if_neg (by rw [whole]; omega)] at rest
  obtain ⟨sent, isSent, rest⟩ := bind_eq_ok.mp rest
  cases rest
  rw [List.nil_append, mapM_calls isSent, whole, sum_eq, next_eq, max_eq_right (by omega)]
  rfl

/-- The default priorities are numbers, so every call of an unknown type can be made. -/
theorem unknown_sends (priority : N.isFinite N.defaultQueryPriority = true)
    (reliability : N.isFinite N.defaultBubblecastReliability = true) (type : state.bubbletypes c.typ = none)
    {l : List (Call Node Bytes)} (fits : ∀ d ∈ l, minInt ≤ d.sliceStop - d.sliceStart ∧ d.sliceStop - d.sliceStart ≤ maxInt) :
    ∃ effects : List (Effect R F Node), l.mapM (send N (bubblecaster N state c.typ)) = .ok effects := by
  refine ok_mapM.mpr ?_
  intro d mem
  rw [send_iff N _ (fits d mem)]
  simp [bubblecaster, type, priority, reliability]

theorem unknown_passes (priority : N.isFinite N.defaultQueryPriority = true)
    (reliability : N.isFinite N.defaultBubblecastReliability = true) (wf : Wf c) (type : state.bubbletypes c.typ = none)
    (zero : c.sliceStart = 0) (fits : c.bubbleStop + 1 ≤ maxInt) :
    ∃ effects, handleBubblecast N state c permutation = .ok effects := by
  have first := wf.first
  have start := wf.start
  have some := wf.some
  have stop := wf.stop
  have one : minInt ≤ c.bubbleStart + 1 ∧ c.bubbleStart + 1 ≤ maxInt := by simp only [minInt, maxInt] at *; omega
  have sum : minInt ≤ c.bubbleStart + 1 + max c.bubbleStart c.bubbleStop ∧
      c.bubbleStart + 1 + max c.bubbleStart c.bubbleStop ≤ maxInt := by
    rw [max_eq_right (by omega)]
    simp only [minInt, maxInt] at *
    omega
  have limit : minInt ≤ c.sliceStart + maxInt ∧ c.sliceStart + maxInt ≤ maxInt := by simp only [minInt, maxInt]; omega
  have whole : min (max c.sliceStart c.sliceStop) (c.sliceStart + maxInt) = c.sliceStop := by simp only [maxInt] at *; omega
  have last : max c.bubbleStart c.bubbleStop = c.bubbleStop := max_eq_right (by omega)
  have sizes : ∀ d ∈ halvesOf state c permutation, minInt ≤ d.sliceStop - d.sliceStart ∧ d.sliceStop - d.sliceStart ≤ maxInt := by
    have halves := (@forward_all _ _ _ state c permutation (fun size => minInt ≤ size ∧ size ≤ maxInt) maxInt).mpr fun _ size mem positive =>
        ⟨Int.le_trans (by decide) (Int.le_of_lt positive), halves_le (Int.le_refl _) size mem⟩
    rw [whole, last] at halves
    exact halves
  obtain ⟨effects, sent⟩ := unknown_sends (N := N) priority reliability type sizes
  refine ⟨effects, ?_⟩
  unfold handleBubblecast
  simp only [processLocally_unknown type, maxSize_unknown type, toInt32, dif_pos one, dif_pos sum, dif_pos limit, bind,
    Except.bind]
  rw [if_neg (by rw [whole]; omega), whole, last]
  unfold halvesOf at sent
  rw [sent]
  rfl

/-- What the halves cover, where there is a neighbour to send them to. -/
theorem halves_covered (wf : Wf c) (perm : permutation.Perm (List.range (state.locations.length * 2)))
    (passes : c.bubbleStart + 1 < c.sliceStop → Passes state c permutation) (small : c.bubbleStop ≤ maxInt) :
    own c ++ (halvesOf state c permutation).flatMap covered = covered c := by
  have first := wf.first
  have start := wf.start
  have some := wf.some
  have stop := wf.stop
  by_cases left : c.bubbleStart + 1 < c.sliceStop
  · have serves : Serves c ⟨state.locations, permutation, maxInt⟩ := by
      refine ⟨perm, fun _ => ?_, by show _ ≤ maxInt; omega⟩
      obtain ⟨n, mem⟩ := List.exists_mem_of_ne_nil _ (passes left)
      obtain ⟨i, here, found⟩ := List.mem_filterMap.mp mem
      exact ⟨i, List.mem_range.mp (perm.subset here), by rw [found]; rfl⟩
    rw [halvesOf, forward_covered wf serves left (by omega), own]
    by_cases at_start : c.sliceStart ≤ c.bubbleStart
    · have same : c.sliceStart = c.bubbleStart := by omega
      rw [if_pos at_start, covered, same, max_eq_right (by omega), positions_cons (a := c.bubbleStart) c.payload (by omega)]
      rfl
    · rw [if_neg at_start, max_eq_left (by omega)]
      rfl
  · have at_start : c.sliceStart = c.bubbleStart := by omega
    have one : covered c = [(c.bubbleStart, c.payload)] := by
      rw [covered, at_start, positions_cons _ (by omega), positions_nil _ (by omega)]
    have none : (halvesOf state c permutation).flatMap covered = [] := by
      unfold halvesOf forward
      dsimp only
      split
      · rfl
      · rfl
      · rw [List.flatMap_append, cast_covered, cast_covered, positions_nil _ (by omega), positions_nil _ (by omega)]
        rfl
    rw [none, one, own, if_pos (by omega)]
    rfl

/-- A slice of a bubble of an unknown type is passed on whole exactly when it begins at
zero, the bubble is small enough to be cut in two, and there is somebody to send the rest
to. -/
theorem relays_iff (priority : N.isFinite N.defaultQueryPriority = true)
    (reliability : N.isFinite N.defaultBubblecastReliability = true) (wf : Wf c) (type : state.bubbletypes c.typ = none)
    (perm : permutation.Perm (List.range (state.locations.length * 2))) : Relays N state c permutation ↔
      c.sliceStart = 0 ∧ c.bubbleStop + 1 ≤ maxInt ∧ (c.bubbleStart + 1 < c.sliceStop → Passes state c permutation) := by
  have first := wf.first
  have start := wf.start
  have some := wf.some
  have stop := wf.stop
  constructor
  · intro ⟨effects, done, whole⟩
    obtain ⟨zero, fits, eq⟩ := unknown_calls wf type done
    refine ⟨zero, fits, ?_⟩
    intro left alone
    have none : halvesOf state c permutation = [] := by
      unfold halvesOf forward randomSplitTotalNeighbours
      dsimp only
      rw [alone]
      rfl
    rw [eq, none, own, if_pos (by omega), covered, positions_cons _ some, positions_cons _ (by omega)] at whole
    simp at whole
  · intro ⟨zero, fits, passes⟩
    obtain ⟨effects, done⟩ : ∃ effects, handleBubblecast N state c permutation = .ok effects :=
      unknown_passes priority reliability wf type zero fits
    refine ⟨effects, done, ?_⟩
    rw [(unknown_calls wf type done).2.2]
    exact halves_covered wf perm passes (by omega)

/-- Exact numbers, with the first terms of the series. -/
def rationals : Reals Rat Rat :=
  { fromInt := fun x => x
    fromBits := fun b => b.toNat
    neg := fun x => -x
    exp := fun x => 1 + x
    ln := fun x => x - 1
    add := fun x y => x + y
    sub := fun x y => x - y
    mul := fun x y => x * y
    div := fun x y => x / y
    max := fun x y => max x y
    lt := fun x y => decide (x < y)
    minPos := 1
    ceil := fun x => toInt32 ⌈x⌉
    maxBubbleOvershoot := 2
    toReal32 := fun x => x
    toReal64 := fun x => x
    fromInt32 := fun x => x
    add32 := fun x y => x + y
    div32 := fun x y => x / y
    isFinite := fun _ => true
    defaultQueryPriority := 5000
    defaultBubblecastReliability := 4000 }

/-- A node with two neighbours that knows no bubble type. -/
def ignorant : State Rat Rat Nat := ⟨⟨16, 16, 512, 512, 16, 16⟩, fun _ => none, (pair 0).table⟩

theorem relays_iff_four : Relays rationals ignorant ⟨0, none, 9, 0, 0, 4, 0, 4, []⟩ [0, 1, 2, 3] := by
  refine (relays_iff rfl rfl ⟨by decide, by decide, by decide, by decide⟩ rfl (by decide)).mpr ⟨rfl, by decide, ?_⟩
  intro _
  simp [Passes, ignorant, pair, toTotalNeighbour]

/-- The second half of a bubble is lost. -/
theorem second_half_lost : ¬ ∀ (c : Call Nat Bytes) (permutation : List Nat), Wf c →
    permutation.Perm (List.range (ignorant.locations.length * 2)) → (c.bubbleStart + 1 < c.sliceStop → Passes ignorant c permutation) →
      Relays rationals ignorant c permutation := by
  intro all
  obtain ⟨effects, done, -⟩ := all ⟨0, none, 9, 0, 2, 4, 2, 4, []⟩ [0, 1, 2, 3] ⟨by decide, by decide, by decide, by decide⟩
    (by decide) (by intro _; simp [Passes, ignorant, pair, toTotalNeighbour])
  have lost : handleBubblecast rationals ignorant ⟨0, none, 9, 0, 2, 4, 2, 4, []⟩ [0, 1, 2, 3] = .error .overflow := rfl
  rw [lost] at done
  cases done

end BubbleStorm.Topology.BubblecastHandler
