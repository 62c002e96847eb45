/-
  BubbleStorm.Util.Matrix.Bandwidth — the graph without loops and double edges, and how far
  apart neighbours are (`src/util/matrix/cuthill-mckee.sml`).

  Proved: with the numbers of `optimize` neighbours of the graph are at most the bandwidth
  of the relabelled simple graph apart (`optimize_width`).
-/

import Mathlib
import BubbleStorm.Util.Matrix.CuthillMcKeeProofs

namespace BubbleStorm.Util.Matrix.CuthillMcKee

open Util.Heap (Exn)

/-- What `push` puts in front of `last`, the head of `out`. -/
def pushes : Int → List Nat → List Nat
  | _, [] => []
  | last, e :: edges => if last = e then pushes last edges else e :: pushes e edges

def reduce (i : Nat) (edges : List Nat) : Except Exn (List Nat) := do
  let edges ← Heap.HeapSort.sort (fun x y : Nat => decide (x < y)) (edges.filter fun x => x ≠ i)
  pure (pushes (-1) edges)

def simplify (graph : Graph) : Except Exn Graph := graph.zipIdx.mapM fun x => reduce x.2 x.1

def biggest (i : Int) (acc j : Int) : Int := max ((i - j).natAbs : Int) acc

def bandwidth (graph : List (List Int)) : Int := graph.zipIdx.foldl (fun acc x => x.1.foldl (biggest x.2) acc) 0

theorem mem_pushes {e : Nat} (edges : List Nat) {last : Int} (hlast : last ≠ e) : e ∈ pushes last edges ↔ e ∈ edges := by
  induction edges generalizing last with
  | nil => exact Iff.rfl
  | cons x edges ih =>
    unfold pushes
    by_cases hx : last = x
    · have hne : e ≠ x := by
        rintro rfl
        exact hlast hx
      rw [if_pos hx, ih hlast, List.mem_cons, or_iff_right hne]
    · rw [if_neg hx, List.mem_cons, List.mem_cons]
      by_cases he : e = x
      · rw [iff_true_left (.inl he)]
        exact .inl he
      · rw [or_iff_right he, or_iff_right he]
        exact ih (by omega)

theorem reduce_spec (i : Nat) (edges : List Nat) : ∃ l, reduce i edges = .ok l ∧ ∀ e, e ∈ l ↔ e ∈ edges ∧ e ≠ i := by
  have hweak : BinHeap.Weak (fun x y : Nat => decide (x < y)) (fun _ => True) := BinHeap.weak_lt (fun x : Nat => (x : Int)) fun x y => by simp
  obtain ⟨sorted, hsort, hperm, _⟩ := Heap.HeapSort.sort_sorted hweak (edges.filter fun x => x ≠ i)
  refine ⟨pushes (-1) sorted, ?_, fun e => ?_⟩
  · unfold reduce
    rw [hsort]
    rfl
  · rw [mem_pushes sorted (by omega), hperm.mem_iff, List.mem_filter, decide_eq_true_eq]

/-- The other edges stay. -/
theorem simplify_spec (graph : Graph) : ∃ g, simplify graph = .ok g ∧ g.length = graph.length ∧ ∀ a b, Edge g a b ↔ Edge graph a b ∧ b ≠ a := by
  choose f hf hmem using reduce_spec
  refine ⟨graph.zipIdx.map fun x => f x.2 x.1, mapM_eq fun x _ => hf x.2 x.1, by simp, fun a b => ?_⟩
  unfold Edge
  constructor
  · rintro ⟨l, hl, hb⟩
    rw [List.getElem?_map] at hl
    obtain ⟨x, hx, rfl⟩ := Option.map_eq_some_iff.mp hl
    rw [List.getElem?_zipIdx] at hx
    obtain ⟨edges, hedges, rfl⟩ := Option.map_eq_some_iff.mp hx
    have hb' := (hmem (0 + a) edges b).mp hb
    rw [Nat.zero_add] at hb'
    exact ⟨⟨edges, hedges, hb'.1⟩, hb'.2⟩
  · rintro ⟨⟨edges, hedges, hb⟩, hne⟩
    refine ⟨f (0 + a) edges, ?_, (hmem (0 + a) edges b).mpr ⟨hb, by rwa [Nat.zero_add]⟩⟩
    rw [List.getElem?_map, List.getElem?_zipIdx, hedges]
    rfl

theorem biggest_le (i : Int) (l : List Int) (acc : Int) : acc ≤ l.foldl (biggest i) acc ∧ ∀ j ∈ l, ((i - j).natAbs : Int) ≤ l.foldl (biggest i) acc := by
  induction l generalizing acc with
  | nil => exact ⟨Int.le_refl acc, nofun⟩
  | cons x l ih =>
    obtain ⟨hacc, hl⟩ := ih (biggest i acc x)
    refine ⟨Int.le_trans (Int.le_max_right _ _) hacc, fun j hj => ?_⟩
    rcases List.mem_cons.mp hj with rfl | hj
    · exact Int.le_trans (Int.le_max_left _ _) hacc
    · exact hl j hj

theorem bandwidth_spec (graph : List (List Int)) : 0 ≤ bandwidth graph ∧
    ∀ (i : Nat) l, graph[i]? = some l → ∀ j ∈ l, (((i : Int) - j).natAbs : Int) ≤ bandwidth graph := by
  have hfold : ∀ (xs : List (List Int × Nat)) acc, acc ≤ xs.foldl (fun acc x => x.1.foldl (biggest x.2) acc) acc ∧
      ∀ x ∈ xs, ∀ j ∈ x.1, (((x.2 : Int) - j).natAbs : Int) ≤ xs.foldl (fun acc x => x.1.foldl (biggest x.2) acc) acc := by
    intro xs
    induction xs with
    | nil => exact fun acc => ⟨Int.le_refl acc, nofun⟩
    | cons x xs ih =>
      intro acc
      obtain ⟨hhere, hl⟩ := biggest_le x.2 x.1 acc
      obtain ⟨hrest, hxs⟩ := ih (x.1.foldl (biggest x.2) acc)
      refine ⟨Int.le_trans hhere hrest, fun y hy j hj => ?_⟩
      rcases List.mem_cons.mp hy with rfl | hy
      · exact Int.le_trans (hl j hj) hrest
      · exact hxs y hy j hj
  refine ⟨(hfold graph.zipIdx 0).1, fun i l hl j hj => ?_⟩
  exact (hfold graph.zipIdx 0).2 (l, i) (List.mem_iff_getElem?.mpr ⟨i, by rw [List.getElem?_zipIdx, hl]; simp⟩) j hj

/-- The numbers are those of an order of the nodes. -/
theorem optimize_width {graph : Graph} (V : Valid graph) :
    ∃ g order g', simplify graph = .ok g ∧ order.Perm (List.range graph.length) ∧ optimize g = .ok (numbers graph.length order) ∧
      relabel g (numbers graph.length order) = .ok g' ∧ 0 ≤ bandwidth g' ∧
      ∀ a b, Edge graph a b → (((order.idxOf a : Int) - order.idxOf b).natAbs : Int) ≤ bandwidth g' := by
  obtain ⟨g, hsimplify, hlength, hedge⟩ := simplify_spec graph
  have Vg : Valid g := by
    intro l hl x hx
    obtain ⟨a, ha⟩ := List.getElem?_of_mem hl
    rw [hlength]
    exact ((hedge a x).mp ⟨l, ha, hx⟩).1.lt' V
  obtain ⟨order, ho, hp, _⟩ := optimize_order Vg
  have hrelabel := relabel_numbers hp Vg rfl
  rw [hlength] at ho hp hrelabel
  obtain ⟨hpos, hwide⟩ := bandwidth_spec ((List.range graph.length).map fun i => (g.getD (order.getD i 0) []).map fun k => (order.idxOf k : Int))
  refine ⟨g, order, _, hsimplify, hp, ho, hrelabel, hpos, fun a b hab => ?_⟩
  by_cases hne : b = a
  · rw [hne, Int.sub_self]
    exact hpos
  · have ha := hab.lt
    have hlt : order.idxOf a < graph.length := by
      rw [← order_length hp]
      exact List.idxOf_lt_length_of_mem ((order_mem hp).mpr ha)
    have hget : order[order.idxOf a]? = some a := (idxOf_iff hp hlt).mpr ⟨ha, rfl⟩
    obtain ⟨l, hl, hb⟩ := (hedge a b).mpr ⟨hab, hne⟩
    refine hwide (order.idxOf a) (l.map fun k => (order.idxOf k : Int)) ?_ _ (List.mem_map.mpr ⟨b, hb, rfl⟩)
    rw [List.getElem?_map, List.getElem?_range hlt]
    simp only [Option.map_some, List.getD_eq_getElem?_getD, hget, Option.getD_some, hl]

end BubbleStorm.Util.Matrix.CuthillMcKee
