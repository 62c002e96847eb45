/-
  BubbleStorm.Util.Matrix.CuthillMcKee — numbering the nodes of a graph so that neighbours
  have near numbers, before a sparse matrix is solved.

  `optimize` sorts the nodes by their degree, turns the adjacency lists around while it
  puts them in that order, and numbers the nodes by breadth-first searches from each node
  that has no number yet; `inverse` and `relabel` use the numbers.
-/

import BubbleStorm.Util.Heap.HeapSort
import Mathlib.Data.List.Count
import Mathlib.Data.List.Nodup

namespace BubbleStorm.Util.Matrix.CuthillMcKee

open Util.Heap (Exn)

/-- The neighbours of each node. -/
abbrev Graph := List (List Nat)

variable {α : Type}

/-- `Array.sub` and `Vector.sub`. -/
def sub (a : List α) (i : Int) : Except Exn α :=
  if i < 0 then .error .subscript
  else
    match a[i.toNat]? with
    | some x => .ok x
    | none => .error .subscript

def update (a : List α) (i : Int) (x : α) : Except Exn (List α) :=
  if 0 ≤ i ∧ i < a.length then .ok (a.set i.toNat x) else .error .subscript

def degree (graph : Graph) : List Nat := graph.map List.length

/-- Only nodes of the graph are compared. -/
def less (graph : Graph) (x y : Nat) : Bool := (degree graph).getD x 0 < (degree graph).getD y 0

/-- Put `a` in front of the list of `b`. -/
def push (a : Nat) (sortedGraph : Graph) (b : Nat) : Except Exn Graph := do
  let l ← sub sortedGraph b
  update sortedGraph b (a :: l)

def add (graph : Graph) (node : Nat) (sortedGraph : Graph) : Except Exn Graph := do
  let edges ← sub graph node
  edges.foldlM (push node) sortedGraph

/-- The turned lists, in the order of the nodes of `degreeOrder`. -/
def sortedGraph (graph : Graph) (degreeOrder : List Nat) : Except Exn Graph :=
  degreeOrder.foldrM (add graph) (List.replicate graph.length [])

theorem count_set_lt {a : List Int} {node : Nat} {i : Nat} (h : a[node]? = some (-1)) :
    (a.set node (i : Int)).count (-1) < a.count (-1) := by
  obtain ⟨hlt, hx⟩ := List.getElem?_eq_some_iff.mp h
  have hpos : 0 < a.count (-1) := List.count_pos_iff.mpr (List.mem_of_getElem? h)
  rw [List.count_set hlt, hx]
  have : ((i : Int) == -1) = false := by
    rw [beq_eq_false_iff_ne]
    omega
  rw [this, beq_self_eq_true, if_pos rfl, if_neg Bool.false_ne_true]
  omega

/-- Number the nodes of the queue, and what is found from them. -/
def bfs (sortedGraph : Graph) (permutation : List Int) (i : Nat) : List Nat → Except Exn (List Int × Nat)
  | [] => .ok (permutation, i)
  | node :: queue =>
    match h : permutation[node]? with
    | none => .error .subscript
    | some number =>
      if hn : number ≠ -1 then bfs sortedGraph permutation i queue
      else
        match sortedGraph[node]? with
        | none => .error .subscript
        | some children => bfs sortedGraph (permutation.set node i) (i + 1) (queue ++ children)
termination_by queue => (permutation.count (-1), queue.length)
decreasing_by
  · exact Prod.Lex.right _ (Nat.lt_succ_self _)
  · apply Prod.Lex.left
    simp only [ne_eq, Decidable.not_not] at hn
    subst hn
    exact count_set_lt h

def optimize (graph : Graph) : Except Exn (List Int) := do
  let degreeOrder ← Heap.HeapSort.sort (less graph) (List.range graph.length)
  let sorted ← sortedGraph graph degreeOrder
  -- the roots are picked by lowest degree first
  let (permutation, _) ← degreeOrder.foldlM (fun x node => bfs sorted x.1 x.2 [node]) (List.replicate graph.length (-1), 0)
  pure permutation

def inverse (permutation : List Int) : Except Exn (List Int) :=
  permutation.zipIdx.foldlM (fun a x => update a x.1 x.2) (List.replicate permutation.length (-1))

def relabel (graph : Graph) (permutation : List Int) : Except Exn (List (List Int)) := do
  let ipermutation ← inverse permutation
  (List.range graph.length).mapM fun i : Nat => do
    let k ← sub ipermutation i
    let edges ← sub graph k
    edges.mapM fun j : Nat => sub permutation j

end BubbleStorm.Util.Matrix.CuthillMcKee
