/-
  BubbleStorm.Managed.StoragePool — the storage peers a maintainer is registered at
  (`src/bubblestorm/managed/maintainer/storage-pool.sml`).

  A tree keyed by density and service, and a table with the density each service is
  filed under. A range takes the peers from one density on and before another: its
  ends carry no service, and no service is below every service.

  Densities are any total preorder, services are what their descriptions are compared
  by (the address), and a hash table is its entries.
-/

import Mathlib.Data.List.AList
import BubbleStorm.Util.Container.TreeProofs

namespace BubbleStorm.Managed

open BubbleStorm.Util.Container

inductive Exn where
  | keyExists
  | keyDoesNotExist
  | bubbleIdInUse
  | tree (e : Cusp.Exn)
  | fail (msg : String)
  deriving DecidableEq, Repr

/-- A storage peer: the service, and the stream the maintainer is registered on. -/
structure StoragePeer (σ : Type) where
  service : σ
  stream : Nat
  deriving DecidableEq, Repr

abbrev Table (κ α : Type) := AList fun _ : κ => α

namespace Table

variable {κ α : Type} [DecidableEq κ]

def add (t : Table κ α) (k : κ) (v : α) : Except Exn (Table κ α) :=
  if k ∈ t then .error .keyExists else .ok (t.insert k v)

def update (t : Table κ α) (k : κ) (v : α) : Except Exn (Table κ α) :=
  if k ∈ t then .ok (t.insert k v) else .error .keyDoesNotExist

def remove (t : Table κ α) (k : κ) : Except Exn (Table κ α × α) :=
  match t.lookup k with
  | none => .error .keyDoesNotExist
  | some v => .ok (t.erase k, v)

end Table

namespace StoragePool

variable {δ σ : Type} [Preorder δ] [DecidableLT δ] [LinearOrder σ]

abbrev Key (δ σ : Type) := δ × Option σ

/-- `Order.compare` at one density. -/
def serviceLess : Option σ → Option σ → Bool
  | some x, some y => decide (x < y)
  | none, some _ => true
  | some _, none => false
  | none, none => false

/-- `Order.compare`. -/
def less (a b : Key δ σ) : Bool :=
  if a.1 < b.1 then true
  else if b.1 < a.1 then false
  else serviceLess a.2 b.2

structure T (δ σ : Type) where
  tree : Tree (Key δ σ) (StoragePeer σ)
  lookup : Table σ δ

def new : T δ σ := ⟨Tree.empty, ∅⟩

def get (this : T δ σ) (service : σ) : Except Exn (Option (δ × StoragePeer σ)) :=
  match this.lookup.lookup service with
  | none => .ok none
  | some pos =>
    match Tree.find less this.tree (pos, some service) with
    | [storage] => .ok (some (pos, storage))
    | _ => .error (.fail "tree inconsistent")

def add (this : T δ σ) (pos : δ) (storage : StoragePeer σ) : Except Exn (T δ σ) := do
  let lookup ← Table.add this.lookup storage.service pos
  return ⟨Tree.insert less this.tree (pos, some storage.service) storage, lookup⟩

def update (this : T δ σ) (pos : δ) (storage : StoragePeer σ) : Except Exn (T δ σ) := do
  match ← get this storage.service with
  | none => .error .keyDoesNotExist
  | some (oldPos, _) =>
    let lookup ← Table.update this.lookup storage.service pos
    let (tree, oldEntry) ← (Tree.remove less this.tree (oldPos, some storage.service)).mapError .tree
    if oldEntry.isSome then return ⟨Tree.insert less tree (pos, some storage.service) storage, lookup⟩
    else .error (.fail "cannot update inconsistent tree")

def remove (this : T δ σ) (storage : StoragePeer σ) : Except Exn (T δ σ) := do
  let (lookup, pos) ← Table.remove this.lookup storage.service
  let (tree, _) ← (Tree.remove less this.tree (pos, some storage.service)).mapError .tree
  return ⟨tree, lookup⟩

/-- The peers a forward walk comes to. -/
def walk (this : T δ σ) (range : Tree.Range (Key δ σ)) : Except Exn (List (δ × StoragePeer σ)) := do
  let it ← (Tree.collect less range .forward ((Tree.toList this.tree).length + 1)
    (Tree.forward less this.tree range)).mapError .tree
  return it.map fun e => (e.1.1, e.2)

def iterator (this : T δ σ) : Except Exn (List (δ × StoragePeer σ)) := walk this ⟨none, none⟩

def range (this : T δ σ) (start stop : δ) : Except Exn (List (δ × StoragePeer σ)) :=
  walk this ⟨some (start, none), some (stop, none)⟩

end StoragePool

end BubbleStorm.Managed
