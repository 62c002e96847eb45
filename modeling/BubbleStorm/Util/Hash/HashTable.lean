/-
  BubbleStorm.Util.Hash.HashTable — the cuckoo hash table
  (`src/util/hash/hash-table.fun`, and `flush` of
  `src/bubblestorm/managed/datastore/managed-hash-store.sml`).

  The hash of a key under a seed is a parameter. An array is a function of the index,
  `none` past its end; a record, which is in one cell of one table, is the pair it refers
  to. A function that looks for a working seed takes a bound on how many it tries, and is
  `none` if that is not enough. `shove` takes a bound on its moves in the same way; the
  one it is called with is always enough (`shove_some`).
-/

import Mathlib.Algebra.Order.Ring.Int
import Mathlib.Logic.Function.Basic

namespace BubbleStorm.Util.HashTable

open Function (update)

variable {K α : Type} [DecidableEq K]

/-! ## The table -/

abbrev Table (K α : Type) := Nat → Option (K × α)

structure Cuckoo (K α : Type) where
  mask : BitVec 32
  seed : BitVec 32
  fill : Nat
  table : Table K α

inductive Exn where
  | keyExists
  | keyDoesNotExist
  deriving DecidableEq

/-- `hash (key, seed)`. -/
abbrev Hash (K : Type) := K → BitVec 32 → BitVec 32 × BitVec 32

variable (hash : Hash K)

def emptyData : Cuckoo K α := ⟨3, 1, 0, fun _ => none⟩

def address (k mask : BitVec 32) : Nat := (k &&& mask).toNat

/-- The two places of a key. -/
def off1 (mask seed : BitVec 32) (key : K) : Nat := address (hash key seed).1 mask
def off2 (mask seed : BitVec 32) (key : K) : Nat := address (hash key seed).2 mask

def cells (mask : BitVec 32) (table : Table K α) : List (Option (K × α)) := (List.range (mask.toNat + 1)).map table

def get (c : Cuckoo K α) (key : K) : Option α :=
  let fetch (i : Nat) : Option α :=
    match c.table i with
    | none => none
    | some (k, v) => if k = key then some v else none
  match fetch (off1 hash c.mask c.seed key) with
  | none => fetch (off2 hash c.mask c.seed key)
  | some x => some x

def modify (c : Cuckoo K α) (key : K) (map : α → α) : Except Exn (Cuckoo K α) :=
  let upd (i : Nat) : Option (Cuckoo K α) :=
    match c.table i with
    | none => none
    | some (k, v) => if k = key then some { c with table := update c.table i (some (k, map v)) } else none
  match upd (off1 hash c.mask c.seed key) with
  | some c => .ok c
  | none =>
    match upd (off2 hash c.mask c.seed key) with
    | some c => .ok c
    | none => .error .keyDoesNotExist

/-! ## Moving records -/

/-- Where a record goes that was at `prevoff`. -/
def alternative (mask seed : BitVec 32) (prevoff : Nat) (key : K) : Nat :=
  if off2 hash mask seed key ≠ prevoff then off2 hash mask seed key else off1 hash mask seed key

def store (mask seed : BitVec 32) (origoff : Nat) :
    Nat → Table K α → Nat → Option (K × α) → Option (Table K α × Option (K × α))
  | _, table, _, none => some (table, none)
  | 0, _, _, some _ => none
  | n + 1, table, prevoff, some record =>
    let off := alternative hash mask seed prevoff record.1
    let old := table off
    let table := update table off (some record)
    if off = origoff then some (table, old) else store mask seed origoff n table off old

/-- It goes over a cell twice at most. -/
def shove (mask seed : BitVec 32) (table : Table K α) (origoff : Nat) (record : Option (K × α)) :
    Option (Table K α × Option (K × α)) :=
  store hash mask seed origoff (2 * (mask.toNat + 1) + 2) table origoff record

/-! ## Rehashing -/

def pickmask (x : BitVec 32) : BitVec 32 :=
  let x := x ||| (x >>> 1)
  let x := x ||| (x >>> 2)
  let x := x ||| (x >>> 4)
  let x := x ||| (x >>> 8)
  let x := x ||| (x >>> 16)
  x

def rawadd (mask seed : BitVec 32) (table : Table K α) (record : K × α) : Option (Table K α × Option (K × α)) :=
  let o1 := off1 hash mask seed record.1
  let o2 := off2 hash mask seed record.1
  match table o2 with
  | none => some (update table o2 (some record), none)
  | some _ =>
    match table o1 with
    | none => some (update table o1 (some record), none)
    | some old => shove hash mask seed (update table o1 (some record)) o1 (some old)

def copy (mask seed : BitVec 32) (new : Table K α × Option (K × α)) :
    Option (K × α) → Option (Table K α × Option (K × α))
  | none => some new
  | some record =>
    match new.2 with
    | some x => some (new.1, some x)
    | none => rawadd hash mask seed new.1 record

/-- The first seed that works, of the next `tries`. -/
def attempt (mask : BitVec 32) (old : List (Option (K × α))) : Nat → BitVec 32 → Option (BitVec 32 × Table K α)
  | 0, _ => none
  | tries + 1, seed =>
    match old.foldlM (copy hash mask seed) (fun _ => none, none) with
    | none => none
    | some (table, none) => some (seed, table)
    | some (_, some _) => attempt mask old tries (seed + 1)

def rehash (tries : Nat) (c : Cuckoo K α) : Option (Cuckoo K α) :=
  let mask := pickmask (BitVec.ofNat 32 (c.fill * 3))
  match attempt hash mask (cells c.mask c.table) tries (c.seed + 1) with
  | none => none
  | some (seed, table) => some ⟨mask, seed, c.fill, table⟩

/-! ## Adding and removing -/

/-- How a record was put into the table. -/
inductive Insert (K α : Type) where
  | exists
  | replace (table : Table K α)
  | grow (table : Table K α)
  | overflow (table : Table K α) (record : K × α)

/-- `shove` for the record that was in the way. -/
def displace (c : Cuckoo K α) (o1 : Nat) (record old : K × α) : Option (Insert K α) :=
  match shove hash c.mask c.seed (update c.table o1 (some record)) o1 (some old) with
  | none => none
  | some (table, none) => some (.grow table)
  | some (table, some x) => some (.overflow table x)

def insertAdd (c : Cuckoo K α) (key : K) (value : α) : Option (Insert K α) :=
  let o1 := off1 hash c.mask c.seed key
  let o2 := off2 hash c.mask c.seed key
  match c.table o2 with
  | none =>
    match c.table o1 with
    | none => some (.grow (update c.table o2 (some (key, value))))
    | some (k, _) => if k = key then some .exists else some (.grow (update c.table o2 (some (key, value))))
  | some (k, _) =>
    if k = key then some .exists
    else
      match c.table o1 with
      | none => some (.grow (update c.table o1 (some (key, value))))
      | some old => if old.1 = key then some .exists else displace hash c o1 (key, value) old

def insertSet (c : Cuckoo K α) (key : K) (value : α) : Option (Insert K α) :=
  let o1 := off1 hash c.mask c.seed key
  let o2 := off2 hash c.mask c.seed key
  match c.table o2 with
  | none =>
    match c.table o1 with
    | none => some (.grow (update c.table o2 (some (key, value))))
    | some (k, _) =>
      if k = key then some (.replace (update c.table o1 (some (k, value))))
      else some (.grow (update c.table o2 (some (key, value))))
  | some (k, _) =>
    if k = key then some (.replace (update c.table o2 (some (k, value))))
    else
      match c.table o1 with
      | none => some (.grow (update c.table o1 (some (key, value))))
      | some old =>
        if old.1 = key then some (.replace (update c.table o1 (some (old.1, value))))
        else displace hash c o1 (key, value) old

/-- What follows an insertion; a record left over is inserted again after a rehash. -/
def insertLoop (insert : Cuckoo K α → K → α → Option (Insert K α)) :
    Nat → Cuckoo K α → K → α → Option (Cuckoo K α × Option Exn)
  | tries, c, key, value =>
    match insert c key value with
    | none => none
    | some .exists => some (c, some .keyExists)
    | some (.replace table) => some ({ c with table := table }, none)
    | some (.grow table) => some ({ c with fill := c.fill + 1, table := table }, none)
    | some (.overflow table (k, v)) =>
      match tries with
      | 0 => none
      | n + 1 =>
        match rehash hash (n + 1) { c with table := table } with
        | none => none
        | some c => insertLoop insert n c k v

def add : Nat → Cuckoo K α → K → α → Option (Cuckoo K α × Option Exn) := insertLoop hash (insertAdd hash)

def set : Nat → Cuckoo K α → K → α → Option (Cuckoo K α × Option Exn) := insertLoop hash (insertSet hash)

/-- The place and the value of a key. -/
def find (c : Cuckoo K α) (key : K) : Option (Nat × α) :=
  let rem (i : Nat) : Option (Nat × α) :=
    match c.table i with
    | none => none
    | some (k, v) => if k = key then some (i, v) else none
  match rem (off1 hash c.mask c.seed key) with
  | some r => some r
  | none => rem (off2 hash c.mask c.seed key)

/-- The table without cell `i`, in the same array. -/
def erase (c : Cuckoo K α) (i : Nat) : Cuckoo K α := { c with fill := c.fill - 1, table := update c.table i none }

/-- Whether the removal of a record shrinks the table. -/
def shrinks (c : Cuckoo K α) : Bool := c.fill * 8 = c.mask.toNat + 1

def remove (tries : Nat) (c : Cuckoo K α) (key : K) : Option (Cuckoo K α × Except Exn α) :=
  match find hash c key with
  | none => some (c, .error .keyDoesNotExist)
  | some (i, v) =>
    if shrinks c then (rehash hash tries (erase c i)).map fun c => (c, .ok v) else some (erase c i, .ok v)

def iterator (c : Cuckoo K α) : List (K × α) := (cells c.mask c.table).filterMap id

/-! ## Traversals -/

/-- An array that is being iterated over, and whether the table is still in it: a removal
    clears a cell of the array the table is in, and a rehash leaves it. -/
structure Traversal (K α : Type) where
  cuckoo : Cuckoo K α
  array : Table K α
  shared : Bool
  visited : List (K × α)

/-- `kill`, if the binding is selected. An unknown key raises. -/
def visit (tries : Nat) (select : K × α → Bool) (t : Traversal K α) (i : Nat) : Option (Traversal K α) :=
  match t.array i with
  | none => some t
  | some (k, v) =>
    let t := { t with visited := t.visited ++ [(k, v)] }
    if !select (k, v) then some t
    else
      match find hash t.cuckoo k with
      | none => none
      | some (j, _) =>
        let array := if t.shared then update t.array j none else t.array
        if shrinks t.cuckoo then
          (rehash hash tries (erase t.cuckoo j)).map fun c => { t with cuckoo := c, array := array, shared := false }
        else some { t with cuckoo := erase t.cuckoo j, array := array }

def flush (tries : Nat) (c : Cuckoo K α) (select : K × α → Bool) : Option (Traversal K α) :=
  (List.range (c.mask.toNat + 1)).foldlM (visit hash tries select) ⟨c, c.table, true, []⟩

/-! ## Operations -/

inductive Op (K α : Type) where
  | add (key : K) (value : α)
  | set (key : K) (value : α)
  | modify (key : K) (map : α → α)
  | remove (key : K)
  | clear
  | get (key : K)
  | size
  | iterator
  | flush (select : K × α → Bool)

inductive Out (K α : Type) where
  | unit
  | exn (e : Exn)
  | value (v : α)
  | option (v : Option α)
  | size (n : Nat)
  | bindings (l : List (K × α))

def Out.ofExn : Option Exn → Out K α
  | none => .unit
  | some e => .exn e

def step (tries : Nat) (c : Cuckoo K α) : Op K α → Option (Cuckoo K α × Out K α)
  | .add key value => (add hash tries c key value).map fun r => (r.1, .ofExn r.2)
  | .set key value => (set hash tries c key value).map fun r => (r.1, .ofExn r.2)
  | .modify key map =>
    match modify hash c key map with
    | .ok c => some (c, .unit)
    | .error e => some (c, .exn e)
  | .remove key =>
    (remove hash tries c key).map fun r =>
      match r.2 with
      | .ok v => (r.1, .value v)
      | .error e => (r.1, .exn e)
  | .clear => some (emptyData, .unit)
  | .get key => some (c, .option (get hash c key))
  | .size => some (c, .size c.fill)
  | .iterator => some (c, .bindings (iterator c))
  | .flush select => (flush hash tries c select).map fun t => (t.cuckoo, .bindings t.visited)

end BubbleStorm.Util.HashTable
