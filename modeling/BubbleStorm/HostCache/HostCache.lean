/-
  BubbleStorm.HostCache.HostCache — the cache of addresses from which a node joins
  (`src/bubblestorm/host-cache/host-cache.sml`).

  An address has a record in a heap by availability, and a table has the record for each
  address. Availabilities are exact; what is stored of one may be rounded.

  An operation returns the cache also when it raises, as it was then.
-/

import Mathlib
import BubbleStorm.Util.Heap.ManagedHeapQueue

namespace BubbleStorm.HostCache

open Util.Heap (ManagedHeap)

inductive Exn where
  | heap (e : Util.Heap.Exn)
  | keyExists
  /-- The data cannot be parsed. -/
  | subscript
  | invalidHostCacheData
  deriving DecidableEq, Repr

/-- `hostEntryToVector` and `hostEntryFromVectorSlice`: entries have one length, and the
    address comes back. Data that is no entry is not parsed. -/
structure Codec (Address : Type) where
  length : Nat
  pos : 0 < length
  round : ℚ → ℚ
  toVector : Address × ℚ → List UInt8
  parse : List UInt8 → Option (Address × ℚ)
  size : ∀ e, (toVector e).length = length
  parse_append : ∀ addr v rest, parse (toVector (addr, v) ++ rest) = some (addr, round v)
  parse_short : ∀ slice, slice.length < length → parse slice = none

/-- `next` is the first reference that no record has. -/
structure Cache (Address : Type) where
  hostHeap : ManagedHeap Nat ℚ Address
  hostMap : List (Address × Nat)
  explicitBootstrapAddr : Option Address
  next : Nat

section Code

variable {Address : Type} [DecidableEq Address]

def hostCacheLimit : Nat := 1000

def hostCacheAvailabilityDecay : ℚ := 1 / 10

def hostCacheInitialAvailability : ℚ := 1 / 2

def below (x y : ℚ) : Bool := x < y

/-- `HostMap.get`. -/
def find (hostMap : List (Address × Nat)) (addr : Address) : Option Nat := (hostMap.find? fun p => p.1 = addr).map (·.2)

/-- The records that no one has wrapped yet hold anything. -/
def new (nobody : Address) : Cache Address :=
  ⟨ManagedHeap.new (fun _ => 0) (fun _ => nobody), [], none, 0⟩

/-- Wrap a record, push it, and add it to the table. -/
def addEntry (c : Cache Address) (addr : Address) (v : ℚ) : Cache Address × Option Exn :=
  let record := c.next
  match ManagedHeap.push below (c.hostHeap.assign record (Util.Heap.wrap v addr)) record with
  | .error e => ({ c with next := c.next + 1 }, some (.heap e))
  | .ok hostHeap =>
    match find c.hostMap addr with
    | some _ => ({ c with hostHeap := hostHeap, next := c.next + 1 }, some .keyExists)
    | none => ({ c with hostHeap := hostHeap, hostMap := c.hostMap ++ [(addr, record)], next := c.next + 1 }, none)

/-- `HostHeap.update`, in the cache. -/
def updateEntry (c : Cache Address) (record : Nat) (new : ℚ) : Cache Address × Option Exn :=
  match ManagedHeap.update below c.hostHeap record new with
  | .error e => (c, some (.heap e))
  | .ok hostHeap => ({ c with hostHeap := hostHeap }, none)

def addAddress (c : Cache Address) (addr : Address) : Cache Address × Option Exn :=
  match find c.hostMap addr with
  | some record => updateEntry c record ((c.hostHeap.sub record).2.1 + hostCacheAvailabilityDecay)
  | none => addEntry c addr hostCacheInitialAvailability

def popHosts : Nat → Cache Address → Cache Address × Option Exn
  | 0, c => (c, none)
  | n + 1, c =>
    match ManagedHeap.pop below c.hostHeap with
    | .error e => (c, some (.heap e))
    | .ok (_, hostHeap) => popHosts n { c with hostHeap := hostHeap }

/-- The interval from 1 to `reduce` has `reduce - 1` steps. -/
def trimCache (c : Cache Address) : Cache Address × Option Exn :=
  let reduce := c.hostHeap.size - hostCacheLimit
  if reduce = 0 then (c, none) else popHosts (reduce - 1) c

def decays : List (Address × Nat) → Cache Address → Cache Address × Option Exn
  | [], c => (c, none)
  | (_, record) :: hosts, c =>
    match updateEntry c record ((1 - hostCacheAvailabilityDecay) * (c.hostHeap.sub record).2.1) with
    | (c, some e) => (c, some e)
    | (c, none) => decays hosts c

def decayAvailabilities (c : Cache Address) : Cache Address × Option Exn := decays c.hostMap c

/-- `HostHeap.iterator`. -/
def records (c : Cache Address) : List Nat := (c.hostHeap.stack.stack.take c.hostHeap.stack.use).filterMap id

def getHostCacheData (s : Codec Address) (c : Cache Address) : List UInt8 :=
  (records c).flatMap fun record => s.toVector ((c.hostHeap.sub record).2.2, (c.hostHeap.sub record).2.1)

def addWellKnownEntries : List Address → Cache Address → Cache Address × Option Exn
  | [], c => (c, none)
  | addr :: addrs, c =>
    match addEntry c addr 1 with
    | (c, some e) => (c, some e)
    | (c, none) => addWellKnownEntries addrs c

def addEl (s : Codec Address) : Nat → List UInt8 → Cache Address → Cache Address × Option Exn
  | 0, _, c => (c, none)
  | fuel + 1, slice, c =>
    if slice = [] then (c, none)
    else
      match s.parse slice with
      | none => (c, some .subscript)
      | some (addr, v) =>
        match addEntry c addr v with
        | (c, some e) => (c, some e)
        | (c, none) => addEl s fuel (slice.drop s.length) c

/-- Table and heap are cleared. What the records said is lost with the last references to
    them, which were in the table. -/
def clear (c : Cache Address) : Cache Address :=
  { c with hostHeap := { mem := fun r => { c.hostHeap.mem r with offset := -1 }, stack := c.hostHeap.stack.clear }, hostMap := [] }

/-- Every entry takes from the data, so its length is fuel enough. -/
def setHostCacheData (s : Codec Address) (c : Cache Address) (data : List UInt8) (wellKnownEntries : List Address) (bootstrap : Option Address) :
    Cache Address × Option Exn :=
  let c := { clear c with explicitBootstrapAddr := bootstrap }
  match addWellKnownEntries wellKnownEntries c with
  | (c, some e) => (c, some e)
  | (c, none) => addEl s data.length data c

inductive Op (Address : Type) where
  | addAddress (addr : Address)
  | trimCache
  | decayAvailabilities
  | setHostCacheData (data : List UInt8) (wellKnownEntries : List Address) (bootstrap : Option Address)

def step (s : Codec Address) (c : Cache Address) : Op Address → Cache Address × Option Exn
  | .addAddress addr => addAddress c addr
  | .trimCache => trimCache c
  | .decayAvailabilities => decayAvailabilities c
  | .setHostCacheData data wellKnownEntries bootstrap => setHostCacheData s c data wellKnownEntries bootstrap

/-- An exception ends in the caller, who goes on with the cache. -/
def run (s : Codec Address) (c : Cache Address) (ops : List (Op Address)) : Cache Address := ops.foldl (fun c op => (step s c op).1) c

end Code

end BubbleStorm.HostCache
