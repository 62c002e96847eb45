/-
  BubbleStorm.Util.Heap.ManagedHeap — the heap whose records know their own slot.

  A record is a reference to its slot (`offset`, -1 outside every heap), its key and its
  value; every store into the array writes the slot into the record as well, so a record
  can be found again to be moved or removed. The memory maps each reference to what it
  holds, and the heap is a stack of references.
-/

import BubbleStorm.Util.Heap.Heap
import BubbleStorm.Util.Container.Stack
import Mathlib.Logic.Function.Basic

namespace BubbleStorm.Util.Heap

structure Record (κ β : Type) where
  offset : Int
  key : κ
  value : β
  deriving Repr, DecidableEq

def wrap {κ β : Type} (k : κ) (v : β) : Record κ β := { offset := -1, key := k, value := v }

/-- The memory of the records `ρ`, and the stack of one heap. -/
structure ManagedHeap (ρ κ β : Type) where
  mem : ρ → Record κ β
  stack : Stack (Option ρ)

namespace ManagedHeap

variable {ρ κ β : Type}

def raise {α : Type} : Except Subscript α → Except Exn α
  | .ok a => .ok a
  | .error .subscript => .error .subscript

def valOf {α : Type} : Option α → Except Exn α
  | some a => .ok a
  | none => .error .option

/-- An empty heap, and the records as they were wrapped. -/
def new (key : ρ → κ) (value : ρ → β) : ManagedHeap ρ κ β where
  mem r := wrap (key r) (value r)
  stack := Stack.emptyData none

/-- Whether the record says it is in a heap, its key and its value. -/
def sub (h : ManagedHeap ρ κ β) (r : ρ) : Bool × κ × β :=
  ((h.mem r).offset ≠ -1, (h.mem r).key, (h.mem r).value)

/-- Read the array at an offset. -/
def slot (h : ManagedHeap ρ κ β) (i : Int) : Except Exn (Option ρ) :=
  if i < 0 then .error .subscript else raise (h.stack.sub i.toNat)

def peek (h : ManagedHeap ρ κ β) : Except Exn (Option ρ) :=
  if h.stack.length = 0 then pure none else raise (h.stack.sub 0)

def size (h : ManagedHeap ρ κ β) : Nat := h.stack.length

def isEmpty (h : ManagedHeap ρ κ β) : Bool := h.stack.isEmpty

def clear (h : ManagedHeap ρ κ β) : ManagedHeap ρ κ β := { h with stack := h.stack.clear }

def stackPop (h : ManagedHeap ρ κ β) : Except Exn (Option (Option ρ) × ManagedHeap ρ κ β) := do
  let (out, stack) ← raise h.stack.pop
  pure (out, { h with stack := stack })

variable [DecidableEq ρ]

def assign (h : ManagedHeap ρ κ β) (r : ρ) (x : Record κ β) : ManagedHeap ρ κ β :=
  { h with mem := Function.update h.mem r x }

variable (lt : κ → κ → Bool)

def ops : HeapOps (ManagedHeap ρ κ β) ρ where
  store h i r := do
    let stack ← raise (h.stack.update i (some r))
    pure ({ h with stack := stack }.assign r { h.mem r with offset := i })
  extract h i := do
    let r ← raise (h.stack.sub i)
    valOf r
  less h a b := lt (h.mem a).key (h.mem b).key

/-- Append the record, and move it up to where its key belongs. -/
def append (h : ManagedHeap ρ κ β) (r : ρ) : Except Exn (ManagedHeap ρ κ β) := do
  let (i, stack) ← raise (h.stack.push (some r))
  fixTooSmall (ops lt) { h with stack := stack } i r

/-- The last record takes the place of the first. -/
def replaceRoot (h : ManagedHeap ρ κ β) : Except Exn (ManagedHeap ρ κ β) :=
  if h.stack.length = 1 then do
    let (_, h) ← h.stackPop
    pure h
  else do
    let endIndex := h.stack.length - 1
    let (out, h) ← h.stackPop
    let last ← valOf (← valOf out)
    fixTooBig (ops lt) h 0 endIndex last

def pop (h : ManagedHeap ρ κ β) : Except Exn (Option ρ × ManagedHeap ρ κ β) := do
  match ← raise (h.stack.sub 0) with
  | none => pure (none, h)
  | some r =>
    let x := h.mem r
    let h ← replaceRoot lt h
    pure (some r, h.assign r { x with offset := -1 })

def popIf (h : ManagedHeap ρ κ β) (f : κ × β → Bool) : Except Exn (Option ρ × ManagedHeap ρ κ β) := do
  match ← raise (h.stack.sub 0) with
  | none => pure (none, h)
  | some r => if f ((h.mem r).key, (h.mem r).value) then pop lt h else pure (none, h)

/-- Pop the first record unless its key is above the bound. -/
def popBounded (h : ManagedHeap ρ κ β) (k : κ) : Except Exn (Option ρ × ManagedHeap ρ κ β) :=
  popIf lt h fn where fn x := !lt k x.1

def peekIf (h : ManagedHeap ρ κ β) (f : κ × β → Bool) : Except Exn (Option ρ) := do
  match ← raise (h.stack.sub 0) with
  | none => pure none
  | some r => if f ((h.mem r).key, (h.mem r).value) then raise (h.stack.sub 0) else pure none

def peekBounded (h : ManagedHeap ρ κ β) (k : κ) : Except Exn (Option ρ) :=
  peekIf h fn where fn x := !lt k x.1

def wrongHeap (h : ManagedHeap ρ κ β) (r : ρ) : Except Exn Bool :=
  if (h.mem r).offset ≥ h.stack.length then pure true
  else do
    let x ← valOf (← h.slot (h.mem r).offset)
    pure (decide (x ≠ r))

def push (h : ManagedHeap ρ κ β) (r : ρ) : Except Exn (ManagedHeap ρ κ β) :=
  if (h.mem r).offset = -1 then append lt h r
  else do
    if ← h.wrongHeap r then .error .wrongHeap else pure h

def remove (h : ManagedHeap ρ κ β) (r : ρ) : Except Exn (ManagedHeap ρ κ β) :=
  let x := h.mem r
  if x.offset = -1 then pure h
  else do
    if ← h.wrongHeap r then .error .wrongHeap
    else if (h.stack.length : Int) - 1 = x.offset then do
      let (_, h) ← h.stackPop
      pure (h.assign r { x with offset := -1 })
    else do
      let (out, h) ← h.stackPop
      let last ← valOf (← valOf out)
      let newKey := (h.mem last).key
      let h := h.assign r { x with offset := -1 }
      if lt x.key newKey then fixTooBig (ops lt) h x.offset.toNat h.stack.length last
      else fixTooSmall (ops lt) h x.offset.toNat last

/-- Give the record a new key and move it there, pushing it if it is in no heap. -/
def update (h : ManagedHeap ρ κ β) (r : ρ) (k : κ) : Except Exn (ManagedHeap ρ κ β) :=
  let x := h.mem r
  if x.offset = -1 then append lt (h.assign r { x with key := k }) r
  else do
    if ← h.wrongHeap r then .error .wrongHeap
    else
      let h := h.assign r { x with key := k }
      if lt x.key k then fixTooBig (ops lt) h x.offset.toNat h.stack.length r
      else fixTooSmall (ops lt) h x.offset.toNat r

def updateValue (h : ManagedHeap ρ κ β) (r : ρ) (v : β) : ManagedHeap ρ κ β := h.assign r { h.mem r with value := v }

/-- The calls that change a heap. -/
inductive Op (ρ κ β : Type)
  | push (r : ρ)
  | update (r : ρ) (k : κ)
  | updateValue (r : ρ) (v : β)
  | remove (r : ρ)
  | pop
  | popBounded (k : κ)
  | clear
  deriving Repr, DecidableEq

/-- The record the call returns, if any, and the heap. -/
def exec (h : ManagedHeap ρ κ β) : Op ρ κ β → Except Exn (Option ρ × ManagedHeap ρ κ β)
  | .push r => do
    let h ← push lt h r
    pure (none, h)
  | .update r k => do
    let h ← update lt h r k
    pure (none, h)
  | .updateValue r v => pure (none, updateValue h r v)
  | .remove r => do
    let h ← remove lt h r
    pure (none, h)
  | .pop => pop lt h
  | .popBounded k => popBounded lt h k
  | .clear => pure (none, clear h)

end ManagedHeap

end BubbleStorm.Util.Heap
