/-
  BubbleStorm.Util.Container.Ring — rings of elements (`src/util/container/ring.sml`).

  A head and its elements are references that link to each other; an element of no ring
  has no links. The writes of an operation follow the source: each reads its reference
  when it is made, since the two neighbours can be the same reference.

  The lists that the rings stand for are at the end.
-/

import Mathlib.Data.List.Basic
import Mathlib.Logic.Function.Basic

namespace BubbleStorm.Util.Container.Ring

inductive Link (H E : Type) where
  | null
  | t (head : H)
  | elt (elt : E)
  deriving DecidableEq, Repr

structure Head (H E : Type) where
  prev : Link H E
  next : Link H E
  deriving DecidableEq, Repr

structure Element (H E α : Type) where
  value : α
  prev : Link H E
  next : Link H E
  deriving DecidableEq, Repr

/-- What the references hold: `H` are those of heads, `E` those of elements. -/
structure Heap (H E α : Type) where
  heads : H → Head H E
  elts : E → Element H E α

/-- `complain`, or a loop that has no fuel left. -/
inductive Stop where
  | broken
  | outOfFuel
  deriving DecidableEq, Repr

variable {H E α σ : Type}

def new (self : H) : Head H E := ⟨.t self, .t self⟩

def wrap (value : α) : Element H E α := ⟨value, .null, .null⟩

/-- Every reference as it is made. -/
def fresh (values : E → α) : Heap H E α := ⟨new, fun e => wrap (values e)⟩

def unwrap (m : Heap H E α) (elt : E) : α := (m.elts elt).value

def isSolo (m : Heap H E α) (elt : E) : Bool :=
  match (m.elts elt).prev with
  | .null => true
  | _ => false

def isEmpty (m : Heap H E α) (head : H) : Bool :=
  match (m.heads head).next with
  | .t _ => true
  | _ => false

def head (m : Heap H E α) (self : H) : Except Stop (Option E) :=
  match (m.heads self).next with
  | .null => .error .broken
  | .elt x => .ok (some x)
  | .t _ => .ok none

def tail (m : Heap H E α) (self : H) : Except Stop (Option E) :=
  match (m.heads self).prev with
  | .null => .error .broken
  | .elt x => .ok (some x)
  | .t _ => .ok none

def next (m : Heap H E α) (self : E) : Except Stop (Option E) :=
  match (m.elts self).next with
  | .null => .error .broken
  | .elt x => .ok (some x)
  | .t _ => .ok none

def prev (m : Heap H E α) (self : E) : Except Stop (Option E) :=
  match (m.elts self).prev with
  | .null => .error .broken
  | .elt x => .ok (some x)
  | .t _ => .ok none

/-- `loop` of `iterator`: the element and the link from which it goes on. -/
def loop (m : Heap H E α) : Link H E → Except Stop (Option (E × Link H E))
  | .null => .error .broken
  | .t _ => .ok none
  | .elt elt => .ok (some (elt, (m.elts elt).next))

/-- The elements of an iterator whose step `i` is taken in the state `heaps i`. -/
def force (heaps : Nat → Heap H E α) : Nat → Nat → Link H E → Except Stop (List E)
  | fuel, i, link =>
    match loop (heaps i) link, fuel with
    | .error e, _ => .error e
    | .ok none, _ => .ok []
    | .ok (some _), 0 => .error .outOfFuel
    | .ok (some (elt, rest)), fuel + 1 => do
      let elts ← force heaps fuel (i + 1) rest
      .ok (elt :: elts)

/-- `Iterator.toList (iterator head)`. -/
def toList (fuel : Nat) (m : Heap H E α) (head : H) : Except Stop (List E) := force (fun _ => m) fuel 0 (m.heads head).next

/-- The elements from one on. -/
def follow (step : E → Except Stop (Option E)) : Nat → Option E → Except Stop (List E)
  | _, none => .ok []
  | 0, some _ => .error .outOfFuel
  | fuel + 1, some elt => do
    let after ← step elt
    let elts ← follow step fuel after
    .ok (elt :: elts)

section Writes

variable [DecidableEq H] [DecidableEq E]

def setHead (m : Heap H E α) (head : H) (x : Head H E) : Heap H E α := { m with heads := Function.update m.heads head x }

def setElt (m : Heap H E α) (elt : E) (x : Element H E α) : Heap H E α := { m with elts := Function.update m.elts elt x }

def update (m : Heap H E α) (elt : E) (value : α) : Heap H E α := setElt m elt { m.elts elt with value := value }

def remove (m : Heap H E α) (self : E) : Heap H E α :=
  let value := (m.elts self).value
  let prev := (m.elts self).prev
  let next := (m.elts self).next
  let m := match prev with
    | .null => m
    | .elt elt => setElt m elt { m.elts elt with next := next }
    | .t head => setHead m head { m.heads head with next := next }
  let m := match next with
    | .null => m
    | .elt elt => setElt m elt { m.elts elt with prev := prev }
    | .t head => setHead m head { m.heads head with prev := prev }
  setElt m self ⟨value, .null, .null⟩

def add (m : Heap H E α) (head : H) (elt : E) : Except Stop (Heap H E α) :=
  let m := remove m elt
  let prev := (m.heads head).prev
  let next := (m.heads head).next
  let m := setElt m elt ⟨(m.elts elt).value, .t head, next⟩
  let m := setHead m head ⟨prev, .elt elt⟩
  match next with
  | .null => .error .broken
  | .elt next => .ok (setElt m next { m.elts next with prev := .elt elt })
  | .t head => .ok (setHead m head { m.heads head with prev := .elt elt })

def addTail (m : Heap H E α) (head : H) (elt : E) : Except Stop (Heap H E α) :=
  let m := remove m elt
  let prev := (m.heads head).prev
  let next := (m.heads head).next
  let m := setElt m elt ⟨(m.elts elt).value, prev, .t head⟩
  let m := setHead m head ⟨.elt elt, next⟩
  match prev with
  | .null => .error .broken
  | .elt prev => .ok (setElt m prev { m.elts prev with next := .elt elt })
  | .t head => .ok (setHead m head { m.heads head with next := .elt elt })

/-- `loop` of `clear`. -/
def clearLoop : Nat → Heap H E α → Link H E → Except Stop (Heap H E α)
  | _, _, .null => .error .broken
  | _, m, .t _ => .ok m
  | 0, _, .elt _ => .error .outOfFuel
  | fuel + 1, m, .elt next => clearLoop fuel (setElt m next ⟨(m.elts next).value, .null, .null⟩) (m.elts next).next

def clear (fuel : Nat) (m : Heap H E α) (head : H) : Except Stop (Heap H E α) := do
  let m ← clearLoop fuel m (m.heads head).next
  .ok (setHead m head ⟨.t head, .t head⟩)

/-- `exec` of `app` with a callback that has a state of its own and removes elements. What
    it was called with is kept. -/
def exec (f : E → σ → Heap H E α → σ × List E) (s : List E × σ × Heap H E α) (r : E) : List E × σ × Heap H E α :=
  if isSolo s.2.2 r then s
  else (s.1 ++ [r], (f r s.2.1 s.2.2).1, (f r s.2.1 s.2.2).2.foldl remove s.2.2)

def app (fuel : Nat) (f : E → σ → Heap H E α → σ × List E) (s : σ) (m : Heap H E α) (ring : H) :
    Except Stop (List E × σ × Heap H E α) := do
  let elts ← toList fuel m ring
  .ok (elts.foldl (exec f) ([], s, m))

inductive Op (H E α : Type) where
  | add (head : H) (elt : E)
  | addTail (head : H) (elt : E)
  | remove (elt : E)
  | clear (head : H)
  | update (elt : E) (value : α)

def step (fuel : Nat) (m : Heap H E α) : Op H E α → Except Stop (Heap H E α)
  | .add head elt => add m head elt
  | .addTail head elt => addTail m head elt
  | .remove elt => .ok (remove m elt)
  | .clear head => clear fuel m head
  | .update elt value => .ok (update m elt value)

def run (fuel : Nat) (m : Heap H E α) (ops : List (Op H E α)) : Except Stop (Heap H E α) := ops.foldlM (step fuel) m

end Writes

/-! ## The lists -/

structure Rings (H E α : Type) where
  lists : H → List E
  values : E → α

namespace Rings

variable [DecidableEq H] [DecidableEq E]

def fresh (values : E → α) : Rings H E α := ⟨fun _ => [], values⟩

def remove (r : Rings H E α) (elt : E) : Rings H E α := { r with lists := fun h => (r.lists h).erase elt }

def put (r : Rings H E α) (head : H) (elts : List E) : Rings H E α := { r with lists := Function.update r.lists head elts }

def step (r : Rings H E α) : Op H E α → Rings H E α
  | .add head elt => (r.remove elt).put head (elt :: (r.remove elt).lists head)
  | .addTail head elt => (r.remove elt).put head ((r.remove elt).lists head ++ [elt])
  | .remove elt => r.remove elt
  | .clear head => r.put head []
  | .update elt value => { r with values := Function.update r.values elt value }

end Rings

end BubbleStorm.Util.Container.Ring
