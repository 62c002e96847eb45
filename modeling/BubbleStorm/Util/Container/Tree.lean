/-
  BubbleStorm.Util.Container.Tree — the functional red-black tree
  (`src/util/container/tree.fun`), a multimap.

  `insert` puts a binding behind those of an equal key. `remove` takes one binding of
  the key out; the four rebalancing functions are named as in the source: the first
  letter is the side that lost a black node, the second the color of the parent. They
  raise where the source does.

  An iterator is its stack: the nodes whose binding and far subtree are still to come.
  `forward` and `backward` are one walk in two directions.
-/

import BubbleStorm.Lib.BinHeap
import BubbleStorm.Cusp.Stream.PacketFormat

namespace BubbleStorm.Util.Container

open BubbleStorm.Cusp (Exn)

inductive Tree (κ α : Type) where
  | leaf
  | red (l : Tree κ α) (x : κ × α) (r : Tree κ α)
  | black (l : Tree κ α) (x : κ × α) (r : Tree κ α)
  deriving DecidableEq, Repr

namespace Tree

variable {κ α : Type} (lt : κ → κ → Bool)

def empty : Tree κ α := leaf

/-! ## Inserting -/

/-- A black node; a red child with a red child is turned. -/
def up : Tree κ α → κ × α → Tree κ α → Tree κ α
  | red (red a x b) y c, z, d => red (black a x b) y (black c z d)
  | red a x (red b y c), z, d => red (black a x b) y (black c z d)
  | a, x, red (red b y c) z d => red (black a x b) y (black c z d)
  | a, x, red b y (red c z d) => red (black a x b) y (black c z d)
  | a, x, b => black a x b

def insertDown (x : κ) (v : α) : Tree κ α → Tree κ α
  | leaf => red leaf (x, v) leaf
  | red l y r => if lt x y.1 then red (insertDown x v l) y r else red l y (insertDown x v r)
  | black l y r => if lt x y.1 then up (insertDown x v l) y r else up l y (insertDown x v r)

def insert (t : Tree κ α) (x : κ) (v : α) : Tree κ α :=
  match t with
  | leaf => black leaf (x, v) leaf
  | red l y r | black l y r => if lt x y.1 then up (insertDown lt x v l) y r else up l y (insertDown lt x v r)

/-! ## Removing -/

/-- A tree, and whether it has a black node too few on every path. -/
abbrev Short (κ α : Type) := Tree κ α × Bool

def lr : Tree κ α → κ × α → Tree κ α → Except Exn (Short κ α)
  | _, _, red _ _ _ => .error (.fail "impossible R-R tree")
  | l, w, black (red a x b) y c => .ok (red (black l w a) x (black b y c), false)
  | l, w, black a x (red b y c) => .ok (red (black l w a) x (black b y c), false)
  | l, w, black a x b => .ok (black l w (red a x b), false)
  | _, _, leaf => .error (.fail "impossible B depth tree")

def lb : Tree κ α → κ × α → Tree κ α → Except Exn (Short κ α)
  | l, w, black (red a x b) y c => .ok (black (black l w a) x (black b y c), false)
  | l, w, black a x (red b y c) => .ok (black (black l w a) x (black b y c), false)
  | l, w, black a x b => .ok (black l w (red a x b), true)
  | _, _, red (red _ _ _) _ _ => .error (.fail "impossible R-R tree")
  | l, w, red (black (red a x b) y c) z d => .ok (black (red (black l w a) x (black b y c)) z d, false)
  | l, w, red (black a x (red b y c)) z d => .ok (black (red (black l w a) x (black b y c)) z d, false)
  | l, w, red (black a x b) y c => .ok (black (black l w (red a x b)) y c, false)
  | _, _, red leaf _ _ => .error (.fail "impossible B depth tree")
  | _, _, leaf => .error (.fail "impossible B depth tree")

def rr : Tree κ α → κ × α → Tree κ α → Except Exn (Short κ α)
  | red _ _ _, _, _ => .error (.fail "impossible tree")
  | black (red a w b) x c, y, r => .ok (red (black a w b) x (black c y r), false)
  | black a w (red b x c), y, r => .ok (red (black a w b) x (black c y r), false)
  | black a w b, x, r => .ok (black (red a w b) x r, false)
  | leaf, _, _ => .error (.fail "impossible B depth tree")

def rb : Tree κ α → κ × α → Tree κ α → Except Exn (Short κ α)
  | black (red a w b) x c, y, r => .ok (black (black a w b) x (black c y r), false)
  | black a w (red b x c), y, r => .ok (black (black a w b) x (black c y r), false)
  | black a w b, x, r => .ok (black (red a w b) x r, true)
  | red _ _ (red _ _ _), _, _ => .error (.fail "impossible tree")
  | red a w (black (red b x c) y d), z, r => .ok (black a w (red (black b x c) y (black d z r)), false)
  | red a w (black b x (red c y d)), z, r => .ok (black a w (red (black b x c) y (black d z r)), false)
  | red a w (black b x c), y, r => .ok (black a w (black (red b x c) y r), false)
  | red _ _ leaf, _, _ => .error (.fail "impossible B depth tree")
  | leaf, _, _ => .error (.fail "impossible B depth tree")

def mlr (t : Short κ α) (x : κ × α) (r : Tree κ α) : Except Exn (Short κ α) :=
  if t.2 then lr t.1 x r else .ok (red t.1 x r, false)

def mlb (t : Short κ α) (x : κ × α) (r : Tree κ α) : Except Exn (Short κ α) :=
  if t.2 then lb t.1 x r else .ok (black t.1 x r, false)

def mrr (l : Tree κ α) (x : κ × α) (t : Short κ α) : Except Exn (Short κ α) :=
  if t.2 then rr l x t.1 else .ok (red l x t.1, false)

def mrb (l : Tree κ α) (x : κ × α) (t : Short κ α) : Except Exn (Short κ α) :=
  if t.2 then rb l x t.1 else .ok (black l x t.1, false)

def popSmallest : Tree κ α → Except Exn (Short κ α × (κ × α))
  | leaf => .error (.fail "unreachable code")
  | red leaf x r => .ok ((r, false), x)
  | black leaf x r => .ok ((r, true), x)
  | red l x r => do
    let (t, z) ← popSmallest l
    return (← mlr t x r, z)
  | black l x r => do
    let (t, z) ← popSmallest l
    return (← mlb t x r, z)

def removeDown (x : κ) : Tree κ α → Except Exn (Short κ α × Option (κ × α))
  | leaf => .ok ((leaf, false), none)
  | red l y r =>
    if lt x y.1 then do
      let (t, z) ← removeDown x l
      return (← mlr t y r, z)
    else if lt y.1 x then do
      let (t, z) ← removeDown x r
      return (← mrr l y t, z)
    else
      match l, r with
      | leaf, r => .ok ((r, false), some y)
      | l, leaf => .ok ((l, false), some y)
      | l, r => do
        let (t, z) ← popSmallest r
        return (← mrr l z t, some y)
  | black l y r =>
    if lt x y.1 then do
      let (t, z) ← removeDown x l
      return (← mlb t y r, z)
    else if lt y.1 x then do
      let (t, z) ← removeDown x r
      return (← mrb l y t, z)
    else
      match l, r with
      | leaf, r => .ok ((r, true), some y)
      | l, leaf => .ok ((l, true), some y)
      | l, r => do
        let (t, z) ← popSmallest r
        return (← mrb l z t, some y)

def remove (t : Tree κ α) (x : κ) : Except Exn (Tree κ α × Option (κ × α)) := do
  let ((t, _), z) ← removeDown lt x t
  return (t, z)

/-! ## Finding -/

/-- `down` of `find`: the values of the key, in front of `l`. -/
def findDown (y : κ) : Tree κ α → List α → List α
  | leaf, l => l
  | red a x b, l =>
    if lt y x.1 then findDown y a l
    else if lt x.1 y then findDown y b l
    else findDown y a (x.2 :: findDown y b l)
  | black a x b, l =>
    if lt y x.1 then findDown y a l
    else if lt x.1 y then findDown y b l
    else findDown y a (x.2 :: findDown y b l)

def find (t : Tree κ α) (y : κ) : List α := findDown lt y t []

/-! ## Walking a range -/

/-- The bindings from `left` on, and before `right`. -/
structure Range (κ : Type) where
  left : Option κ
  right : Option κ

def tooSmall (range : Range κ) (x : κ) : Bool :=
  match range.left with
  | some y => lt x y
  | none => false

def tooBig (range : Range κ) (x : κ) : Bool :=
  match range.right with
  | some y => !lt x y
  | none => false

inductive Dir where
  | forward
  | backward
  deriving DecidableEq, Repr

/-- The subtree a walk comes to before the node. -/
def near : Dir → Tree κ α → Tree κ α → Tree κ α
  | .forward, l, _ => l
  | .backward, _, r => r

/-- The subtree a walk comes to after the node. -/
def far : Dir → Tree κ α → Tree κ α → Tree κ α
  | .forward, _, r => r
  | .backward, l, _ => l

/-- Keys the walk has not come to, and keys it has passed. -/
def before (range : Range κ) : Dir → κ → Bool
  | .forward => tooSmall lt range
  | .backward => tooBig lt range

def after (range : Range κ) : Dir → κ → Bool
  | .forward => tooBig lt range
  | .backward => tooSmall lt range

/-- `goLeft` of `forward`, `goRight` of `backward`. -/
def go (range : Range κ) (dir : Dir) : Tree κ α → List (Tree κ α) → List (Tree κ α)
  | leaf, s => s
  | red l x r, s =>
    let s' := if after lt range dir x.1 then s else red l x r :: s
    match dir with
    | .forward => go range .forward l s'
    | .backward => go range .backward r s'
  | black l x r, s =>
    let s' := if after lt range dir x.1 then s else black l x r :: s
    match dir with
    | .forward => go range .forward l s'
    | .backward => go range .backward r s'

def descend (range : Range κ) (dir : Dir) : Tree κ α → List (Tree κ α) → List (Tree κ α)
  | leaf, s => s
  | red l x r, s =>
    match dir with
    | .forward =>
      if tooSmall lt range x.1 then descend range .forward r s
      else if tooBig lt range x.1 then descend range .forward l s
      else descend range .forward l (red l x r :: s)
    | .backward =>
      if tooBig lt range x.1 then descend range .backward l s
      else if tooSmall lt range x.1 then descend range .backward r s
      else descend range .backward r (red l x r :: s)
  | black l x r, s =>
    match dir with
    | .forward =>
      if tooSmall lt range x.1 then descend range .forward r s
      else if tooBig lt range x.1 then descend range .forward l s
      else descend range .forward l (black l x r :: s)
    | .backward =>
      if tooBig lt range x.1 then descend range .backward l s
      else if tooSmall lt range x.1 then descend range .backward r s
      else descend range .backward r (black l x r :: s)

/-- The next binding, and the iterator behind it. -/
def pop (range : Range κ) (dir : Dir) : List (Tree κ α) → Except Exn (Option ((κ × α) × List (Tree κ α)))
  | black l x r :: s => .ok (some (x, go lt range dir (far dir l r) s))
  | red l x r :: s => .ok (some (x, go lt range dir (far dir l r) s))
  | leaf :: _ =>
    match dir with
    | .forward => .error (.fail "unreachable LEAF in Tree.forward")
    | .backward => .error (.fail "unreachable LEAF in Tree.backward")
  | [] => .ok none

def walk (dir : Dir) (t : Tree κ α) (range : Range κ) : List (Tree κ α) := descend lt range dir t []

def forward (t : Tree κ α) (range : Range κ) : List (Tree κ α) := walk lt .forward t range

def backward (t : Tree κ α) (range : Range κ) : List (Tree κ α) := walk lt .backward t range

/-- Run an iterator to its end. The first argument bounds the number of bindings. -/
def collect (range : Range κ) (dir : Dir) : Nat → List (Tree κ α) → Except Exn (List (κ × α))
  | 0, _ => .ok []
  | fuel + 1, s => do
    match ← pop lt range dir s with
    | none => return []
    | some (x, s) => return x :: (← collect range dir fuel s)

end Tree

end BubbleStorm.Util.Container
