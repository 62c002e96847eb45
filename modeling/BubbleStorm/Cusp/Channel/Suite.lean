/-
  BubbleStorm.Cusp.Channel.Suite — sets of cipher suites (`src/cusp/crypto/suites.sml`).

  A set is a mask of 16 bits, a suite a mask of one bit. `cost` raises on the suites the
  code does not know; costs are in tenths.
-/

import BubbleStorm.Cusp.Stream.PacketFormat

namespace BubbleStorm.Cusp.Channel.Suite

abbrev Mask := UInt16

def intersect (a b : Mask) : Mask := a &&& b

def subtract (a b : Mask) : Mask := a &&& ~~~b

def isEmpty (a : Mask) : Bool := a == 0

def contains (a b : Mask) : Bool := a &&& b != 0

/-- The suites of a mask, from the lowest bit on. -/
def iterator (mask : Mask) : List Mask :=
  ((List.range 16).map fun i => (1 : Mask) <<< UInt16.ofNat i).filter (contains mask)

/-- The suite with the lowest cost; the first one of these. -/
def cheapest (cost : Mask → Except Exn Nat) (mask : Mask) : Except Exn (Option Mask) := do
  let best ← (iterator mask).foldlM (fun (y, yscore) x => do
    let xscore ← cost x
    return if xscore < yscore then (x, xscore) else (y, yscore)) ((0 : Mask), 100000000)
  return if best.1 == 0 then none else some best.1

namespace Symmetric

def cost (x : Mask) : Except Exn Nat :=
  if x = 1 then .ok 5
  else if x = 2 then .ok 10
  else .error (.fail "bad symmetric suite")

def cheapest (mask : Mask) : Except Exn (Option Mask) := Suite.cheapest cost mask

end Symmetric

namespace PublicKey

def cost (x : Mask) : Except Exn Nat :=
  if x = 1 then .ok 1
  else if x = 2 then .ok 10
  else .error (.fail "bad public-key suite")

def cheapest (mask : Mask) : Except Exn (Option Mask) := Suite.cheapest cost mask

end PublicKey

end BubbleStorm.Cusp.Channel.Suite
