/-
  BubbleStorm.Cusp.Stream.Offset — stream offsets and their wrap-around order
  (`structure Key` of out-stream-queue.sml and in-stream-queue.sml).

  The source keeps an offset in a `Word32.word`. Here it is an integer that is never
  reduced, so that a position in the stream is the number of bytes before it; the word
  the source holds is its residue (`word32`), and every test the source makes is made
  on residues: `Key.lt` reads only `a - b` modulo `2 ^ 32`.
-/

import BubbleStorm.Cusp.Stream.PacketFormat

namespace BubbleStorm.Cusp.Stream

/-- What a `Word32.word` holds of an unbounded number. -/
def word32 (x : Int) : Int := x % 2 ^ 32

namespace Key

/-- `a < b = (a-b) >= b31`. -/
def lt (a b : Int) : Bool := WrapOrder.lt (2 ^ 31) a b

def le (a b : Int) : Bool := !lt b a

def max (a b : Int) : Int := WrapOrder.max (2 ^ 31) a b

theorem lt_def (a b : Int) : lt a b = decide (2 ^ 31 ≤ (a - b) % 2 ^ 32) := rfl

theorem lt_iff {a b : Int} (h1 : -2 ^ 31 ≤ a - b) (h2 : a - b < 2 ^ 31) : lt a b = true ↔ a < b :=
  WrapOrder.lt_iff (by decide) h1 h2

theorem lt_false_iff {a b : Int} (h1 : -2 ^ 31 ≤ a - b) (h2 : a - b < 2 ^ 31) : lt a b = false ↔ b ≤ a :=
  WrapOrder.lt_false_iff (by decide) h1 h2

theorem le_iff {a b : Int} (h1 : -2 ^ 31 ≤ b - a) (h2 : b - a < 2 ^ 31) : le a b = true ↔ a ≤ b := by
  simp only [le, Bool.not_eq_true']; exact lt_false_iff h1 h2

theorem max_eq {a b : Int} (h1 : -2 ^ 31 ≤ a - b) (h2 : a - b < 2 ^ 31) : max a b = Max.max a b :=
  WrapOrder.max_eq (by decide) h1 h2

theorem max_cases (a b : Int) : max a b = a ∨ max a b = b := by
  unfold max WrapOrder.max; split
  · exact .inr rfl
  · exact .inl rfl

end Key

/-- `(1380-32)*16`. -/
def minimumWindow : Int := 21568

/-- Real32, as far as priorities use it: the finite values and the two infinities. -/
inductive Real32 where
  | negInf
  | finite (x : Rat)
  | posInf
  deriving DecidableEq, Repr

namespace Real32

def lt : Real32 → Real32 → Bool
  | negInf, negInf => false
  | negInf, _ => true
  | finite _, negInf => false
  | finite x, finite y => decide (x < y)
  | finite _, posInf => true
  | posInf, _ => false

def isFinite : Real32 → Bool
  | finite _ => true
  | _ => false

end Real32

end BubbleStorm.Cusp.Stream
