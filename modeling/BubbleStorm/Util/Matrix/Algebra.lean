/-
  BubbleStorm.Util.Matrix.Algebra — zero-extended vectors and banded matrices
  (`src/util/matrix/algebra.fun`), over a field.

  A vector has the entries of an interval, in an array or computed on demand. A matrix has
  the entries of a band around its diagonal, in an array with all entries of a row or only
  those of the band, whichever is shorter.

  `unfold` fills the array in place, row by row, with entries that may be computed from
  what is there already; what `fetch` keeps beside the array is passed along.

  Dimensions are numbers without a bound; from `rows * columns` of 2^31 on the code raises
  `Overflow`.
-/

import Mathlib.Algebra.Field.Defs
import Mathlib.Logic.Function.Basic

namespace BubbleStorm.Util.Matrix.Algebra

inductive Exn where
  | subscript
  | size
  | domain
  deriving DecidableEq, Repr

structure Arr (K : Type) where
  length : Int
  elt : Int → K

namespace Arr

variable {K σ : Type}

/-- `Array.array`. -/
def array (n : Int) (x : K) : Except Exn (Arr K) := if n < 0 then .error .size else .ok ⟨n, fun _ => x⟩

/-- `Array.sub`. -/
def sub (a : Arr K) (i : Int) : Except Exn K := if 0 ≤ i ∧ i < a.length then .ok (a.elt i) else .error .subscript

/-- `Array.update`. -/
def update (a : Arr K) (i : Int) (x : K) : Except Exn (Arr K) :=
  if 0 ≤ i ∧ i < a.length then .ok { a with elt := Function.update a.elt i x } else .error .subscript

/-- The loop that writes the entries `order i`, `order (i + 1)`, .. while it computes them. -/
def fill (order : Int → Int) (fetch : σ → Arr K → Int → Except Exn (K × σ)) : Nat → Int → σ → Arr K → Except Exn (Arr K × σ)
  | 0, _, s, a => .ok (a, s)
  | left + 1, i, s, a => do
    let (x, s) ← fetch s a (order i)
    let a ← update a (order i) x
    fill order fetch left (i + 1) s a

end Arr

/-- `Iterator.fromInterval` with step 1. -/
def interval (start stop : Int) : List Int := (List.range (stop - start).toNat).map fun i : Nat => start + i

/-! ## Vectors -/

inductive VectorRep (K : Type) where
  | vector (a : Arr K)
  | lazy (f : Int → Except Exn K)

structure Vec (K : Type) where
  start : Int
  finish : Int
  rep : VectorRep K

namespace Vec

variable {K : Type}

def raw (v : Vec K) (i : Int) : Except Exn K :=
  match v.rep with
  | .lazy f => f i
  | .vector V => V.sub (i - v.start)

variable [Field K]

def sub (v : Vec K) (i : Int) : Except Exn K := if i < v.start ∨ v.finish ≤ i then .ok 0 else raw v i

def zero : Vec K := ⟨0, 0, .vector ⟨0, fun _ => 0⟩⟩

def tabulate (start length : Int) (fetch : Int → Except Exn K) : Except Exn (Vec K) := do
  let A ← Arr.array length (0 : K)
  let (A, _) ← A.fill id (fun (_ : Unit) _ i => do let x ← fetch (i + start); .ok (x, ())) length.toNat 0 ()
  .ok ⟨start, start + length, .vector A⟩

inductive Order where
  | topDown
  | bottomUp
  deriving DecidableEq, Repr

def unfold (start length : Int) (order : Order) (fetch : Vec K → Int → Except Exn K) : Except Exn (Vec K) := do
  let A ← Arr.array length (0 : K)
  let out := fun A => (⟨start, start + length, .vector A⟩ : Vec K)
  let reverse := fun i => length - 1 - i
  let loop := match order with
    | .topDown => id
    | .bottomUp => reverse
  let (A, _) ← A.fill loop (fun (_ : Unit) A i => do let x ← fetch (out A) i; .ok (x, ())) length.toNat 0 ()
  .ok (out A)

def fromArray (a : Arr K) (l : Int) : Except Exn (Vec K) :=
  if l < 0 then .ok zero else if a.length < l then .error .subscript else .ok ⟨0, l, .vector a⟩

def scale (v : Vec K) (scale : K) : Except Exn (Vec K) :=
  tabulate v.start (v.finish - v.start) fun i => do
    let x ← raw v i
    .ok (x * scale)

def makeMax (f : K → K → K) (A B : Vec K) : Except Exn (Vec K) :=
  let start := min A.start B.start
  let finish := max A.finish B.finish
  tabulate start (finish - start) fun i => do
    let a ← sub A i
    let b ← sub B i
    .ok (f a b)

def makeMin (f : K → K → K) (A B : Vec K) : Except Exn (Vec K) :=
  let start := max A.start B.start
  let finish := min A.finish B.finish
  if finish ≤ start then .ok zero
  else tabulate start (finish - start) fun i => do
    let a ← raw A i
    let b ← raw B i
    .ok (f a b)

def dot (A B : Vec K) : Except Exn K :=
  let start := max A.start B.start
  let finish := min A.finish B.finish
  (interval start finish).foldlM (fun r i => do
    let a ← raw A i
    let b ← raw B i
    .ok (r + a * b)) 0

end Vec

/-! ## Matrices -/

inductive MatrixRep (K : Type) where
  | full (A : Arr K)
  | banded (A : Arr K)

structure Mat (K : Type) where
  rows : Int
  columns : Int
  width : Int
  under : Int
  symmetric : Bool
  rep : MatrixRep K

namespace Mat

variable {K σ : Type}

def bandwidth (M : Mat K) : Int × Int := (M.under, M.width - M.under - 1)

def inBand (M : Mat K) (row column : Int) : Prop := row - column ≤ M.under ∧ column - row < M.width - M.under

instance (M : Mat K) (row column : Int) : Decidable (M.inBand row column) := inferInstanceAs (Decidable (_ ∧ _))

def inBounds (M : Mat K) (row column : Int) : Prop := (0 ≤ row ∧ row < M.rows) ∧ 0 ≤ column ∧ column < M.columns

instance (M : Mat K) (row column : Int) : Decidable (M.inBounds row column) := inferInstanceAs (Decidable (_ ∧ _))

def subRep (M : Mat K) (row column : Int) : Except Exn K :=
  match M.rep with
  | .full A => A.sub (row * M.columns + column)
  | .banded A => A.sub (row * M.width + M.under + (column - row))

variable [Field K]

def sub (M : Mat K) (row column : Int) : Except Exn K :=
  if M.inBounds row column ∧ M.inBand row column then subRep M row column else .ok 0

def row (M : Mat K) (row : Int) : Vec K :=
  if M.rows ≤ row then Vec.zero
  else
    let start := max (row - M.under) 0
    let finish := min (row + M.width - M.under) M.columns
    let (A, off) := match M.rep with
      | .full A => (A, row * M.columns)
      | .banded A => (A, row * M.width + M.under - row)
    ⟨start, finish, .lazy fun column => A.sub (off + column)⟩

def column (M : Mat K) (column : Int) : Vec K :=
  if M.columns ≤ column then Vec.zero
  else
    let start := max (column - (M.width - M.under - 1)) 0
    let finish := min (column + M.under + 1) M.rows
    let (A, off, skip) := match M.rep with
      | .full A => (A, column, M.columns)
      | .banded A => (A, column + M.under, M.width - 1)
    ⟨start, finish, .lazy fun row => A.sub (off + row * skip)⟩

/-- The matrix with its array, of `unfold`. -/
def out (rows columns lower upper : Int) (symmetric : Bool) (A : Arr K) : Mat K :=
  ⟨rows, columns, lower + upper + 1, lower, symmetric, if (lower + upper + 1) * rows * 2 < rows * columns then .banded A else .full A⟩

def setFull (M : Arr K → Mat K) (columns : Int) (fetch : σ → Mat K → Int → Int → Except Exn (K × σ)) (s : σ) (A : Arr K) (i : Int) :
    Except Exn (K × σ) :=
  let row := i / columns
  let column := i % columns
  if (M A).inBand row column then fetch s (M A) row column else .ok (0, s)

def setBanded (M : Arr K → Mat K) (columns width under : Int) (fetch : σ → Mat K → Int → Int → Except Exn (K × σ)) (s : σ) (A : Arr K)
    (i : Int) : Except Exn (K × σ) :=
  let row := i / width
  let offset := i % width
  let column := row + offset - under
  if 0 ≤ column ∧ column < columns then fetch s (M A) row column else .ok (0, s)

def unfold (dimension bandwidth : Int × Int) (symmetric : Bool) (fetch : σ → Mat K → Int → Int → Except Exn (K × σ)) (s : σ) :
    Except Exn (Mat K × σ) := do
  let (rows, columns) := dimension
  let (lower, upper) := bandwidth
  let lower := if symmetric then min lower upper else lower
  let upper := if symmetric then min lower upper else upper
  let width := lower + upper + 1
  let under := lower
  let bandedSize := width * rows
  let fullSize := rows * columns
  let M := out rows columns lower upper symmetric
  let fetch := fun s (N : Mat K) r c =>
    if symmetric = false ∨ r ≤ c then fetch s N r c
    else do
      let x ← subRep N c r
      .ok (x, s)
  if bandedSize * 2 < fullSize then do
    let A ← Arr.array bandedSize (0 : K)
    let (A, s) ← A.fill id (setBanded M columns width under fetch) bandedSize.toNat 0 s
    .ok (M A, s)
  else do
    let A ← Arr.array fullSize (0 : K)
    let (A, s) ← A.fill id (setFull M columns fetch) fullSize.toNat 0 s
    .ok (M A, s)

def tabulate (dimension bandwidth : Int × Int) (symmetric : Bool) (fetch : Int → Int → Except Exn K) : Except Exn (Mat K) := do
  let (M, _) ← unfold dimension bandwidth symmetric (fun (_ : Unit) _ r c => do let x ← fetch r c; .ok (x, ())) ()
  .ok M

def transpose (A : Mat K) : Except Exn (Mat K) :=
  let (columns, rows) := (A.rows, A.columns)
  let (upper, lower) := bandwidth A
  tabulate (rows, columns) (lower, upper) A.symmetric fun r c => subRep A c r

def map (A : Mat K) (x : Vec K) : Except Exn (Vec K) :=
  let (lower, upper) := bandwidth A
  let start := max 0 (x.start - lower)
  let finish := min A.rows (x.finish + upper)
  Vec.tabulate start (finish - start) fun i => Vec.dot (row A i) x

def make (f : K → K → K) (A B : Mat K) : Except Exn (Mat K) :=
  let (lA, uA) := bandwidth A
  let (lB, uB) := bandwidth B
  tabulate (max A.rows B.rows, max A.columns B.columns) (max lA lB, max uA uB) (A.symmetric && B.symmetric) fun r c => do
    let a ← sub A r c
    let b ← sub B r c
    .ok (f a b)

def add (A B : Mat K) : Except Exn (Mat K) := make (· + ·) A B

def minus (A B : Mat K) : Except Exn (Mat K) := make (· - ·) A B

def mul (A B : Mat K) : Except Exn (Mat K) :=
  let (lA, uA) := bandwidth A
  let (lB, uB) := bandwidth B
  let l := min (lA + lB) (A.rows - 1)
  let u := min (uA + uB) (B.columns - 1)
  tabulate (A.rows, B.columns) (l, u) (A.symmetric && B.symmetric) fun r c => Vec.dot (row A r) (column B c)

/-- `rows`, which counts to the second dimension. -/
def allRows (A : Mat K) : List (Int × Vec K) := (interval 0 A.columns).map fun i => (i, row A i)

/-- `columns`, which counts to the first. -/
def allColumns (A : Mat K) : List (Int × Vec K) := (interval 0 A.rows).map fun i => (i, column A i)

end Mat

end BubbleStorm.Util.Matrix.Algebra
