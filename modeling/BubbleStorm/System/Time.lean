/-
  BubbleStorm.System.Time — times as text (`src/system/time.sml`).

  A time is a number of nanoseconds that fits 64 bits, a string the list of its characters.
  `Date` is the proleptic calendar in UTC. What checks the numbers of the parser is passed to
  it (`need`). The last section says what a text is with exact numbers (`dateOf`, `clock`,
  `relative`), and when its numbers fit (`Fits`).
-/

import BubbleStorm.Cusp.Stream.PacketFormat

namespace BubbleStorm.System.TimeText

open BubbleStorm.Cusp (Exn)

/-! ## The calendar -/

namespace Date

/-- The day of a date, with any number of days; day 0 is the first of January 1970. -/
def toDay (year month day : Int) : Int :=
  -- years and months from March on
  let y := if month ≤ 2 then year - 1 else year
  let m := if month ≤ 2 then month + 9 else month - 3
  365 * y + y / 4 - y / 100 + y / 400 + (153 * m + 2) / 5 + day - 1 - 719468

/-- Day of the era of 400 years that began with March. -/
def dayOfEra (n : Int) : Int := (n + 719468) % 146097

def century (n : Int) : Int := min 3 (dayOfEra n / 36524)

/-- Day of the century. -/
def dayOfCentury (n : Int) : Int := dayOfEra n - 36524 * century n

/-- The last year of four, and of the era, has a day more. -/
def yearOfEra (n : Int) : Int := 100 * century n + 4 * (dayOfCentury n / 1461) + min 3 (dayOfCentury n % 1461 / 365)

def dayOfYear (n : Int) : Int := dayOfEra n - (365 * yearOfEra n + yearOfEra n / 4 - yearOfEra n / 100)

def monthFromMarch (n : Int) : Int := (5 * dayOfYear n + 2) / 153

def day (n : Int) : Int := dayOfYear n - (153 * monthFromMarch n + 2) / 5 + 1

def month (n : Int) : Int := if monthFromMarch n < 10 then monthFromMarch n + 3 else monthFromMarch n - 9

def year (n : Int) : Int := yearOfEra n + (n + 719468) / 146097 * 400 + if month n ≤ 2 then 1 else 0

theorem century_bounds (n : Int) : 0 ≤ century n ∧ century n ≤ 3 ∧ 0 ≤ dayOfCentury n ∧ dayOfCentury n ≤ 36524 := by
  have h0 : 0 ≤ dayOfEra n := Int.emod_nonneg _ (by decide)
  have h1 : dayOfEra n < 146097 := Int.emod_lt_of_pos _ (by decide)
  unfold dayOfCentury century
  generalize dayOfEra n = e at h0 h1
  omega

theorem yearOfEra_bounds (n : Int) : 0 ≤ yearOfEra n ∧ yearOfEra n ≤ 399 := by
  have h := century_bounds n
  unfold yearOfEra
  omega

theorem dayOfYear_bounds (n : Int) : 0 ≤ dayOfYear n ∧ dayOfYear n ≤ 365 := by
  have h := century_bounds n
  have hday : dayOfCentury n = dayOfEra n - 36524 * century n := rfl
  unfold dayOfYear yearOfEra
  generalize dayOfEra n = e at *
  generalize century n = c at *
  generalize dayOfCentury n = r at *
  have hquad : 0 ≤ r / 1461 ∧ r / 1461 ≤ 24 := by omega
  have hyear : 0 ≤ min 3 (r % 1461 / 365) ∧ min 3 (r % 1461 / 365) ≤ 3 := by omega
  have hrest : 0 ≤ r % 1461 - 365 * min 3 (r % 1461 / 365) ∧ r % 1461 - 365 * min 3 (r % 1461 / 365) ≤ 365 := by omega
  have hsum : r = 1461 * (r / 1461) + r % 1461 := by omega
  generalize min 3 (r % 1461 / 365) = y at *
  generalize r / 1461 = q at *
  generalize r % 1461 = d at *
  have h4 : (100 * c + 4 * q + y) / 4 = 25 * c + q := by omega
  have h100 : (100 * c + 4 * q + y) / 100 = c := by omega
  rw [h4, h100]
  omega

theorem monthFromMarch_bounds (n : Int) : 0 ≤ monthFromMarch n ∧ monthFromMarch n ≤ 11 := by
  have h := dayOfYear_bounds n
  unfold monthFromMarch
  omega

theorem month_bounds (n : Int) : 1 ≤ month n ∧ month n ≤ 12 := by
  have h := monthFromMarch_bounds n
  unfold month
  split <;> omega

theorem day_bounds (n : Int) : 1 ≤ day n ∧ day n ≤ 31 := by
  have h := dayOfYear_bounds n
  unfold day monthFromMarch
  omega

theorem toDay_date (n : Int) : toDay (year n) (month n) (day n) = n := by
  have hm := monthFromMarch_bounds n
  have hy := yearOfEra_bounds n
  have hera : n + 719468 = (n + 719468) / 146097 * 146097 + dayOfEra n := by
    unfold dayOfEra
    omega
  have hdoy : dayOfYear n = dayOfEra n - (365 * yearOfEra n + yearOfEra n / 4 - yearOfEra n / 100) := rfl
  have hday : day n = dayOfYear n - (153 * monthFromMarch n + 2) / 5 + 1 := rfl
  unfold toDay year month
  generalize (n + 719468) / 146097 = era at *
  generalize dayOfEra n = e at *
  generalize yearOfEra n = y at *
  generalize dayOfYear n = dy at *
  generalize monthFromMarch n = mp at *
  dsimp only
  rw [hday]
  by_cases h10 : mp < 10
  · rw [if_pos h10, if_neg (show ¬ mp + 3 ≤ 2 by omega), if_neg (show ¬ mp + 3 ≤ 2 by omega), if_neg (show ¬ mp + 3 ≤ 2 by omega)]
    omega
  · rw [if_neg h10, if_pos (show mp - 9 ≤ 2 by omega), if_pos (show mp - 9 ≤ 2 by omega), if_pos (show mp - 9 ≤ 2 by omega)]
    omega

example : (year 11016, month 11016, day 11016) = (2000, 2, 29) := by decide

end Date

/-! ## Writing -/

def oneSecond : Int := 1000000000
def oneMinute : Int := 60 * oneSecond
def oneHour : Int := 60 * oneMinute
def oneDay : Int := 24 * oneHour

def digit (d : Nat) : Char := Char.ofNat (48 + d)

def padInt : Nat → Nat → List Char → List Char
  | 0, _, tail => tail
  | digits + 1, x, tail => padInt digits (x / 10) (digit (x % 10) :: tail)

def fmtInt' (value : Nat) (tail : List Char) : List Char :=
  if value = 0 then tail else fmtInt' (value / 10) (digit (value % 10) :: tail)

def fmtInt (x : Nat) (tail : List Char) : List Char := if x = 0 then '0' :: tail else fmtInt' x tail

/-- A number that is not zero, of `i` digits at most. -/
def cropLow : Nat → Nat → Nat × Nat
  | 0, x => (0, x)
  | i + 1, x => if x % 10 = 0 then cropLow i (x / 10) else (i + 1, x)

/-- It ends the text. -/
def fmtNano (ns : Nat) : List Char :=
  if ns = 0 then []
  else
    let (digits, x) := cropLow 9 ns
    '.' :: padInt digits x []

/-- The day of a time. -/
def dayOf (x : Int) : Int := x / oneSecond / 86400

/-- The second of the day, and the nanosecond of the second. -/
def secondOf (x : Int) : Nat := (x / oneSecond % 86400).toNat

def nanoOf (x : Int) : Nat := (x % oneSecond).toNat

def toAbsoluteString (x : Int) : List Char :=
  padInt 4 (Date.year (dayOf x)).toNat <| '-' ::
  padInt 2 (Date.month (dayOf x)).toNat ('-' ::
  padInt 2 (Date.day (dayOf x)).toNat (' ' ::
  padInt 2 (secondOf x / 3600) (':' ::
  padInt 2 (secondOf x / 60 % 60) (':' ::
  padInt 2 (secondOf x % 60) (fmtNano (nanoOf x))))))

/-- `~x` does not fit for the lowest time, but a time of a day or more is not written so. -/
def toRelativeString (t : Int) : List Char :=
  let x := t.natAbs
  let seconds := x / 1000000000
  let padSeconds := padInt 2 (seconds % 60) (fmtNano (x % 1000000000))
  let padMinutes := padInt 2 (seconds / 60 % 60) (':' :: padSeconds)
  let padHours := padInt 2 (seconds / 3600 % 24) (':' :: padMinutes)
  let fmt :=
    if 0 < seconds / 86400 then fmtInt (seconds / 86400) (' ' :: padHours)
    else if 0 < seconds / 3600 % 24 then fmtInt (seconds / 3600 % 24) (':' :: padMinutes)
    else if 0 < seconds / 60 % 60 then fmtInt (seconds / 60 % 60) (':' :: padSeconds)
    else fmtInt (seconds % 60) (fmtNano (x % 1000000000))
  if t < 0 then '~' :: fmt else fmt

def toString (x : Int) : List Char := if x < oneDay ∧ -oneDay < x then toRelativeString x else toAbsoluteString x

/-! ## Reading -/

/-- The sizes of `Int`. -/
inductive Precision where
  | bits32
  | bits64

def Precision.maxInt : Precision → Int
  | bits32 => 2 ^ 31 - 1
  | bits64 => 2 ^ 63 - 1

/-- A value of `Int`. -/
def isInt (precision : Precision) (x : Int) : Bool := -precision.maxInt - 1 ≤ x ∧ x ≤ precision.maxInt

def isInt64 (x : Int) : Bool := -2 ^ 63 ≤ x ∧ x < 2 ^ 63

/-- What the code asks of a number. -/
inductive Demand where
  /-- It is a value of `Int`, or of `Int64`. -/
  | int (x : Int)
  | int64 (x : Int)
  /-- `tomonth` knows it; it is below 12. -/
  | month (x : Int)

namespace Demand

def holds (precision : Precision) : Demand → Bool
  | int x => isInt precision x
  | int64 x => isInt64 x
  | month x => x ≠ 0

def exn : Demand → Exn
  | month _ => .domain
  | _ => .overflow

end Demand

def isSpace (c : Char) : Bool := c = ' ' || (9 ≤ c.toNat && c.toNat ≤ 13)

def isDigit (c : Char) : Bool := 48 ≤ c.toNat && c.toNat ≤ 57

def ord (c : Char) : Nat := c.toNat - 48

/-- The number that the digits write. -/
def value (ds : List Char) : Nat := ds.foldl (fun x c => x * 10 + ord c) 0

/-- The sign in front of a number. -/
def scanSign : List Char → Bool × List Char
  | '~' :: s => (true, s)
  | '-' :: s => (true, s)
  | '+' :: s => (false, s)
  | s => (false, s)

section

variable (need : Demand → Except Exn Unit)

/-- `Int.scan StringCvt.DEC`. -/
def readInt (s : List Char) : Except Exn (Option (Int × List Char)) := do
  let (negative, s) := scanSign (s.dropWhile isSpace)
  if s.takeWhile isDigit = [] then return none
  else
    let x : Int := if negative then -value (s.takeWhile isDigit) else value (s.takeWhile isDigit)
    need (.int x)
    return some (x, s.dropWhile isDigit)

def readPosInt (s : List Char) : Except Exn (Option (Int × List Char)) := do
  match ← readInt need s with
  | some (x, s) => if 0 ≤ x then return some (x, s) else return none
  | none => return none

/-- `tomonth` knows the months from 1 on, and a date has 64 bits of nanoseconds. -/
def convertDate (year month day : Int) : Except Exn Int := do
  need (.int (year + month / 12))
  need (.month (month % 12))
  let date := Date.toDay (year + month / 12) (month % 12) day * oneDay
  need (.int64 date)
  return date

def parseDate (s : List Char) : Except Exn (Option (Int × List Char)) := do
  match ← readPosInt need s with
  | none => return none
  | some (year, s) =>
    match s with
    | '-' :: s =>
      match ← readPosInt need s with
      | none => return none
      | some (month, s) =>
        match s with
        | '-' :: s =>
          match ← readPosInt need s with
          | none => return none
          | some (day, s) => return some (← convertDate need year month day, s)
        | _ => return none
    | _ => return none

/-- `readHour`, `readMinute` and `readSecond`, and `add` of each. -/
def add (unit : Int) (time : Int) (s : List Char) : Except Exn (Option (Int × List Char)) := do
  match ← readPosInt need s with
  | none => return none
  | some (x, s) =>
    need (.int64 (x * unit))
    need (.int64 (time + x * unit))
    return some (time + x * unit, s)

def readNano (result scale : Int) : List Char → Except Exn (Int × List Char)
  | [] => return (result, [])
  | c :: s =>
    if !isDigit c then return (result, c :: s)
    else do
      need (.int64 (result + ord c * scale))
      readNano (result + ord c * scale) (scale / 10) s

def parseNanoOpt (time : Int) : List Char → Except Exn (Option (Int × List Char))
  | '.' :: s => return some (← readNano need time 100000000 s)
  | s => return some (time, s)

/-- `parseChar`, in `sep`. -/
def parseChar (c : Char) (time : Int) : List Char → Option (Int × List Char)
  | [] => none
  | x :: s => if x = c then some (time, s) else none

/-- `Option.mapPartial`. -/
def mapPartial (f : Int → List Char → Except Exn (Option (Int × List Char))) : Option (Int × List Char) → Except Exn (Option (Int × List Char))
  | none => return none
  | some (time, s) => f time s

def sep (c : Char) (v : Option (Int × List Char)) : Option (Int × List Char) := v.bind fun (time, s) => parseChar c time s

def parseSecond (time : Int) (s : List Char) : Except Exn (Option (Int × List Char)) := do
  mapPartial (parseNanoOpt need) (← add need oneSecond time s)

def parseMinute (time : Int) (s : List Char) : Except Exn (Option (Int × List Char)) := do
  mapPartial (parseSecond need) (sep ':' (← add need oneMinute time s))

def parseHour (time : Int) (s : List Char) : Except Exn (Option (Int × List Char)) := do
  mapPartial (parseMinute need) (sep ':' (← add need oneHour time s))

def parseTime (time : Int) (s : List Char) : Except Exn (Option (Int × List Char)) := do
  match ← parseHour need time s with
  | some r => return some r
  | none =>
    match ← parseMinute need time s with
    | some r => return some r
    | none => parseSecond need time s

def parseUnsignedRelative (s' : List Char) : Except Exn (Option (Int × List Char)) := do
  match ← readPosInt need s' with
  | none => parseTime need 0 s'
  | some (days, s) =>
    match s with
    | ' ' :: s =>
      need (.int64 (days * oneDay))
      match ← parseHour need (days * oneDay) s with
      | none => parseTime need 0 s'
      | some z => return some z
    | _ => parseTime need 0 s'

def parseRelative (s : List Char) : Except Exn (Option (Int × List Char)) := do
  match s with
  | '~' :: s =>
    match ← parseUnsignedRelative need s with
    | none => return none
    | some (time, s) =>
      need (.int64 (-time))
      return some (-time, s)
  | s => parseUnsignedRelative need s

def scan (s : List Char) : Except Exn (Option (Int × List Char)) := do
  match ← parseDate need s with
  | none => parseRelative need s
  | some (date, s') =>
    match s' with
    | ' ' :: s =>
      match ← parseTime need date s with
      | none => return some (date, s')
      | some z => return some z
    | _ => return some (date, s')

end

def raise (precision : Precision) (d : Demand) : Except Exn Unit := if d.holds precision then .ok () else .error d.exn

def fromString (precision : Precision) (s : List Char) : Except Exn (Option Int) := do
  return (← scan (raise precision) s).map (·.1)

/-! ## Texts and their numbers -/

/-- The number that a text begins with. -/
def number (s : List Char) : Option (Int × List Char) :=
  let (negative, s) := scanSign (s.dropWhile isSpace)
  if s.takeWhile isDigit = [] then none
  else some (if negative then -value (s.takeWhile isDigit) else value (s.takeWhile isDigit), s.dropWhile isDigit)

/-- If it is not below zero. -/
def count (s : List Char) : Option (Int × List Char) := (number s).filter fun r => 0 ≤ r.1

def after (c : Char) : List Char → Option (List Char)
  | [] => none
  | x :: s => if x = c then some s else none

/-- Year, month and day. -/
structure Fields where
  year : Int
  month : Int
  day : Int

def dateFields (s : List Char) : Option (Fields × List Char) :=
  (count s).bind fun (year, s) => (after '-' s).bind fun s =>
  (count s).bind fun (month, s) => (after '-' s).bind fun s =>
  (count s).map fun (day, s) => (⟨year, month, day⟩, s)

/-- The year that `convertDate` takes the date to be in. -/
def Fields.whole (f : Fields) : Int := f.year + f.month / 12

/-- The midnight of the date. -/
def Fields.time (f : Fields) : Int := Date.toDay f.whole (f.month % 12) f.day * oneDay

def dateOf (s : List Char) : Option (Int × List Char) := (dateFields s).map fun (f, s) => (f.time, s)

/-- The digits of a fraction, each a tenth of the one before, as long as that is a number. -/
def fraction (scale : Int) : List Char → Int
  | [] => 0
  | c :: s => if isDigit c then ord c * scale + fraction (scale / 10) s else 0

def withFraction (time : Int) : List Char → Int × List Char
  | '.' :: s => (time + fraction 100000000 s, s.dropWhile isDigit)
  | s => (time, s)

/-- Seconds, minutes with seconds, and hours with both. -/
def second (time : Int) (s : List Char) : Option (Int × List Char) :=
  (count s).map fun (x, s) => withFraction (time + x * oneSecond) s

def minute (time : Int) (s : List Char) : Option (Int × List Char) :=
  (count s).bind fun (x, s) => (after ':' s).bind fun s => second (time + x * oneMinute) s

def hour (time : Int) (s : List Char) : Option (Int × List Char) :=
  (count s).bind fun (x, s) => (after ':' s).bind fun s => minute (time + x * oneHour) s

def clock (time : Int) (s : List Char) : Option (Int × List Char) := ((hour time s).or (minute time s)).or (second time s)

/-- Days in front of a clock with hours. -/
def days (s : List Char) : Option (Int × List Char) :=
  (count s).bind fun (x, s) => (after ' ' s).bind fun s => hour (x * oneDay) s

def relative (s : List Char) : Option (Int × List Char) :=
  match s with
  | '~' :: s => ((days s).or (clock 0 s)).map fun (time, s) => (-time, s)
  | s => (days s).or (clock 0 s)

/-- The number in front is a value of `Int`. -/
def Small (precision : Precision) (s : List Char) : Prop := ∀ x rest, number s = some (x, rest) → isInt precision x = true

/-- The numbers of a date, as far as it goes, are values of `Int`, and so is its whole year;
    its month is no multiple of twelve, and its midnight has 64 bits. -/
structure DateFits (precision : Precision) (s : List Char) : Prop where
  year : Small precision s
  month : ∀ y s₁, count s = some (y, '-' :: s₁) → Small precision s₁
  day : ∀ y s₁ m s₂, count s = some (y, '-' :: s₁) → count s₁ = some (m, '-' :: s₂) → Small precision s₂
  whole : ∀ f rest, dateFields s = some (f, rest) → isInt precision f.whole = true ∧ ¬ 12 ∣ f.month ∧ isInt64 f.time = true

/-- The number in front is a value of `Int`, so many units have 64 bits, and so have they
    with the time before. -/
def UnitFits (precision : Precision) (unit time : Int) (s : List Char) : Prop :=
  Small precision s ∧ ∀ x rest, count s = some (x, rest) → isInt64 (x * unit) = true ∧ isInt64 (time + x * unit) = true

def SecondFits (precision : Precision) (time : Int) (s : List Char) : Prop :=
  UnitFits precision oneSecond time s ∧
    ∀ x rest, count s = some (x, '.' :: rest) → isInt64 (time + x * oneSecond + fraction 100000000 rest) = true

def MinuteFits (precision : Precision) (time : Int) (s : List Char) : Prop :=
  UnitFits precision oneMinute time s ∧ ∀ x rest, count s = some (x, ':' :: rest) → SecondFits precision (time + x * oneMinute) rest

def HourFits (precision : Precision) (time : Int) (s : List Char) : Prop :=
  UnitFits precision oneHour time s ∧ ∀ x rest, count s = some (x, ':' :: rest) → MinuteFits precision (time + x * oneHour) rest

/-- A text is taken for hours first, then for minutes, then for seconds. -/
def ClockFits (precision : Precision) (time : Int) (s : List Char) : Prop :=
  HourFits precision time s ∧ (hour time s = none → MinuteFits precision time s ∧ (minute time s = none → SecondFits precision time s))

/-- For days first of all. -/
def RelativeFits (precision : Precision) (s : List Char) : Prop :=
  Small precision s ∧ (∀ x rest, count s = some (x, ' ' :: rest) → isInt64 (x * oneDay) = true ∧ HourFits precision (x * oneDay) rest) ∧
    (days s = none → ClockFits precision 0 s)

/-- The numbers of the string fit: those of a date in front, and of the clock behind it; or,
    without a date, those of a relative time, whose sign may come first. -/
def Fits (precision : Precision) (s : List Char) : Prop :=
  DateFits precision s ∧ (∀ date rest, dateOf s = some (date, ' ' :: rest) → ClockFits precision date rest) ∧
    (dateOf s = none → RelativeFits precision ((after '~' s).getD s))

end BubbleStorm.System.TimeText
