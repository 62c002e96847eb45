/-
  BubbleStorm.System.TimeProofs — what the text of a time keeps, and what a string may hold.

  Proved (`text_iff`): a time comes back from its text if and only if that is a relative one,
  or its date is not in December and the midnight before it is a time, since `convertDate`
  takes month 12 for month 0 of the next year; and a string raises exactly where one of its
  numbers does not fit (`Fits`).
-/

import BubbleStorm.Lib.Outcome
import BubbleStorm.System.Time
import Mathlib.Data.Nat.Cast.Basic

namespace BubbleStorm.System.TimeText

open Date (day month year)
open BubbleStorm.Cusp (Exn)
open BubbleStorm.Lib

/-! ## Numbers -/

theorem digit_spec {d : Nat} (hd : d < 10) : isDigit (digit d) = true ∧ ord (digit d) = d := by
  have hall : ∀ d : Fin 10, isDigit (digit d) = true ∧ ord (digit d) = d := by decide
  exact hall ⟨d, hd⟩

/-- Some digits, and the number they write. -/
structure Digits (ds : List Char) (v : Nat) : Prop where
  digits : ∀ c ∈ ds, isDigit c = true
  value : value ds = v

theorem Digits.snoc {ds : List Char} {v d : Nat} (h : Digits ds v) (hd : d < 10) : Digits (ds ++ [digit d]) (v * 10 + d) where
  digits := by
    intro c hc
    rcases List.mem_append.mp hc with hc | hc
    · exact h.digits c hc
    · cases List.mem_singleton.mp hc
      exact (digit_spec hd).1
  value := by
    unfold TimeText.value
    rw [List.foldl_append]
    show TimeText.value ds * 10 + ord (digit d) = _
    rw [h.value, (digit_spec hd).2]

theorem padInt_spec (n : Nat) : ∀ (x : Nat) (tail : List Char),
    ∃ ds, padInt n x tail = ds ++ tail ∧ ds.length = n ∧ Digits ds (x % 10 ^ n) := by
  induction n with
  | zero =>
    intro x tail
    refine ⟨[], rfl, rfl, (fun c hc => nomatch hc), ?_⟩
    rw [Nat.pow_zero, Nat.mod_one]
    rfl
  | succ n ih =>
    intro x tail
    obtain ⟨ds, hpad, hlen, hds⟩ := ih (x / 10) (digit (x % 10) :: tail)
    refine ⟨ds ++ [digit (x % 10)], ?_, ?_, ?_⟩
    · rw [padInt, hpad, List.append_assoc]
      rfl
    · rw [List.length_append, hlen]
      rfl
    · have hmod : x % 10 ^ (n + 1) = x / 10 % 10 ^ n * 10 + x % 10 := by
        rw [Nat.pow_succ', Nat.mod_mul]
        omega
      rw [hmod]
      exact hds.snoc (Nat.mod_lt _ (by decide))

theorem fmtInt'_spec (x : Nat) : ∀ tail : List Char, ∃ ds, fmtInt' x tail = ds ++ tail ∧ Digits ds x ∧ (x ≠ 0 → ds ≠ []) := by
  induction x using Nat.strong_induction_on with
  | _ x ih =>
    intro tail
    by_cases hx : x = 0
    · refine ⟨[], ?_, ⟨(fun c hc => nomatch hc), hx.symm⟩, fun hne => absurd hx hne⟩
      rw [fmtInt', if_pos hx]
      rfl
    · obtain ⟨ds, hfmt, hds, -⟩ := ih (x / 10) (by omega) (digit (x % 10) :: tail)
      refine ⟨ds ++ [digit (x % 10)], ?_, ?_, fun _ => List.append_ne_nil_of_right_ne_nil _ (List.cons_ne_nil _ _)⟩
      · rw [fmtInt', if_neg hx, hfmt, List.append_assoc]
        rfl
      · have hsnoc := hds.snoc (Nat.mod_lt x (by decide : 0 < 10))
        have hdiv : x / 10 * 10 + x % 10 = x := by omega
        rwa [hdiv] at hsnoc

/-- A number in front of a text. -/
structure Number (text : List Char) (v : Nat) (rest : List Char) : Prop where
  split : ∃ ds, text = ds ++ rest ∧ ds ≠ [] ∧ Digits ds v
  stops : ∀ c ∈ rest.head?, isDigit c = false

theorem padInt_number {n x : Nat} {rest : List Char} (hn : 0 < n) (hx : x < 10 ^ n) (hrest : ∀ c ∈ rest.head?, isDigit c = false) :
    Number (padInt n x rest) x rest := by
  obtain ⟨ds, hpad, hlen, hds⟩ := padInt_spec n x rest
  rw [Nat.mod_eq_of_lt hx] at hds
  refine ⟨⟨ds, hpad, ?_, hds⟩, hrest⟩
  intro hnil
  rw [hnil] at hlen
  exact absurd hlen (Nat.ne_of_lt hn)

theorem fmtInt_number (x : Nat) {rest : List Char} (hrest : ∀ c ∈ rest.head?, isDigit c = false) : Number (fmtInt x rest) x rest := by
  refine ⟨?_, hrest⟩
  unfold fmtInt
  by_cases hx : x = 0
  · rw [if_pos hx]
    refine ⟨['0'], rfl, List.cons_ne_nil _ _, ?_, hx.symm⟩
    intro c hc
    cases List.mem_singleton.mp hc
    rfl
  · rw [if_neg hx]
    obtain ⟨ds, hfmt, hds, hne⟩ := fmtInt'_spec x rest
    exact ⟨ds, hfmt, hne hx, hds⟩

variable (precision : Precision)

variable {precision} in
theorem raise_ok {d : Demand} (h : d.holds precision = true) : raise precision d = .ok () := if_pos h

variable {precision} in
theorem raise_int {x : Int} (h : isInt precision x = true) : raise precision (.int x) = .ok () := raise_ok h

theorem raise_int64 {x : Int} (h : isInt64 x = true) : raise precision (.int64 x) = .ok () := raise_ok h

theorem raise_month {x : Int} (h : x ≠ 0) : raise precision (.month x) = .ok () := raise_ok (decide_eq_true h)

theorem isInt_iff {x : Int} : isInt precision x = true ↔ -precision.maxInt - 1 ≤ x ∧ x ≤ precision.maxInt := by
  unfold isInt
  rw [decide_eq_true_eq]

theorem maxInt_ge : 2147483647 ≤ precision.maxInt := by cases precision <;> decide

theorem isInt_small {v : Nat} (hv : v < 2 ^ 31) : isInt precision v = true := by
  have hmax := maxInt_ge precision
  rw [isInt_iff]
  omega

theorem takeWhile_digits {ds rest : List Char} (hds : ∀ c ∈ ds, isDigit c = true) (hrest : ∀ c ∈ rest.head?, isDigit c = false) :
    (ds ++ rest).takeWhile isDigit = ds ∧ (ds ++ rest).dropWhile isDigit = rest := by
  induction ds with
  | nil =>
    cases rest with
    | nil => exact ⟨rfl, rfl⟩
    | cons c rest =>
      have hc : isDigit c = false := hrest c rfl
      rw [List.nil_append, List.takeWhile_cons, List.dropWhile_cons, hc]
      exact ⟨rfl, rfl⟩
  | cons c ds ih =>
    have hc : isDigit c = true := hds c (.head _)
    obtain ⟨htake, hdrop⟩ := ih fun c' hc' => hds c' (.tail _ hc')
    rw [List.cons_append, List.takeWhile_cons, List.dropWhile_cons, hc, if_pos rfl, if_pos rfl, htake, hdrop]
    exact ⟨rfl, rfl⟩

/-- A digit is no space and no sign. -/
theorem scanSign_digit {c : Char} (hc : isDigit c = true) (s : List Char) : scanSign ((c :: s).dropWhile isSpace) = (false, c :: s) := by
  have hspace : isSpace c = false := by
    unfold isDigit at hc
    unfold isSpace
    simp only [Bool.and_eq_true, decide_eq_true_eq] at hc
    simp only [Bool.or_eq_false_iff, Bool.and_eq_false_iff, decide_eq_false_iff_not]
    refine ⟨?_, by omega⟩
    rintro rfl
    exact absurd hc (by decide)
  rw [List.dropWhile_cons, hspace, if_neg Bool.false_ne_true]
  unfold scanSign
  split
  next heq =>
    cases heq
    exact absurd hc (by decide)
  next heq =>
    cases heq
    exact absurd hc (by decide)
  next heq =>
    cases heq
    exact absurd hc (by decide)
  next => rfl

theorem readInt_number {text rest : List Char} {v : Nat} (h : Number text v rest) (hv : isInt precision v = true) :
    readInt (raise precision) text = .ok (some ((v : Int), rest)) := by
  obtain ⟨ds, rfl, hne, hds⟩ := h.split
  obtain ⟨htake, hdrop⟩ := takeWhile_digits hds.digits h.stops
  obtain ⟨c, tl, rfl⟩ := List.exists_cons_of_ne_nil hne
  unfold readInt
  rw [List.cons_append, scanSign_digit (hds.digits c (.head _))]
  rw [List.cons_append] at htake hdrop
  dsimp only
  rw [htake, hdrop, if_neg hne, hds.value, if_neg Bool.false_ne_true, raise_int hv]
  rfl

theorem readPosInt_number {text rest : List Char} {v : Nat} (h : Number text v rest) (hv : isInt precision v = true) :
    readPosInt (raise precision) text = .ok (some ((v : Int), rest)) := by
  unfold readPosInt
  rw [readInt_number precision h hv]
  show (if 0 ≤ (v : Int) then Except.ok (some ((v : Int), rest)) else Except.ok none) = _
  rw [if_pos (Int.natCast_nonneg v)]

/-! ## The time of day -/

theorem oneDay_eq : oneDay = 86400000000000 := rfl

theorem oneHour_eq : oneHour = 3600000000000 := rfl

theorem oneMinute_eq : oneMinute = 60000000000 := rfl

theorem oneSecond_eq : oneSecond = 1000000000 := rfl

theorem add_number {text rest : List Char} {v : Nat} (h : Number text v rest) (hv : isInt precision v = true) (unit time : Int)
    (hunit : isInt64 (v * unit) = true) (hsum : isInt64 (time + v * unit) = true) :
    add (raise precision) unit time text = .ok (some (time + v * unit, rest)) := by
  unfold add
  rw [readPosInt_number precision h hv]
  show (raise precision (.int64 (v * unit)) >>= fun _ => raise precision (.int64 (time + v * unit)) >>= fun _ =>
    Except.ok (some (time + v * unit, rest))) = _
  rw [raise_int64 precision hunit, raise_int64 precision hsum]
  rfl

theorem isInt64_iff {x : Int} : isInt64 x = true ↔ -2 ^ 63 ≤ x ∧ x < 2 ^ 63 := by
  unfold isInt64
  rw [decide_eq_true_eq]

theorem foldl_value (ds : List Char) : ∀ x : Nat, ds.foldl (fun x c => x * 10 + ord c) x = x * 10 ^ ds.length + value ds := by
  induction ds with
  | nil =>
    intro x
    show x = x * 10 ^ 0 + 0
    omega
  | cons d ds ih =>
    intro x
    have hvalue : value (d :: ds) = (0 * 10 + ord d) * 10 ^ ds.length + value ds := ih _
    rw [List.foldl_cons, ih, hvalue, List.length_cons, Nat.pow_succ', Nat.add_mul, Nat.mul_assoc, Nat.zero_mul, Nat.zero_add,
      Nat.add_assoc]

theorem value_cons (c : Char) (ds : List Char) : value (c :: ds) = ord c * 10 ^ ds.length + value ds := by
  have hcons := foldl_value ds (0 * 10 + ord c)
  rw [Nat.zero_mul, Nat.zero_add] at hcons
  rw [← hcons]
  unfold value
  rw [List.foldl_cons, Nat.zero_mul, Nat.zero_add]

/-- The digits behind the point, `j + 1` of them at most. -/
theorem readNano_digits : ∀ (ds : List Char) (j : Nat) (result : Int), (∀ c ∈ ds, isDigit c = true) → ds.length ≤ j →
    isInt64 result = true → isInt64 (result + value ds * 10 ^ (j - ds.length)) = true →
    readNano (raise precision) result (10 ^ j / 10) ds = .ok (result + value ds * 10 ^ (j - ds.length), []) := by
  intro ds
  induction ds with
  | nil =>
    intro j result _ _ _ _
    show Except.ok (result, []) = Except.ok (result + (0 : Nat) * 10 ^ (j - 0), [])
    rw [Int.natCast_zero, Int.zero_mul, Int.add_zero]
  | cons c ds ih =>
    intro j result hds hlen hresult hall
    obtain ⟨j, rfl⟩ : ∃ i, j = i + 1 := ⟨j - 1, by rw [List.length_cons] at hlen; omega⟩
    rw [List.length_cons] at hlen hall ⊢
    have hlen' : ds.length ≤ j := by omega
    have hc : isDigit c = true := hds c (.head _)
    have hscale : (10 ^ (j + 1) / 10 : Int) = 10 ^ j := by
      rw [Int.pow_succ, Int.mul_ediv_cancel _ (by decide)]
    have hsub : j + 1 - (ds.length + 1) = j - ds.length := by omega
    have hten : (10 : Int) ^ ds.length * 10 ^ (j - ds.length) = 10 ^ j := by
      rw [← Int.pow_add, Nat.add_sub_cancel' hlen']
    have hvalue : ((value (c :: ds) : Nat) : Int) * 10 ^ (j - ds.length) = ord c * 10 ^ j + value ds * 10 ^ (j - ds.length) := by
      rw [value_cons, Int.natCast_add, Int.natCast_mul, Int.add_mul, Int.natCast_pow, Int.mul_assoc]
      rw [show ((10 : Nat) : Int) = 10 from rfl, hten]
    rw [hsub, hvalue] at hall
    rw [hsub, hvalue, hscale]
    have hpos : (0 : Int) ≤ ord c * 10 ^ j := Int.mul_nonneg (Int.natCast_nonneg _) (Int.pow_nonneg (by decide))
    have hpos' : (0 : Int) ≤ value ds * 10 ^ (j - ds.length) := Int.mul_nonneg (Int.natCast_nonneg _) (Int.pow_nonneg (by decide))
    have hfit : isInt64 (result + ord c * 10 ^ j) = true := by
      rw [isInt64_iff] at hresult hall ⊢
      omega
    have hrest := ih j (result + ord c * 10 ^ j) (fun c' hc' => hds c' (.tail _ hc')) hlen' hfit (by rwa [Int.add_assoc])
    rw [readNano, hc]
    show (raise precision (.int64 (result + ord c * 10 ^ j)) >>= fun _ =>
      readNano (raise precision) (result + ord c * 10 ^ j) (10 ^ j / 10) ds) = _
    rw [raise_int64 precision hfit, ← Int.add_assoc]
    exact hrest

theorem cropLow_spec : ∀ (i x : Nat), x ≠ 0 → x < 10 ^ i →
    (cropLow i x).1 ≤ i ∧ 0 < (cropLow i x).1 ∧ (cropLow i x).2 < 10 ^ (cropLow i x).1 ∧
      (cropLow i x).2 * 10 ^ (i - (cropLow i x).1) = x := by
  intro i
  induction i with
  | zero =>
    intro x hne hlt
    rw [Nat.pow_zero] at hlt
    omega
  | succ i ih =>
    intro x hne hlt
    unfold cropLow
    by_cases hmod : x % 10 = 0
    · rw [if_pos hmod]
      rw [Nat.pow_succ] at hlt
      obtain ⟨hle, hpos, hlt', hmul⟩ := ih (x / 10) (by omega) (by omega)
      refine ⟨Nat.le_succ_of_le hle, hpos, hlt', ?_⟩
      rw [Nat.succ_sub hle, Nat.pow_succ, ← Nat.mul_assoc, hmul]
      omega
    · rw [if_neg hmod]
      refine ⟨Nat.le_refl _, i.succ_pos, hlt, ?_⟩
      rw [Nat.sub_self, Nat.pow_zero, Nat.mul_one]

theorem stops_nano (ns : Nat) : ∀ c ∈ (fmtNano ns).head?, isDigit c = false := by
  unfold fmtNano
  split
  · intro c hc
    cases hc
  · intro c hc
    cases hc
    rfl

theorem parseNano_fmt {ns : Nat} (hns : ns < 10 ^ 9) {time : Int} (htime : isInt64 time = true) (hsum : isInt64 (time + ns) = true) :
    parseNanoOpt (raise precision) time (fmtNano ns) = .ok (some (time + ns, [])) := by
  unfold fmtNano
  by_cases hzero : ns = 0
  · rw [if_pos hzero, hzero]
    show Except.ok (some (time, [])) = Except.ok (some (time + (0 : Nat), []))
    rw [Int.natCast_zero, Int.add_zero]
  · rw [if_neg hzero]
    obtain ⟨hle, -, hlt, hmul⟩ := cropLow_spec 9 ns hzero hns
    obtain ⟨ds, hpad, hlen, hds⟩ := padInt_spec (cropLow 9 ns).1 (cropLow 9 ns).2 []
    rw [Nat.mod_eq_of_lt hlt] at hds
    rw [List.append_nil] at hpad
    have hvalue : ((value ds : Nat) : Int) * 10 ^ (9 - ds.length) = ns := by
      rw [hds.value, hlen]
      exact_mod_cast hmul
    have hread := readNano_digits precision ds 9 time hds.digits (hlen ▸ hle) htime (by rwa [hvalue])
    rw [hvalue] at hread
    show (readNano (raise precision) time 100000000 (padInt (cropLow 9 ns).1 (cropLow 9 ns).2 []) >>= fun r => Except.ok (some r)) = _
    rw [hpad]
    have hscale : (10 ^ 9 / 10 : Int) = 100000000 := by decide
    rw [hscale] at hread
    rw [hread]
    rfl

theorem parseSecond_fmt {text : List Char} {v ns : Nat} (h : Number text v (fmtNano ns)) (hv : v < 10 ^ 4) (hns : ns < 10 ^ 9)
    {time : Int} (hlow : -2 ^ 63 ≤ time) (hhigh : time + v * oneSecond + ns < 2 ^ 63) :
    parseSecond (raise precision) time text = .ok (some (time + v * oneSecond + ns, [])) := by
  rw [oneSecond_eq] at hhigh
  have hfit : isInt64 (v * oneSecond) = true ∧ isInt64 (time + v * oneSecond) = true := by
    rw [oneSecond_eq, isInt64_iff, isInt64_iff]
    omega
  unfold parseSecond
  rw [add_number precision h (isInt_small precision (by omega)) oneSecond time hfit.1 hfit.2]
  refine parseNano_fmt precision hns hfit.2 (isInt64_iff.mpr ?_)
  rw [oneSecond_eq]
  omega

/-- What follows a number of seconds is no colon. -/
theorem sep_nano (time : Int) (ns : Nat) : sep ':' (some (time, fmtNano ns)) = none := by
  show parseChar ':' time (fmtNano ns) = none
  unfold fmtNano
  split
  · rfl
  · rfl

/-- A larger unit has a colon behind it, and what `next` reads. -/
theorem unit_colon {text text' : List Char} {v : Nat} (h : Number text v (':' :: text')) (hv : v < 10 ^ 4) {unit time : Int}
    (hfit : isInt64 (v * unit) = true) (hsum : isInt64 (time + v * unit) = true)
    (next : Int → List Char → Except Exn (Option (Int × List Char))) :
    (add (raise precision) unit time text >>= fun r => mapPartial next (sep ':' r)) = next (time + v * unit) text' := by
  rw [add_number precision h (isInt_small precision (by omega)) unit time hfit hsum]
  rfl

/-- A number of seconds is not one of a larger unit. -/
theorem unit_second {text : List Char} {v ns : Nat} (h : Number text v (fmtNano ns)) (hv : v < 10 ^ 4) {unit time : Int}
    (hfit : isInt64 (v * unit) = true) (hsum : isInt64 (time + v * unit) = true)
    (next : Int → List Char → Except Exn (Option (Int × List Char))) :
    (add (raise precision) unit time text >>= fun r => mapPartial next (sep ':' r)) = .ok none := by
  rw [add_number precision h (isInt_small precision (by omega)) unit time hfit hsum]
  show mapPartial next (sep ':' (some (time + v * unit, fmtNano ns))) = _
  rw [sep_nano]
  rfl

theorem parseMinute_second {text : List Char} {v ns : Nat} (h : Number text v (fmtNano ns)) (hv : v < 10 ^ 4) {time : Int}
    (hlow : -2 ^ 63 ≤ time) (hhigh : time + v * oneMinute < 2 ^ 63) : parseMinute (raise precision) time text = .ok none := by
  rw [oneMinute_eq] at hhigh
  have hfit : isInt64 (v * oneMinute) = true ∧ isInt64 (time + v * oneMinute) = true := by
    rw [oneMinute_eq, isInt64_iff, isInt64_iff]
    omega
  exact unit_second precision h hv hfit.1 hfit.2 _

theorem parseMinute_fmt {text text' : List Char} {v w ns : Nat} (h : Number text v (':' :: text')) (h' : Number text' w (fmtNano ns))
    (hv : v < 10 ^ 4) (hw : w < 10 ^ 4) (hns : ns < 10 ^ 9) {time : Int} (hlow : -2 ^ 63 ≤ time)
    (hhigh : time + v * oneMinute + w * oneSecond + ns < 2 ^ 63) :
    parseMinute (raise precision) time text = .ok (some (time + v * oneMinute + w * oneSecond + ns, [])) := by
  have hfit : isInt64 (v * oneMinute) = true ∧ isInt64 (time + v * oneMinute) = true := by
    rw [oneMinute_eq, oneSecond_eq] at hhigh
    rw [oneMinute_eq, isInt64_iff, isInt64_iff]
    omega
  refine (unit_colon precision h hv hfit.1 hfit.2 _).trans (parseSecond_fmt precision h' hw hns ?_ hhigh)
  exact (isInt64_iff.mp hfit.2).1

theorem parseHour_second {text : List Char} {v ns : Nat} (h : Number text v (fmtNano ns)) (hv : v < 10 ^ 4) {time : Int}
    (hlow : -2 ^ 63 ≤ time) (hhigh : time + v * oneHour < 2 ^ 63) : parseHour (raise precision) time text = .ok none := by
  rw [oneHour_eq] at hhigh
  have hfit : isInt64 (v * oneHour) = true ∧ isInt64 (time + v * oneHour) = true := by
    rw [oneHour_eq, isInt64_iff, isInt64_iff]
    omega
  exact unit_second precision h hv hfit.1 hfit.2 _

theorem parseHour_minute {text text' : List Char} {v w ns : Nat} (h : Number text v (':' :: text')) (h' : Number text' w (fmtNano ns))
    (hv : v < 10 ^ 4) (hw : w < 10 ^ 4) {time : Int} (hlow : -2 ^ 63 ≤ time) (hhigh : time + v * oneHour + w * oneMinute < 2 ^ 63) :
    parseHour (raise precision) time text = .ok none := by
  have hfit : isInt64 (v * oneHour) = true ∧ isInt64 (time + v * oneHour) = true := by
    rw [oneHour_eq, oneMinute_eq] at hhigh
    rw [oneHour_eq, isInt64_iff, isInt64_iff]
    omega
  refine (unit_colon precision h hv hfit.1 hfit.2 _).trans (parseMinute_second precision h' hw ?_ hhigh)
  exact (isInt64_iff.mp hfit.2).1

theorem parseHour_fmt {text text' text'' : List Char} {v w u ns : Nat} (h : Number text v (':' :: text'))
    (h' : Number text' w (':' :: text'')) (h'' : Number text'' u (fmtNano ns)) (hv : v < 10 ^ 4) (hw : w < 10 ^ 4) (hu : u < 10 ^ 4)
    (hns : ns < 10 ^ 9) {time : Int} (hlow : -2 ^ 63 ≤ time)
    (hhigh : time + v * oneHour + w * oneMinute + u * oneSecond + ns < 2 ^ 63) :
    parseHour (raise precision) time text = .ok (some (time + v * oneHour + w * oneMinute + u * oneSecond + ns, [])) := by
  have hfit : isInt64 (v * oneHour) = true ∧ isInt64 (time + v * oneHour) = true := by
    rw [oneHour_eq, oneMinute_eq, oneSecond_eq] at hhigh
    rw [oneHour_eq, isInt64_iff, isInt64_iff]
    omega
  refine (unit_colon precision h hv hfit.1 hfit.2 _).trans (parseMinute_fmt precision h' h'' hw hu hns ?_ hhigh)
  exact (isInt64_iff.mp hfit.2).1

/-! ## Relative times -/

theorem okBind {α β : Type} (a : α) (f : α → Except Exn β) : (Except.ok a >>= f) = f a := rfl

/-- No minus and no blank. -/
def Plain (rest : List Char) : Prop := ∀ c ∈ rest.head?, c ≠ '-' ∧ c ≠ ' '

theorem parseDate_some {text rest : List Char} {x : Int} (hread : readPosInt (raise precision) text = .ok (some (x, rest)))
    (hrest : Plain rest) : parseDate (raise precision) text = .ok none := by
  unfold parseDate
  rw [hread]
  rw [okBind]
  dsimp only
  split
  next s => exact absurd rfl (hrest '-' rfl).1
  next => rfl

theorem parseDate_none {text : List Char} (hread : readPosInt (raise precision) text = .ok none) :
    parseDate (raise precision) text = .ok none := by
  unfold parseDate
  rw [hread]
  rfl

theorem parseUnsignedRelative_time {text rest : List Char} {v : Nat} (h : Number text v rest) (hv : v < 2 ^ 31) (hrest : Plain rest) :
    parseUnsignedRelative (raise precision) text = parseTime (raise precision) 0 text := by
  unfold parseUnsignedRelative
  rw [readPosInt_number precision h (isInt_small precision hv)]
  rw [okBind]
  dsimp only
  split
  next s => exact absurd rfl (hrest ' ' rfl).2
  next => rfl

theorem isInt_neg {v : Nat} (hv : v < 2 ^ 31) : isInt precision (-v) = true := by
  have hmax := maxInt_ge precision
  rw [isInt_iff]
  omega

/-- `Int.scan` takes the sign for its own. -/
theorem readInt_negative {text rest : List Char} {v : Nat} (h : Number text v rest) (hv : v < 2 ^ 31) :
    readInt (raise precision) ('~' :: text) = .ok (some (-(v : Int), rest)) := by
  obtain ⟨ds, rfl, hne, hds⟩ := h.split
  obtain ⟨htake, hdrop⟩ := takeWhile_digits hds.digits h.stops
  have hsign : scanSign (('~' :: (ds ++ rest)).dropWhile isSpace) = (true, ds ++ rest) := rfl
  unfold readInt
  rw [hsign]
  dsimp only
  rw [htake, hdrop, if_neg hne, hds.value, if_pos rfl, raise_int (isInt_neg precision hv)]
  rfl

/-- A text that begins with a number, which no minus and no blank follows. -/
theorem scan_relative {text rest : List Char} {v : Nat} (h : Number text v rest) (hv : v < 2 ^ 31) (hrest : Plain rest) :
    scan (raise precision) text = parseTime (raise precision) 0 text := by
  have hdate := parseDate_some precision (readPosInt_number precision h (isInt_small precision hv)) hrest
  unfold scan
  rw [hdate]
  show parseRelative (raise precision) text = _
  rw [← parseUnsignedRelative_time precision h hv hrest]
  unfold parseRelative
  split
  next s =>
    -- a digit is no sign
    obtain ⟨ds, hsplit, hne, hds⟩ := h.split
    obtain ⟨c, tl, rfl⟩ := List.exists_cons_of_ne_nil hne
    rw [List.cons_append] at hsplit
    have hc := hds.digits c (.head _)
    rw [← (List.cons.inj hsplit).1] at hc
    exact absurd hc (by decide)
  next => rfl

theorem scan_negative {text rest : List Char} {v : Nat} (h : Number text v rest) (hv : v < 2 ^ 31) (hrest : Plain rest) {time : Int}
    {s : List Char} (ht : parseTime (raise precision) 0 text = .ok (some (time, s))) (hneg : isInt64 (-time) = true) :
    scan (raise precision) ('~' :: text) = .ok (some (-time, s)) := by
  have hread := readInt_negative precision h hv
  have hdate : parseDate (raise precision) ('~' :: text) = .ok none := by
    by_cases hzero : (0 : Int) ≤ -(v : Int)
    · refine parseDate_some precision (x := -(v : Int)) ?_ hrest
      unfold readPosInt
      rw [hread]
      show (if 0 ≤ -(v : Int) then Except.ok (some (-(v : Int), rest)) else Except.ok none) = _
      rw [if_pos hzero]
    · refine parseDate_none precision ?_
      unfold readPosInt
      rw [hread]
      show (if 0 ≤ -(v : Int) then Except.ok (some (-(v : Int), rest)) else Except.ok none) = _
      rw [if_neg hzero]
  unfold scan
  rw [hdate]
  show (parseUnsignedRelative (raise precision) text >>= _) = _
  rw [parseUnsignedRelative_time precision h hv hrest, ht]
  show (raise precision (.int64 (-time)) >>= fun _ => Except.ok (some (-time, s))) = _
  rw [raise_int64 precision hneg]
  rfl

/-- The time of day, in a text. -/
structure Clock (text : List Char) (time : Int) : Prop where
  number : ∃ v rest, Number text v rest ∧ v < 2 ^ 31 ∧ Plain rest
  read : parseTime (raise precision) 0 text = .ok (some (time, []))

theorem plain_nano (ns : Nat) : Plain (fmtNano ns) := by
  unfold fmtNano
  split
  · intro c hc
    cases hc
  · intro c hc
    cases hc
    exact ⟨by decide, by decide⟩

theorem plain_colon (s : List Char) : Plain (':' :: s) := by
  intro c hc
  cases hc
  exact ⟨by decide, by decide⟩

theorem stops_colon (s : List Char) : ∀ c ∈ (':' :: s).head?, isDigit c = false := by
  intro c hc
  cases hc
  rfl

theorem clock_second {text : List Char} {u ns : Nat} (h : Number text u (fmtNano ns)) (hu : u < 60) (hns : ns < 10 ^ 9) :
    Clock precision text (u * oneSecond + ns) := by
  refine ⟨⟨u, _, h, by omega, plain_nano ns⟩, ?_⟩
  unfold parseTime
  rw [parseHour_second precision h (by omega) (by decide) (by rw [oneHour_eq]; omega)]
  show (parseMinute (raise precision) 0 text >>= _) = _
  rw [parseMinute_second precision h (by omega) (by decide) (by rw [oneMinute_eq]; omega)]
  show parseSecond (raise precision) 0 text = _
  rw [parseSecond_fmt precision h (by omega) hns (by decide) (by rw [oneSecond_eq]; omega), Int.zero_add]

theorem clock_minute {text text' : List Char} {w u ns : Nat} (h : Number text w (':' :: text')) (h' : Number text' u (fmtNano ns))
    (hw : w < 60) (hu : u < 60) (hns : ns < 10 ^ 9) : Clock precision text (w * oneMinute + u * oneSecond + ns) := by
  refine ⟨⟨w, _, h, by omega, plain_colon text'⟩, ?_⟩
  unfold parseTime
  rw [parseHour_minute precision h h' (by omega) (by omega) (by decide) (by rw [oneHour_eq, oneMinute_eq]; omega)]
  show (parseMinute (raise precision) 0 text >>= _) = _
  rw [parseMinute_fmt precision h h' (by omega) (by omega) hns (by decide) (by rw [oneMinute_eq, oneSecond_eq]; omega), Int.zero_add]
  rfl

theorem clock_hour {text text' text'' : List Char} {v w u ns : Nat} (h : Number text v (':' :: text'))
    (h' : Number text' w (':' :: text'')) (h'' : Number text'' u (fmtNano ns)) (hv : v < 24) (hw : w < 60) (hu : u < 60)
    (hns : ns < 10 ^ 9) : Clock precision text (v * oneHour + w * oneMinute + u * oneSecond + ns) := by
  refine ⟨⟨v, _, h, by omega, plain_colon text'⟩, ?_⟩
  unfold parseTime
  rw [parseHour_fmt precision h h' h'' (by omega) (by omega) (by omega) hns (by decide) (by rw [oneHour_eq, oneMinute_eq, oneSecond_eq]; omega),
    Int.zero_add]
  rfl

theorem pad2_number {x : Nat} {rest : List Char} (hx : x < 60) (hrest : ∀ c ∈ rest.head?, isDigit c = false) :
    Number (padInt 2 x rest) x rest :=
  padInt_number (by decide) (Nat.lt_trans hx (by decide)) hrest

/-- The text of a time of less than a day, without its sign. -/
theorem relative_clock {t : Int} (hlow : -oneDay < t) (hhigh : t < oneDay) :
    ∃ text, Clock precision text t.natAbs ∧ toRelativeString t = if t < 0 then '~' :: text else text := by
  rw [oneDay_eq] at hlow hhigh
  have hx : t.natAbs < 86400000000000 := by omega
  generalize hxt : t.natAbs = x at hx
  have hday : ¬ 0 < x / 1000000000 / 86400 := by omega
  have hsecond := pad2_number (Nat.mod_lt (x / 1000000000) (by decide : 60 > 0)) (stops_nano (x % 1000000000))
  have hminute := pad2_number (Nat.mod_lt (x / 1000000000 / 60) (by decide : 60 > 0))
    (stops_colon (padInt 2 (x / 1000000000 % 60) (fmtNano (x % 1000000000))))
  have hnano : x % 1000000000 < 10 ^ 9 := Nat.mod_lt _ (by decide)
  unfold toRelativeString
  rw [hxt]
  dsimp only
  rw [if_neg hday]
  by_cases hhour : 0 < x / 1000000000 / 3600 % 24
  · rw [if_pos hhour]
    refine ⟨_, ?_, rfl⟩
    have hclock := clock_hour precision (fmtInt_number (x / 1000000000 / 3600 % 24) (stops_colon _)) hminute hsecond
      (Nat.mod_lt _ (by decide)) (Nat.mod_lt _ (by decide)) (Nat.mod_lt _ (by decide)) hnano
    rw [oneHour_eq, oneMinute_eq, oneSecond_eq] at hclock
    have hsum : ((x / 1000000000 / 3600 % 24 : Nat) : Int) * 3600000000000 + (x / 1000000000 / 60 % 60 : Nat) * 60000000000 +
        (x / 1000000000 % 60 : Nat) * 1000000000 + (x % 1000000000 : Nat) = x := by omega
    rwa [hsum] at hclock
  · rw [if_neg hhour]
    by_cases hmin : 0 < x / 1000000000 / 60 % 60
    · rw [if_pos hmin]
      refine ⟨_, ?_, rfl⟩
      have hclock := clock_minute precision (fmtInt_number (x / 1000000000 / 60 % 60) (stops_colon _)) hsecond
        (Nat.mod_lt _ (by decide)) (Nat.mod_lt _ (by decide)) hnano
      rw [oneMinute_eq, oneSecond_eq] at hclock
      have hsum : ((x / 1000000000 / 60 % 60 : Nat) : Int) * 60000000000 + (x / 1000000000 % 60 : Nat) * 1000000000 +
          (x % 1000000000 : Nat) = x := by omega
      rwa [hsum] at hclock
    · rw [if_neg hmin]
      refine ⟨_, ?_, rfl⟩
      have hclock := clock_second precision (fmtInt_number (x / 1000000000 % 60) (stops_nano _)) (Nat.mod_lt _ (by decide)) hnano
      rw [oneSecond_eq] at hclock
      have hsum : ((x / 1000000000 % 60 : Nat) : Int) * 1000000000 + (x % 1000000000 : Nat) = x := by omega
      rwa [hsum] at hclock

theorem relative_read {t : Int} (hlow : -oneDay < t) (hhigh : t < oneDay) :
    scan (raise precision) (toRelativeString t) = .ok (some (t, [])) := by
  obtain ⟨text, hclock, htext⟩ := relative_clock precision hlow hhigh
  obtain ⟨v, rest, hnumber, hv, hrest⟩ := hclock.number
  rw [htext]
  rw [oneDay_eq] at hlow hhigh
  by_cases hneg : t < 0
  · rw [if_pos hneg]
    have hfit : isInt64 (-(t.natAbs : Int)) = true := isInt64_iff.mpr (by omega)
    rw [scan_negative precision hnumber hv hrest hclock.read hfit]
    have hback : -(t.natAbs : Int) = t := by omega
    rw [hback]
  · rw [if_neg hneg, scan_relative precision hnumber hv hrest, hclock.read]
    have hback : (t.natAbs : Int) = t := by omega
    rw [hback]

/-! ## Absolute times -/

theorem parseDate_numbers {text s₁ s₂ s₃ : List Char} {y mo d : Nat} (hy : Number text y ('-' :: s₁)) (hmo : Number s₁ mo ('-' :: s₂))
    (hd : Number s₂ d s₃) (hy' : y < 2 ^ 31) (hmo' : mo < 2 ^ 31) (hd' : d < 2 ^ 31) :
    parseDate (raise precision) text = (convertDate (raise precision) y mo d >>= fun date => .ok (some (date, s₃))) := by
  unfold parseDate
  rw [readPosInt_number precision hy (isInt_small precision hy'), okBind]
  show (readPosInt (raise precision) s₁ >>= _) = _
  rw [readPosInt_number precision hmo (isInt_small precision hmo'), okBind]
  show (readPosInt (raise precision) s₂ >>= _) = _
  rw [readPosInt_number precision hd (isInt_small precision hd'), okBind]
  rfl

/-- What `convertDate` makes of a day of the calendar. -/
theorem convertDate_date {n : Int} (hyear : -2 ^ 30 ≤ year n ∧ year n < 2 ^ 30) :
    convertDate (raise precision) (year n) (month n) (day n) =
      if month n = 12 then .error .domain
      else if isInt64 (n * oneDay) then .ok (n * oneDay)
      else .error .overflow := by
  have hmonth := Date.month_bounds n
  have hmax := maxInt_ge precision
  have hfit : isInt precision (year n + month n / 12) = true := by
    rw [isInt_iff]
    omega
  unfold convertDate
  rw [raise_int hfit, okBind]
  by_cases hdec : month n = 12
  · rw [if_pos hdec, hdec]
    rfl
  · have hmod : month n % 12 = month n := Int.emod_eq_of_lt (by omega) (by omega)
    have hdiv : month n / 12 = 0 := Int.ediv_eq_zero_of_lt (by omega) (by omega)
    rw [if_neg hdec, hmod, hdiv, Int.add_zero, Date.toDay_date, raise_month precision (show month n ≠ 0 by omega), okBind]
    unfold raise
    show ((if isInt64 (n * oneDay) = true then Except.ok () else Except.error Exn.overflow) >>= fun _ => Except.ok (n * oneDay)) = _
    cases isInt64 (n * oneDay) <;> rfl

/-- A time is a number of nanoseconds that fits 64 bits. -/
abbrev T := { t : Int // isInt64 t = true }

theorem day_bounds (t : T) : -106752 ≤ dayOf t.val ∧ dayOf t.val ≤ 106751 := by
  have ht := isInt64_iff.mp t.property
  unfold dayOf
  rw [oneSecond_eq]
  omega

/-- The year of every time has four digits. -/
theorem year_bounds (t : T) : 1600 ≤ year (dayOf t.val) ∧ year (dayOf t.val) < 10000 := by
  have hday := day_bounds t
  have hyear := Date.yearOfEra_bounds (dayOf t.val)
  unfold year
  split <;> omega

theorem time_split (x : Int) : dayOf x * oneDay + (secondOf x / 3600 : Nat) * oneHour + (secondOf x / 60 % 60 : Nat) * oneMinute +
    (secondOf x % 60 : Nat) * oneSecond + nanoOf x = x := by
  unfold dayOf secondOf nanoOf
  rw [oneDay_eq, oneHour_eq, oneMinute_eq, oneSecond_eq]
  omega

theorem stops_char {c : Char} (hc : isDigit c = false) (s : List Char) : ∀ c' ∈ (c :: s).head?, isDigit c' = false := by
  intro c' hc'
  cases hc'
  exact hc

/-- The text of the time of day. -/
def clockOf (x : Int) : List Char :=
  padInt 2 (secondOf x / 3600) (':' :: padInt 2 (secondOf x / 60 % 60) (':' :: padInt 2 (secondOf x % 60) (fmtNano (nanoOf x))))

theorem clockOf_read (t : T) (hlow : -2 ^ 63 ≤ dayOf t.val * oneDay) :
    parseTime (raise precision) (dayOf t.val * oneDay) (clockOf t.val) = .ok (some (t.val, [])) := by
  have hsecond : secondOf t.val < 86400 := by
    unfold secondOf
    omega
  have hnano : nanoOf t.val < 10 ^ 9 := by
    unfold nanoOf
    rw [oneSecond_eq]
    omega
  have hclock₃ := pad2_number (x := secondOf t.val % 60) (by omega) (stops_nano (nanoOf t.val))
  have hclock₂ := pad2_number (x := secondOf t.val / 60 % 60) (by omega)
    (stops_colon (padInt 2 (secondOf t.val % 60) (fmtNano (nanoOf t.val))))
  have hclock₁ := pad2_number (x := secondOf t.val / 3600) (by omega)
    (stops_colon (padInt 2 (secondOf t.val / 60 % 60) (':' :: padInt 2 (secondOf t.val % 60) (fmtNano (nanoOf t.val)))))
  have ht := isInt64_iff.mp t.property
  have hsplit := time_split t.val
  have hhour := parseHour_fmt precision hclock₁ hclock₂ hclock₃ (by omega) (by omega) (by omega) hnano hlow (by rw [hsplit]; exact ht.2)
  rw [hsplit] at hhour
  unfold parseTime clockOf
  rw [hhour]
  rfl

theorem absolute_date (t : T) : parseDate (raise precision) (toAbsoluteString t.val) =
    (convertDate (raise precision) (year (dayOf t.val)) (month (dayOf t.val)) (day (dayOf t.val)) >>= fun date =>
      .ok (some (date, ' ' :: clockOf t.val))) := by
  have hyear := year_bounds t
  have hmonth := Date.month_bounds (dayOf t.val)
  have hday := Date.day_bounds (dayOf t.val)
  have hdate₃ := pad2_number (x := (day (dayOf t.val)).toNat) (by omega) (stops_char (c := ' ') rfl (clockOf t.val))
  have hdate₂ := pad2_number (x := (month (dayOf t.val)).toNat) (by omega)
    (stops_char (c := '-') rfl (padInt 2 (day (dayOf t.val)).toNat (' ' :: clockOf t.val)))
  have hdate₁ := padInt_number (n := 4) (x := (year (dayOf t.val)).toNat) (by decide) (by omega) (stops_char (c := '-') rfl
    (padInt 2 (month (dayOf t.val)).toNat ('-' :: padInt 2 (day (dayOf t.val)).toNat (' ' :: clockOf t.val))))
  have hparse := parseDate_numbers precision hdate₁ hdate₂ hdate₃ (by omega) (by omega) (by omega)
  rw [Int.toNat_of_nonneg (by omega), Int.toNat_of_nonneg (by omega), Int.toNat_of_nonneg (by omega)] at hparse
  exact hparse

theorem absolute_read (t : T) : fromString precision (toAbsoluteString t.val) =
    if month (dayOf t.val) = 12 then .error .domain
    else if isInt64 (dayOf t.val * oneDay) then .ok (some t.val)
    else .error .overflow := by
  have hyear := year_bounds t
  have hdate := absolute_date precision t
  rw [convertDate_date precision (by omega)] at hdate
  unfold fromString scan
  rw [hdate]
  by_cases hdec : month (dayOf t.val) = 12
  · rw [if_pos hdec, if_pos hdec]
    rfl
  · rw [if_neg hdec, if_neg hdec]
    by_cases hfit : isInt64 (dayOf t.val * oneDay) = true
    · rw [if_pos hfit, if_pos hfit]
      show ((parseTime (raise precision) (dayOf t.val * oneDay) (clockOf t.val) >>= _) >>= _) = _
      rw [clockOf_read precision t (isInt64_iff.mp hfit).1]
      rfl
    · rw [if_neg hfit, if_neg hfit]
      rfl

/-- The time comes back from its text. -/
def RoundTrips (t : T) : Prop := fromString precision (toString t.val) = .ok (some t.val)

/-- It is less than a day, or not in December, and the midnight before is a time. -/
def Writable (t : T) : Prop :=
  (t.val < oneDay ∧ -oneDay < t.val) ∨ (month (dayOf t.val) ≠ 12 ∧ -2 ^ 63 ≤ dayOf t.val * oneDay)

theorem roundTrips_iff (t : T) : RoundTrips precision t ↔ Writable t := by
  unfold RoundTrips Writable toString
  by_cases hrel : t.val < oneDay ∧ -oneDay < t.val
  · rw [if_pos hrel]
    have hread : fromString precision (toRelativeString t.val) = .ok (some t.val) := by
      unfold fromString
      rw [relative_read precision hrel.2 hrel.1]
      rfl
    exact iff_of_true hread (.inl hrel)
  · rw [if_neg hrel, absolute_read]
    by_cases hdec : month (dayOf t.val) = 12
    · rw [if_pos hdec]
      refine iff_of_false (fun h => nomatch h) ?_
      rintro (h | ⟨hne, -⟩)
      · exact hrel h
      · exact hne hdec
    · rw [if_neg hdec]
      have hhigh : dayOf t.val * oneDay < 2 ^ 63 := by
        have hday := day_bounds t
        rw [oneDay_eq]
        omega
      by_cases hlow : -2 ^ 63 ≤ dayOf t.val * oneDay
      · rw [if_pos (isInt64_iff.mpr ⟨hlow, hhigh⟩)]
        exact iff_of_true rfl (.inr ⟨hdec, hlow⟩)
      · rw [if_neg (fun hfit => hlow (isInt64_iff.mp hfit).1)]
        refine iff_of_false (fun h => nomatch h) ?_
        rintro (h | ⟨-, hle⟩)
        · exact hrel h
        · exact hlow hle

/-! ## Strings -/

/-- A computation gives the value where the condition holds, and raises where it does not. -/
structure Gives {α : Type} (x : Except Exn α) (fit : Prop) (v : α) : Prop where
  value : fit → x = .ok v
  raises : ¬ fit → ¬ Ok x

section

variable {α β : Type} {precision : Precision} {p q : Prop}

theorem gives_pure (a : α) : Gives (pure a) True a where
  value := fun _ => rfl
  raises := fun hnot => absurd trivial hnot

theorem gives_need (d : Demand) : Gives (raise precision d) (d.holds precision = true) () where
  value := raise_ok
  raises := by
    intro hnot hok
    unfold raise at hok
    rw [if_neg hnot] at hok
    exact not_ok_error _ hok

theorem Gives.bind {x : Except Exn α} {v : α} {f : α → Except Exn β} {w : β} (hx : Gives x p v) (hf : p → Gives (f v) q w) :
    Gives (x >>= f) (p ∧ q) w where
  value := by
    rintro ⟨h, h'⟩
    rw [hx.value h, okBind]
    exact (hf h).value h'
  raises := by
    rintro hnot ⟨b, hb⟩
    obtain ⟨a, ha, hfa⟩ := bind_eq_ok.mp hb
    by_cases h : p
    · have hvalue := hx.value h
      rw [ha] at hvalue
      cases hvalue
      exact (hf h).raises (fun h' => hnot ⟨h, h'⟩) ⟨b, hfa⟩
    · exact hx.raises h ⟨a, ha⟩

theorem Gives.of_iff {x : Except Exn α} {v : α} (hx : Gives x p v) (h : p ↔ q) : Gives x q v :=
  ⟨fun hfit => hx.value (h.mpr hfit), fun hnot => hx.raises fun hfit => hnot (h.mp hfit)⟩

/-- Nothing more is asked. -/
theorem gives_done (a : α) (h : p) : Gives (pure a) p a := (gives_pure a).of_iff (iff_of_true trivial h)

theorem Gives.iff {x : Except Exn α} {v : α} (hx : Gives x p v) : Ok x ↔ p := by
  by_cases h : p
  · exact iff_of_true ⟨v, hx.value h⟩ h
  · exact iff_of_false (hx.raises h) h

end

/-! ### Numbers of a text -/

theorem after_some {c : Char} {s rest : List Char} : after c s = some rest ↔ s = c :: rest := by
  cases s with
  | nil => exact iff_of_false nofun nofun
  | cons x s =>
    show (if x = c then some s else none) = some rest ↔ _
    by_cases h : x = c
    · rw [if_pos h, h]
      exact ⟨fun h' => by cases h'; rfl, fun h' => by cases h'; rfl⟩
    · rw [if_neg h]
      exact iff_of_false nofun fun h' => h (List.cons.inj h').1

theorem after_none {c : Char} {s : List Char} (h : ∀ rest, s = c :: rest → False) : after c s = none := by
  rw [Option.eq_none_iff_forall_ne_some]
  intro rest hrest
  exact h rest (after_some.mp hrest)

theorem count_nonneg {s rest : List Char} {x : Int} (h : count s = some (x, rest)) : 0 ≤ x := by
  unfold count at h
  exact of_decide_eq_true (Option.filter_eq_some_iff.mp h).2

theorem readInt_gives (s : List Char) : Gives (readInt (raise precision) s) (Small precision s) (number s) := by
  unfold readInt Small number
  dsimp only
  split
  · exact gives_done _ fun x rest h => nomatch h
  · refine Gives.of_iff (Gives.bind (gives_need _) fun _ => gives_pure _) ?_
    constructor
    · intro h x rest hx
      cases hx
      exact h.1
    · intro h
      exact ⟨h _ _ rfl, trivial⟩

theorem readPosInt_gives (s : List Char) : Gives (readPosInt (raise precision) s) (Small precision s) (count s) := by
  refine ((readInt_gives precision s).bind (q := True) fun _ => ?_).of_iff (and_iff_left trivial)
  unfold count
  rcases number s with _ | ⟨x, rest⟩
  · exact gives_pure _
  · rw [Option.filter_some]
    dsimp only
    by_cases h : 0 ≤ x
    · rw [if_pos h, if_pos (decide_eq_true h)]
      exact gives_pure _
    · rw [if_neg h, if_neg (by simpa using h)]
      exact gives_pure _

theorem convertDate_gives (year month day : Int) (_h : 0 ≤ month) :
    Gives (convertDate (raise precision) year month day)
      (isInt precision (Fields.whole ⟨year, month, day⟩) = true ∧ ¬ 12 ∣ month ∧ isInt64 (Fields.time ⟨year, month, day⟩) = true)
      (Fields.time ⟨year, month, day⟩) := by
  have hdate : Gives (raise precision (.int64 (Fields.time ⟨year, month, day⟩)) >>= fun _ => pure (Fields.time ⟨year, month, day⟩))
      (Demand.holds precision (.int64 (Fields.time ⟨year, month, day⟩)) = true ∧ True) (Fields.time ⟨year, month, day⟩) :=
    (gives_need _).bind fun _ => gives_pure _
  refine ((gives_need (.int (year + month / 12))).bind fun _ => (gives_need (.month (month % 12))).bind fun _ => hdate).of_iff ?_
  have hmonth : Demand.holds precision (.month (month % 12)) = true ↔ ¬ 12 ∣ month := by
    show decide (month % 12 ≠ 0) = true ↔ _
    rw [decide_eq_true_iff]
    omega
  rw [hmonth]
  show (isInt precision _ = true ∧ _ ∧ isInt64 _ = true ∧ True) ↔ _
  rw [and_true]
  rfl

theorem parseDate_gives (s : List Char) : Gives (parseDate (raise precision) s) (DateFits precision s) (dateOf s) := by
  have hfits : DateFits precision s ↔ Small precision s ∧ (∀ y s₁, count s = some (y, '-' :: s₁) → Small precision s₁ ∧
      ∀ m s₂, count s₁ = some (m, '-' :: s₂) → Small precision s₂) ∧ ∀ f rest, dateFields s = some (f, rest) →
        isInt precision f.whole = true ∧ ¬ 12 ∣ f.month ∧ isInt64 f.time = true := by
    constructor
    · intro h
      exact ⟨h.year, fun y s₁ hy => ⟨h.month y s₁ hy, fun m s₂ hm => h.day y s₁ m s₂ hy hm⟩, h.whole⟩
    · rintro ⟨hyear, hrest, hwhole⟩
      exact ⟨hyear, fun y s₁ hy => (hrest y s₁ hy).1, fun y s₁ m s₂ hy hm => (hrest y s₁ hy).2 m s₂ hm, hwhole⟩
  rw [hfits]
  refine (readPosInt_gives precision s).bind fun _ => ?_
  unfold dateOf dateFields
  rcases count s with _ | ⟨year, s₁⟩
  · exact gives_done _ ⟨(fun _ _ h => nomatch h), fun _ _ h => nomatch h⟩
  dsimp only [Option.bind_some]
  split
  next s₁ =>
    have hafter : after '-' ('-' :: s₁) = some s₁ := after_some.mpr rfl
    rw [hafter, Option.bind_some]
    refine ((readPosInt_gives precision s₁).bind (q := (∀ m s₂, count s₁ = some (m, '-' :: s₂) → Small precision s₂) ∧
      ∀ f rest, ((count s₁).bind fun p => (after '-' p.2).bind fun s => (count s).map fun d =>
        ((⟨year, p.1, d.1⟩ : Fields), d.2)) = some (f, rest) →
          isInt precision f.whole = true ∧ ¬ 12 ∣ f.month ∧ isInt64 f.time = true) fun _ => ?_).of_iff ?_
    · rcases hm : count s₁ with _ | ⟨month, s₂⟩
      · exact gives_done _ ⟨(fun _ _ h => nomatch h), fun _ _ h => nomatch h⟩
      dsimp only [Option.bind_some]
      split
      next s₂ =>
        have hafter : after '-' ('-' :: s₂) = some s₂ := after_some.mpr rfl
        rw [hafter, Option.bind_some]
        refine ((readPosInt_gives precision s₂).bind (q := ∀ f rest, ((count s₂).map fun d =>
          ((⟨year, month, d.1⟩ : Fields), d.2)) = some (f, rest) →
            isInt precision f.whole = true ∧ ¬ 12 ∣ f.month ∧ isInt64 f.time = true) fun _ => ?_).of_iff ?_
        · rcases count s₂ with _ | ⟨day, s₃⟩
          · exact gives_done _ fun _ _ h => nomatch h
          · refine Gives.of_iff (Gives.bind (convertDate_gives precision year month day (count_nonneg hm)) fun _ => gives_pure _) ?_
            rw [and_true]
            constructor
            · intro h f rest hf
              cases hf
              exact h
            · intro h
              exact h _ _ rfl
        · refine and_congr_left' ⟨fun h m s hs => ?_, fun h => h _ _ rfl⟩
          cases hs
          exact h
      next hne =>
        rw [after_none hne]
        refine gives_done _ ⟨fun m s hs => ?_, fun _ _ h => nomatch h⟩
        cases hs
        exact (hne _ rfl).elim
    · constructor
      · rintro ⟨h1, h2, h3⟩
        refine ⟨fun y s hs => ?_, h3⟩
        cases hs
        exact ⟨h1, h2⟩
      · rintro ⟨h12, h3⟩
        exact ⟨(h12 _ _ rfl).1, (h12 _ _ rfl).2, h3⟩
  next hne =>
    rw [after_none hne]
    refine gives_done _ ⟨fun y s hs => ?_, fun _ _ h => nomatch h⟩
    cases hs
    exact (hne _ rfl).elim

theorem add_gives (unit time : Int) (s : List Char) : Gives (add (raise precision) unit time s) (UnitFits precision unit time s)
    ((count s).map fun (x, s) => (time + x * unit, s)) := by
  refine (readPosInt_gives precision s).bind fun _ => ?_
  rcases count s with _ | ⟨x, rest⟩
  · exact gives_done _ fun _ _ h => nomatch h
  · refine Gives.of_iff (Gives.bind (gives_need _) fun _ => Gives.bind (gives_need _) fun _ => gives_pure _) ?_
    constructor
    · rintro ⟨h1, h2, -⟩ x' rest' hx
      cases hx
      exact ⟨h1, h2⟩
    · intro h
      exact ⟨(h _ _ rfl).1, (h _ _ rfl).2, trivial⟩

/-! ### Clocks -/

theorem isInt64_between {a b c : Int} (ha : isInt64 a = true) (hc : isInt64 c = true) (hab : a ≤ b) (hbc : b ≤ c) : isInt64 b = true := by
  rw [isInt64_iff] at *
  omega

theorem fraction_nonneg (s : List Char) : ∀ scale : Int, 0 ≤ scale → 0 ≤ fraction scale s := by
  induction s with
  | nil => exact fun _ _ => Int.le_refl 0
  | cons c s ih =>
    intro scale hscale
    unfold fraction
    split
    · have hrest := ih (scale / 10) (by omega)
      have hone : 0 ≤ (ord c : Int) * scale := Int.mul_nonneg (Int.natCast_nonneg _) hscale
      omega
    · exact Int.le_refl 0

/-- The digits only add, so that it is enough if their sum fits. -/
theorem readNano_gives (s : List Char) : ∀ {result scale : Int}, 0 ≤ scale → isInt64 result = true →
    Gives (readNano (raise precision) result scale s) (isInt64 (result + fraction scale s) = true)
      (result + fraction scale s, s.dropWhile isDigit) := by
  induction s with
  | nil =>
    intro result scale _ hresult
    unfold readNano fraction
    rw [Int.add_zero]
    exact gives_done _ hresult
  | cons c s ih =>
    intro result scale hscale hresult
    unfold readNano fraction
    by_cases hc : isDigit c = true
    · rw [if_neg (by rw [hc]; nofun), if_pos hc, List.dropWhile_cons_of_pos hc]
      have hone : 0 ≤ (ord c : Int) * scale := Int.mul_nonneg (Int.natCast_nonneg _) hscale
      have hrest := fraction_nonneg s (scale / 10) (by omega)
      refine Gives.of_iff (Gives.bind (q := isInt64 (result + ((ord c : Int) * scale + fraction (scale / 10) s)) = true) (gives_need _)
        fun hfit => ?_) ?_
      · have hnext := @ih (result + (ord c : Int) * scale) (scale / 10) (by omega) hfit
        rwa [Int.add_assoc] at hnext
      · exact ⟨And.right, fun h => ⟨isInt64_between hresult h (by omega) (by omega), h⟩⟩
    · rw [if_pos (by simpa using hc), if_neg hc, List.dropWhile_cons_of_neg hc, Int.add_zero]
      exact gives_done _ hresult

theorem parseNanoOpt_gives {time : Int} (ht : isInt64 time = true) (s : List Char) :
    Gives (parseNanoOpt (raise precision) time s) (∀ rest, s = '.' :: rest → isInt64 (time + fraction 100000000 rest) = true)
      (some (withFraction time s)) := by
  unfold parseNanoOpt withFraction
  split
  next rest =>
    refine Gives.of_iff (Gives.bind (readNano_gives precision _ (by decide) ht) fun _ => gives_pure _) ?_
    rw [and_true]
    constructor
    · intro h rest' hs
      cases hs
      exact h
    · intro h
      exact h _ rfl
  next hne => exact gives_done _ fun rest hs => (hne _ hs).elim

theorem withFraction_range {time : Int} (ht : isInt64 time = true) {s : List Char}
    (h : ∀ rest, s = '.' :: rest → isInt64 (time + fraction 100000000 rest) = true) :
    time ≤ (withFraction time s).1 ∧ isInt64 (withFraction time s).1 = true := by
  unfold withFraction
  split
  next rest =>
    have hrest := fraction_nonneg rest 100000000 (by decide)
    exact ⟨by dsimp only; omega, h _ rfl⟩
  next => exact ⟨Int.le_refl time, ht⟩

theorem parseSecond_gives (time : Int) (s : List Char) :
    Gives (parseSecond (raise precision) time s) (SecondFits precision time s) (second time s) := by
  refine (add_gives precision oneSecond time s).bind fun hunit => ?_
  unfold second
  rcases hs : count s with _ | ⟨x, rest⟩
  · exact gives_done _ fun _ _ h => nomatch h
  · refine (parseNanoOpt_gives precision (hunit.2 x rest hs).2 rest).of_iff ?_
    constructor
    · intro h x' rest' hx
      cases hx
      exact h _ rfl
    · rintro h rest' rfl
      exact h _ _ rfl

section Unit

variable {precision} {unit time : Int} {s : List Char}

/-- What comes behind the colon. -/
theorem mapPartial_gives {f : Int → List Char → Except Exn (Option (Int × List Char))} {fits : Int → List Char → Prop}
    {value : Int → List Char → Option (Int × List Char)} (hf : ∀ time s, Gives (f time s) (fits time s) (value time s)) :
    Gives (mapPartial f (sep ':' ((count s).map fun (x, s) => (time + x * unit, s))))
      (∀ x rest, count s = some (x, ':' :: rest) → fits (time + x * unit) rest)
      ((count s).bind fun (x, s) => (after ':' s).bind fun s => value (time + x * unit) s) := by
  rcases count s with _ | ⟨x, rest⟩
  · exact gives_done _ fun _ _ h => nomatch h
  · have hsep : sep ':' (some (time + x * unit, rest)) = (after ':' rest).map fun s => (time + x * unit, s) := by
      cases rest with
      | nil => rfl
      | cons c rest =>
        show (if c = ':' then some (time + x * unit, rest) else none) = (if c = ':' then some rest else none).map _
        split <;> rfl
    show Gives (mapPartial f (sep ':' (some (time + x * unit, rest)))) _ ((after ':' rest).bind fun s => value (time + x * unit) s)
    rw [hsep]
    rcases hr : after ':' rest with _ | rest'
    · refine gives_done _ fun x' rest' hx => ?_
      cases hx
      rw [after_some.mpr rfl] at hr
      cases hr
    · obtain rfl := after_some.mp hr
      refine (hf (time + x * unit) rest').of_iff ⟨fun h x' rest'' hx => ?_, fun h => h _ _ rfl⟩
      cases hx
      exact h

/-- A time that is read is not before the one it is added to, and has 64 bits. -/
def Ahead (time : Int) (v : Option (Int × List Char)) : Prop := ∀ t rest, v = some (t, rest) → time ≤ t ∧ isInt64 t = true

theorem second_ahead (h : SecondFits precision time s) : Ahead time (second time s) := by
  intro t rest ht
  unfold second at ht
  obtain ⟨⟨x, r⟩, hx, heq⟩ := Option.map_eq_some_iff.mp ht
  have hrange := withFraction_range (h.1.2 x r hx).2 fun rest hr => h.2 x rest (hr ▸ hx)
  have hpos := count_nonneg hx
  have heq' : withFraction (time + x * oneSecond) r = (t, rest) := heq
  rw [heq'] at hrange
  rw [oneSecond_eq] at hrange
  exact ⟨by omega, hrange.2⟩

theorem bind_ahead {value : Int → List Char → Option (Int × List Char)} (hunit : 0 ≤ unit)
    (h : ∀ x rest, count s = some (x, ':' :: rest) → Ahead (time + x * unit) (value (time + x * unit) rest)) :
    Ahead time ((count s).bind fun (x, s) => (after ':' s).bind fun s => value (time + x * unit) s) := by
  intro t rest ht
  obtain ⟨⟨x, r⟩, hx, ht⟩ := Option.bind_eq_some_iff.mp ht
  obtain ⟨r', hr, ht⟩ := Option.bind_eq_some_iff.mp ht
  obtain rfl := after_some.mp hr
  obtain ⟨hle, hfit⟩ := h x r' hx t rest ht
  have hpos : 0 ≤ x * unit := Int.mul_nonneg (count_nonneg hx) hunit
  exact ⟨by omega, hfit⟩

theorem minute_ahead (h : MinuteFits precision time s) : Ahead time (minute time s) :=
  bind_ahead (by decide) fun x rest hx => second_ahead (h.2 x rest hx)

theorem hour_ahead (h : HourFits precision time s) : Ahead time (hour time s) :=
  bind_ahead (by decide) fun x rest hx => minute_ahead (h.2 x rest hx)

end Unit

theorem parseMinute_gives (time : Int) (s : List Char) :
    Gives (parseMinute (raise precision) time s) (MinuteFits precision time s) (minute time s) :=
  (add_gives precision oneMinute time s).bind fun _ => mapPartial_gives (parseSecond_gives precision)

theorem parseHour_gives (time : Int) (s : List Char) :
    Gives (parseHour (raise precision) time s) (HourFits precision time s) (hour time s) :=
  (add_gives precision oneHour time s).bind fun _ => mapPartial_gives (parseMinute_gives precision)

/-- One form of a text is tried before the others. -/
theorem gives_or {x y : Except Exn (Option (Int × List Char))} {p q : Prop} {v w : Option (Int × List Char)} (hx : Gives x p v)
    (hy : Gives y q w) {f : Option (Int × List Char) → Except Exn (Option (Int × List Char))} (hsome : ∀ r, f (some r) = pure (some r))
    (hnone : f none = y) : Gives (x >>= f) (p ∧ (v = none → q)) (v.or w) := by
  refine hx.bind fun _ => ?_
  cases v with
  | none =>
    rw [hnone]
    exact hy.of_iff ⟨fun h _ => h, fun h => h rfl⟩
  | some r =>
    rw [hsome]
    exact gives_done _ fun h => nomatch h

theorem parseTime_gives (time : Int) (s : List Char) :
    Gives (parseTime (raise precision) time s) (ClockFits precision time s) (clock time s) := by
  unfold clock parseTime
  rw [Option.or_assoc]
  refine gives_or (parseHour_gives precision time s) ?_ (fun _ => rfl) rfl
  exact gives_or (parseMinute_gives precision time s) (parseSecond_gives precision time s) (fun _ => rfl) rfl

theorem clock_ahead {time : Int} {s : List Char} (h : ClockFits precision time s) : Ahead time (clock time s) := by
  unfold clock
  intro t rest ht
  cases hh : hour time s with
  | some r => exact hour_ahead h.1 t rest (by rw [hh] at ht ⊢; exact ht)
  | none =>
    obtain ⟨hm, hs⟩ := h.2 hh
    rw [hh, Option.none_or] at ht
    cases hmin : minute time s with
    | some r => exact minute_ahead hm t rest (by rw [hmin] at ht ⊢; exact ht)
    | none =>
      rw [hmin, Option.none_or] at ht
      exact second_ahead (hs hmin) t rest ht

theorem parseUnsignedRelative_gives (s : List Char) :
    Gives (parseUnsignedRelative (raise precision) s) (RelativeFits precision s) ((days s).or (clock 0 s)) := by
  refine (readPosInt_gives precision s).bind fun _ => ?_
  unfold days
  rcases count s with _ | ⟨x, r⟩
  · exact (parseTime_gives precision 0 s).of_iff ⟨fun h => ⟨(fun _ _ h => nomatch h), fun _ => h⟩, fun h => h.2 rfl⟩
  dsimp only [Option.bind_some]
  split
  next r =>
    have hafter : after ' ' (' ' :: r) = some r := after_some.mpr rfl
    rw [hafter, Option.bind_some]
    refine Gives.of_iff (Gives.bind (gives_need _) fun _ => gives_or (parseHour_gives precision (x * oneDay) r)
      (parseTime_gives precision 0 s) (fun _ => rfl) rfl) ?_
    constructor
    · rintro ⟨hfit, hhour, hclock⟩
      refine ⟨fun x' rest hx => ?_, hclock⟩
      cases hx
      exact ⟨hfit, hhour⟩
    · rintro ⟨hboth, hclock⟩
      exact ⟨(hboth _ _ rfl).1, (hboth _ _ rfl).2, hclock⟩
  next hne =>
    rw [after_none hne]
    refine (parseTime_gives precision 0 s).of_iff ⟨fun h => ⟨fun x' rest hx => ?_, fun _ => h⟩, fun h => h.2 rfl⟩
    cases hx
    exact (hne _ rfl).elim

theorem relative_ahead {s : List Char} (h : RelativeFits precision s) : Ahead 0 ((days s).or (clock 0 s)) := by
  intro t rest ht
  cases hd : days s with
  | none =>
    rw [hd, Option.none_or] at ht
    exact clock_ahead precision (h.2.2 hd) t rest ht
  | some r =>
    rw [hd, Option.some_or] at ht
    unfold days at hd
    obtain ⟨⟨x, r₁⟩, hx, hd⟩ := Option.bind_eq_some_iff.mp hd
    obtain ⟨r₂, hr, hd⟩ := Option.bind_eq_some_iff.mp hd
    obtain rfl := after_some.mp hr
    obtain ⟨hle, hfit⟩ := hour_ahead (h.2.1 x r₂ hx).2 t rest (hd.trans ht)
    have hpos : 0 ≤ x * oneDay := Int.mul_nonneg (count_nonneg hx) (by decide)
    exact ⟨by omega, hfit⟩

theorem parseRelative_gives (s : List Char) :
    Gives (parseRelative (raise precision) s) (RelativeFits precision ((after '~' s).getD s)) (relative s) := by
  unfold parseRelative relative
  split
  next s =>
    have hafter : after '~' ('~' :: s) = some s := after_some.mpr rfl
    rw [hafter]
    refine Gives.of_iff (Gives.bind (q := True) (parseUnsignedRelative_gives precision s) fun hfit => ?_) (and_iff_left trivial)
    rcases hv : (days s).or (clock 0 s) with _ | ⟨t, rest⟩
    · exact gives_pure _
    · obtain ⟨h0, hint⟩ := relative_ahead precision hfit t rest hv
      -- the number below zero fits as well
      have hneg : isInt64 (-t) = true := by
        rw [isInt64_iff] at *
        omega
      exact Gives.of_iff (Gives.bind (gives_need _) fun _ => gives_pure _) (iff_of_true ⟨hneg, trivial⟩ trivial)
  next hne =>
    rw [after_none hne]
    exact parseUnsignedRelative_gives precision s

theorem scan_gives (s : List Char) : Gives (scan (raise precision) s) (Fits precision s)
    (match dateOf s with
      | none => relative s
      | some (date, rest) => ((after ' ' rest).bind (clock date)).or (some (date, rest))) := by
  refine (parseDate_gives precision s).bind fun _ => ?_
  rcases dateOf s with _ | ⟨date, rest⟩
  · exact (parseRelative_gives precision s).of_iff ⟨fun h => ⟨(fun _ _ h => nomatch h), fun _ => h⟩, fun h => h.2 rfl⟩
  dsimp only
  split
  next rest =>
    have hafter : after ' ' (' ' :: rest) = some rest := after_some.mpr rfl
    rw [hafter, Option.bind_some]
    refine Gives.of_iff (Gives.bind (q := True) (parseTime_gives precision date rest) fun _ => ?_) ?_
    · cases clock date rest with
      | none => exact gives_pure _
      | some r => exact gives_pure _
    · constructor
      · rintro ⟨h, -⟩
        refine ⟨fun date' rest' hd => ?_, fun h => nomatch h⟩
        cases hd
        exact h
      · rintro ⟨h, -⟩
        exact ⟨h _ _ rfl, trivial⟩
  next hne =>
    rw [after_none hne]
    refine gives_done _ ⟨fun date' rest' hd => ?_, fun h => nomatch h⟩
    cases hd
    exact (hne _ rfl).elim

theorem fromString_iff (s : List Char) : Ok (fromString precision s) ↔ Fits precision s := by
  unfold fromString
  rw [ok_bind_pure]
  exact (scan_gives precision s).iff

/-- Where a time comes back from its text, and a string raises nothing. -/
theorem text_iff : (∀ t : T, RoundTrips precision t ↔ Writable t) ∧ ∀ s, Ok (fromString precision s) ↔ Fits precision s :=
  ⟨roundTrips_iff precision, fromString_iff precision⟩

/-- The first of December 1970. -/
theorem december_raises : ¬ ((∀ t : T, RoundTrips .bits32 t) ∧ ∀ s, Ok (fromString .bits32 s)) := by
  rintro ⟨hround, -⟩
  have hmonth : month (dayOf (334 * oneDay)) = 12 := by decide
  have hfit : isInt64 (334 * oneDay) = true := by decide
  have hwritable := (roundTrips_iff .bits32 ⟨334 * oneDay, hfit⟩).mp (hround ⟨334 * oneDay, hfit⟩)
  rcases hwritable with ⟨hlt, -⟩ | ⟨hne, -⟩
  · exact absurd hlt (by decide : ¬ 334 * oneDay < oneDay)
  · exact hne hmonth

end BubbleStorm.System.TimeText
