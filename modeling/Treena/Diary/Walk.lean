import Mathlib.Tactic.IntervalCases
import Treena.Civil.Basic
import Treena.Swift.Basic

/-! # Day keys and the walk from day to day

An entry is stored under the `yyyyMMdd` string of its day. The diary screen reaches the
neighbouring days by adding one to that string read as an integer, or subtracting one,
and repairing the result.
-/

namespace Treena.Diary

open Swift Decimal Civil

/-- A child key of `diary/<uid>`, and any other string of the screens. -/
abbrev Key := List Char

/-- `DateFormatter` with `dateFormat = "yyyyMMdd"`, for the Gregorian calendar and ASCII digits. -/
def yyyyMMdd (d : Day) : Key := padded 4 d.year ++ padded 2 d.month ++ padded 2 d.day

def monthDates : List ℤ := [31, 28, 31, 30, 31, 30, 31, 31, 30, 31, 30, 31]

def monthDatesAt (i : ℤ) : Option ℤ := if 0 ≤ i then monthDates[i.toNat]? else none

/-- A date on its way through `checkCalendarDateException`. -/
structure Parts where
  year : ℤ
  month : ℤ
  day : ℤ
  deriving DecidableEq

/-- The repairs of a day past the end of its month, in the order of the source. -/
def carry (p : Parts) : Parts :=
  let p := if p.month = 2 ∧ p.day > 28 then { p with month := 3, day := 1 } else p
  let p :=
    if p.day = 32 then
      if p.month = 1 ∨ p.month = 3 ∨ p.month = 5 ∨ p.month = 7 ∨ p.month = 8 ∨ p.month = 10 ∨
          p.month = 12 then
        { p with month := p.month + 1, day := 1 }
      else p
    else p
  if p.day = 31 then
    if p.month = 4 ∨ p.month = 6 ∨ p.month = 9 ∨ p.month = 11 then
      let p := { p with month := p.month + 1, day := 1 }
      if p.month = 13 then { p with month := 1, year := p.year + 1 } else p
    else p
  else p

def borrow (p : Parts) : Option Parts :=
  if p.day = 0 then do
    let p := { p with month := p.month - 1 }
    let p := if p.month = 0 then { p with month := 12, year := p.year - 1 } else p
    let day ← monthDatesAt (p.month - 1)
    return { p with day := day }
  else some p

/-- `String(year) + monthString + String(day)`, with only the month filled to two places. -/
def Parts.assemble (p : Parts) : Key :=
  let monthString := description p.month
  let monthString := if p.month < 10 then '0' :: monthString else monthString
  description p.year ++ monthString ++ description p.day

/-- The value of `date` after `checkCalendarDateException(inputDate)`. -/
def checkCalendarDateException (date inputDate : Key) : Option Key := do
  let startDayIdx ← index inputDate 6
  let day ← int? (sliceFrom inputDate startDayIdx)
  let startMonthIdx ← index inputDate 4
  let endMonthIdx ← index inputDate 5
  let month ← (slice inputDate startMonthIdx endMonthIdx).bind int?
  let endYearIdx ← index inputDate 3
  let year ← (sliceTo inputDate endYearIdx).bind int?
  if day ≥ 1 ∧ day ≤ 30 then return date
  let p ← borrow (carry ⟨year, month, day⟩)
  return p.assemble

def setDate (date : Key) : Option (List Char) := do
  let endIdx ← index date 3
  let monthStartIdx ← index date 4
  let monthEndIdx ← index date 5
  let dayStartIdx ← index date 6
  let year ← sliceTo date endIdx
  let month ← slice date monthStartIdx monthEndIdx
  let day := sliceFrom date dayStartIdx
  return year ++ "년 ".toList ++ month ++ "월 ".toList ++ day ++ "일".toList

/-- The date arithmetic shared by the two buttons, which differ in the step. -/
def stepDate (step : ℤ) (date : Key) : Option Key := do
  let n ← int? date
  let beforeDate ← checked (n + step)
  let date := description beforeDate
  checkCalendarDateException date date

/-- The date after `beforeDiaryButtonClicked`. -/
def beforeDate : Key → Option Key := stepDate (-1)

/-- The date after `afterDiaryButtonClicked`. -/
def afterDate : Key → Option Key := stepDate 1

section Numerals

variable {y m d w : ℕ} {date : Key}

theorem toDigits_year_month_day (hw : 0 < w) (hy : 1000 ≤ y) (hm : m < 100) (hd : d < 10 ^ w) :
    Nat.toDigits 10 ((y * 100 + m) * 10 ^ w + d) = padded 4 y ++ padded 2 m ++ padded w d := by
  rw [toDigits_mul_pow_add hw (by omega) hd, padded_eq_toDigits hy]
  congr 1
  exact toDigits_mul_pow_add (w := 2) (by decide) (by omega) hm

theorem description_month (hm : m < 100) :
    (if (m : ℤ) < 10 then '0' :: description m else description m) = padded 2 m := by
  rw [description_natCast]
  split_ifs with h
  · have hm' : m < 10 := by omega
    simp [padded, Nat.toDigits_of_lt_base hm']
  · exact (padded_eq_toDigits (w := 1) (by omega)).symm

theorem assemble_natCast (hy : 1000 ≤ y) (hm : m < 100) (hd : 10 ≤ d) :
    Parts.assemble ⟨y, m, d⟩ = padded 4 y ++ padded 2 m ++ padded 2 d := by
  simp only [Parts.assemble, description_month hm]
  rw [description_natCast, description_natCast, padded_eq_toDigits (w := 3) hy,
    padded_eq_toDigits (w := 1) (n := d) (by omega)]

theorem checkCalendarDateException_parts (hy : y < 10000) (hm : m < 100) (hd : d < 2 ^ 63) :
    checkCalendarDateException date (padded 4 y ++ padded 2 m ++ padded w d) =
      if 1 ≤ d ∧ d ≤ 30 then some date
      else (borrow (carry ⟨y, m, d⟩)).map Parts.assemble := by
  have hly : (padded 4 y).length = 4 := length_padded (by decide) (by omega)
  have hlm : (padded 2 m).length = 2 := length_padded (by decide) (by omega)
  have hl : 6 ≤ (padded 4 y ++ padded 2 m ++ padded w d).length := by
    simp only [List.length_append]; omega
  have hday : sliceFrom (padded 4 y ++ padded 2 m ++ padded w d) 6 = padded w d :=
    sliceFrom_append (by simp [hly, hlm])
  have hmonth : slice (padded 4 y ++ padded 2 m ++ padded w d) 4 5 = some (padded 2 m) :=
    slice_append _ hly (by omega) (by omega)
  have hyear : sliceTo (padded 4 y ++ padded 2 m ++ padded w d) 3 = some (padded 4 y) := by
    rw [List.append_assoc]; exact sliceTo_append _ hly
  have hi {n : ℕ} (hn : n ≤ 6) :
      index (padded 4 y ++ padded 2 m ++ padded w d) n = some n := index_eq_some (hn.trans hl)
  simp only [checkCalendarDateException, hi (n := 6) le_rfl, hi (n := 5) (by decide),
    hi (n := 4) (by decide), hi (n := 3) (by decide), hday, hmonth, hyear, Option.bind_eq_bind,
    Option.bind_some, int?_padded hd, int?_padded (show m < 2 ^ 63 by omega),
    int?_padded (show y < 2 ^ 63 by omega)]
  by_cases h : 1 ≤ d ∧ d ≤ 30
  · rw [if_pos h, if_pos (by omega)]; rfl
  · rw [if_neg h, if_neg (by omega)]
    cases borrow (carry ⟨y, m, d⟩) <;> rfl

/-- A step on the numeral, when the sum reads as a year, a month and a day again. -/
theorem stepDate_numeral {step : ℤ} {n k : ℕ} (hw : 0 < w) (hw' : w ≤ 2) (hy : 1000 ≤ y)
    (hy' : y < 10000) (hm : m < 100) (hn : n < 100) (hd : d < 10 ^ w) (hk : k < 10 ^ w)
    (hs : (((y * 100 + m) * 10 ^ w + d : ℕ) : ℤ) + step = ((y * 100 + n) * 10 ^ w + k : ℕ)) :
    stepDate step (padded 4 y ++ padded 2 m ++ padded w d) =
      if 1 ≤ k ∧ k ≤ 30 then some (padded 4 y ++ padded 2 n ++ padded w k)
      else (borrow (carry ⟨y, n, k⟩)).map Parts.assemble := by
  have hp : 10 ^ w ≤ 100 := Nat.pow_le_pow_right (n := 10) (by decide) hw'
  have hlt : ∀ i j : ℕ, i < 100 → j < 10 ^ w → (y * 100 + i) * 10 ^ w + j < 2 ^ 63 := by
    intro i j hi hj
    have : (y * 100 + i) * 10 ^ w ≤ 1000000 * 100 := Nat.mul_le_mul (by omega) hp
    omega
  simp only [stepDate, ← toDigits_year_month_day hw hy hm hd, Option.bind_eq_bind,
    int?_toDigits (hlt m d hm hd), Option.bind_some, hs, checked_natCast (hlt n k hn hk),
    description_natCast]
  rw [toDigits_year_month_day hw hy hn hk, checkCalendarDateException_parts hy' hn (by omega)]

end Numerals

/-- The days that the calendar shows and the walk is meant for. -/
def FourDigit (d : Day) : Prop := 1000 ≤ d.year ∧ d.year < 10000

/-! ## Keys and days -/

theorem length_yyyyMMdd {d : Day} (hd : d.year < 10000) : (yyyyMMdd d).length = 8 := by
  have := d.month_le
  have := d.day_le_31
  simp only [yyyyMMdd, List.length_append, length_padded (w := 4) (by decide) (by omega),
    length_padded (w := 2) (n := d.month) (by decide) (by omega),
    length_padded (w := 2) (n := d.day) (by decide) (by omega)]

theorem setDate_isSome {date : Key} (h : 6 ≤ date.length) : (setDate date).isSome := by
  have hi {n : ℕ} (hn : n ≤ 6) : index date n = some n := index_eq_some (hn.trans h)
  have h3 : ∃ t, sliceTo date 3 = some t := ⟨_, if_pos (by omega)⟩
  have h5 : ∃ t, slice date 4 5 = some t := ⟨_, if_pos (by omega)⟩
  obtain ⟨y, hy⟩ := h3
  obtain ⟨m, hm⟩ := h5
  simp only [setDate, hi (n := 3) (by decide), hi (n := 4) (by decide), hi (n := 5) (by decide),
    hi (n := 6) le_rfl, hy, hm, Option.bind_eq_bind, Option.bind_some]
  rfl

theorem yyyyMMdd_injective : Function.Injective yyyyMMdd := by
  intro d e h
  have hd := d.month_le
  have hd' := d.day_le_31
  have he := e.month_le
  have he' := e.day_le_31
  have hl {n m : ℕ} (hn : n ≤ 31) (hm : m ≤ 31) : (padded 2 n).length = (padded 2 m).length := by
    rw [length_padded (by decide) (by omega), length_padded (by decide) (by omega)]
  obtain ⟨h, hday⟩ := List.append_inj' h (hl hd' he')
  obtain ⟨hyear, hmonth⟩ := List.append_inj' h (hl (by omega) (by omega))
  apply Day.ext
  · exact padded_injective _ hyear
  · exact padded_injective _ hmonth
  · exact padded_injective _ hday

end Treena.Diary
