import Treena.Civil.Order
import Treena.Diary.Walk

/-! # The dates of a walk

The buttons pass from day to day in strings of two forms: eight characters, with a day of
two places, and seven characters, with a day of one place, which come up past the end of a
month. Each press is computed once for every form.
-/

namespace Treena.Diary

open Swift Decimal Civil

def form (w y m d : ℕ) : Key := padded 4 y ++ padded 2 m ++ padded w d

theorem yyyyMMdd_eq_form (d : Day) : yyyyMMdd d = form 2 d.year d.month d.day := rfl

theorem le_length_form (w y m d : ℕ) : 6 + w ≤ (form w y m d).length := by
  have hy := le_length_padded (w := 4) (n := y)
  have hm := le_length_padded (w := 2) (n := m)
  have hd := le_length_padded (w := w) (n := d)
  simp only [form, List.length_append]
  omega

/-- The last day of a month that next leads to: February is left after a 30th day only. -/
def lastShown (m : ℕ) : ℕ := if m = 2 then 30 else daysIn 1 m

variable {w y m d : ℕ}

theorem length_form_one (hy : y < 10000) (hm : m < 100) (hd : d < 10) :
    (form 1 y m d).length = 7 := by
  simp only [form, List.length_append,
    length_padded (w := 4) (by decide) (show y < 10 ^ 4 by omega),
    length_padded (w := 2) (by decide) (show m < 10 ^ 2 by omega),
    length_padded (w := 1) (by decide) (show d < 10 ^ 1 by omega)]

theorem day_eq_of_form_eq {y' m' d' : ℕ} (hd : d < 100) (hd' : d' < 100)
    (h : form 2 y m d = form 2 y' m' d') : d = d' := by
  have hl : (padded 2 d).length = (padded 2 d').length := by
    rw [length_padded (by decide) (by omega), length_padded (by decide) (by omega)]
  exact padded_injective 2 (List.append_inj' h hl).2

theorem daysIn_le_lastShown (y m : ℕ) : daysIn y m ≤ lastShown m := by
  unfold lastShown
  split_ifs with h
  · subst h
    simp only [daysIn]
    split <;> decide
  · unfold daysIn
    split <;> first | exact le_rfl | exact absurd rfl h

theorem assemble_short (hy : 1000 ≤ y) (hm : m < 100) (hd : d < 10) :
    Parts.assemble ⟨y, m, d⟩ = form 1 y m d := by
  simp only [Parts.assemble, description_month hm, form]
  rw [description_natCast, description_natCast, padded_eq_toDigits (w := 3) hy]
  simp [padded, Nat.toDigits_of_lt_base hd]

theorem borrow_of_pos {p : Parts} (h : 1 ≤ p.day) : borrow p = some p := if_neg (by omega)

theorem monthDatesAt_month (h : 1 ≤ m) (h' : m ≤ 12) :
    monthDatesAt ((m : ℤ) - 1) = some (daysIn 1 m : ℤ) := by
  interval_cases m <;> rfl

theorem lastShown_le (m : ℕ) : lastShown m ≤ 31 := by
  unfold lastShown
  split_ifs
  · decide
  · exact daysIn_le 1 m

theorem le_lastShown (m : ℕ) : 30 ≤ lastShown m := by
  unfold lastShown
  split_ifs with h
  · exact le_rfl
  · unfold daysIn
    split <;> first | exact absurd rfl h | decide

section Carry

/-- Past the last day shown, a month is carried. -/
theorem carry_lastShown (hm : 1 ≤ m) (hm' : m ≤ 12) :
    carry ⟨y, m, (lastShown m + 1 : ℕ)⟩ = ⟨y, (m + 1 : ℕ), (1 : ℕ)⟩ := by
  interval_cases m <;> simp [carry, lastShown, daysIn]

theorem carry_31 (hm : 1 ≤ m) (hm' : m ≤ 12) (hd : 31 ≤ lastShown m) :
    carry ⟨y, m, (31 : ℕ)⟩ = ⟨y, m, (31 : ℕ)⟩ := by
  interval_cases m <;> first | (simp [carry]; done) | (simp [lastShown, daysIn] at hd)

theorem borrow_carry_zero (hm : 1 ≤ m) (hm' : m ≤ 12) :
    borrow (carry ⟨y, (m + 1 : ℕ), (0 : ℕ)⟩) = some ⟨y, m, daysIn 1 m⟩ := by
  have hne : m ≠ 0 := by omega
  have ht := monthDatesAt_month hm hm'
  simp [carry, borrow, hne, ht]

/-- There is no month before the 14th in the table. -/
theorem borrow_carry_fourteen : borrow (carry ⟨y, (14 : ℕ), (0 : ℕ)⟩) = none := rfl

end Carry

section Steps

variable (hy : 1000 ≤ y) (hy' : y < 10000)
include hy hy'

theorem stepDate_zero {step : ℤ} (hw : 0 < w) (hw' : w ≤ 2) {n : ℕ} (hm : 1 ≤ m)
    (hm' : m ≤ 12) (hn : n < 100) (hd : d < 10 ^ w)
    (hs : (((y * 100 + n) * 10 ^ w + d : ℕ) : ℤ) + step = ((y * 100 + (m + 1)) * 10 ^ w : ℕ)) :
    stepDate step (form w y n d) = some (form 2 y m (daysIn 1 m)) := by
  have h28 := le_daysIn 1 m
  rw [form, stepDate_numeral (k := 0) (n := m + 1) hw hw' hy hy' hn (by omega) hd (by positivity)
    (by simpa using hs), if_neg (by omega), borrow_carry_zero hm hm', Option.map_some,
    assemble_natCast hy (by omega) (by omega), form]

theorem afterDate_full (hm : 1 ≤ m) (hm' : m ≤ 12) (hd : d < lastShown m) :
    afterDate (form 2 y m d) = some (form 2 y m (d + 1)) := by
  have h31 := lastShown_le m
  rw [afterDate, form, stepDate_numeral (k := d + 1) (n := m) (by decide) le_rfl hy hy' (by omega)
    (by omega) (by omega) (by omega) (by push_cast; ring)]
  split_ifs with hr
  · rfl
  · -- only day 31 reaches the repairs, and none of them applies to it
    obtain rfl : d = 30 := by omega
    rw [carry_31 hm hm' hd, borrow_of_pos (by simp), Option.map_some,
      assemble_natCast hy (by omega) (by decide), form]

theorem afterDate_full_last (hm : 1 ≤ m) (hm' : m ≤ 12) :
    afterDate (form 2 y m (lastShown m)) = some (form 1 y (m + 1) 1) := by
  have h31 := lastShown_le m
  have h30 := le_lastShown m
  rw [afterDate, form, stepDate_numeral (k := lastShown m + 1) (n := m) (by decide) le_rfl hy hy'
    (by omega) (by omega) (by omega) (by omega) (by push_cast; ring), if_neg (by omega),
    carry_lastShown hm hm', borrow_of_pos (by simp), Option.map_some,
    assemble_short hy (by omega) (by decide)]

theorem afterDate_short (hm : m ≤ 13) (hd : d < 9) :
    afterDate (form 1 y m d) = some (form 1 y m (d + 1)) := by
  rw [afterDate, form, stepDate_numeral (k := d + 1) (n := m) (by decide) (by decide) hy hy'
    (by omega) (by omega) (by omega) (by omega) (by push_cast; ring), if_pos (by omega), form]

/-- The 10th day of the short form reads as day 0 of the next month. -/
theorem afterDate_short_nine (hm : 1 ≤ m) (hm' : m ≤ 12) :
    afterDate (form 1 y m 9) = some (form 2 y m (daysIn 1 m)) :=
  stepDate_zero hy hy' (by decide) (by decide) hm hm' (by omega) (by decide)
    (by push_cast; ring)

/-- After the month of the short form that is no month, the table has no entry. -/
theorem afterDate_thirteen_nine : afterDate (form 1 y 13 9) = none := by
  rw [afterDate, form, stepDate_numeral (k := 0) (n := 14) (by decide) (by decide) hy hy'
    (by decide) (by decide) (by decide) (by decide) (by push_cast; ring), if_neg (by decide),
    borrow_carry_fourteen, Option.map_none]

theorem beforeDate_of_pos (hw : 0 < w) (hw' : w ≤ 2) (hm : m < 100) (hd : 1 ≤ d) (hd' : d ≤ 30)
    (hd'' : d + 1 < 10 ^ w) : beforeDate (form w y m (d + 1)) = some (form w y m d) := by
  rw [beforeDate, form, stepDate_numeral (k := d) (n := m) hw hw' hy hy' hm hm hd'' (by omega)
    (by push_cast; ring), if_pos ⟨hd, hd'⟩, form]

theorem beforeDate_first (hw : 0 < w) (hw' : w ≤ 2) (hm : 1 ≤ m) (hm' : m ≤ 12) :
    beforeDate (form w y (m + 1) 1) = some (form 2 y m (daysIn 1 m)) :=
  stepDate_zero hy hy' hw hw' hm hm' (by omega) (Nat.one_lt_pow hw.ne' (by decide))
    (by push_cast; ring)

end Steps

theorem beforeDate_newYear_form (hy : 1000 ≤ y) (hy' : y + 1 < 10000) :
    beforeDate (form 2 (y + 1) 1 1) = some (form 2 y 12 31) := by
  have hb : borrow (carry ⟨(y + 1 : ℕ), (1 : ℕ), (0 : ℕ)⟩) = some ⟨y, (12 : ℕ), (31 : ℕ)⟩ := by
    simp [carry, borrow, monthDatesAt, monthDates]
  rw [beforeDate, form, stepDate_numeral (k := 0) (n := 1) (by decide) le_rfl (by omega) hy'
    (by decide) (by decide) (by decide) (by decide) (by push_cast; ring), if_neg (by decide), hb,
    Option.map_some, assemble_natCast hy (by decide) (by decide), form]

/-! ## The days next to a day -/

section Neighbours

variable {d : Day}

theorem afterDate_next (hd : FourDigit d) (h : ¬ d.IsLast) :
    afterDate (yyyyMMdd d) = some (yyyyMMdd d.next) := by
  obtain ⟨hy, hm, hday⟩ := Day.next_of_not_isLast h
  rw [yyyyMMdd_eq_form, yyyyMMdd_eq_form, hy, hm, hday]
  exact afterDate_full hd.1 hd.2 d.month_pos d.month_le
    ((Day.day_lt_of_not_isLast h).trans_le (daysIn_le_lastShown _ _))

theorem beforeDate_previous_of_two_le (hd : FourDigit d) (h : 2 ≤ d.day) :
    beforeDate (yyyyMMdd d) = some (yyyyMMdd d.previous) := by
  obtain ⟨hy, hm, hday⟩ := Day.previous_of_two_le h
  have h31 := d.day_le_31
  have h12 := d.month_le
  rw [yyyyMMdd_eq_form, yyyyMMdd_eq_form, hy, hm, ← hday]
  exact beforeDate_of_pos hd.1 hd.2 (by decide) le_rfl (by omega) d.previous.day_pos (by omega)
    (by omega)

theorem beforeDate_previous_of_newYear (hd : FourDigit d) (h : d.day = 1) (hm : d.month = 1)
    (hy : 1000 < d.year) : beforeDate (yyyyMMdd d) = some (yyyyMMdd d.previous) := by
  obtain ⟨hyear, hmonth, hday⟩ := Day.previous_of_newYear h hm (by omega)
  have hhi := hd.2
  rw [yyyyMMdd_eq_form, yyyyMMdd_eq_form, h, hm, hmonth, hday, ← hyear]
  exact beforeDate_newYear_form (by omega) (by omega)

theorem beforeDate_yyyyMMdd_first {m : ℕ} (hd : FourDigit d) (h : d.day = 1)
    (hm : d.month = m + 1) (hm' : 1 ≤ m) :
    beforeDate (yyyyMMdd d) = some (form 2 d.year m (daysIn 1 m)) := by
  have hm12 := d.month_le
  rw [yyyyMMdd_eq_form, h, hm]
  exact beforeDate_first hd.1 hd.2 (by decide) le_rfl hm' (by omega)

theorem afterDate_of_not_isLast (hd : FourDigit d) (h : ¬ d.IsLast) :
    ∃ d' : Day, afterDate (yyyyMMdd d) = some (yyyyMMdd d') ∧
      d'.year = d.year ∧ d'.month = d.month ∧ d'.day = d.day + 1 :=
  ⟨d.next, afterDate_next hd h, Day.next_of_not_isLast h⟩

theorem beforeDate_of_two_le (hd : FourDigit d) (h : 2 ≤ d.day) :
    ∃ d' : Day, beforeDate (yyyyMMdd d) = some (yyyyMMdd d') ∧
      d'.year = d.year ∧ d'.month = d.month ∧ d'.day + 1 = d.day :=
  ⟨d.previous, beforeDate_previous_of_two_le hd h, Day.previous_of_two_le h⟩

theorem beforeDate_of_first {m : ℕ} (hd : FourDigit d) (h : d.day = 1) (hm : d.month = m + 1)
    (hm' : 1 ≤ m) :
    ∃ d' : Day, beforeDate (yyyyMMdd d) = some (yyyyMMdd d') ∧
      d'.year = d.year ∧ d'.month = m ∧ d'.day = daysIn 1 m := by
  have hm12 := d.month_le
  have h28 := le_daysIn 1 m
  refine ⟨⟨d.year, m, daysIn 1 m, d.year_pos, hm', by omega, by omega, daysIn_common_le _ _⟩,
    ?_, rfl, rfl, rfl⟩
  exact beforeDate_yyyyMMdd_first hd h hm hm'

theorem beforeDate_of_newYear (hd : FourDigit d) (h : d.day = 1) (hm : d.month = 1)
    (hy : 1000 < d.year) :
    ∃ d' : Day, beforeDate (yyyyMMdd d) = some (yyyyMMdd d') ∧
      d'.year + 1 = d.year ∧ d'.month = 12 ∧ d'.day = 31 :=
  ⟨d.previous, beforeDate_previous_of_newYear hd h hm hy,
    Day.previous_of_newYear h hm (by omega)⟩

theorem beforeDate_fourDigit (hd : FourDigit d)
    (hne : ¬ (d.year = 1000 ∧ d.month = 1 ∧ d.day = 1)) :
    ∃ d' : Day, FourDigit d' ∧ beforeDate (yyyyMMdd d) = some (yyyyMMdd d') := by
  obtain ⟨hlo, hhi⟩ := hd
  have hm := d.month_pos
  have hday := d.day_pos
  rcases Nat.lt_or_ge 1 d.day with h | h
  · obtain ⟨d', he, hy, -, -⟩ := beforeDate_of_two_le ⟨hlo, hhi⟩ h
    exact ⟨d', ⟨by omega, by omega⟩, he⟩
  · rcases Nat.lt_or_ge 1 d.month with h' | h'
    · obtain ⟨d', he, hy, -, -⟩ := beforeDate_of_first (m := d.month - 1) ⟨hlo, hhi⟩ (by omega)
        (by omega) (by omega)
      exact ⟨d', ⟨by omega, by omega⟩, he⟩
    · obtain ⟨d', he, hy, -, -⟩ := beforeDate_of_newYear ⟨hlo, hhi⟩ (by omega) (by omega)
        (by omega)
      exact ⟨d', ⟨by omega, by omega⟩, he⟩

/-- A new year's day in the middle of a walk: the borrow of a month and of a year. -/
example : beforeDate "20210101".toList = some "20201231".toList := by decide

end Neighbours

end Treena.Diary
