import Mathlib.Order.Nat

/-! # Days of the Gregorian calendar

A day of the common era carries the proof that its month and its number in the month exist.
-/

namespace Treena.Civil

def isLeap (year : ℕ) : Bool := year % 4 = 0 ∧ (year % 100 ≠ 0 ∨ year % 400 = 0)

/-- The number of days of a month, counted from January as 1. -/
def daysIn (year : ℕ) : ℕ → ℕ
  | 2 => if isLeap year then 29 else 28
  | 4 => 30
  | 6 => 30
  | 9 => 30
  | 11 => 30
  | _ => 31

@[ext] structure Day where
  year : ℕ
  month : ℕ
  day : ℕ
  year_pos : 1 ≤ year
  month_pos : 1 ≤ month
  month_le : month ≤ 12
  day_pos : 1 ≤ day
  day_le : day ≤ daysIn year month
  deriving DecidableEq

variable {year month : ℕ}

theorem daysIn_le (year month : ℕ) : daysIn year month ≤ 31 := by
  unfold daysIn; split <;> try omega
  split <;> omega

theorem le_daysIn (year month : ℕ) : 28 ≤ daysIn year month := by
  unfold daysIn; split <;> try omega
  split <;> omega

theorem daysIn_two_le (year : ℕ) : daysIn year 2 ≤ 29 := by
  simp only [daysIn]
  split <;> decide

theorem daysIn_eq_common_iff : daysIn year month = daysIn 1 month ↔
    ¬ (month = 2 ∧ isLeap year) := by
  have h₁ : isLeap 1 = false := rfl
  constructor
  · rintro h ⟨rfl, hl⟩
    simp only [daysIn, hl, h₁] at h
    exact absurd h (by decide)
  · intro h
    unfold daysIn
    split
    · rw [h₁, if_neg fun hl => h ⟨rfl, hl⟩]; rfl
    all_goals rfl

theorem daysIn_common_le (year month : ℕ) : daysIn 1 month ≤ daysIn year month := by
  have h : isLeap 1 = false := rfl
  simp only [daysIn, h]
  split <;> simp
  split <;> decide

namespace Day

variable (d : Day)

theorem day_le_31 : d.day ≤ 31 := d.day_le.trans (daysIn_le _ _)

def IsLast : Prop := d.day = daysIn d.year d.month

instance : Decidable d.IsLast := inferInstanceAs (Decidable (_ = _))

theorem day_lt_of_not_isLast {d : Day} (h : ¬ d.IsLast) : d.day < daysIn d.year d.month :=
  lt_of_le_of_ne d.day_le h

end Day

end Treena.Civil
