import Mathlib.Data.Prod.Lex
import Mathlib.Order.SuccPred.Basic
import Treena.Civil.Basic

/-! # The days in their order

Days are ordered by year, month and day of the month. Every day has a next one, and every
day but the first a previous one.
-/

namespace Treena.Civil

namespace Day

variable {d e : Day}

def toTriple (d : Day) : ℕ ×ₗ ℕ ×ₗ ℕ := toLex (d.year, toLex (d.month, d.day))

theorem toTriple_injective : Function.Injective toTriple := by
  intro d e h
  obtain ⟨hy, h⟩ := Prod.mk.inj (toLex.injective h)
  obtain ⟨hm, hd⟩ := Prod.mk.inj (toLex.injective h)
  exact Day.ext hy hm hd

instance : LinearOrder Day := LinearOrder.lift' toTriple toTriple_injective

theorem lt_iff : d < e ↔ d.year < e.year ∨ d.year = e.year ∧
    (d.month < e.month ∨ d.month = e.month ∧ d.day < e.day) := by
  change toTriple d < toTriple e ↔ _
  simp only [toTriple, Prod.Lex.toLex_lt_toLex]

theorem le_iff : d ≤ e ↔ d.year < e.year ∨ d.year = e.year ∧
    (d.month < e.month ∨ d.month = e.month ∧ d.day ≤ e.day) := by
  change toTriple d ≤ toTriple e ↔ _
  simp only [toTriple, Prod.Lex.toLex_le_toLex]

theorem one_le_twelve : 1 ≤ 12 := by decide

def next (d : Day) : Day :=
  if h : d.day < daysIn d.year d.month then
    { d with day := d.day + 1, day_pos := Nat.succ_pos _, day_le := h }
  else if h : d.month < 12 then
    ⟨d.year, d.month + 1, 1, d.year_pos, Nat.succ_pos _, h, le_rfl,
      le_trans (by decide) (le_daysIn _ _)⟩
  else ⟨d.year + 1, 1, 1, Nat.succ_pos _, le_rfl, one_le_twelve, le_rfl,
    le_trans (by decide) (le_daysIn _ _)⟩

/-- The day before; the first day of all is its own. -/
def previous (d : Day) : Day :=
  if h : 1 < d.day then
    { d with
      day := d.day - 1, day_pos := Nat.le_sub_one_of_lt h
      day_le := (Nat.sub_le _ _).trans d.day_le }
  else if h : 1 < d.month then
    ⟨d.year, d.month - 1, daysIn d.year (d.month - 1), d.year_pos, Nat.le_sub_one_of_lt h,
      (Nat.sub_le _ _).trans d.month_le, le_trans (by decide) (le_daysIn _ _), le_rfl⟩
  else if h : 1 < d.year then
    ⟨d.year - 1, 12, 31, Nat.le_sub_one_of_lt h, one_le_twelve, le_rfl, by decide, le_rfl⟩
  else d

theorem next_of_not_isLast (h : ¬ d.IsLast) :
    d.next.year = d.year ∧ d.next.month = d.month ∧ d.next.day = d.day + 1 := by
  simp [next, day_lt_of_not_isLast h]

theorem next_of_isLast (h : d.IsLast) : d.next.day = 1 := by
  unfold next
  rw [dif_neg (by rw [IsLast] at h; omega)]
  split_ifs <;> rfl

theorem previous_of_two_le (h : 2 ≤ d.day) : d.previous.year = d.year ∧
    d.previous.month = d.month ∧ d.previous.day + 1 = d.day := by
  rw [previous, dif_pos (by omega)]
  exact ⟨rfl, rfl, Nat.sub_add_cancel (by omega)⟩

theorem previous_of_first (h : d.day = 1) (hm : 1 < d.month) : d.previous.year = d.year ∧
    d.previous.month + 1 = d.month ∧ d.previous.day = daysIn d.year (d.month - 1) := by
  rw [previous, dif_neg (by omega), dif_pos hm]
  exact ⟨rfl, Nat.sub_add_cancel (by omega), rfl⟩

theorem previous_of_newYear (h : d.day = 1) (hm : d.month = 1) (hy : 1 < d.year) :
    d.previous.year + 1 = d.year ∧ d.previous.month = 12 ∧ d.previous.day = 31 := by
  rw [previous, dif_neg (by omega), dif_neg (by omega), dif_pos hy]
  exact ⟨Nat.sub_add_cancel (by omega), rfl, rfl⟩

theorem day_le_of_eq (hy : d.year = e.year) (hm : d.month = e.month) :
    d.day ≤ daysIn e.year e.month := hy ▸ hm ▸ d.day_le

theorem next_le_iff : d.next ≤ e ↔ d < e := by
  have hday := d.day_le
  have hmonth := d.month_le
  have hpos := e.day_pos
  have hmpos := e.month_pos
  have hmle := e.month_le
  have hle : e.year = d.year → e.month = d.month → e.day ≤ daysIn d.year d.month := day_le_of_eq
  rw [le_iff, lt_iff]
  unfold next
  split_ifs
  · dsimp only; omega
  · dsimp only; omega
  · dsimp only; omega

instance : SuccOrder Day := SuccOrder.ofSuccLeIff next next_le_iff

theorem previous_le (d : Day) : d.previous ≤ d := by
  have hday := d.day_pos
  have hmonth := d.month_pos
  rw [le_iff]
  unfold previous
  split_ifs
  · dsimp only; omega
  · dsimp only; omega
  · dsimp only; omega
  · omega

theorem isMin_of_le_previous (h : d ≤ d.previous) : IsMin d := by
  have hday := d.day_pos
  have hmonth := d.month_pos
  have hyear := d.year_pos
  rw [le_iff] at h
  unfold previous at h
  split_ifs at h with h₁ h₂ h₃
  · dsimp only at h; omega
  · dsimp only at h; omega
  · dsimp only at h; omega
  · intro e _
    have := e.day_pos
    have := e.month_pos
    have := e.year_pos
    rw [le_iff]
    omega

theorem le_previous_of_lt (h : d < e) : d ≤ e.previous := by
  have hday := d.day_le
  have hpos := d.day_pos
  have hmonth := d.month_le
  have hmpos := d.month_pos
  have hypos := d.year_pos
  have hle : d.year = e.year → d.month = e.month - 1 → d.day ≤ daysIn e.year (e.month - 1) :=
    fun hy hm => hy ▸ hm ▸ d.day_le
  have h31 := d.day_le_31
  rw [lt_iff] at h
  rw [le_iff]
  unfold previous
  split_ifs
  · dsimp only; omega
  · dsimp only; omega
  · dsimp only; omega
  · omega

instance : PredOrder Day where
  pred := previous
  pred_le := previous_le
  min_of_le_pred := isMin_of_le_previous
  le_pred_of_lt := le_previous_of_lt

@[simp] theorem succ_eq_next (d : Day) : Order.succ d = d.next := rfl

@[simp] theorem pred_eq_previous (d : Day) : Order.pred d = d.previous := rfl

end Day

end Treena.Civil
