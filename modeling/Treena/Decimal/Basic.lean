import Mathlib.Algebra.Order.Ring.Nat
import Mathlib.Tactic.Positivity
import Mathlib.Tactic.Ring

/-! # Decimal numerals

Numerals with a minimal width, as date formatters write them, and the value that a
parser reads back. The numeral of a sum `a * 10 ^ w + b` splits at position `w`.
-/

namespace Treena.Decimal

/-- The decimal numeral of `n`, filled with zeros on the left to `w` characters. -/
def padded (w n : ℕ) : List Char :=
  List.replicate (w - (Nat.toDigits 10 n).length) '0' ++ Nat.toDigits 10 n

/-- The value of a nonempty string of decimal digits. -/
def parse (cs : List Char) : Option ℕ :=
  if cs ≠ [] ∧ cs.all Char.isDigit then some (Nat.ofDigitChars 10 cs 0) else none

variable {w n m a b q r : ℕ}

theorem isDigit_of_mem_padded {c : Char} (h : c ∈ padded w n) : c.isDigit := by
  rcases List.mem_append.mp h with h | h
  · obtain rfl := List.eq_of_mem_replicate h; rfl
  · exact Nat.isDigit_of_mem_toDigits (by decide) (by decide) h

theorem padded_ne_nil : padded w n ≠ [] := by simp [padded]

@[simp] theorem parse_padded : parse (padded w n) = some n := by
  have hall : (padded w n).all Char.isDigit := List.all_eq_true.mpr fun _ => isDigit_of_mem_padded
  rw [parse, if_pos ⟨padded_ne_nil, hall⟩, padded, Nat.ofDigitChars_append,
    Nat.ofDigitChars_replicate_zero, Nat.mul_zero, Nat.ofDigitChars_ten_toDigits]

theorem padded_injective (w : ℕ) : Function.Injective (padded w) := fun n m h => by
  simpa using congrArg parse h

theorem length_padded (hw : 0 < w) (h : n < 10 ^ w) : (padded w n).length = w := by
  have hl := (Nat.length_toDigits_le_iff (by decide : 1 < 10) hw).mpr h
  simp only [padded, List.length_append, List.length_replicate]
  omega

theorem toDigits_injective : Function.Injective (Nat.toDigits 10) := fun n m h => by
  simpa [Nat.ofDigitChars_ten_toDigits] using congrArg (Nat.ofDigitChars 10 · 0) h

theorem append_cons_inj {u v s t : List Char} {c : Char} (hu : ∀ x ∈ u, x.isDigit)
    (hv : ∀ x ∈ v, x.isDigit) (hc : ¬ c.isDigit) (h : u ++ c :: s = v ++ c :: t) :
    u = v ∧ s = t := by
  have huv : u = v := by
    have ht := congrArg (List.takeWhile Char.isDigit) h
    simpa [List.takeWhile_append_of_pos hu, List.takeWhile_append_of_pos hv, hc] using ht
  subst huv
  exact ⟨rfl, (List.cons.inj (List.append_cancel_left h)).2⟩

theorem le_length_padded : w ≤ (padded w n).length := by
  simp only [padded, List.length_append, List.length_replicate]
  omega

theorem padded_eq_toDigits (h : 10 ^ w ≤ n) : padded (w + 1) n = Nat.toDigits 10 n := by
  have hl : w < (Nat.toDigits 10 n).length := by
    rcases Nat.eq_zero_or_pos w with rfl | hw
    · exact Nat.length_toDigits_pos
    · by_contra hn
      exact absurd ((Nat.length_toDigits_le_iff (by decide : 1 < 10) hw).mp (not_lt.mp hn))
        (not_lt.mpr h)
  simp [padded, Nat.sub_eq_zero_of_le hl]

theorem padded_succ (hw : 0 < w) (hr : r < 10) :
    padded (w + 1) (10 * q + r) = padded w q ++ Nat.toDigits 10 r := by
  rcases Nat.eq_zero_or_pos q with rfl | hq
  · obtain ⟨w, rfl⟩ := Nat.exists_eq_succ_of_ne_zero hw.ne'
    simp [padded, Nat.toDigits_of_lt_base hr, List.replicate_succ']
  · have hd := Nat.toDigits_append_toDigits (by decide : 1 < 10) hq hr
    have hl : (Nat.toDigits 10 r).length = 1 := by simp [Nat.toDigits_of_lt_base hr]
    simp only [padded, ← hd, List.length_append, hl, Nat.add_sub_add_right, List.append_assoc]

/-- The numeral of `a * 10 ^ w + b` is that of `a` followed by `b` in `w` places. -/
theorem toDigits_mul_pow_add (hw : 0 < w) (ha : 0 < a) (hb : b < 10 ^ w) :
    Nat.toDigits 10 (a * 10 ^ w + b) = Nat.toDigits 10 a ++ padded w b := by
  obtain ⟨w, rfl⟩ := Nat.exists_eq_succ_of_ne_zero hw.ne'
  induction w generalizing b with
  | zero =>
    have hb' : b < 10 := by simpa using hb
    have hd := Nat.toDigits_append_toDigits (by decide : 1 < 10) ha hb'
    simp [padded, Nat.toDigits_of_lt_base hb', ← hd, mul_comm a 10]
  | succ w ih =>
    have hq : b / 10 < 10 ^ (w + 1) := by
      rw [Nat.div_lt_iff_lt_mul (by decide)]; simpa [pow_succ] using hb
    have hr : b % 10 < 10 := Nat.mod_lt _ (by decide)
    have hn : a * 10 ^ (w + 2) + b = 10 * (a * 10 ^ (w + 1) + b / 10) + b % 10 := by
      rw [pow_succ]; have := Nat.div_add_mod b 10; ring_nf at this ⊢; omega
    have hpos : 0 < a * 10 ^ (w + 1) + b / 10 := by positivity
    have hb' : b = 10 * (b / 10) + b % 10 := (Nat.div_add_mod b 10).symm
    have hp : padded (w + 2) b = padded (w + 1) (b / 10) ++ Nat.toDigits 10 (b % 10) := by
      rw [← padded_succ w.succ_pos hr, ← hb']
    calc Nat.toDigits 10 (a * 10 ^ (w + 2) + b)
        = Nat.toDigits 10 (a * 10 ^ (w + 1) + b / 10) ++ Nat.toDigits 10 (b % 10) := by
          rw [hn, Nat.toDigits_append_toDigits (by decide) hpos hr]
      _ = Nat.toDigits 10 a ++ padded (w + 1) (b / 10) ++ Nat.toDigits 10 (b % 10) := by
          rw [ih w.succ_pos hq]
      _ = Nat.toDigits 10 a ++ padded (w + 2) b := by rw [hp, List.append_assoc]

end Treena.Decimal
