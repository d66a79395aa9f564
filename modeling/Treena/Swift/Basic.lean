import Treena.Decimal.Basic

/-! # Strings and integers of the source language

Integers are 64 bits wide. Conversions, slices and arithmetic that trap at run time
have no value here. A string is the list of its characters.
-/

namespace Treena.Swift

open Decimal

/-- An integer result, unless it leaves the 64-bit range. -/
def checked (n : ℤ) : Option ℤ := if -2 ^ 63 ≤ n ∧ n < 2 ^ 63 then some n else none

/-- `Int(s)`: an optional sign and decimal digits, in range. -/
def int? : List Char → Option ℤ
  | '-' :: cs => (parse cs).bind fun n => checked (-n)
  | '+' :: cs => (parse cs).bind fun n => checked n
  | cs => (parse cs).bind fun n => checked n

/-- `String(n)`. -/
def description (n : ℤ) : List Char :=
  if n < 0 then '-' :: Nat.toDigits 10 n.natAbs else Nat.toDigits 10 n.natAbs

/-- `s.index(s.startIndex, offsetBy: n)`, which may be the end index. -/
def index (s : List Char) (n : ℕ) : Option ℕ := if n ≤ s.length then some n else none

/-- `s[i...j]`. -/
def slice (s : List Char) (i j : ℕ) : Option (List Char) :=
  if j < s.length then some ((s.drop i).take (j + 1 - i)) else none

/-- `s[...j]`. -/
def sliceTo (s : List Char) (j : ℕ) : Option (List Char) := slice s 0 j

/-- `s[i...]`. -/
def sliceFrom (s : List Char) (i : ℕ) : List Char := s.drop i

variable {s t cs : List Char} {n w i j : ℕ} {k : ℤ}

@[simp] theorem checked_natCast (h : n < 2 ^ 63) : checked (n : ℤ) = some (n : ℤ) :=
  if_pos ⟨by omega, by exact_mod_cast h⟩

@[simp] theorem description_natCast : description (n : ℤ) = Nat.toDigits 10 n := by
  simp [description]

@[simp] theorem index_eq_some (h : n ≤ s.length) : index s n = some n := if_pos h

theorem int?_of_head_isDigit (h : ∀ c ∈ cs, c.isDigit) :
    int? cs = (parse cs).bind fun n => checked n := by
  unfold int?
  split
  · exact absurd (h '-' List.mem_cons_self) (by decide)
  · exact absurd (h '+' List.mem_cons_self) (by decide)
  · rfl

@[simp] theorem int?_padded (h : n < 2 ^ 63) : int? (padded w n) = some (n : ℤ) := by
  rw [int?_of_head_isDigit fun c => isDigit_of_mem_padded, parse_padded, Option.bind_some,
    checked_natCast h]

@[simp] theorem int?_toDigits (h : n < 2 ^ 63) : int? (Nat.toDigits 10 n) = some (n : ℤ) := by
  have h0 : padded 0 n = Nat.toDigits 10 n := by simp [padded]
  rw [← h0, int?_padded h]

theorem slice_append (u : List Char) (hs : s.length = i) (ht : s.length + t.length = j + 1)
    (hne : 0 < t.length) : slice (s ++ t ++ u) i j = some t := by
  have hj : j < (s ++ t ++ u).length := by simp only [List.length_append]; omega
  have hd : (s ++ t ++ u).drop i = t ++ u := by
    rw [List.append_assoc, ← hs, List.drop_left]
  rw [slice, if_pos hj, hd, show j + 1 - i = t.length by omega, List.take_left]

theorem sliceTo_append (u : List Char) (ht : t.length = j + 1) :
    sliceTo (t ++ u) j = some t := by
  simpa [sliceTo] using slice_append (s := []) (i := 0) u rfl (by simpa using ht) (by omega)

theorem sliceFrom_append (hs : s.length = i) : sliceFrom (s ++ t) i = t := by
  rw [sliceFrom, ← hs, List.drop_left]

end Treena.Swift
