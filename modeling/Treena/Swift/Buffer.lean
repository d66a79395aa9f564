import Mathlib.Data.Nat.Find
import Mathlib.Order.Nat

/-! # Arrays with their storage

The storage of an array may have room for more elements than it holds. A loop over the
storage traps where the elements end, unless it has found what it looks for before.
-/

namespace Treena.Swift

structure Buffer (α : Type*) where
  elements : List α
  capacity : ℕ
  length_le : elements.length ≤ capacity

namespace Buffer

variable {α : Type*}

/-- `a[i]`. -/
def at? (a : Buffer α) (i : ℕ) : Option α := a.elements[i]?

/-- `n` rounds of the loop from position `i` on, up to a `break` at an element with `p`. -/
def scanFrom (p : α → Bool) (a : Buffer α) : ℕ → ℕ → Option (Option (ℕ × α))
  | _, 0 => some none
  | i, n + 1 => do
    let x ← a.at? i
    if p x then return some (i, x) else scanFrom p a (i + 1) n

/-- The loop over `0..<a.capacity`: the first hit, or none. -/
def scan (p : α → Bool) (a : Buffer α) : Option (Option (ℕ × α)) := scanFrom p a 0 a.capacity

/-- The first element with `p` and its position. -/
structure IsFirst (p : α → Bool) (a : Buffer α) (i : ℕ) (x : α) : Prop where
  at_eq : a.at? i = some x
  hit : p x
  before : ∀ j < i, ∀ y, a.at? j = some y → ¬ p y

variable {p : α → Bool} {a : Buffer α} {i j n : ℕ} {x y : α}

theorem lt_length_of_at? (h : a.at? i = some x) : i < a.elements.length :=
  (List.getElem?_eq_some_iff.mp h).1

theorem exists_at? (h : i < a.elements.length) : ∃ x, a.at? i = some x :=
  ⟨_, List.getElem?_eq_getElem h⟩

theorem mem_of_at? (h : a.at? i = some x) : x ∈ a.elements := List.mem_of_getElem? h

theorem IsFirst.unique (h : IsFirst p a i x) (h' : IsFirst p a j y) : i = j ∧ x = y := by
  obtain rfl : i = j := by
    rcases lt_trichotomy i j with hlt | heq | hgt
    · exact absurd h.hit (h'.before i hlt x h.at_eq)
    · exact heq
    · exact absurd h'.hit (h.before j hgt y h'.at_eq)
  exact ⟨rfl, Option.some.inj (h.at_eq.symm.trans h'.at_eq)⟩

theorem exists_isFirst_or_forall (p : α → Bool) (a : Buffer α) :
    (∃ i x, IsFirst p a i x) ∨ ∀ x ∈ a.elements, ¬ p x := by
  by_cases h : ∃ i, ∃ x, a.at? i = some x ∧ p x
  · classical
    obtain ⟨x, hx, hp⟩ := Nat.find_spec h
    exact Or.inl ⟨Nat.find h, x, hx, hp, fun j hj y hy hpy => Nat.find_min h hj ⟨y, hy, hpy⟩⟩
  · refine Or.inr fun x hx hp => h ?_
    obtain ⟨i, hi⟩ := List.mem_iff_getElem?.mp hx
    exact ⟨i, x, hi, hp⟩

theorem scanFrom_of_isFirst (h : IsFirst p a i x) (hj : j ≤ i) (hn : i < j + n) :
    scanFrom p a j n = some (some (i, x)) := by
  induction n generalizing j with
  | zero => omega
  | succ n ih =>
    rcases hj.eq_or_lt with rfl | hj
    · simp [scanFrom, h.at_eq, h.hit]
    · obtain ⟨y, hy⟩ := exists_at? (hj.trans (lt_length_of_at? h.at_eq))
      simp [scanFrom, hy, h.before j hj y hy, ih hj (by omega)]

/-- Without a hit the loop goes through exactly when no room is left. -/
theorem scanFrom_of_forall (h : ∀ x ∈ a.elements, ¬ p x) (hj : j ≤ a.elements.length) :
    scanFrom p a j n = if j + n ≤ a.elements.length then some none else none := by
  induction n generalizing j with
  | zero => simp [scanFrom, hj]
  | succ n ih =>
    rcases hj.lt_or_eq with hj | rfl
    · obtain ⟨y, hy⟩ := exists_at? hj
      simp [scanFrom, hy, h y (mem_of_at? hy), ih hj, Nat.add_right_comm, Nat.add_assoc]
    · have hnone : a.at? a.elements.length = none := List.getElem?_eq_none le_rfl
      simp [scanFrom, hnone]

theorem scan_of_isFirst (h : IsFirst p a i x) : scan p a = some (some (i, x)) := by
  have hi := (lt_length_of_at? h.at_eq).trans_le a.length_le
  exact scanFrom_of_isFirst h (Nat.zero_le i) (by omega)

theorem scan_of_forall (h : ∀ x ∈ a.elements, ¬ p x) :
    scan p a = if a.elements.length = a.capacity then some none else none := by
  have hle := a.length_le
  rw [scan, scanFrom_of_forall h (Nat.zero_le _)]
  exact if_congr (by omega) rfl rfl

end Buffer

end Treena.Swift
