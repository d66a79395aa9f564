import Mathlib.Order.Lattice
import Mathlib.Tactic.IntervalCases

/-! # The growth level

Three screens turn the number of entries into the level of the tree, each with its own copy
of the thresholds. The copies agree up to the last threshold, past which none of them
assigns a level.
-/

namespace Treena.Growth

@[ext] structure UserDiaryState where
  diaryUsage : ℕ
  treeLevel : ℤ
  deriving DecidableEq

/-- What a read of `diary/<uid>` reports. -/
inductive CountRead
  | error
  | noData
  | count (childrenCount : ℕ)
  deriving DecidableEq

/-- The level of a count, and of every count past the last threshold. -/
def level (n : ℕ) : ℕ := if n ≤ 2 then 0 else min ((n + 6) / 7) 8

def pictureAt (treeLevel : ℤ) : Option ℕ :=
  if 0 ≤ treeLevel ∧ treeLevel < 9 then some treeLevel.toNat else none

section FirebaseDatabase

/-- `FirebaseDatabase.setTreeLevel`, on the static `data`. -/
def setTreeLevel (data : UserDiaryState) : UserDiaryState :=
  if data.diaryUsage ≤ 2 ∧ data.diaryUsage ≥ 0 then { data with treeLevel := 0 }
  else if data.diaryUsage > 2 ∧ data.diaryUsage ≤ 7 then { data with treeLevel := 1 }
  else if data.diaryUsage > 7 ∧ data.diaryUsage ≤ 14 then { data with treeLevel := 2 }
  else if data.diaryUsage > 14 ∧ data.diaryUsage ≤ 21 then { data with treeLevel := 3 }
  else if data.diaryUsage > 21 ∧ data.diaryUsage ≤ 28 then { data with treeLevel := 4 }
  else if data.diaryUsage > 28 ∧ data.diaryUsage ≤ 35 then { data with treeLevel := 5 }
  else if data.diaryUsage > 35 ∧ data.diaryUsage ≤ 42 then { data with treeLevel := 6 }
  else if data.diaryUsage > 42 ∧ data.diaryUsage ≤ 49 then { data with treeLevel := 7 }
  else if data.diaryUsage > 49 ∧ data.diaryUsage ≤ 56 then { data with treeLevel := 8 }
  else data

/-- The completion handler of `FirebaseDatabase.checkDiaryUsage`. -/
def checkDiaryUsageCompletion (outcome : CountRead) (data : UserDiaryState) : UserDiaryState :=
  match outcome with
  | .error => data
  | .count childrenCount => setTreeLevel { data with diaryUsage := childrenCount }
  | .noData => data

end FirebaseDatabase

/-- The assignments of the two controllers, one independent `if` after the other. -/
def assignLevel {α : Type} (set : ℤ → α) (diaryUsage : ℕ) (treeLevel : α) : α :=
  let treeLevel := if diaryUsage ≤ 2 ∧ diaryUsage ≥ 0 then set 0 else treeLevel
  let treeLevel := if diaryUsage > 2 ∧ diaryUsage ≤ 7 then set 1 else treeLevel
  let treeLevel := if diaryUsage > 7 ∧ diaryUsage ≤ 14 then set 2 else treeLevel
  let treeLevel := if diaryUsage > 14 ∧ diaryUsage ≤ 21 then set 3 else treeLevel
  let treeLevel := if diaryUsage > 21 ∧ diaryUsage ≤ 28 then set 4 else treeLevel
  let treeLevel := if diaryUsage > 28 ∧ diaryUsage ≤ 35 then set 5 else treeLevel
  let treeLevel := if diaryUsage > 35 ∧ diaryUsage ≤ 42 then set 6 else treeLevel
  let treeLevel := if diaryUsage > 42 ∧ diaryUsage ≤ 49 then set 7 else treeLevel
  let treeLevel := if diaryUsage > 49 ∧ diaryUsage ≤ 56 then set 8 else treeLevel
  treeLevel

/-- `requested` holds the row and the column of every picture asked for. -/
structure EmotionImageViewController where
  diaryUsage : Option ℕ
  treeLevel : Option ℤ
  type : Option ℤ
  requested : List (ℕ × ℕ)

namespace EmotionImageViewController

variable (arc4random_uniform : ∀ (bound : ℕ) [NeZero bound], Fin bound)

def setEmotionImage (v : EmotionImageViewController) : Option EmotionImageViewController := do
  let index : ℕ :=
    if v.type = some 1 then arc4random_uniform 3
    else if v.type = some 0 then arc4random_uniform 2 + 3
    else if v.type = some (-1) then 5
    else 0
  let treeLevel ← v.treeLevel
  let column ← pictureAt treeLevel
  return { v with requested := v.requested ++ [(index, column)] }

def setTreeLevel (v : EmotionImageViewController) : Option EmotionImageViewController := do
  let diaryUsage ← v.diaryUsage
  setEmotionImage arc4random_uniform
    { v with treeLevel := assignLevel some diaryUsage v.treeLevel }

def checkDiaryUsageCompletion (outcome : CountRead) (v : EmotionImageViewController) :
    Option EmotionImageViewController :=
  match outcome with
  | .error => some v
  | .count childrenCount =>
    setTreeLevel arc4random_uniform { v with diaryUsage := some childrenCount }
  | .noData => some v

end EmotionImageViewController

structure ViewController where
  diaryUsage : Option ℕ
  treeLevel : ℤ
  requested : List ℕ

namespace ViewController

def setTreeImage (v : ViewController) : Option ViewController := do
  let picture ← pictureAt v.treeLevel
  return { v with requested := v.requested ++ [picture] }

def setTreeLevel (v : ViewController) : Option ViewController := do
  let diaryUsage ← v.diaryUsage
  setTreeImage { v with treeLevel := assignLevel id diaryUsage v.treeLevel }

def checkDiaryUsageCompletion (outcome : CountRead) (v : ViewController) : Option ViewController :=
  match outcome with
  | .error => some v
  | .count childrenCount => setTreeLevel { v with diaryUsage := some childrenCount }
  | .noData => some v

end ViewController

variable {n m : ℕ} {l : ℤ} {data : UserDiaryState}

theorem level_le (n : ℕ) : level n ≤ 8 := by
  unfold level
  split_ifs
  · exact Nat.zero_le 8
  · exact min_le_right _ _

theorem level_mono : Monotone level := by
  intro n m h
  unfold level
  split_ifs with hn hm
  · exact le_rfl
  · exact Nat.zero_le _
  · exact absurd (h.trans ‹m ≤ 2›) hn
  · exact min_le_min_right 8 (Nat.div_le_div_right (Nat.add_le_add_right h 6))

@[simp] theorem pictureAt_level : pictureAt (level n : ℤ) = some (level n) := by
  have h : (level n : ℤ) < 9 := by exact_mod_cast Nat.lt_succ_of_le (level_le n)
  exact if_pos ⟨Int.natCast_nonneg _, h⟩

theorem setTreeLevel_of_le (h : data.diaryUsage ≤ 56) :
    setTreeLevel data = { data with treeLevel := level data.diaryUsage } := by
  obtain ⟨n, l⟩ := data
  simp only [setTreeLevel] at h ⊢
  interval_cases n <;> rfl

theorem setTreeLevel_of_lt (h : 56 < data.diaryUsage) : setTreeLevel data = data := by
  simp (disch := omega) only [setTreeLevel, if_neg]

section AssignLevel

variable {α : Type} {set : ℤ → α} {a : α}

theorem assignLevel_of_le (h : n ≤ 56) : assignLevel set n a = set (level n) := by
  interval_cases n <;> rfl

theorem assignLevel_of_lt (h : 56 < n) : assignLevel set n a = a := by
  simp (disch := omega) only [assignLevel, if_neg]

end AssignLevel

/-- After a read that reports `n`, all three screens hold `l`, whatever they held before. -/
structure LeavesLevel (n : ℕ) (l : ℤ) : Prop where
  mem : 0 ≤ l ∧ l ≤ 8
  database : ∀ data, (checkDiaryUsageCompletion (.count n) data).treeLevel = l
  emotionImage : ∀ (arc4random_uniform : ∀ (bound : ℕ) [NeZero bound], Fin bound)
    (v : EmotionImageViewController),
    (v.checkDiaryUsageCompletion arc4random_uniform (.count n)).map (·.treeLevel) = some (some l)
  home : ∀ v : ViewController,
    (v.checkDiaryUsageCompletion (.count n)).map (·.treeLevel) = some l

theorem leavesLevel_of_le (h : n ≤ 56) : LeavesLevel n (level n) := by
  constructor
  · exact ⟨Int.natCast_nonneg _, by exact_mod_cast level_le n⟩
  · intro data
    rw [checkDiaryUsageCompletion, setTreeLevel_of_le h]
  · intro arc4random_uniform v
    simp [EmotionImageViewController.checkDiaryUsageCompletion,
      EmotionImageViewController.setTreeLevel, EmotionImageViewController.setEmotionImage,
      assignLevel_of_le h]
  · intro v
    simp [ViewController.checkDiaryUsageCompletion, ViewController.setTreeLevel,
      ViewController.setTreeImage, assignLevel_of_le h]

/-- Past the last threshold the level depends on the one held before. -/
theorem not_leavesLevel_of_lt (h : 56 < n) : ¬ LeavesLevel n l := by
  intro hl
  have hkept : ∀ k, k = l := by
    intro k
    have := hl.database ⟨0, k⟩
    rwa [checkDiaryUsageCompletion, setTreeLevel_of_lt h] at this
  exact absurd ((hkept 0).trans (hkept 1).symm) (by decide)

/-- For two counts in order, the screens share the levels and these are in order exactly when
neither count is past the last threshold. -/
theorem levels_shared_iff (h : n ≤ m) :
    (∃ l l', LeavesLevel n l ∧ LeavesLevel m l' ∧ l ≤ l') ↔ m ≤ 56 := by
  constructor
  · rintro ⟨l, l', -, hl, -⟩
    by_contra hm
    exact not_leavesLevel_of_lt (not_le.mp hm) hl
  · intro hm
    refine ⟨level n, level m, leavesLevel_of_le (h.trans hm), leavesLevel_of_le hm, ?_⟩
    exact_mod_cast level_mono h

theorem levels_shared_of_3_56 : ∃ l l', LeavesLevel 3 l ∧ LeavesLevel 56 l' ∧ l ≤ l' :=
  (levels_shared_iff (by decide)).mpr le_rfl

/-- With 57 entries the static level keeps its initial value or any other. -/
theorem level_of_57_not_shared :
    ¬ ∀ n m : ℕ, n ≤ m → ∃ l l', LeavesLevel n l ∧ LeavesLevel m l' ∧ l ≤ l' := by
  intro h
  obtain ⟨l, l', -, hl, -⟩ := h 57 57 le_rfl
  have h₀ := hl.database ⟨20, 2⟩
  have h₁ := hl.database ⟨20, 8⟩
  exact absurd (h₀.trans h₁.symm) (by decide)

end Treena.Growth
