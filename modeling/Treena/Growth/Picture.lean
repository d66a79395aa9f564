import Treena.Growth.Level

/-! # The picture of a result

The picture is chosen by the mood of the emotion and the level of the tree. Its row is drawn
from the family of the mood; without a known mood the row stays the first one, and past the
last threshold the level stays whatever it was.
-/

namespace Treena.Growth

/-- The rows of a mood: the first three are positive, two are neutral, the last is negative. -/
def MoodRow (type : Option ℤ) (row : ℕ) : Prop :=
  type = some 1 ∧ row ≤ 2 ∨ type = some 0 ∧ 3 ≤ row ∧ row ≤ 4 ∨ type = some (-1) ∧ row = 5

def IsMood (type : Option ℤ) : Prop := type = some 1 ∨ type = some 0 ∨ type = some (-1)

instance (type : Option ℤ) : Decidable (IsMood type) := inferInstanceAs (Decidable (_ ∨ _ ∨ _))

namespace EmotionImageViewController

variable (arc4random_uniform : ∀ (bound : ℕ) [NeZero bound], Fin bound)

/-- The local `index` of `setEmotionImage`, after the two draws that it may make. -/
def row (positive : Fin 3) (neutral : Fin 2) (type : Option ℤ) : ℕ :=
  if type = some 1 then positive
  else if type = some 0 then neutral + 3
  else if type = some (-1) then 5
  else 0

/-- After a read that reports `n`, a picture of the mood in the column of the growth level has
been asked for when there is a mood, and no picture of a mood otherwise. -/
def Pictured (n : ℕ) (v : EmotionImageViewController) : Prop :=
  ∃ v' pictures, v.checkDiaryUsageCompletion arc4random_uniform (.count n) = some v' ∧
    v'.requested = v.requested ++ pictures ∧ (IsMood v.type → pictures ≠ []) ∧
    ∀ p ∈ pictures, MoodRow v.type p.1 ∧ p.2 = level n

variable {arc4random_uniform} {v v' : EmotionImageViewController} {n : ℕ} {positive : Fin 3}
  {neutral : Fin 2} {type : Option ℤ}

theorem row_lt : row positive neutral type < 6 := by
  unfold row
  split_ifs
  · exact positive.isLt.trans (by decide)
  · have h := neutral.isLt
    omega
  · decide
  · decide

/-- The row is of the family of the mood exactly when there is one. -/
theorem moodRow_row_iff : MoodRow type (row positive neutral type) ↔ IsMood type := by
  constructor
  · rintro (⟨h, -⟩ | ⟨h, -⟩ | ⟨h, -⟩)
    · exact Or.inl h
    · exact Or.inr (Or.inl h)
    · exact Or.inr (Or.inr h)
  · rintro (rfl | rfl | rfl)
    · exact Or.inl ⟨rfl, Nat.le_of_lt_succ positive.isLt⟩
    · refine Or.inr (Or.inl ⟨rfl, Nat.le_add_left _ _, ?_⟩)
      exact Nat.add_le_add_right (Nat.le_of_lt_succ neutral.isLt) 3
    · exact Or.inr (Or.inr ⟨rfl, rfl⟩)

theorem setEmotionImage_eq_some : v.setEmotionImage arc4random_uniform = some v' ↔
    ∃ column, v.treeLevel.bind pictureAt = some column ∧
      v' = { v with requested := v.requested ++
        [(row (arc4random_uniform 3) (arc4random_uniform 2) v.type, column)] } := by
  cases hl : v.treeLevel with
  | none => simp [setEmotionImage, hl]
  | some l =>
    cases hp : pictureAt l with
    | none => simp [setEmotionImage, hl, hp]
    | some column => simp [setEmotionImage, hl, hp, row, eq_comm]

/-- Exactly one picture is asked for, in the row of the type and the column of the level that
`setTreeLevel` leaves. -/
theorem checkDiaryUsageCompletion_count :
    v.checkDiaryUsageCompletion arc4random_uniform (.count n) = some v' ↔
      ∃ column, (assignLevel some n v.treeLevel).bind pictureAt = some column ∧
        v' = { v with
          diaryUsage := some n, treeLevel := assignLevel some n v.treeLevel
          requested := v.requested ++
            [(row (arc4random_uniform 3) (arc4random_uniform 2) v.type, column)] } := by
  simp [checkDiaryUsageCompletion, setTreeLevel, setEmotionImage_eq_some]

theorem pictureAt_eq_some {l : ℤ} {column : ℕ} (h : pictureAt l = some column) : l = column := by
  unfold pictureAt at h
  split_ifs at h with hl
  obtain rfl := Option.some.inj h
  exact (Int.toNat_of_nonneg hl.1).symm

theorem column_eq_level_iff :
    (assignLevel some n v.treeLevel).bind pictureAt = some (level n) ↔
      n ≤ 56 ∨ v.treeLevel = some 8 := by
  rcases Nat.lt_or_ge 56 n with hn | hn
  · have hlevel : level n = 8 := by
      rw [level, if_neg (by omega), min_eq_right (by omega)]
    rw [assignLevel_of_lt hn, hlevel]
    constructor
    · intro h
      obtain ⟨l, hl, h⟩ := Option.bind_eq_some_iff.mp h
      exact Or.inr (hl.trans (congrArg some (pictureAt_eq_some h)))
    · rintro (h | h)
      · exact absurd h (not_le.mpr hn)
      · rw [h]; rfl
  · rw [assignLevel_of_le hn]
    exact ⟨fun _ => Or.inl hn, fun _ => pictureAt_level⟩

theorem pictured_of_isMood (hn : n ≤ 56 ∨ v.treeLevel = some 8) (hm : IsMood v.type) :
    Pictured arc4random_uniform n v := by
  refine ⟨_, [(row (arc4random_uniform 3) (arc4random_uniform 2) v.type, level n)],
    checkDiaryUsageCompletion_count.mpr ⟨level n, column_eq_level_iff.mpr hn, rfl⟩, rfl,
    fun _ => List.cons_ne_nil _ _, ?_⟩
  intro p hp
  obtain rfl := List.mem_singleton.mp hp
  exact ⟨moodRow_row_iff.mpr hm, rfl⟩

theorem Pictured.isMood (h : Pictured arc4random_uniform n v) :
    (n ≤ 56 ∨ v.treeLevel = some 8) ∧ IsMood v.type := by
  obtain ⟨v', pictures, hv, hreq, -, hall⟩ := h
  obtain ⟨column, hc, rfl⟩ := checkDiaryUsageCompletion_count.mp hv
  obtain rfl := List.append_cancel_left hreq
  obtain ⟨hrow, rfl⟩ := hall _ (List.mem_singleton.mpr rfl)
  exact ⟨column_eq_level_iff.mp hc, moodRow_row_iff.mp hrow⟩

/-- The result picture matches mood and growth exactly for one of the three moods and a level
that is assigned or already the top one. -/
theorem pictured_iff (arc4random_uniform : ∀ (bound : ℕ) [NeZero bound], Fin bound) (n : ℕ)
    (v : EmotionImageViewController) :
    Pictured arc4random_uniform n v ↔ (n ≤ 56 ∨ v.treeLevel = some 8) ∧ IsMood v.type := by
  constructor
  · exact Pictured.isMood
  · rintro ⟨hn, hm⟩
    exact pictured_of_isMood hn hm

/-- A new screen has no level for 57 entries. -/
theorem level_of_57_not_pictured :
    ¬ (∀ (arc4random_uniform : ∀ (bound : ℕ) [NeZero bound], Fin bound) (n : ℕ)
      (type : Option ℤ), 1 ≤ n → Pictured arc4random_uniform n ⟨none, none, type, []⟩) := by
  intro h
  obtain ⟨v', pictures, hv, -⟩ := h (fun b _ => ⟨0, Nat.pos_of_neZero b⟩) 57 (some 1) (by decide)
  exact absurd hv (by simp [checkDiaryUsageCompletion, setTreeLevel, setEmotionImage, assignLevel])

end EmotionImageViewController

end Treena.Growth
