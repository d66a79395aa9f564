import Treena.Diary.Forms
import Treena.Diary.Screen

/-! # Next and previous against the calendar

Next leads to the following day inside a month only, previous to the day before on every day
but one in four years. Previous always takes back a press of next.
-/

namespace Treena.Diary

open Swift Decimal Civil Text Firebase

section Dates

variable {d : Day}

theorem afterDate_yyyyMMdd (hd : FourDigit d) :
    d.day < lastShown d.month ∧
        afterDate (yyyyMMdd d) = some (form 2 d.year d.month (d.day + 1)) ∨
      d.month ≠ 2 ∧ d.day = daysIn 1 d.month ∧
        afterDate (yyyyMMdd d) = some (form 1 d.year (d.month + 1) 1) := by
  rcases Nat.lt_or_ge d.day (lastShown d.month) with h | h
  · exact Or.inl ⟨h, afterDate_full hd.1 hd.2 d.month_pos d.month_le h⟩
  · have hle := d.day_le
    have hshown := daysIn_le_lastShown d.year d.month
    have hne : d.month ≠ 2 := by
      intro hm
      have h29 := daysIn_two_le d.year
      rw [hm, lastShown, if_pos rfl] at h
      rw [hm] at hle
      omega
    have hday : d.day = daysIn 1 d.month := by
      rw [daysIn_eq_common_iff.mpr fun hm => hne hm.1] at hle
      rw [lastShown, if_neg hne] at h
      omega
    have hlast : lastShown d.month = d.day := by rw [lastShown, if_neg hne, hday]
    refine Or.inr ⟨hne, hday, ?_⟩
    rw [← afterDate_full_last hd.1 hd.2 d.month_pos d.month_le, hlast, yyyyMMdd_eq_form]

theorem afterDate_eq_succ_iff (hd : FourDigit d) :
    afterDate (yyyyMMdd d) = some (yyyyMMdd (Order.succ d)) ↔ ¬ d.IsLast := by
  have h31 := d.day_le_31
  have hm := d.month_le
  rw [Day.succ_eq_next]
  constructor
  · intro h hlast
    have hone := Day.next_of_isLast hlast
    rcases afterDate_yyyyMMdd hd with ⟨-, ha⟩ | ⟨-, -, ha⟩
    · have he := Option.some.inj (ha.symm.trans h)
      have hday := day_eq_of_form_eq (by omega) (by omega) (he.trans (yyyyMMdd_eq_form d.next))
      have hpos := d.day_pos
      omega
    · have he := congrArg List.length (Option.some.inj (ha.symm.trans h))
      have hlen := le_length_form 2 d.next.year d.next.month d.next.day
      rw [length_form_one hd.2 (by omega) (by decide), yyyyMMdd_eq_form] at he
      omega
  · exact afterDate_next hd

/-- The first of March of a leap year, whose day before is not in the table. -/
def AfterLeapDay (d : Day) : Prop := isLeap d.year ∧ d.month = 3 ∧ d.day = 1

instance (d : Day) : Decidable (AfterLeapDay d) := inferInstanceAs (Decidable (_ ∧ _ ∧ _))

theorem beforeDate_first_eq_iff (hd : FourDigit d) (h : d.day = 1) (hm : 1 < d.month) :
    beforeDate (yyyyMMdd d) = some (yyyyMMdd d.previous) ↔ ¬ AfterLeapDay d := by
  obtain ⟨hy, hmonth, hday⟩ := Day.previous_of_first h hm
  obtain ⟨m, hmm⟩ : ∃ m, d.month = m + 1 := ⟨d.month - 1, by omega⟩
  have hprev : yyyyMMdd d.previous = form 2 d.year m (daysIn d.year m) := by
    rw [yyyyMMdd_eq_form, hy, hday, show d.previous.month = m by omega, hmm, Nat.add_sub_cancel]
  have h31 := daysIn_le 1 m
  have h31' := daysIn_le d.year m
  have hiff : form 2 d.year m (daysIn 1 m) = form 2 d.year m (daysIn d.year m) ↔
      daysIn d.year m = daysIn 1 m :=
    ⟨fun he => (day_eq_of_form_eq (by omega) (by omega) he).symm, fun he => by rw [he]⟩
  rw [beforeDate_yyyyMMdd_first hd h hmm (by omega), hprev, Option.some.injEq, hiff,
    daysIn_eq_common_iff, AfterLeapDay, hmm, h]
  constructor
  · rintro hl ⟨hleap, hm3, -⟩
    exact hl ⟨by omega, hleap⟩
  · rintro hl ⟨rfl, hleap⟩
    exact hl ⟨hleap, rfl, rfl⟩

theorem beforeDate_eq_pred_iff (hd : FourDigit d)
    (hne : ¬ (d.year = 1000 ∧ d.month = 1 ∧ d.day = 1)) :
    beforeDate (yyyyMMdd d) = some (yyyyMMdd (Order.pred d)) ↔ ¬ AfterLeapDay d := by
  have hpos := d.day_pos
  have hm := d.month_pos
  have hlo := hd.1
  rw [Day.pred_eq_previous]
  rcases Nat.lt_or_ge 1 d.day with h | h
  · refine iff_of_true (beforeDate_previous_of_two_le hd h) ?_
    rintro ⟨-, -, h₁⟩
    omega
  · have hday : d.day = 1 := le_antisymm h hpos
    rcases Nat.lt_or_ge 1 d.month with h' | h'
    · exact beforeDate_first_eq_iff hd hday h'
    · refine iff_of_true (beforeDate_previous_of_newYear hd hday (by omega) (by omega)) ?_
      rintro ⟨-, h₃, -⟩
      omega

/-- Two presses that lead back, through a date that may be no day's. -/
theorem beforeDate_afterDate (hd : FourDigit d) :
    (afterDate (yyyyMMdd d)).bind beforeDate = some (yyyyMMdd d) := by
  have hm := d.month_le
  have hpos := d.day_pos
  rcases afterDate_yyyyMMdd hd with ⟨hlt, ha⟩ | ⟨hne, hday, ha⟩
  · have h31 := lastShown_le d.month
    rw [ha, Option.bind_some]
    exact beforeDate_of_pos hd.1 hd.2 (by decide) le_rfl (by omega) hpos (by omega) (by omega)
  · rw [ha, Option.bind_some, yyyyMMdd_eq_form, hday]
    exact beforeDate_first hd.1 hd.2 (by decide) (by decide) d.month_pos hm

end Dates

namespace Screen

variable {γ : Type} {M : Marking Key γ} {s : Screen γ} {d : Day}

theorem six_le_length_form (w y m d : ℕ) : 6 ≤ (form w y m d).length :=
  (Nat.le_add_right 6 w).trans (le_length_form w y m d)

/-- A date of six characters or more has a label, so a button that leads to it opens it. -/
theorem openDate_of_le {date : Key} (h : 6 ≤ date.length) :
    ∃ s', openDate M (some date) s = some s' ∧ s'.date = date := by
  obtain ⟨label, hl⟩ := Option.isSome_iff_exists.mp (setDate_isSome h)
  exact ⟨s.opened M date label, by simp [openDate, opened, hl], rfl⟩

theorem map_date_openDate {o : Option Key} (h : ∀ date ∈ o, 6 ≤ date.length) :
    (openDate M o s).map (·.date) = o := by
  cases o with
  | none => rfl
  | some date =>
    obtain ⟨s', hs, hd⟩ := openDate_of_le (M := M) (s := s) (h date rfl)
    rw [hs, Option.map_some, hd]

theorem exists_viewDidLoad (uid : Uid) {date : Key} (h : 6 ≤ date.length) :
    ∃ s : Screen γ, viewDidLoad M (some uid) date = some s ∧ s.date = date := by
  obtain ⟨label, hl⟩ := Option.isSome_iff_exists.mp (setDate_isSome h)
  simp only [viewDidLoad, hl, bindUid_some, Option.bind_eq_bind, Option.bind_some]
  exact ⟨_, rfl, rfl⟩

theorem six_le_of_mem_afterDate (hd : FourDigit d) :
    ∀ date ∈ afterDate (yyyyMMdd d), 6 ≤ date.length := by
  rintro date h
  rcases afterDate_yyyyMMdd hd with ⟨-, ha⟩ | ⟨-, -, ha⟩
  · obtain rfl := Option.some.inj (ha.symm.trans h)
    exact six_le_length_form _ _ _ _
  · obtain rfl := Option.some.inj (ha.symm.trans h)
    exact six_le_length_form _ _ _ _

theorem six_le_of_mem_beforeDate (hd : FourDigit d)
    (hne : ¬ (d.year = 1000 ∧ d.month = 1 ∧ d.day = 1)) :
    ∀ date ∈ beforeDate (yyyyMMdd d), 6 ≤ date.length := by
  rintro date h
  obtain ⟨d', -, hb⟩ := beforeDate_fourDigit hd hne
  obtain rfl := Option.some.inj (hb.symm.trans h)
  exact six_le_length_form _ _ _ _

/-- Next leads to the following day exactly inside a month. -/
theorem date_after_iff (hd : FourDigit d) (hs : s.date = yyyyMMdd d) :
    (s.afterDiaryButtonClicked M).map (·.date) = some (yyyyMMdd (Order.succ d)) ↔
      ¬ d.IsLast := by
  rw [afterDiaryButtonClicked, hs, map_date_openDate (six_le_of_mem_afterDate hd)]
  exact afterDate_eq_succ_iff hd

/-- From the 28th to the 29th of February of a leap year. -/
theorem date_after_28_february :
    let d : Day := ⟨2020, 2, 28, by decide, by decide, by decide, by decide, by decide⟩
    ∃ s : Screen Char, viewDidLoad plain (some "u") (yyyyMMdd d) = some s ∧
      (s.afterDiaryButtonClicked plain).map (·.date) = some "20200229".toList := by
  intro d
  obtain ⟨s, hs, hdate⟩ := exists_viewDidLoad (M := plain) "u" (six_le_length_form 2 2020 2 28)
  have hsucc : yyyyMMdd (Order.succ d) = "20200229".toList := by decide
  refine ⟨s, hs, ?_⟩
  rw [← hsucc]
  exact (date_after_iff (d := d) ⟨by decide, by decide⟩ hdate).mpr (by decide)

/-- From the 30th of April to a date without a day of two places. -/
theorem date_after_30_april :
    ¬ ∀ (s : Screen Char) (d : Day), FourDigit d →
      ¬ (d.year = 9999 ∧ d.month = 12 ∧ d.day = 31) → s.date = yyyyMMdd d →
        (s.afterDiaryButtonClicked plain).map (·.date) = some (yyyyMMdd (Order.succ d)) := by
  intro h
  let d : Day := ⟨2021, 4, 30, by decide, by decide, by decide, by decide, by decide⟩
  have hd : FourDigit d := ⟨by decide, by decide⟩
  have ha := h ⟨"u", yyyyMMdd d, [], ⟨placeholderSetting plain, false⟩, [], []⟩ d hd (by decide) rfl
  rw [afterDiaryButtonClicked, map_date_openDate (six_le_of_mem_afterDate hd)] at ha
  exact (afterDate_eq_succ_iff hd).mp ha (by decide)

/-- Previous leads to the day before exactly when that is no 29th of February. -/
theorem date_before_iff (hd : FourDigit d) (hne : ¬ (d.year = 1000 ∧ d.month = 1 ∧ d.day = 1))
    (hs : s.date = yyyyMMdd d) :
    (s.beforeDiaryButtonClicked M).map (·.date) = some (yyyyMMdd (Order.pred d)) ↔
      ¬ AfterLeapDay d := by
  rw [beforeDiaryButtonClicked, hs, map_date_openDate (six_le_of_mem_beforeDate hd hne)]
  exact beforeDate_eq_pred_iff hd hne

/-- From the first of March of a common year. -/
theorem date_before_1_march :
    let d : Day := ⟨2021, 3, 1, by decide, by decide, by decide, by decide, by decide⟩
    ∃ s : Screen Char, viewDidLoad plain (some "u") (yyyyMMdd d) = some s ∧
      (s.beforeDiaryButtonClicked plain).map (·.date) = some "20210228".toList := by
  intro d
  obtain ⟨s, hs, hdate⟩ := exists_viewDidLoad (M := plain) "u" (six_le_length_form 2 2021 3 1)
  have hpred : yyyyMMdd (Order.pred d) = "20210228".toList := by decide
  refine ⟨s, hs, ?_⟩
  rw [← hpred]
  exact (date_before_iff (d := d) ⟨by decide, by decide⟩ (by decide) hdate).mpr (by decide)

/-- The 29th of February is passed over. -/
theorem date_before_1_march_leap :
    ¬ ∀ (s : Screen Char) (d : Day), FourDigit d →
      ¬ (d.year = 1000 ∧ d.month = 1 ∧ d.day = 1) → s.date = yyyyMMdd d →
        (s.beforeDiaryButtonClicked plain).map (·.date) = some (yyyyMMdd (Order.pred d)) := by
  intro h
  let d : Day := ⟨2020, 3, 1, by decide, by decide, by decide, by decide, by decide⟩
  have hd : FourDigit d := ⟨by decide, by decide⟩
  have hne : ¬ (d.year = 1000 ∧ d.month = 1 ∧ d.day = 1) := by decide
  have hb := h ⟨"u", yyyyMMdd d, [], ⟨placeholderSetting plain, false⟩, [], []⟩ d hd hne rfl
  rw [beforeDiaryButtonClicked, map_date_openDate (six_le_of_mem_beforeDate hd hne)] at hb
  exact (beforeDate_eq_pred_iff hd hne).mp hb (by decide)

/-- Previous undoes next, on the last day of a month too. -/
theorem before_after (hd : FourDigit d) (hs : s.date = yyyyMMdd d) :
    ∃ s' s'', s.afterDiaryButtonClicked M = some s' ∧ s'.beforeDiaryButtonClicked M = some s'' ∧
      s''.date = s.date := by
  obtain ⟨date, ha, hb⟩ := Option.bind_eq_some_iff.mp (beforeDate_afterDate hd)
  obtain ⟨s', hs', rfl⟩ := openDate_of_le (M := M) (s := s) (six_le_of_mem_afterDate hd date ha)
  obtain ⟨s'', hs'', hd''⟩ := openDate_of_le (M := M) (s := s') (six_le_length_form 2 _ _ _)
  refine ⟨s', s'', ?_, ?_, hd''.trans hs.symm⟩
  · rw [afterDiaryButtonClicked, hs, ha, hs']
  · rw [beforeDiaryButtonClicked, hb, yyyyMMdd_eq_form, hs'']

/-- By way of a date of the 13th month. -/
theorem before_after_31_december :
    let d : Day := ⟨2021, 12, 31, by decide, by decide, by decide, by decide, by decide⟩
    ∃ s s' s'' : Screen Char, viewDidLoad plain (some "u") (yyyyMMdd d) = some s ∧
      s.afterDiaryButtonClicked plain = some s' ∧ s'.beforeDiaryButtonClicked plain = some s'' ∧
      s''.date = s.date := by
  intro d
  obtain ⟨s, hs, hdate⟩ := exists_viewDidLoad (M := plain) "u" (six_le_length_form 2 2021 12 31)
  obtain ⟨s', s'', h⟩ := before_after (M := plain) (d := d) ⟨by decide, by decide⟩ hdate
  exact ⟨s, s', s'', hs, h⟩

end Screen

end Treena.Diary
