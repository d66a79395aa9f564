import Treena.Diary.Successor

/-! # Where a walk ends

The dates that presses of next and previous lead to are characterised, whatever the order of
the presses. The walk traps on one of them only, when next is pressed on the ninth day after
the last day of December.
-/

namespace Treena.Diary

open Swift Decimal Civil Text Firebase Run

inductive Shown : Key → Prop
  | full {y m d : ℕ} : 1000 ≤ y → y < 10000 → 1 ≤ m → m ≤ 12 → 1 ≤ d → d ≤ lastShown m →
      Shown (form 2 y m d)
  | short {y m d : ℕ} : 1000 ≤ y → y < 10000 → 2 ≤ m → m ≤ 13 → 1 ≤ d → d ≤ 9 →
      Shown (form 1 y m d)

/-- The ninth day of the month after December. -/
def LastOfTable (date : Key) : Prop := date.drop 4 = "139".toList

instance (date : Key) : Decidable (LastOfTable date) := inferInstanceAs (Decidable (_ = _))

section Shown

variable {date : Key} {y m d w : ℕ}

theorem drop_form (hy : y < 10000) : (form w y m d).drop 4 = padded 2 m ++ padded w d := by
  have hl : (padded 4 y).length = 4 := length_padded (by decide) (by omega)
  rw [form, List.append_assoc]
  exact List.drop_left' hl

theorem not_lastOfTable_full (hy : y < 10000) : ¬ LastOfTable (form 2 y m d) := by
  intro h
  rw [LastOfTable, drop_form hy] at h
  have hm := le_length_padded (w := 2) (n := m)
  have hd := le_length_padded (w := 2) (n := d)
  have hl : (padded 2 m ++ padded 2 d).length = 3 := by rw [h]; decide
  rw [List.length_append] at hl
  omega

theorem lastOfTable_short_iff (hy : y < 10000) (hd : d ≤ 9) :
    LastOfTable (form 1 y m d) ↔ m = 13 ∧ d = 9 := by
  have h139 : "139".toList = padded 2 13 ++ padded 1 9 := by decide
  rw [LastOfTable, drop_form hy, h139]
  constructor
  · intro h
    have hl : (padded 1 d).length = (padded 1 9).length := by
      rw [length_padded (by decide) (by omega), length_padded (by decide) (by decide)]
    obtain ⟨hm, hd⟩ := List.append_inj' h hl
    exact ⟨padded_injective 2 hm, padded_injective 1 hd⟩
  · rintro ⟨rfl, rfl⟩
    rfl

theorem shown_yyyyMMdd {d : Day} (hd : FourDigit d) : Shown (yyyyMMdd d) :=
  .full hd.1 hd.2 d.month_pos d.month_le d.day_pos (d.day_le.trans (daysIn_le_lastShown _ _))

theorem Shown.six_le (h : Shown date) : 6 ≤ date.length := by
  cases h with
  | full => exact Screen.six_le_length_form _ _ _ _
  | short => exact Screen.six_le_length_form _ _ _ _

theorem shown_daysIn (hy : 1000 ≤ y) (hy' : y < 10000) (hm : 1 ≤ m) (hm' : m ≤ 12) :
    Shown (form 2 y m (daysIn 1 m)) :=
  .full hy hy' hm hm' (le_trans (by decide) (le_daysIn 1 m)) (daysIn_le_lastShown 1 m)

theorem Shown.after (h : Shown date) :
    LastOfTable date ∧ afterDate date = none ∨
      ¬ LastOfTable date ∧ ∃ date', afterDate date = some date' ∧ Shown date' := by
  cases h with
  | @full y m d hy hy' hm hm' hd hd' =>
    refine Or.inr ⟨not_lastOfTable_full hy', ?_⟩
    rcases Nat.lt_or_eq_of_le hd' with hlt | rfl
    · exact ⟨_, afterDate_full hy hy' hm hm' hlt, .full hy hy' hm hm' (Nat.succ_pos d) hlt⟩
    · exact ⟨_, afterDate_full_last hy hy' hm hm',
        .short hy hy' (by omega) (by omega) le_rfl (by decide)⟩
  | @short y m d hy hy' hm hm' hd hd' =>
    rw [lastOfTable_short_iff hy' hd']
    rcases Nat.lt_or_eq_of_le hd' with hlt | rfl
    · exact Or.inr ⟨by omega, _, afterDate_short hy hy' hm' hlt,
        .short hy hy' hm hm' (Nat.succ_pos d) hlt⟩
    · rcases Nat.lt_or_eq_of_le hm' with hlt | rfl
      · exact Or.inr ⟨by omega, _, afterDate_short_nine hy hy' (by omega) (by omega),
          shown_daysIn hy hy' (by omega) (by omega)⟩
      · exact Or.inl ⟨⟨rfl, rfl⟩, afterDate_thirteen_nine hy hy'⟩

theorem Shown.before (h : Shown date) (hne : date ≠ "10000101".toList) :
    ∃ date', beforeDate date = some date' ∧ Shown date' := by
  cases h with
  | @full y m d hy hy' hm hm' hd hd' =>
    have h31 := lastShown_le m
    rcases Nat.exists_eq_add_of_le' hd with ⟨k, rfl⟩
    rcases Nat.eq_zero_or_pos k with rfl | hk
    · rcases Nat.exists_eq_add_of_le' hm with ⟨n, rfl⟩
      rcases Nat.eq_zero_or_pos n with rfl | hn
      · -- the first day of a year
        rcases Nat.lt_or_eq_of_le hy with hlt | rfl
        · obtain ⟨z, rfl⟩ : ∃ z, y = z + 1 := ⟨y - 1, by omega⟩
          exact ⟨_, beforeDate_newYear_form (by omega) hy',
            shown_daysIn (m := 12) (by omega) (by omega) (by decide) le_rfl⟩
        · exact absurd (by decide) hne
      · exact ⟨_, beforeDate_first hy hy' (by decide) le_rfl hn (by omega),
          shown_daysIn hy hy' hn (by omega)⟩
    · exact ⟨_, beforeDate_of_pos hy hy' (by decide) le_rfl (by omega) hk (by omega) (by omega),
        .full hy hy' hm hm' hk (by omega)⟩
  | @short y m d hy hy' hm hm' hd hd' =>
    rcases Nat.exists_eq_add_of_le' hd with ⟨k, rfl⟩
    rcases Nat.eq_zero_or_pos k with rfl | hk
    · rcases Nat.exists_eq_add_of_le' (show 1 ≤ m by omega) with ⟨n, rfl⟩
      exact ⟨_, beforeDate_first hy hy' (by decide) (by decide) (by omega) (by omega),
        shown_daysIn hy hy' (by omega) (by omega)⟩
    · exact ⟨_, beforeDate_of_pos hy hy' (by decide) (by decide) (by omega) hk (by omega)
        (by omega), .short hy hy' hm hm' hk (by omega)⟩

end Shown

namespace Screen

variable {γ : Type} {M : Marking Key γ} {s s' : Screen γ} {e : Event}

def NotBeforeFirst (s : Screen γ) (e : Event) : Prop :=
  e = .before → s.date ≠ "10000101".toList

def InTable (s : Screen γ) (e : Event) : Prop := e = .after → ¬ LastOfTable s.date

instance (s : Screen γ) (e : Event) : Decidable (NotBeforeFirst s e) :=
  inferInstanceAs (Decidable (_ → _))

instance (s : Screen γ) (e : Event) : Decidable (InTable s e) :=
  inferInstanceAs (Decidable (_ → _))

theorem date_of_openDate {o : Option Key} (h : openDate M o s = some s') : o = some s'.date := by
  obtain ⟨date, rfl, h⟩ := Option.bind_eq_some_iff.mp h
  obtain ⟨label, -, h⟩ := Option.bind_eq_some_iff.mp h
  obtain rfl := Option.some.inj h
  rfl

theorem shown_step (h : Shown s.date) (hf : NotBeforeFirst s e) (hs : step M s e = some s') :
    Shown s'.date := by
  cases e with
  | before =>
    obtain ⟨date, hb, hsh⟩ := h.before (hf rfl)
    exact Option.some.inj (hb.symm.trans (date_of_openDate hs)) ▸ hsh
  | after =>
    rcases h.after with ⟨-, ha⟩ | ⟨-, date, ha, hsh⟩
    · cases ha.symm.trans (date_of_openDate hs)
    · exact Option.some.inj (ha.symm.trans (date_of_openDate hs)) ▸ hsh
  | edit ed => obtain rfl := Option.some.inj hs; exact h
  | save => obtain rfl := Option.some.inj hs; exact h
  | temporarySave => obtain rfl := Option.some.inj hs; exact h
  | completed i a =>
    cases steps_of_step hs with
    | opened he => rcases he with he | he <;> cases he
    | saved he => rcases he with he | he <;> cases he
    | stray => exact h
    | answered => exact h

/-- A step from a shown date goes through exactly when next stays in the table. -/
theorem isSome_step_iff (h : Shown s.date) (hf : NotBeforeFirst s e) :
    (step M s e).isSome ↔ InTable s e := by
  cases e with
  | before =>
    obtain ⟨date, hb, hsh⟩ := h.before (hf rfl)
    obtain ⟨s', hs', -⟩ := openDate_of_le (M := M) (s := s) hsh.six_le
    refine iff_of_true ?_ (by rintro ⟨⟩)
    rw [step, beforeDiaryButtonClicked, hb, hs']
    rfl
  | after =>
    rcases h.after with ⟨hl, ha⟩ | ⟨hl, date, ha, hsh⟩
    · refine iff_of_false ?_ fun hi => hi rfl hl
      rw [step, afterDiaryButtonClicked, ha]
      exact Bool.false_ne_true
    · obtain ⟨s', hs', -⟩ := openDate_of_le (M := M) (s := s) hsh.six_le
      refine iff_of_true ?_ fun _ => hl
      rw [step, afterDiaryButtonClicked, ha, hs']
      rfl
  | edit ed => exact iff_of_true rfl (by rintro ⟨⟩)
  | save => exact iff_of_true rfl (by rintro ⟨⟩)
  | temporarySave => exact iff_of_true rfl (by rintro ⟨⟩)
  | completed i a =>
    refine iff_of_true ?_ (by rintro ⟨⟩)
    cases hk : s.reads[i]? with
    | none => simp only [step, hk, Option.isSome_some]
    | some key => rw [step_completed hk, Option.isSome_some]

/-- A walk from a day that never presses previous on the first day goes through exactly when
next is never pressed on the ninth day after December. -/
theorem walk_iff (M : Marking Key γ) (uid : Uid) {d : Day} (hd : FourDigit d) :
    ∃ s, viewDidLoad M (some uid) (yyyyMMdd d) = some s ∧
      ∀ es, Along (step M) NotBeforeFirst s es →
        ((run (step M) s es).isSome ↔ Along (step M) InTable s es) := by
  obtain ⟨s, hs, hdate⟩ := exists_viewDidLoad (M := M) uid (six_le_length_form 2 _ _ _)
  refine ⟨s, hs, fun es hf => ?_⟩
  have hsh : Shown s.date := hdate ▸ shown_yyyyMMdd hd
  have hstep : ∀ (s : Screen γ) (e : Event) (s' : Screen γ), Shown s.date →
      NotBeforeFirst s e → step M s e = some s' → Shown s'.date := fun _ _ _ => shown_step
  rw [isSome_run_iff]
  exact along_congr_of_invariant hstep (fun _ _ => isSome_step_iff) hf hsh

/-- From the 30th of December over the end of the year, and back. -/
theorem walk_over_december :
    ∃ s : Screen Char, viewDidLoad plain (some "u") "20211230".toList = some s ∧
      (run (step plain) s [.after, .after, .after, .before, .before, .before]).isSome := by
  let d : Day := ⟨2021, 12, 30, by decide, by decide, by decide, by decide, by decide⟩
  have hd : yyyyMMdd d = "20211230".toList := by decide
  obtain ⟨s, hs, h⟩ := walk_iff plain "u" (d := d) ⟨by decide, by decide⟩
  rw [hd] at hs
  refine ⟨s, hs, (h _ ?_).mpr ?_⟩
  · obtain rfl := Option.some.inj hs
    decide +kernel
  · obtain rfl := Option.some.inj hs
    decide +kernel

/-- Ten presses of next from the last day of December. -/
theorem walk_traps_after_december :
    ¬ ∀ (uid : Uid) (d : Day), FourDigit d →
      ∃ s : Screen Char, viewDidLoad plain (some uid) (yyyyMMdd d) = some s ∧
        ∀ es, Along (step plain) NotBeforeFirst s es → (run (step plain) s es).isSome := by
  intro h
  let d : Day := ⟨2021, 12, 31, by decide, by decide, by decide, by decide, by decide⟩
  have hd : yyyyMMdd d = "20211231".toList := by decide
  obtain ⟨s, hs, hall⟩ := h "u" d ⟨by decide, by decide⟩
  rw [hd] at hs
  obtain rfl := Option.some.inj hs
  have hrun := hall (List.replicate 10 .after) (by decide +kernel)
  exact absurd hrun (by decide +kernel)

end Screen

end Treena.Diary
