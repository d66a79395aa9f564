import Mathlib.Data.Set.Card
import Treena.Book.Basic
import Treena.Diary.Forms

/-! # Every key is a day

The keys come from a date formatter and from the walk of the diary screen. The walk leaves
the days of the calendar at the end of a month only, where the next button builds a key
without a day of two places, or passes on to a day that February does not have.
-/

namespace Treena.Book

open Diary Civil Run

namespace State

def childrenCount (b : State) : ℕ := b.store.keys.length

/-- Every child is the key of one day, the count is the number of days with an entry, and
the entry of a key is opened by selecting its day in the calendar. -/
structure WellKeyed (b : State) : Prop where
  day : ∀ k ∈ b.store, k.length = 8 ∧ ∃! d : Day, yyyyMMdd d = k
  count : b.childrenCount = {d : Day | yyyyMMdd d ∈ b.store}.ncard
  found : ∀ k ∈ b.store, ∃ d : Day, ∀ c : CalendarVC,
    (b.push (.calendar c)).didSelect d =
      some ((b.push (.calendar c)).push (.calendarDiary k))

def firstDay : Day := ⟨1000, 1, 1, by decide, by decide, by decide, by decide, by decide⟩

/-- The runs considered: days picked have four-digit years, and the walk stays after the
first of them. -/
def Allowed (b : State) : Event → Prop
  | .select d => FourDigit d
  | .before => b.diaryKey ≠ some (yyyyMMdd firstDay)
  | _ => True

/-- The next button is not pressed on the last day of a month, and the clock is before the
year 10000. -/
def InMonth (b : State) : Event → Prop
  | .after => ∀ d : Day, b.diaryKey = some (yyyyMMdd d) → ¬ d.IsLast
  | .plusSave today _ => today.year < 10000
  | .plusTemporarySave today _ => today.year < 10000
  | _ => True

structure OnDays (b : State) : Prop where
  keys : ∀ k ∈ b.store, ∃ d : Day, d.year < 10000 ∧ yyyyMMdd d = k
  dates : ∀ date, .calendarDiary date ∈ b.stack → ∃ d : Day, FourDigit d ∧ yyyyMMdd d = date

variable {endpoint : Option String} {b b' : State} {e : Event} {k : Key}

theorem didSelect_calendar {d : Day} {c : CalendarVC} {rest : List Screen} (hd : d.year < 10000)
    (hst : b.stack = .calendar c :: rest) :
    b.didSelect d = some (b.push (.calendarDiary (yyyyMMdd d))) := by
  obtain ⟨l, hl⟩ := Option.isSome_iff_exists.mp
    (setDate_isSome (by rw [length_yyyyMMdd hd]; decide))
  simp [didSelect, hst, hl]

theorem step_select {d : Day} {c : CalendarVC} {rest : List Screen} (hr : b.crashed = false)
    (hd : d.year < 10000) (hst : b.stack = .calendar c :: rest) :
    step endpoint b (.select d) = some (b.push (.calendarDiary (yyyyMMdd d))) := by
  simp only [step, hr, Bool.false_eq_true, if_false]
  exact didSelect_calendar hd hst

theorem OnDays.wellKeyed (h : OnDays b) : WellKeyed b := by
  have hlen : ∀ k ∈ b.store, k.length = 8 := by
    intro k hk
    obtain ⟨d, hd, rfl⟩ := h.keys k hk
    exact length_yyyyMMdd hd
  constructor
  · intro k hk
    obtain ⟨d, -, hd⟩ := h.keys k hk
    exact ⟨hlen k hk, d, hd, fun e he => yyyyMMdd_injective (he.trans hd.symm)⟩
  · have hsub : {k | k ∈ b.store} ⊆ Set.range yyyyMMdd := by
      intro k hk
      obtain ⟨d, -, hd⟩ := h.keys k hk
      exact ⟨d, hd⟩
    have hkeys : {k | k ∈ b.store} = ↑b.store.keys.toFinset := by
      ext k; simp [AList.mem_keys]
    calc b.childrenCount = b.store.keys.toFinset.card :=
          (List.toFinset_card_of_nodup b.store.keys_nodup).symm
      _ = {k | k ∈ b.store}.ncard := by rw [hkeys, Set.ncard_coe_finset]
      _ = (Set.preimage yyyyMMdd {k | k ∈ b.store}).ncard :=
          (Set.ncard_preimage_of_injective_subset_range yyyyMMdd_injective hsub).symm
  · intro k hk
    obtain ⟨d, hd, rfl⟩ := h.keys k hk
    exact ⟨d, fun c => didSelect_calendar hd rfl⟩

theorem OnDays.diaryKey (h : OnDays b) (hk : b.diaryKey = some k) :
    ∃ d : Day, FourDigit d ∧ yyyyMMdd d = k := by
  unfold State.diaryKey at hk
  split at hk
  · rename_i date rest hst
    obtain rfl := Option.some.inj hk
    exact h.dates date (by simp [hst])
  · cases hk

theorem plusKey_eq_some {today : Day} (hk : b.plusKey today = some k) : yyyyMMdd today = k := by
  unfold plusKey at hk
  split at hk
  · exact Option.some.inj hk
  · cases hk

theorem OnDays.savedKey (h : OnDays b) (hc : InMonth b e) (hk : b.savedKey e = some k) :
    ∃ d : Day, d.year < 10000 ∧ yyyyMMdd d = k := by
  cases e with
  | save text => obtain ⟨d, hd, he⟩ := h.diaryKey hk; exact ⟨d, hd.2, he⟩
  | temporarySave text => obtain ⟨d, hd, he⟩ := h.diaryKey hk; exact ⟨d, hd.2, he⟩
  | plusSave today text => exact ⟨today, hc, plusKey_eq_some hk⟩
  | plusTemporarySave today text => exact ⟨today, hc, plusKey_eq_some hk⟩
  | _ => cases hk

/-- Every date that a step opens is that of a day. -/
theorem OnDays.arises (h : OnDays b) (ha : Allowed b e) (hc : InMonth b e) {date : Key}
    (hx : Arises b e (.calendarDiary date)) : ∃ d : Day, FourDigit d ∧ yyyyMMdd d = date := by
  cases hx with
  | old hm => exact h.dates date hm
  | @selected d he => subst he; exact ⟨d, ha, rfl⟩
  | @before old _ hm hk he hd =>
    subst he
    obtain ⟨d, hd4, rfl⟩ := h.dates old hm
    have hne : ¬ (d.year = 1000 ∧ d.month = 1 ∧ d.day = 1) := by
      rintro ⟨hy, hmo, hda⟩
      obtain rfl : d = firstDay := Day.ext hy hmo hda
      exact ha hk
    obtain ⟨d', hd4', hd'⟩ := beforeDate_fourDigit hd4 hne
    exact ⟨d', hd4', Option.some.inj (hd'.symm.trans hd)⟩
  | @after old _ hm hk he hd =>
    subst he
    obtain ⟨d, hd4, rfl⟩ := h.dates old hm
    obtain ⟨d', hd', hy, -, -⟩ := afterDate_of_not_isLast hd4 (hc d hk)
    refine ⟨d', ?_, Option.some.inj (hd'.symm.trans hd)⟩
    unfold FourDigit at hd4 ⊢
    omega

theorem onDays_step (h : OnDays b) (hc : Allowed b e ∧ InMonth b e)
    (hs : step endpoint b e = some b') : OnDays b' := by
  rcases step_cases hs with ⟨k, text, hk, hst, hsk⟩ | ⟨hst, hsk⟩
  · refine ⟨fun k' hk' => ?_, hsk ▸ h.dates⟩
    rw [hst] at hk'
    rcases AList.mem_insert _ |>.mp hk' with rfl | hk'
    · exact h.savedKey hc.2 hk
    · exact h.keys k' hk'
  · exact ⟨hst ▸ h.keys, fun date hm => h.arises hc.1 hc.2 (hsk _ hm)⟩

theorem onDays_initial : OnDays initial := by
  constructor
  · intro k hk
    exact absurd hk (AList.notMem_empty k)
  · intro date hm
    simp [initial] at hm

/-- In every run that never presses next on the last day of a month, every key is a day. -/
theorem keys_are_days (endpoint : Option String) {es : List Event}
    (h : Along (step endpoint) (fun b e => Allowed b e ∧ InMonth b e) initial es) :
    Always (step endpoint) WellKeyed initial es := by
  apply Always.mono fun _ => OnDays.wellKeyed
  exact Always.of_invariant (fun _ _ _ => onDays_step) h onDays_initial

/-- Next is pressed on the 29th of April, and an entry saved for the 30th. -/
theorem keys_are_days_of_next_in_april :
    let d : Day := ⟨2021, 4, 29, by decide, by decide, by decide, by decide, by decide⟩
    Always (step none) WellKeyed initial [.calendarButton, .select d, .after, .save ['a']] := by
  intro d
  have hin : ∀ d' : Day, some (yyyyMMdd d) = some (yyyyMMdd d') → ¬ d'.IsLast := by
    intro d' h
    obtain rfl := yyyyMMdd_injective (Option.some.inj h)
    decide
  refine keys_are_days none ⟨⟨trivial, trivial⟩, fun s₁ h₁ => ?_⟩
  obtain rfl := Option.some.inj h₁
  refine ⟨⟨⟨by decide, by decide⟩, trivial⟩, fun s₂ h₂ => ?_⟩
  obtain rfl := Option.some.inj ((step_select rfl (by decide) rfl).symm.trans h₂)
  refine ⟨⟨trivial, hin⟩, fun s₃ h₃ => ?_⟩
  exact ⟨⟨trivial, trivial⟩, fun _ _ => trivial⟩

/-- Next on the 30th of April, and the entry is stored under a key of seven characters. -/
theorem next_on_april_30_stores_no_day :
    ¬ ∀ (endpoint : Option String) (es : List Event),
      Along (step endpoint) Allowed initial es → Always (step endpoint) WellKeyed initial es := by
  intro h
  let d : Day := ⟨2021, 4, 30, by decide, by decide, by decide, by decide, by decide⟩
  have hc : Along (step none) Allowed initial
      [.calendarButton, .select d, .after, .save ['a']] := by
    refine ⟨trivial, fun s₁ h₁ => ?_⟩
    obtain rfl := Option.some.inj h₁
    exact ⟨⟨by decide, by decide⟩, fun _ _ => ⟨trivial, fun _ _ => ⟨trivial, fun _ _ => trivial⟩⟩⟩
  have hk : (run (step none) initial [.calendarButton, .select d, .after, .save ['a']]).map
      (fun b => b.store.keys) = some ["2021051".toList] := by
    decide +kernel
  obtain ⟨b, hb, hk⟩ := Option.map_eq_some_iff.mp hk
  have hw := ((h none _ hc).reached hb).day "2021051".toList
    (AList.mem_keys.mpr (hk ▸ List.mem_singleton_self _))
  exact absurd hw.1 (by decide)

end State

end Treena.Book
