import Treena.Book.Keys

/-! # The marks of the calendar

The calendar marks the days of its copy of the keys. The copy is that of the moment when the
read was sent, and stays right as long as no day gets its first entry after that.
-/

namespace Treena.Book

open Diary Civil Run

/-- On the days, the copy and the answer on its way agree with the store. -/
def CalendarVC.Synced (store : Store) (c : CalendarVC) : Prop :=
  match c.read with
  | .waiting => c.datesWithDiary = []
  | .sent keys => c.datesWithDiary = [] ∧ ∀ d, yyyyMMdd d ∈ keys ↔ yyyyMMdd d ∈ store
  | .delivered => ∀ d, yyyyMMdd d ∈ c.datesWithDiary ↔ yyyyMMdd d ∈ store
  | .failed => True

namespace CalendarVC

variable {store : Store} {c : CalendarVC} {k : Key} {text : List Char}

theorem imageFor_eq_some {d : Day} :
    c.imageFor d = some "icon_cat" ↔ yyyyMMdd d ∈ c.datesWithDiary := by
  simp [imageFor]

theorem synced_viewDidLoad (connected : Bool) : Synced store (viewDidLoad connected store) := by
  cases connected with
  | false => rfl
  | true => exact ⟨rfl, fun _ => AList.mem_keys.symm⟩

theorem Synced.send (h : Synced store c) : Synced store (c.send store) := by
  unfold CalendarVC.send
  split
  · rename_i hc
    simp only [Synced, hc] at h
    exact ⟨h, fun d => AList.mem_keys.symm⟩
  · exact h

theorem Synced.lose (h : Synced store c) : Synced store c.lose := by
  unfold CalendarVC.lose
  split
  · rename_i hc
    simp only [Synced, hc] at h
    exact h.1
  · exact h

theorem Synced.deliver (h : Synced store c) : Synced store c.deliver := by
  unfold CalendarVC.deliver
  split
  · rename_i keys hc
    simp only [Synced, hc] at h
    simpa [Synced, h.1] using h.2
  · exact h

theorem Synced.fail (h : Synced store c) : Synced store c.fail := by
  unfold CalendarVC.fail
  split
  · trivial
  · trivial
  · exact h

theorem Synced.insert_of_days (h : Synced store c)
    (hk : ∀ d, yyyyMMdd d ∈ store.insert k text ↔ yyyyMMdd d ∈ store) :
    Synced (store.insert k text) c := by
  unfold Synced at h ⊢
  split
  · rename_i hc; simpa [hc] using h
  · rename_i keys hc
    simp only [hc] at h
    exact ⟨h.1, fun d => (h.2 d).trans (hk d).symm⟩
  · rename_i hc
    simp only [hc] at h
    exact fun d => (h d).trans (hk d).symm
  · trivial

/-- Any write leaves a read alone that has not been sent. -/
theorem Synced.insert_of_unsent (h : Synced store c) (hc : c.read = .waiting ∨ c.read = .failed) :
    Synced (store.insert k text) c := by
  rcases hc with hc | hc
  · simpa [Synced, hc] using h
  · simp [Synced, hc]

end CalendarVC

namespace State

/-- When no write is pending, the icons of the top calendar are on the days with an entry. -/
def Marked (b : State) : Prop :=
  b.pendingWrites = 0 → ∀ c rest, b.stack = .calendar c :: rest → c.read = .delivered →
    ∀ d : Day, c.imageFor d = some "icon_cat" ↔ yyyyMMdd d ∈ b.store

/-- No day gets its first entry while a calendar below has its keys or has asked for them. -/
def NoNewDay (b : State) (e : Event) : Prop :=
  ∀ k ∈ b.savedKey e, k ∈ b.store ∨ (∀ d, yyyyMMdd d ≠ k) ∨
    ∀ c, .calendar c ∈ b.stack → c.read = .waiting ∨ c.read = .failed

def AllSynced (b : State) : Prop := ∀ c, .calendar c ∈ b.stack → c.Synced b.store

variable {endpoint : Option String} {b b' : State} {e : Event}

theorem AllSynced.marked (h : AllSynced b) : Marked b := by
  intro _ c rest hst hc d
  have hs := h c (by simp [hst])
  simp only [CalendarVC.Synced, hc] at hs
  exact CalendarVC.imageFor_eq_some.trans (hs d)

theorem AllSynced.arises (h : AllSynced b) {c : CalendarVC} (hx : Arises b e (.calendar c)) :
    c.Synced b.store := by
  cases hx with
  | old hm => exact h c hm
  | calendar => exact CalendarVC.synced_viewDidLoad _
  | sent hm => exact (h _ hm).send
  | lost hm => exact (h _ hm).lose
  | delivered hm => exact (h _ hm).deliver
  | failed hm => exact (h _ hm).fail

theorem mem_insert_iff_of_noNewDay {k : Key} {text : List Char}
    (hk : k ∈ b.store ∨ ∀ d, yyyyMMdd d ≠ k) (d : Day) :
    yyyyMMdd d ∈ b.store.insert k text ↔ yyyyMMdd d ∈ b.store := by
  rw [AList.mem_insert]
  constructor
  · rintro (he | hd)
    · rcases hk with hk | hk
      · exact he ▸ hk
      · exact absurd he (hk d)
    · exact hd
  · exact Or.inr

theorem allSynced_step (h : AllSynced b) (hc : NoNewDay b e) (hs : step endpoint b e = some b') :
    AllSynced b' := by
  rcases step_cases hs with ⟨k, text, hk, hst, hsk⟩ | ⟨hst, hsk⟩
  · intro c hm
    rw [hsk] at hm
    rw [hst]
    rcases hc k hk with hold | hday | hunsent
    · exact (h c hm).insert_of_days (mem_insert_iff_of_noNewDay (Or.inl hold))
    · exact (h c hm).insert_of_days (mem_insert_iff_of_noNewDay (Or.inr hday))
    · exact (h c hm).insert_of_unsent (hunsent c hm)
  · intro c hm
    rw [hst]
    exact h.arises (hsk _ hm)

theorem allSynced_initial : AllSynced initial := by
  intro c hm
  simp [initial] at hm

/-- In every run in which no day gets its first entry above a calendar that has its keys or has
asked for them, the marks are right. -/
theorem marks_match_store (endpoint : Option String) {es : List Event}
    (h : Along (step endpoint) NoNewDay initial es) :
    Always (step endpoint) Marked initial es := by
  apply Always.mono fun _ => AllSynced.marked
  exact Always.of_invariant (fun _ _ _ => allSynced_step) h allSynced_initial

/-- The first entry is saved without a connection, and the keys are read after it, when the
connection is back. -/
theorem marks_match_store_of_late_read :
    let d : Day := ⟨2021, 4, 29, by decide, by decide, by decide, by decide, by decide⟩
    Always (step none) Marked initial
      [.disconnect, .calendarButton, .select d, .save ['a'], .back, .connect, .acknowledge,
        .deliver 0] := by
  intro d
  have hquiet : ∀ (b : State) (e : Event), b.savedKey e = none → NoNewDay b e := by
    intro b e h k hk
    rw [h] at hk
    cases hk
  refine marks_match_store none ⟨hquiet _ _ rfl, fun s₁ h₁ => ?_⟩
  obtain rfl := Option.some.inj h₁
  refine ⟨hquiet _ _ rfl, fun s₂ h₂ => ?_⟩
  obtain rfl := Option.some.inj h₂
  refine ⟨hquiet _ _ rfl, fun s₃ h₃ => ?_⟩
  obtain rfl := Option.some.inj ((step_select rfl (by decide) rfl).symm.trans h₃)
  refine ⟨fun k _ => Or.inr (Or.inr fun c hc => ?_), fun s₄ _ => ⟨hquiet _ _ rfl, fun s₅ _ =>
    ⟨hquiet _ _ rfl, fun s₆ _ => ⟨hquiet _ _ rfl, fun s₇ _ => ⟨hquiet _ _ rfl,
      fun _ _ => trivial⟩⟩⟩⟩⟩
  obtain rfl : c = .viewDidLoad false ∅ := by
    simpa [push, calendarButtonClicked, disconnect, initial, Screen.onCalendar] using hc
  exact Or.inl rfl

/-- The first entry of a day is saved before the calendar's read has answered, and the calendar
shows no icon for it. -/
theorem save_leaves_no_mark :
    ¬ ∀ (endpoint : Option String) (es : List Event), Always (step endpoint) Marked initial es := by
  intro h
  let d : Day := ⟨2021, 4, 29, by decide, by decide, by decide, by decide, by decide⟩
  let es : List Event := [.calendarButton, .select d, .save ['a'], .back, .deliver 0, .acknowledge]
  have hk : (run (step none) initial es).map (fun b => (b.pendingWrites, b.stack, b.store.keys)) =
      some (0, [.calendar ⟨.delivered, []⟩, .home], [yyyyMMdd d]) := by
    decide +kernel
  obtain ⟨b, hb, hk⟩ := Option.map_eq_some_iff.mp hk
  obtain ⟨hw, hst, hkeys⟩ : b.pendingWrites = 0 ∧
      b.stack = [.calendar ⟨.delivered, []⟩, .home] ∧ b.store.keys = [yyyyMMdd d] := by
    simpa using hk
  have hm : yyyyMMdd d ∈ b.store := AList.mem_keys.mpr (hkeys ▸ List.mem_singleton_self _)
  have hi := (((h none es).reached hb) hw _ _ hst rfl d).mpr hm
  cases hi

end State

end Treena.Book
