import Treena.Plus.Session

/-! # The screens on top of a diary

The new-entry screen and the diary screen write into the diary of one user. Each of them, on
top of the stack, does what the diary says of its buttons; what is typed and what is read
there leaves the diary alone.
-/

namespace Treena.Book

open Text Firebase Diary Civil Run

/-- A screen stands on top of a stack, and everything that it has written is in the store. -/
structure OnTop (uid : Uid) (store : Store) (rest : List Screen) (top : Screen) (crashed : Bool)
    (writes : List (Write Char)) (b : State) : Prop where
  stack : b.stack = top :: rest
  store : b.store = children uid store writes
  crashed : b.crashed = crashed

variable {uid : Uid} {store : Store} {rest : List Screen} {b : State} {endpoint : Option String}

section Plus

variable {s s' : Plus.Screen Char} {es : List Plus.Event}

structure OnPlus (uid : Uid) (store : Store) (rest : List Screen) (s : Plus.Screen Char)
    (b : State) : Prop where
  onTop : OnTop uid store rest .plus s.crashed s.writes b
  uid : s.uid = some uid

theorem onPlus_viewDidLoad {today : Day} (hst : b.stack = .home :: rest)
    (hc : b.crashed = false) : OnPlus uid b.store (.home :: rest)
      (Plus.Screen.viewDidLoad plain (some uid) today) b.plusButtonClicked := by
  have hb : b.plusButtonClicked = b.push .plus := by rw [State.plusButtonClicked, hst]
  rw [hb]
  exact ⟨⟨congrArg _ hst, rfl, hc⟩, rfl⟩

theorem OnPlus.postTest (h : OnPlus uid store rest s b) : OnPlus uid store rest
    (s.postTest endpoint) { b with crashed := s.crashed || endpoint.isNone } := by
  obtain ⟨⟨hst, hstore, hc⟩, hu⟩ := h
  cases endpoint with
  | none => exact ⟨⟨hst, hstore, (Bool.or_true _)⟩, hu⟩
  | some url => exact ⟨⟨hst, hstore, Bool.or_false _⟩, hu⟩

theorem OnPlus.saveAt (h : OnPlus uid store rest s b) (today : Day) :
    OnPlus uid store rest
      { s with writes := s.writes ++ [⟨uid, yyyyMMdd today, s.editor.view.text⟩] }
      (b.saveAt (b.plusKey today) s.editor.view.text) := by
  obtain ⟨⟨hst, hstore, hc⟩, hu⟩ := h
  have hkey : b.plusKey today = some (yyyyMMdd today) := by rw [State.plusKey, hst]
  rw [hkey]
  refine ⟨⟨hst, ?_, hc⟩, hu⟩
  dsimp only [State.saveAt, State.setValue]
  rw [children_append_singleton, if_pos rfl, hstore]

theorem OnPlus.step {e : Plus.Event} (h : OnPlus uid store rest s b)
    (hs : s.step plain endpoint e = some s') :
    ∃ bs b', run (State.step endpoint) b bs = some b' ∧ OnPlus uid store rest s' b' := by
  unfold Plus.Screen.step at hs
  split_ifs at hs with hc
  have hb : ¬ b.crashed = true := fun hb => hc (h.onTop.crashed ▸ hb)
  cases e with
  | edit ed =>
    obtain rfl := Option.some.inj hs
    exact ⟨[], b, rfl, h.onTop, h.uid⟩
  | save today =>
    obtain ⟨u, hu, hs⟩ := Option.bind_eq_some_iff.mp hs
    obtain rfl := Option.some.inj (h.uid.symm.trans hu)
    obtain rfl := Option.some.inj hs
    have hkey : b.plusKey today = some (yyyyMMdd today) := by rw [State.plusKey, h.onTop.stack]
    refine ⟨[.plusSave today s.editor.view.text], _, ?_, (h.saveAt today).postTest⟩
    rw [run_cons, State.step, if_neg hb, Option.bind_some, run_nil, hkey]
    simp [hc]
  | temporarySave today =>
    obtain ⟨u, hu, hs⟩ := Option.bind_eq_some_iff.mp hs
    obtain rfl := Option.some.inj (h.uid.symm.trans hu)
    obtain rfl := Option.some.inj hs
    refine ⟨[.plusTemporarySave today s.editor.view.text], _, ?_, h.saveAt today⟩
    rw [run_cons, State.step, if_neg hb, Option.bind_some, run_nil]

/-- A run of the new-entry screen is a run of the diary under it. -/
theorem run_onPlus (h : OnPlus uid store rest s b)
    (hr : run (Plus.Screen.step plain endpoint) s es = some s') :
    ∃ bs b', run (State.step endpoint) b bs = some b' ∧ OnPlus uid store rest s' b' :=
  run_followed (fun _ _ _ _ h hs => h.step hs) h hr

end Plus

section CalendarDiary

variable {s s' : Diary.Screen Char} {es : List Diary.Event}

structure OnDiary (uid : Uid) (store : Store) (rest : List Screen) (s : Diary.Screen Char)
    (b : State) : Prop where
  onTop : OnTop uid store rest (.calendarDiary s.date) false s.writes b
  uid : s.uid = uid

theorem onDiary_viewDidLoad {c : CalendarVC} {d : Day} (hst : b.stack = .calendar c :: rest)
    (hc : b.crashed = false)
    (hs : Diary.Screen.viewDidLoad plain (some uid) (yyyyMMdd d) = some s) :
    ∃ b', b.didSelect d = some b' ∧ OnDiary uid b.store (.calendar c :: rest) s b' := by
  obtain ⟨label, hlabel, hs⟩ := Option.bind_eq_some_iff.mp hs
  obtain ⟨u, hu, hs⟩ := Option.bind_eq_some_iff.mp hs
  obtain rfl := Option.some.inj hs
  obtain rfl := Option.some.inj hu
  refine ⟨b.push (.calendarDiary (yyyyMMdd d)), ?_, ⟨congrArg _ hst, rfl, hc⟩, rfl⟩
  simp [State.didSelect, hst, hlabel]

theorem OnDiary.walk {next : Key → Option Key} (h : OnDiary uid store rest s b)
    (hs : Diary.Screen.openDate plain (next s.date) s = some s') :
    ∃ b', b.walk next = some b' ∧ OnDiary uid store rest s' b' := by
  obtain ⟨⟨hst, hstore, hc⟩, hu⟩ := h
  obtain ⟨date, hdate, hs⟩ := Option.bind_eq_some_iff.mp hs
  obtain ⟨label, hlabel, hs⟩ := Option.bind_eq_some_iff.mp hs
  obtain rfl := Option.some.inj hs
  refine ⟨{ b with stack := .calendarDiary date :: rest }, ?_, ⟨rfl, hstore, hc⟩, hu⟩
  simp [State.walk, hst, hdate, hlabel]

theorem OnDiary.saveAt (h : OnDiary uid store rest s b) :
    OnDiary uid store rest s.saveButtonClicked (b.saveAt b.diaryKey s.editor.view.text) := by
  obtain ⟨⟨hst, hstore, hc⟩, hu⟩ := h
  have hkey : b.diaryKey = some s.date := by rw [State.diaryKey, hst]
  rw [hkey]
  refine ⟨⟨hst, ?_, hc⟩, hu⟩
  dsimp only [State.saveAt, State.setValue, Diary.Screen.saveButtonClicked]
  rw [children_append_singleton, if_pos hu, hstore]

theorem OnDiary.step {e : Diary.Event} (h : OnDiary uid store rest s b)
    (hs : s.step plain e = some s') :
    ∃ bs b', run (State.step endpoint) b bs = some b' ∧ OnDiary uid store rest s' b' := by
  have hb : ¬ b.crashed = true := fun hb => by rw [h.onTop.crashed] at hb; cases hb
  cases e with
  | edit ed =>
    obtain rfl := Option.some.inj hs
    exact ⟨[], b, rfl, h.onTop, h.uid⟩
  | before =>
    obtain ⟨b', hw, hd⟩ := h.walk hs
    refine ⟨[.before], b', ?_, hd⟩
    rw [run_cons, State.step, if_neg hb]
    exact Option.bind_eq_some_iff.mpr ⟨b', hw, rfl⟩
  | after =>
    obtain ⟨b', hw, hd⟩ := h.walk hs
    refine ⟨[.after], b', ?_, hd⟩
    rw [run_cons, State.step, if_neg hb]
    exact Option.bind_eq_some_iff.mpr ⟨b', hw, rfl⟩
  | save =>
    obtain rfl := Option.some.inj hs
    refine ⟨[.save s.editor.view.text], _, ?_, h.saveAt⟩
    rw [run_cons, State.step, if_neg hb, Option.bind_some, run_nil]
  | temporarySave =>
    obtain rfl := Option.some.inj hs
    refine ⟨[.temporarySave s.editor.view.text], _, ?_, h.saveAt⟩
    rw [run_cons, State.step, if_neg hb, Option.bind_some, run_nil]
  | completed i a =>
    cases Diary.Screen.steps_of_step hs with
    | opened he => rcases he with he | he <;> cases he
    | saved he => rcases he with he | he <;> cases he
    | stray => exact ⟨[], b, rfl, h.onTop, h.uid⟩
    | answered => exact ⟨[], b, rfl, h.onTop, h.uid⟩

/-- A run of the diary screen is a run of the diary under it. -/
theorem run_onDiary (h : OnDiary uid store rest s b)
    (hr : run (Diary.Screen.step plain) s es = some s') :
    ∃ bs b', run (State.step endpoint) b bs = some b' ∧ OnDiary uid store rest s' b' :=
  run_followed (fun _ _ _ _ h hs => h.step hs) h hr

end CalendarDiary

end Treena.Book
