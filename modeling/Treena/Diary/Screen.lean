import Treena.Diary.Editor
import Treena.Firebase.Basic
import Treena.Run.Basic

/-! # The diary screen

The state of `CalendarDiaryViewController` for one user: the date, the text view, the
reads of `readDiary` that have no completion yet, and the calls of `setValue`. Reads
answer in any order and with any of their three outcomes.
-/

namespace Treena.Diary

open Text Firebase Run

/-- A `setValue` on `diary/<uid>/<key>`. -/
structure Write (γ : Type) where
  uid : Uid
  key : Key
  text : List γ

/-- The outcome of a `getData` on a day: an error, no data, or the stored text. -/
inductive Answer
  | error
  | noData
  | value (text : List Char)
  deriving DecidableEq

structure Screen (γ : Type) where
  uid : Uid
  date : Key
  thisDateLabel : List Char
  editor : Editor γ
  /-- The keys of the reads without a completion, in the order of issue. -/
  reads : List Key
  writes : List (Write γ)

inductive Event
  | edit (e : Edit)
  | before
  | after
  | save
  | temporarySave
  | completed (i : ℕ) (a : Answer)
  deriving DecidableEq

namespace Screen

variable {γ δ : Type} (M : Marking Key γ)

def viewDidLoad (currentUser : Option Uid) (date : Key) : Option (Screen γ) := do
  let uid := bindUid currentUser none
  let label ← setDate date
  let uid ← uid
  return ⟨uid, date, label, ⟨placeholderSetting M, false⟩, [date], []⟩

/-- The completion handler of `readDiary` for the date it was issued for. -/
def readDiaryCompletion (key : Key) (diaryTextView : TextView γ) : Answer → TextView γ
  | .error => diaryTextView
  | .value text => ⟨text.map (M.mark (.read key)), .black⟩
  | .noData => placeholderSetting M

def saveButtonClicked (s : Screen γ) : Screen γ :=
  { s with writes := s.writes ++ [⟨s.uid, s.date, s.editor.view.text⟩] }

def temporaySaveButtonClicked (s : Screen γ) : Screen γ :=
  { s with writes := s.writes ++ [⟨s.uid, s.date, s.editor.view.text⟩] }

/-- The two navigation buttons: a new date, its label and a read, but not its text. -/
def openDate (date : Option Key) (s : Screen γ) : Option (Screen γ) := do
  let date ← date
  let label ← setDate date
  return { s with
    date := date
    thisDateLabel := label
    editor.view.text := s.editor.view.text.map M.age
    reads := s.reads ++ [date] }

def beforeDiaryButtonClicked (s : Screen γ) : Option (Screen γ) := openDate M (beforeDate s.date) s

def afterDiaryButtonClicked (s : Screen γ) : Option (Screen γ) := openDate M (afterDate s.date) s

def step (s : Screen γ) : Event → Option (Screen γ)
  | .edit e => some { s with editor := s.editor.step M e }
  | .before => beforeDiaryButtonClicked M s
  | .after => afterDiaryButtonClicked M s
  | .save => some s.saveButtonClicked
  | .temporarySave => some s.temporaySaveButtonClicked
  | .completed i a =>
    match s.reads[i]? with
    | none => some s
    | some key => some { s with
        editor.view := readDiaryCompletion M key s.editor.view a
        reads := s.reads.eraseIdx i }

def opened (date : Key) (label : List Char) (s : Screen γ) : Screen γ :=
  { s with
    date := date
    thisDateLabel := label
    editor.view.text := s.editor.view.text.map M.age
    reads := s.reads ++ [date] }

/-- The screen after the answer to its `i`th read, which was for `key`. -/
def answered (i : ℕ) (key : Key) (a : Answer) (s : Screen γ) : Screen γ :=
  { s with
    editor.view := readDiaryCompletion M key s.editor.view a
    reads := s.reads.eraseIdx i }

inductive Steps (s : Screen γ) : Event → Screen γ → Prop
  | edit {ed : Edit} : Steps s (.edit ed) { s with editor := s.editor.step M ed }
  | opened {e : Event} {date : Key} {label : List Char} : (e = .before ∨ e = .after) →
      Steps s e (s.opened M date label)
  | saved {e : Event} : (e = .save ∨ e = .temporarySave) → Steps s e s.saveButtonClicked
  | stray {i : ℕ} {a : Answer} : s.reads[i]? = none → Steps s (.completed i a) s
  | answered {i : ℕ} {a : Answer} {key : Key} : s.reads[i]? = some key →
      Steps s (.completed i a) (s.answered M i key a)

section Inversion

variable {M} {s s' : Screen γ} {e : Event}

theorem viewDidLoad_eq_some {currentUser : Option Uid} {date : Key}
    (h : viewDidLoad M currentUser date = some s) :
    ∃ uid label, s = ⟨uid, date, label, ⟨placeholderSetting M, false⟩, [date], []⟩ := by
  obtain ⟨label, -, h⟩ := Option.bind_eq_some_iff.mp h
  obtain ⟨uid, -, h⟩ := Option.bind_eq_some_iff.mp h
  exact ⟨uid, label, (Option.some.inj h).symm⟩

theorem openDate_eq_some {d : Option Key} (h : openDate M d s = some s') :
    ∃ date label, s' = s.opened M date label := by
  obtain ⟨date, -, h⟩ := Option.bind_eq_some_iff.mp h
  obtain ⟨label, -, h⟩ := Option.bind_eq_some_iff.mp h
  exact ⟨date, label, (Option.some.inj h).symm⟩

theorem step_completed {i : ℕ} {a : Answer} {key : Key} (hk : s.reads[i]? = some key) :
    step M s (.completed i a) = some (s.answered M i key a) := by
  simp only [step, hk, answered]

theorem steps_of_step (h : step M s e = some s') : Steps M s e s' := by
  cases e with
  | edit ed => obtain rfl := Option.some.inj h; exact .edit
  | before => obtain ⟨date, label, rfl⟩ := openDate_eq_some h; exact .opened (Or.inl rfl)
  | after => obtain ⟨date, label, rfl⟩ := openDate_eq_some h; exact .opened (Or.inr rfl)
  | save => obtain rfl := Option.some.inj h; exact .saved (Or.inl rfl)
  | temporarySave => obtain rfl := Option.some.inj h; exact .saved (Or.inr rfl)
  | completed i a =>
    cases hk : s.reads[i]? with
    | none =>
      simp only [step, hk, Option.some.injEq] at h
      exact h ▸ .stray hk
    | some key =>
      obtain rfl := Option.some.inj ((step_completed hk).symm.trans h)
      exact .answered hk

end Inversion

section Erasure

/-! The screen over plain characters is the one over traced characters with the origins
forgotten. -/

def map (f : γ → δ) (s : Screen γ) : Screen δ where
  uid := s.uid
  date := s.date
  thisDateLabel := s.thisDateLabel
  editor := s.editor.map f
  reads := s.reads
  writes := s.writes.map fun w => ⟨w.uid, w.key, w.text.map f⟩

variable {M} {N : Marking Key δ} {f : γ → δ}

theorem map_viewDidLoad (h : M.Hom N f) (currentUser : Option Uid) (date : Key) :
    (viewDidLoad M currentUser date).map (map f) = viewDidLoad N currentUser date := by
  have hp : Editor.map f ⟨placeholderSetting M, false⟩ = ⟨placeholderSetting N, false⟩ := by
    simp only [Editor.map, placeholderSetting, map_prompt h]
  cases currentUser <;> cases hl : setDate date <;>
    simp [viewDidLoad, bindUid, hl, map, hp]

theorem map_readDiaryCompletion (h : M.Hom N f) (key : Key) (v : TextView γ) (a : Answer) :
    (⟨(readDiaryCompletion M key v a).text.map f, (readDiaryCompletion M key v a).textColor⟩ :
      TextView δ) = readDiaryCompletion N key ⟨v.text.map f, v.textColor⟩ a := by
  cases a with
  | error => rfl
  | noData => simp only [readDiaryCompletion, placeholderSetting, map_prompt h]
  | value text => simp only [readDiaryCompletion, h.map_mark]

theorem map_openDate (h : M.Hom N f) (date : Option Key) (s : Screen γ) :
    (openDate M date s).map (map f) = openDate N date (s.map f) := by
  cases date with
  | none => rfl
  | some d =>
    cases hl : setDate d with
    | none => simp [openDate, hl]
    | some l => simp [openDate, hl, map, Editor.map, h.age]

theorem map_step (h : M.Hom N f) (s : Screen γ) (e : Event) :
    step N (s.map f) e = (step M s e).map (map f) := by
  cases e with
  | edit e =>
    have he : (s.map f).editor = s.editor.map f := rfl
    simp only [step, Option.map_some, he, ← Editor.map_step h]; rfl
  | before => exact (map_openDate h _ s).symm
  | after => exact (map_openDate h _ s).symm
  | save => simp [step, saveButtonClicked, map, Editor.map]
  | temporarySave => simp [step, temporaySaveButtonClicked, map, Editor.map]
  | completed i a =>
    have hr : (s.map f).reads = s.reads := rfl
    cases hk : s.reads[i]? with
    | none => simp [step, hr, hk]
    | some key =>
      simp only [step, hr, hk, Option.map_some]
      rw [show (s.map f).editor.view = ⟨s.editor.view.text.map f, s.editor.view.textColor⟩ from rfl,
        ← map_readDiaryCompletion h]
      rfl

/-- Every run over plain characters is the image of the run over traced characters. -/
theorem erase_run {currentUser : Option Uid} {date : Key} {s : Screen (Char × Origin Key)}
    (hload : viewDidLoad traced currentUser date = some s) (es : List Event) :
    viewDidLoad plain currentUser date = some (s.map Prod.fst) ∧
      run (step plain) (s.map Prod.fst) es = (run (step traced) s es).map (map Prod.fst) := by
  constructor
  · rw [← map_viewDidLoad erase_hom, hload, Option.map_some]
  · exact run_map (map_step erase_hom)

end Erasure

end Screen

end Treena.Diary
