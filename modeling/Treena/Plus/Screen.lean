import Treena.Diary.Screen

/-! # The new-entry screen

`PlusViewController` writes the text view under the day that the clock shows at the press.
A save also posts the text to the emotion model; in the source the address of the model is
the empty string, which is no URL.
-/

namespace Treena.Plus

open Text Firebase Diary Decimal Civil Run

structure Screen (γ : Type) where
  uid : Option Uid
  dateLabel : List Char
  editor : Editor γ
  writes : List (Write γ)
  /-- The `context` of the requests that `postTest` has sent. -/
  requests : List (List γ)
  crashed : Bool

/-- A press of a save button carries the day of the clock. -/
inductive Event
  | edit (e : Edit)
  | save (today : Day)
  | temporarySave (today : Day)
  deriving DecidableEq

/-- `DateFormatter` with `dateFormat = "yyyy년 M월 d일"`. -/
def dateString (d : Day) : List Char :=
  padded 4 d.year ++ "년 ".toList ++ Nat.toDigits 10 d.month ++ "월 ".toList ++
    Nat.toDigits 10 d.day ++ "일".toList

namespace Screen

variable {γ : Type} (M : Marking Key γ) (endpoint : Option String)

def viewDidLoad (currentUser : Option Uid) (today : Day) : Screen γ :=
  ⟨bindUid currentUser none, dateString today, ⟨placeholderSetting M, false⟩, [], [], false⟩

/-- Without a URL, `URL(string: url)!` traps; `endpoint` is the value of `URL(string: url)`. -/
def postTest (s : Screen γ) : Screen γ :=
  match endpoint with
  | none => { s with crashed := true }
  | some _ => { s with requests := s.requests ++ [s.editor.view.text] }

def temporaySaveButtonClicked (today : Day) (s : Screen γ) : Option (Screen γ) := do
  let uid ← s.uid
  let write : Write γ := ⟨uid, yyyyMMdd today, s.editor.view.text⟩
  return { s with writes := s.writes ++ [write] }

def saveButtonClicked (today : Day) (s : Screen γ) : Option (Screen γ) := do
  let uid ← s.uid
  let write : Write γ := ⟨uid, yyyyMMdd today, s.editor.view.text⟩
  return { s with writes := s.writes ++ [write] }.postTest endpoint

def step (s : Screen γ) (e : Event) : Option (Screen γ) :=
  if s.crashed then none
  else match e with
    | .edit e => some { s with editor := s.editor.step M e }
    | .save today => s.saveButtonClicked endpoint today
    | .temporarySave today => s.temporaySaveButtonClicked today

variable {M endpoint}

@[simp] theorem postTest_writes (s : Screen γ) : (s.postTest endpoint).writes = s.writes := by
  cases endpoint <;> rfl

@[simp] theorem postTest_editor (s : Screen γ) : (s.postTest endpoint).editor = s.editor := by
  cases endpoint <;> rfl

@[simp] theorem postTest_dateLabel (s : Screen γ) :
    (s.postTest endpoint).dateLabel = s.dateLabel := by
  cases endpoint <;> rfl

/-- What a step changes: the editor by an edit, or the writes by one more. The label stays. -/
theorem step_cases {s s' : Screen γ} {e : Event} (h : step M endpoint s e = some s') :
    s.crashed = false ∧ s'.dateLabel = s.dateLabel ∧
    ((∃ ed, e = .edit ed ∧ s'.editor = s.editor.step M ed ∧ s'.writes = s.writes) ∨
    (∃ uid today, (e = .save today ∨ e = .temporarySave today) ∧ s.uid = some uid ∧
      s'.editor = s.editor ∧
      s'.writes = s.writes ++ [⟨uid, yyyyMMdd today, s.editor.view.text⟩])) := by
  unfold step at h
  split_ifs at h with hc
  refine ⟨Bool.eq_false_iff.mpr hc, ?_⟩
  cases e with
  | edit ed => obtain rfl := Option.some.inj h; exact ⟨rfl, Or.inl ⟨ed, rfl, rfl, rfl⟩⟩
  | save today =>
    obtain ⟨uid, hu, h⟩ := Option.bind_eq_some_iff.mp h
    obtain rfl := Option.some.inj h
    exact ⟨postTest_dateLabel _,
      Or.inr ⟨uid, today, Or.inl rfl, hu, postTest_editor _, postTest_writes _⟩⟩
  | temporarySave today =>
    obtain ⟨uid, hu, h⟩ := Option.bind_eq_some_iff.mp h
    obtain rfl := Option.some.inj h
    exact ⟨rfl, Or.inr ⟨uid, today, Or.inr rfl, hu, rfl, rfl⟩⟩

theorem isSome_step_save {s : Screen γ} {e : Event} {today : Day}
    (he : e = .save today ∨ e = .temporarySave today) (hc : s.crashed = false)
    (hu : s.uid.isSome) : (step M endpoint s e).isSome := by
  obtain ⟨uid, hu⟩ := Option.isSome_iff_exists.mp hu
  rcases he with rfl | rfl
  · simp [step, hc, saveButtonClicked, hu]
  · simp [step, hc, temporaySaveButtonClicked, hu]

section Erasure

variable {δ : Type} {N : Marking Key δ} {f : γ → δ}

def map (f : γ → δ) (s : Screen γ) : Screen δ where
  uid := s.uid
  dateLabel := s.dateLabel
  editor := s.editor.map f
  writes := s.writes.map fun w => ⟨w.uid, w.key, w.text.map f⟩
  requests := s.requests.map (List.map f)
  crashed := s.crashed

theorem map_viewDidLoad (h : M.Hom N f) (currentUser : Option Uid) (today : Day) :
    (viewDidLoad M currentUser today).map f = viewDidLoad N currentUser today := by
  simp only [viewDidLoad, map, Editor.map, placeholderSetting, map_prompt h, List.map_nil]

theorem map_step (h : M.Hom N f) (s : Screen γ) (e : Event) :
    step N endpoint (s.map f) e = (step M endpoint s e).map (map f) := by
  have hc : (s.map f).crashed = s.crashed := rfl
  unfold step
  rw [hc]
  split_ifs
  · rfl
  · cases e with
    | edit e =>
      have he : (s.map f).editor = s.editor.map f := rfl
      simp only [Option.map_some, he, ← Editor.map_step h]; rfl
    | save today =>
      cases hs : s.uid <;> cases endpoint <;>
        simp [saveButtonClicked, postTest, hs, map, Editor.map]
    | temporarySave today =>
      cases hs : s.uid <;> simp [temporaySaveButtonClicked, hs, map, Editor.map]

theorem erase_run (currentUser : Option Uid) (today : Day) (es : List Event) :
    run (step plain endpoint) (viewDidLoad plain currentUser today) es =
      (run (step traced endpoint) (viewDidLoad traced currentUser today) es).map
        (map Prod.fst) := by
  rw [← map_viewDidLoad erase_hom]
  exact run_map (map_step erase_hom)

end Erasure

end Screen

end Treena.Plus
