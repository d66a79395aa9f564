import Treena.Plus.Screen

/-! # The new-entry screen as a plain text field

Without the placeholder the screen is a text field: a content, which only the user changes,
and whether it is being edited. The text view shows that field, in grey where it shows the
placeholder instead.
-/

namespace Treena.Plus

open Text Firebase Diary Run

@[ext] structure Field where
  content : List Char
  editing : Bool

namespace Field

def empty : Field := ⟨[], false⟩

/-- The content changes by replacements during an editing session only. -/
def step (f : Field) : Edit → Field
  | .beginEditing => { f with editing := true }
  | .replace i n ins => if f.editing then { f with content := splice f.content i n ins } else f
  | .endEditing => { f with editing := false }

/-- Nothing is written and nobody is writing. -/
def Idle (f : Field) : Prop := f.editing = false ∧ f.content = []

instance (f : Field) : Decidable f.Idle := inferInstanceAs (Decidable (_ ∧ _))

def editor (f : Field) : Editor Char :=
  ⟨if f.Idle then placeholderSetting plain else ⟨f.content, .black⟩, f.editing⟩

/-- A view shows the field: the placeholder in grey exactly when the field is idle, and
otherwise the content in black. -/
structure Shows (f : Field) (ed : Editor Char) : Prop where
  editing : ed.editing = f.editing
  prompt : ed.view = placeholderSetting plain ↔ f.Idle
  gray : ed.view.textColor = .lightGray ↔ f.Idle
  content : ¬ f.Idle → ed.view = ⟨f.content, .black⟩

variable {f : Field}

theorem shows_editor (f : Field) : f.Shows f.editor := by
  by_cases h : f.Idle
  · exact ⟨rfl, by simp [editor, h], by simp [editor, h, placeholderSetting], fun hn => absurd h hn⟩
  · exact ⟨rfl, by simp [editor, h, placeholderSetting], by simp [editor, h],
      fun _ => by simp [editor, h]⟩

@[simp] theorem editor_editing : f.editor.editing = f.editing := rfl

theorem editor_of_editing (h : f.editing = true) : f.editor = ⟨⟨f.content, .black⟩, true⟩ := by
  simp [editor, Idle, h]

theorem editor_of_not_editing (h : f.editing = false) :
    f.editor = ⟨textViewDidEndEditing plain ⟨f.content, .black⟩, false⟩ := by
  by_cases hc : f.content = []
  · simp [editor, Idle, h, hc, textViewDidEndEditing]
  · simp [editor, Idle, h, hc, textViewDidEndEditing]

theorem textViewDidBeginEditing_view (h : f.editing = false) :
    textViewDidBeginEditing f.editor.view = ⟨f.content, .black⟩ := by
  by_cases hc : f.content = []
  · simp [editor, Idle, h, hc, textViewDidBeginEditing, placeholderSetting]
  · simp [editor, Idle, h, hc, textViewDidBeginEditing]

/-- One event of the text view is one event of the field. -/
theorem editor_step (f : Field) (e : Edit) : f.editor.step plain e = (f.step e).editor := by
  cases e with
  | beginEditing =>
    rw [editor_of_editing (f := f.step .beginEditing) rfl]
    cases h : f.editing with
    | true => simp [Editor.step, editor_of_editing h, step]
    | false => simp [Editor.step, h, textViewDidBeginEditing_view h, step]
  | replace i n ins =>
    cases h : f.editing with
    | true =>
      have hs : (f.step (.replace i n ins)).editing = true := by simp [step, h]
      rw [editor_of_editing h, editor_of_editing hs]
      simp [Editor.step, step, h, plain]
    | false => simp [Editor.step, step, h]
  | endEditing =>
    rw [editor_of_not_editing (f := f.step .endEditing) rfl]
    cases h : f.editing with
    | true => simp [Editor.step, editor_of_editing h, step]
    | false => simp [Editor.step, editor_of_not_editing h, step]

end Field

namespace Screen

variable {endpoint : Option String}

theorem run_edits {s : Screen Char} (h : s.crashed = false) (es : List Edit) :
    run (step plain endpoint) s (es.map .edit) =
      some { s with editor := es.foldl (Editor.step plain) s.editor } := by
  induction es generalizing s with
  | nil => rfl
  | cons e es ih =>
    have hs : step plain endpoint s (.edit e) =
        some { s with editor := s.editor.step plain e } := by
      simp [step, h]
    rw [List.map_cons, run_cons, hs, Option.bind_some, ih (by exact h), List.foldl_cons]

end Screen

end Treena.Plus
