import Treena.Diary.Screen

/-! # What becomes of typed text

An answer replaces whatever the text view holds, and the placeholder may come up while the
view is being edited. The colour is a faithful flag, and typing is kept, exactly when every
answer comes before the first typed character and nothing is typed into a grey text.
-/

namespace Treena.Diary

open Text Firebase Run

def typed (t : List Traced) : List Traced := t.filter (·.2 = .typed)

@[simp] theorem typed_nil : typed [] = [] := rfl

theorem typed_mark {o : Origin Key} (ho : o ≠ .typed) (text : List Char) :
    typed (text.map (traced.mark o)) = [] :=
  List.filter_eq_nil_iff.mpr fun _ hc => by simp [origin_of_mem_mark hc, ho]

theorem typed_prompt : typed (prompt traced) = [] := typed_mark (by decide) _

namespace Screen

/-- Begin- and end-editing, and the completions of reads for the current date. -/
def Quiet (s : Screen Traced) : Event → Prop
  | .edit .beginEditing => True
  | .edit .endEditing => True
  | .completed i _ => s.reads[i]? = some s.date
  | _ => False

def Kept (s : Screen Traced) (e : Event) : Prop :=
  Quiet s e → ∀ s', step traced s e = some s' →
    typed s'.editor.view.text = typed s.editor.view.text

/-- The text is grey exactly when it is the placeholder, with nothing typed in it. -/
def Flagged (s : Screen Traced) : Prop :=
  s.editor.view.textColor = .lightGray ↔ s.editor.view.text = prompt traced

/-- An answer for the current date finds nothing typed, and no edit changes a grey text. -/
def InTime (s : Screen Traced) : Event → Prop
  | .completed i a =>
    s.reads[i]? = some s.date → a ≠ .error → typed s.editor.view.text = []
  | .edit (.replace i n ins) =>
    s.editor.editing → s.editor.view.textColor = .lightGray →
      splice s.editor.view.text i n (ins.map (traced.mark .typed)) = s.editor.view.text
  | _ => True

instance (s : Screen Traced) : ∀ e : Event, Decidable (InTime s e)
  | .completed _ _ => inferInstanceAs (Decidable (_ → _ → _))
  | .edit (.replace _ _ _) => inferInstanceAs (Decidable (_ → _ → _))
  | .edit .beginEditing => isTrue trivial
  | .edit .endEditing => isTrue trivial
  | .before => isTrue trivial
  | .after => isTrue trivial
  | .save => isTrue trivial
  | .temporarySave => isTrue trivial

variable {s s' : Screen Traced} {e : Event}

theorem clean_edit {ed : Edit} (h : Clean s.editor.view) (hc : InTime s (.edit ed)) :
    Clean (s.editor.step traced ed).view := by
  cases ed with
  | beginEditing =>
    simp only [Editor.step]
    split_ifs
    · exact h
    · exact h.didBeginEditing
  | replace i n ins =>
    simp only [Editor.step]
    split_ifs with hed
    · by_cases hg : s.editor.view.textColor = .lightGray
      · rw [hc hed hg]; exact h
      · exact h.splice (UIColor.eq_black hg) i n ins
    · exact h
  | endEditing =>
    simp only [Editor.step]
    split_ifs
    · exact h.didEndEditing
    · exact h

theorem clean_completion (h : Clean s.editor.view) (key : Key) (a : Answer) :
    Clean (readDiaryCompletion traced key s.editor.view a) := by
  cases a with
  | error => exact h
  | noData => exact clean_placeholderSetting
  | value text => exact clean_mark (by simp) text

/-- The colour stays a faithful flag in every step that comes in time. -/
theorem clean_step (h : Clean s.editor.view) (hc : InTime s e)
    (hs : step traced s e = some s') : Clean s'.editor.view := by
  cases steps_of_step hs with
  | edit => exact clean_edit h hc
  | opened => exact h.age
  | saved => exact h
  | stray => exact h
  | answered => exact clean_completion h _ _

theorem typed_edit_of_quiet {ed : Edit} (h : Clean s.editor.view) (hq : Quiet s (.edit ed)) :
    typed (s.editor.step traced ed).view.text = typed s.editor.view.text := by
  cases ed with
  | beginEditing =>
    simp only [Editor.step, textViewDidBeginEditing]
    split_ifs with _ hg
    · rfl
    · rw [h.of_gray hg, typed_prompt, typed_nil]
    · rfl
  | replace i n ins => exact hq.elim
  | endEditing =>
    simp only [Editor.step, textViewDidEndEditing]
    split_ifs with _ he
    · simp only [List.isEmpty_iff.mp he, placeholderSetting, typed_prompt, typed_nil]
    · rfl
    · rfl

theorem typed_completion_of_ne_error {a : Answer} (ha : a ≠ .error) (key : Key)
    (v : TextView Traced) : typed (readDiaryCompletion traced key v a).text = [] := by
  cases a with
  | error => exact absurd rfl ha
  | noData => exact typed_prompt
  | value text => exact typed_mark (by simp) text

theorem kept_of_inTime (h : Clean s.editor.view) (hc : InTime s e) : Kept s e := by
  intro hq s' hs
  cases steps_of_step hs with
  | edit => exact typed_edit_of_quiet h hq
  | opened he => rcases he with rfl | rfl <;> exact hq.elim
  | saved he => rcases he with rfl | rfl <;> exact hq.elim
  | stray => rfl
  | @answered i a key hk =>
    by_cases ha : a = .error
    · subst a; rfl
    · rw [hc hq ha]
      exact typed_completion_of_ne_error ha _ _

theorem inTime_of_kept (h : Clean s.editor.view) (hk : Kept s e)
    (hf : ∀ s', step traced s e = some s' → Flagged s') : InTime s e := by
  cases e with
  | edit ed =>
    cases ed with
    | replace i n ins =>
      intro hed hg
      have hs := hf _ rfl
      simp only [Flagged, Editor.step, hed, if_true] at hs
      rw [hs.mp hg, h.of_gray hg]
    | beginEditing => trivial
    | endEditing => trivial
  | completed i a =>
    intro hq ha
    exact (hk hq _ (step_completed hq)).symm.trans (typed_completion_of_ne_error ha _ _)
  | _ => trivial

theorem clean_viewDidLoad {currentUser : Option Uid} {date : Key}
    (h : viewDidLoad traced currentUser date = some s) : Clean s.editor.view := by
  obtain ⟨uid, label, rfl⟩ := viewDidLoad_eq_some h
  exact clean_placeholderSetting

end Screen

end Treena.Diary
