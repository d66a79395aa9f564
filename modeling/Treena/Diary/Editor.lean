import Treena.Diary.Walk
import Treena.Text.Origin

/-! # The text view with a placeholder

The new-entry screen and the diary screen have the same text view and the same delegate
methods. The colour of the text is the only record of whether it is the placeholder.
-/

namespace Treena.Diary

open Text

/-- The two colours that the delegates assign and compare. -/
inductive UIColor
  | black
  | lightGray
  deriving DecidableEq

theorem UIColor.eq_black {c : UIColor} (h : c ≠ .lightGray) : c = .black := by
  cases c with
  | black => rfl
  | lightGray => exact absurd rfl h

@[irreducible] def placeholder : List Char :=
  "오늘은 어떤 일이 있었나요? \n오늘 느꼈던 감정에 집중하면서 감정 단어(ex. 행복했다, 슬펐다, 놀랐다)를 사용해서 일기를 작성해 보세요.".toList

theorem placeholder_ne_nil : placeholder ≠ [] := by
  unfold placeholder
  exact fun h => absurd (String.toList_eq_nil_iff.mp h) (by simp)

@[ext] structure TextView (γ : Type*) where
  text : List γ
  textColor : UIColor

variable {γ δ : Type*} (M : Marking Key γ)

/-- The placeholder as `placeholderSetting` installs it. -/
def prompt : List γ := placeholder.map (M.mark .prompt)

def placeholderSetting : TextView γ := ⟨prompt M, .lightGray⟩

def textViewDidBeginEditing (textView : TextView γ) : TextView γ :=
  if textView.textColor = .lightGray then ⟨[], .black⟩ else textView

def textViewDidEndEditing (textView : TextView γ) : TextView γ :=
  if textView.text.isEmpty then placeholderSetting M else textView

structure Editor (γ : Type*) where
  view : TextView γ
  editing : Bool

inductive Edit
  | beginEditing
  | replace (i n : ℕ) (ins : List Char)
  | endEditing
  deriving DecidableEq

namespace Editor

/-- Text is replaced only while the view is being edited. -/
def step (ed : Editor γ) : Edit → Editor γ
  | .beginEditing =>
    if ed.editing then ed else ⟨textViewDidBeginEditing ed.view, true⟩
  | .replace i n ins =>
    if ed.editing then
      { ed with view.text := splice ed.view.text i n (ins.map (M.mark .typed)) }
    else ed
  | .endEditing =>
    if ed.editing then ⟨textViewDidEndEditing M ed.view, false⟩ else ed

def map (f : γ → δ) (ed : Editor γ) : Editor δ :=
  ⟨⟨ed.view.text.map f, ed.view.textColor⟩, ed.editing⟩

end Editor

section Hom

variable {M} {N : Marking Key δ} {f : γ → δ}

theorem map_prompt (h : M.Hom N f) : (prompt M).map f = prompt N := h.map_mark _ _

theorem Editor.map_step (h : M.Hom N f) (ed : Editor γ) (e : Edit) :
    (ed.step M e).map f = (ed.map f).step N e := by
  cases e with
  | beginEditing =>
    simp only [Editor.step, Editor.map, textViewDidBeginEditing]
    split_ifs <;> simp_all
  | replace i n ins =>
    have hm := h.map_mark .typed ins
    cases hed : ed.editing <;>
      simp only [Editor.step, Editor.map, hed, map_splice, hm, if_true, Bool.false_eq_true,
        if_false]
  | endEditing =>
    simp only [Editor.step, Editor.map, textViewDidEndEditing, placeholderSetting,
      List.isEmpty_map]
    split_ifs <;> simp_all [map_prompt h]

end Hom

theorem prompt_ne_nil : prompt M ≠ [] := by simp [prompt, placeholder_ne_nil]

abbrev Traced := Char × Origin Key

theorem map_age_prompt : (prompt traced).map traced.age = prompt traced := by
  simp [prompt, traced, Origin.age]

/-- The colour says what the text is: the placeholder as installed when it is grey, and no
character of it otherwise. -/
def Clean (v : TextView Traced) : Prop :=
  match v.textColor with
  | .lightGray => v.text = prompt traced
  | .black => ∀ c ∈ v.text, c.2 ≠ .prompt

section Clean

variable {v : TextView Traced} {t : List Traced}

theorem ne_prompt_of_forall (h : ∀ c ∈ t, c.2 ≠ .prompt) : t ≠ prompt traced := by
  rintro rfl
  obtain ⟨c, cs, hp⟩ := List.exists_cons_of_ne_nil placeholder_ne_nil
  exact h (c, .prompt) (by simp [prompt, hp, traced]) rfl

theorem Clean.of_gray (h : Clean v) (hc : v.textColor = .lightGray) : v.text = prompt traced := by
  simpa [Clean, hc] using h

theorem Clean.of_black (h : Clean v) (hc : v.textColor = .black) :
    ∀ c ∈ v.text, c.2 ≠ .prompt := by
  simpa [Clean, hc] using h

theorem Clean.gray_iff (h : Clean v) : v.textColor = .lightGray ↔ v.text = prompt traced := by
  refine ⟨h.of_gray, fun ht => ?_⟩
  cases hc : v.textColor with
  | lightGray => rfl
  | black => exact absurd ht (ne_prompt_of_forall (h.of_black hc))

theorem clean_placeholderSetting : Clean (placeholderSetting traced) := rfl

theorem clean_mark {o : Origin Key} (ho : o ≠ .prompt) (text : List Char) :
    Clean ⟨text.map (traced.mark o), .black⟩ :=
  fun _ hc => (origin_of_mem_mark hc).symm ▸ ho

theorem Clean.didBeginEditing (h : Clean v) : Clean (textViewDidBeginEditing v) := by
  unfold textViewDidBeginEditing
  split_ifs
  · exact fun c hc => absurd hc List.not_mem_nil
  · exact h

theorem Clean.didEndEditing (h : Clean v) : Clean (textViewDidEndEditing traced v) := by
  unfold textViewDidEndEditing
  split_ifs
  · exact clean_placeholderSetting
  · exact h

theorem Clean.age (h : Clean v) : Clean { v with text := v.text.map traced.age } := by
  cases hc : v.textColor with
  | lightGray => simp [Clean, h.of_gray hc, map_age_prompt]
  | black =>
    simp only [Clean]
    intro c hm
    obtain ⟨p, hp, rfl⟩ := List.mem_map.mp hm
    exact fun ho => h.of_black hc p hp (Origin.age_eq_prompt.mp ho)

theorem Clean.splice (h : Clean v) (hc : v.textColor = .black) (i n : ℕ) (ins : List Char) :
    Clean { v with text := splice v.text i n (ins.map (traced.mark .typed)) } := by
  simp only [Clean, hc]
  intro c hm
  rcases mem_of_mem_splice hm with hm | hm
  · exact h.of_black hc c hm
  · rw [origin_of_mem_mark hm]; decide

end Clean

end Treena.Diary
