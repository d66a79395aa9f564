import Treena.Plus.Screen

/-! # The placeholder as an entry

Four save buttons store the text view without a look at its colour. The placeholder is
never stored, by the new-entry screen or by the diary screen, when no save is pressed while
it is shown in grey.
-/

namespace Treena

open Text Firebase Diary Run

/-- A text that reads as the placeholder was typed, or read from the key it is stored under. -/
def Diary.Write.NotPrompt (w : Write Traced) : Prop :=
  w.text.map Prod.fst = placeholder → ∀ c ∈ w.text, c.2 = .typed ∨ c.2 = .read w.key

def ShowsText (v : TextView Traced) : Prop :=
  ¬ (v.textColor = .lightGray ∧ v.text.map Prod.fst = placeholder)

instance (v : TextView Traced) : Decidable (ShowsText v) := inferInstanceAs (Decidable (¬ (_ ∧ _)))

theorem not_notPrompt_prompt (uid : Uid) (key : Key) :
    ¬ Write.NotPrompt ⟨uid, key, prompt traced⟩ := by
  intro h
  obtain ⟨c, cs, hp⟩ := List.exists_cons_of_ne_nil (prompt_ne_nil traced)
  have hm : c ∈ prompt traced := hp ▸ List.mem_cons_self
  have ho : c.2 = .prompt := origin_of_mem_mark hm
  have hc := h map_fst_mark c hm
  simp [ho] at hc

def Content (O : Origin Key → Prop) (v : TextView Traced) : Prop :=
  v.textColor = .black → ∀ c ∈ v.text, O c.2

section Content

variable {O : Origin Key → Prop} {v : TextView Traced}

theorem content_placeholderSetting : Content O (placeholderSetting traced) :=
  fun h => by cases h

theorem Content.editor_step {ed : Editor Traced} (h : Content O ed.view) (hO : O .typed)
    (e : Edit) : Content O (ed.step traced e).view := by
  cases e with
  | beginEditing =>
    simp only [Editor.step, textViewDidBeginEditing]
    split_ifs
    · exact h
    · exact fun _ c hc => absurd hc List.not_mem_nil
    · exact h
  | replace i n ins =>
    simp only [Editor.step]
    split_ifs
    · intro hb c hc
      rcases mem_of_mem_splice hc with hc | hc
      · exact h hb c hc
      · rw [origin_of_mem_mark hc]; exact hO
    · exact h
  | endEditing =>
    simp only [Editor.step, textViewDidEndEditing]
    split_ifs
    · exact content_placeholderSetting
    · exact h
    · exact h

theorem Content.notPrompt {uid : Uid} {key : Key} (h : Content O v)
    (hO : ∀ o, O o → o = .typed ∨ o = .read key) (hs : ShowsText v) :
    Write.NotPrompt ⟨uid, key, v.text⟩ := by
  intro hp c hc
  have hb : v.textColor = .black := UIColor.eq_black fun hg => hs ⟨hg, hp⟩
  exact hO _ (h hb c hc)

end Content

namespace Plus.Screen

/-- Saves are pressed while text is shown. -/
def SaveText (s : Screen Traced) : Event → Prop
  | .edit _ => True
  | _ => ShowsText s.editor.view

instance (s : Screen Traced) : ∀ e : Event, Decidable (SaveText s e)
  | .edit _ => isTrue trivial
  | .save _ => inferInstanceAs (Decidable (ShowsText _))
  | .temporarySave _ => inferInstanceAs (Decidable (ShowsText _))

structure Entry (s : Screen Traced) : Prop where
  content : Content (· = .typed) s.editor.view
  writes : ∀ w ∈ s.writes, w.NotPrompt

variable {endpoint : Option String} {s s' : Screen Traced} {e : Event}

theorem entry_step (h : Entry s) (hc : SaveText s e) (hs : step traced endpoint s e = some s') :
    Entry s' := by
  obtain ⟨-, -, ⟨ed, rfl, hed, hw⟩ | ⟨uid, today, he, -, hed, hw⟩⟩ := step_cases hs
  · exact ⟨hed ▸ h.content.editor_step rfl ed, hw ▸ h.writes⟩
  · refine ⟨hed ▸ h.content, fun w hm => ?_⟩
    have ht : ShowsText s.editor.view := by rcases he with rfl | rfl <;> exact hc
    rw [hw] at hm
    rcases List.mem_append.mp hm with hm | hm
    · exact h.writes w hm
    · obtain rfl := List.mem_singleton.mp hm
      exact h.content.notPrompt (fun _ => Or.inl) ht

end Plus.Screen

namespace Diary.Screen

def SaveText (s : Screen Traced) : Event → Prop
  | .save => ShowsText s.editor.view
  | .temporarySave => ShowsText s.editor.view
  | _ => True

instance (s : Screen Traced) : ∀ e : Event, Decidable (SaveText s e)
  | .save => inferInstanceAs (Decidable (ShowsText _))
  | .temporarySave => inferInstanceAs (Decidable (ShowsText _))
  | .edit _ => isTrue trivial
  | .before => isTrue trivial
  | .after => isTrue trivial
  | .completed _ _ => isTrue trivial

/-- Without a press all reads are for the date. -/
structure Entry (s : Screen Traced) : Prop where
  content : Content (fun o => o = .typed ∨ o = .read s.date) s.editor.view
  reads : ∀ k ∈ s.reads, k = s.date
  writes : ∀ w ∈ s.writes, w.NotPrompt

variable {s s' : Screen Traced} {e : Event} {a : Answer} {i : ℕ}

theorem entry_save (h : Entry s) (ht : ShowsText s.editor.view) : Entry s.saveButtonClicked := by
  refine ⟨h.content, h.reads, fun w hm => ?_⟩
  rcases List.mem_append.mp hm with hm | hm
  · exact h.writes w hm
  · obtain rfl := List.mem_singleton.mp hm
    exact h.content.notPrompt (fun _ ho => ho) ht

theorem entry_answered {key : Key} (h : Entry s) (hk : s.reads[i]? = some key) :
    Entry (s.answered traced i key a) := by
  obtain rfl := h.reads key (List.mem_of_getElem? hk)
  refine ⟨?_, fun k hm => h.reads k (List.mem_of_mem_eraseIdx hm), h.writes⟩
  cases a with
  | error => exact h.content
  | noData => exact content_placeholderSetting
  | value text => exact fun _ c hc => Or.inr (origin_of_mem_mark hc)

theorem entry_step (h : Entry s) (hc : SaveText s e ∧ e ≠ .before ∧ e ≠ .after)
    (hs : step traced s e = some s') : Entry s' := by
  cases steps_of_step hs with
  | edit => exact ⟨h.content.editor_step (Or.inl rfl) _, h.reads, h.writes⟩
  | opened he => rcases he with rfl | rfl <;> simp at hc
  | saved he =>
    rcases he with rfl | rfl
    · exact entry_save h hc.1
    · exact entry_save h hc.1
  | stray => exact h
  | answered hk => exact entry_answered h hk

theorem entry_viewDidLoad {currentUser : Option Uid} {date : Key}
    (h : viewDidLoad traced currentUser date = some s) : Entry s := by
  obtain ⟨uid, label, rfl⟩ := viewDidLoad_eq_some h
  exact ⟨content_placeholderSetting, by simp, by simp⟩

end Diary.Screen

/-- On both screens, no save stores the placeholder when none is pressed while it is shown. -/
theorem prompt_not_stored (endpoint : Option String) (currentUser : Option Uid) :
    (∀ (today : Civil.Day) (es : List Plus.Event),
      Along (Plus.Screen.step traced endpoint) Plus.Screen.SaveText
          (Plus.Screen.viewDidLoad traced currentUser today) es →
        Always (Plus.Screen.step traced endpoint) (fun s => ∀ w ∈ s.writes, w.NotPrompt)
          (Plus.Screen.viewDidLoad traced currentUser today) es) ∧
    (∀ (date : Key) (s : Diary.Screen Traced) (es : List Diary.Event),
      Diary.Screen.viewDidLoad traced currentUser date = some s →
      (∀ e ∈ es, e ≠ .before ∧ e ≠ .after) →
      Along (Diary.Screen.step traced) Diary.Screen.SaveText s es →
        Always (Diary.Screen.step traced) (fun s => ∀ w ∈ s.writes, w.NotPrompt) s es) := by
  constructor
  · intro today es h
    have hl : Plus.Screen.Entry (Plus.Screen.viewDidLoad traced currentUser today) :=
      ⟨content_placeholderSetting, by simp [Plus.Screen.viewDidLoad]⟩
    apply Always.mono fun _ (hs : Plus.Screen.Entry _) => hs.writes
    exact Always.of_invariant (fun _ _ _ => Plus.Screen.entry_step) h hl
  · intro date s es hload hnp h
    have hc := along_and.mpr ⟨h, along_of_forall_mem hnp⟩
    have hl := Diary.Screen.entry_viewDidLoad hload
    apply Always.mono fun _ (hs : Diary.Screen.Entry _) => hs.writes
    exact Always.of_invariant (fun _ _ _ => Diary.Screen.entry_step) hc hl

/-- A text is typed and saved on one screen, read and saved on the other. -/
theorem prompt_not_stored_by_typing :
    let today : Civil.Day := ⟨2021, 5, 1, by decide, by decide, by decide, by decide, by decide⟩
    Always (Plus.Screen.step traced (some "url")) (fun s => ∀ w ∈ s.writes, w.NotPrompt)
      (Plus.Screen.viewDidLoad traced (some "u") today)
      [.edit .beginEditing, .edit (.replace 0 0 ['a']), .save today] ∧
    ∃ s : Diary.Screen Traced,
      Diary.Screen.viewDidLoad traced (some "u") "20210501".toList = some s ∧
        Always (Diary.Screen.step traced) (fun s => ∀ w ∈ s.writes, w.NotPrompt) s
          [.completed 0 (.value ['a']), .save] :=
  ⟨(prompt_not_stored (some "url") (some "u")).1 _ _ (by decide +kernel),
    _, rfl, (prompt_not_stored none (some "u")).2 "20210501".toList _ _ rfl (by decide)
      (by decide +kernel)⟩

/-- A save pressed right after the screen has loaded stores the placeholder. -/
theorem save_at_once_stores_prompt :
    (¬ ∀ (endpoint : Option String) (currentUser : Option Uid) (today : Civil.Day)
        (es : List Plus.Event),
      Always (Plus.Screen.step traced endpoint) (fun s => ∀ w ∈ s.writes, w.NotPrompt)
        (Plus.Screen.viewDidLoad traced currentUser today) es) ∧
    ¬ ∀ (currentUser : Option Uid) (date : Key) (s : Diary.Screen Traced) (es : List Diary.Event),
      Diary.Screen.viewDidLoad traced currentUser date = some s →
      (∀ e ∈ es, e ≠ .before ∧ e ≠ .after) →
        Always (Diary.Screen.step traced) (fun s => ∀ w ∈ s.writes, w.NotPrompt) s es := by
  constructor
  · intro h
    let today : Civil.Day := ⟨2021, 5, 1, by decide, by decide, by decide, by decide, by decide⟩
    have hw := (h none (some "u") today [.temporarySave today]).reached rfl
    exact not_notPrompt_prompt _ _ (hw _ (List.mem_singleton.mpr rfl))
  · intro h
    have hw := (h (some "u") "20210501".toList _ [.save] rfl (by decide)).reached rfl
    exact not_notPrompt_prompt _ _ (hw _ (List.mem_singleton.mpr rfl))

end Treena
