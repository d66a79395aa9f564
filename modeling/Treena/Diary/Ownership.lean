import Treena.Diary.Screen

/-! # Which day a saved text belongs to

The date changes when a button is pressed, the text only when a read answers. A save in
between stores the text of one day under another, an emptied text included.
-/

namespace Treena.Diary

open Text Firebase Run

/-- Made by the user since the key became current, delivered by a read of it, or placeholder. -/
def OwnOrigin (key : Key) (o : Origin Key) : Prop :=
  o = .prompt ∨ o = .typed ∨ o = .read key

instance (key : Key) (o : Origin Key) : Decidable (OwnOrigin key o) :=
  inferInstanceAs (Decidable (_ ∨ _ ∨ _))

def untouched {γ : Type} (t : List γ) (i n : ℕ) (ins : List Char) : Bool :=
  ins.isEmpty && ((t.drop i).take n).isEmpty

/-- What made the shown text what it is, and the same for each stored text. A text of no
characters has an origin, too. -/
structure Trail where
  text : Origin Key
  stored : List (Origin Key)

namespace Trail

def edited {γ : Type} (o : Origin Key) (ed : Editor γ) : Edit → Origin Key
  | .beginEditing =>
    if ed.editing = false ∧ ed.view.textColor = .lightGray then .typed else o
  | .replace i n ins =>
    if ed.editing ∧ untouched ed.view.text i n ins = false then .typed else o
  | .endEditing => if ed.editing ∧ ed.view.text.isEmpty then .prompt else o

def next {γ : Type} (x : Trail) (s : Screen γ) : Event → Trail
  | .edit e => { x with text := edited x.text s.editor e }
  | .before => { x with text := x.text.age }
  | .after => { x with text := x.text.age }
  | .save => { x with stored := x.stored ++ [x.text] }
  | .temporarySave => { x with stored := x.stored ++ [x.text] }
  | .completed i a =>
    match s.reads[i]?, a with
    | none, _ => x
    | some _, .error => x
    | some _, .noData => { x with text := .prompt }
    | some key, .value _ => { x with text := .read key }

end Trail

/-- The text as a whole and each of its characters belong to the key it is stored under. -/
def Write.Own (w : Write Traced) (o : Origin Key) : Prop :=
  OwnOrigin w.key o ∧ ∀ c ∈ w.text, OwnOrigin w.key c.2

/-- What the text view shows: the placeholder, a text that was typed since the date became
current or read for it and typed into, the text of a read as it was delivered, or a text that
is left from before. -/
inductive Shows
  | prompt
  | current
  | read (key : Key)
  | other
  deriving DecidableEq

namespace Shows

/-- A press leaves the text on the screen, also a text of no characters. -/
def press : Shows → Shows
  | .current => .other
  | o => o

def type (date : Key) : Shows → Shows
  | .prompt => .current
  | .read key => if key = date then .current else .other
  | o => o

def next {γ : Type} (o : Shows) (s : Screen γ) : Event → Shows
  | .edit .beginEditing =>
    if s.editor.editing = false ∧ s.editor.view.textColor = .lightGray then .current else o
  | .edit (.replace i n ins) =>
    if s.editor.editing ∧ untouched s.editor.view.text i n ins = false then
      if (splice s.editor.view.text i n []).isEmpty then .current else o.type s.date
    else o
  | .edit .endEditing => if s.editor.editing ∧ s.editor.view.text.isEmpty then .prompt else o
  | .before => o.press
  | .after => o.press
  | .save => o
  | .temporarySave => o
  | .completed i a =>
    match s.reads[i]?, a with
    | none, _ => o
    | some _, .error => o
    | some _, .noData => .prompt
    | some key, .value _ => .read key

def Own (date : Key) : Shows → Prop
  | .prompt => True
  | .current => True
  | .read key => key = date
  | .other => False

instance (date : Key) : ∀ o : Shows, Decidable (o.Own date)
  | .prompt => isTrue trivial
  | .current => isTrue trivial
  | .read _ => inferInstanceAs (Decidable (_ = _))
  | .other => isFalse id

end Shows

/-- A save is pressed only while no text of another day is shown. -/
def SaveShown {γ : Type} (p : Screen γ × Shows) : Event → Prop
  | .save => p.2.Own p.1.date
  | .temporarySave => p.2.Own p.1.date
  | _ => True

instance {γ : Type} (p : Screen γ × Shows) : ∀ e : Event, Decidable (SaveShown p e)
  | .save => inferInstanceAs (Decidable (p.2.Own p.1.date))
  | .temporarySave => inferInstanceAs (Decidable (p.2.Own p.1.date))
  | .edit _ => isTrue trivial
  | .before => isTrue trivial
  | .after => isTrue trivial
  | .completed _ _ => isTrue trivial

namespace Screen

/-- The origins that a shown text and its characters can have. -/
def Fits (date : Key) : Shows → Origin Key → List Traced → Prop
  | .prompt, o, t => o = .prompt ∧ ∀ c ∈ t, c.2 = .prompt
  | .current, o, t => o = .typed ∧ ∀ c ∈ t, OwnOrigin date c.2
  | .read key, o, t => o = .read key ∧ ∀ c ∈ t, c.2 = .read key
  | .other, _, _ => True

variable {date date' : Key} {v : Shows} {o : Origin Key} {x : Trail} {t : List Traced}

theorem Fits.own (h : Fits date v o t) (hv : v.Own date) :
    OwnOrigin date o ∧ ∀ c ∈ t, OwnOrigin date c.2 := by
  cases v with
  | prompt => exact ⟨Or.inl h.1, fun c hc => Or.inl (h.2 c hc)⟩
  | current => exact ⟨Or.inr (Or.inl h.1), h.2⟩
  | read key =>
    obtain rfl : key = date := hv
    exact ⟨Or.inr (Or.inr h.1), fun c hc => Or.inr (Or.inr (h.2 c hc))⟩
  | other => exact hv.elim

theorem Fits.placeholder : Fits date .prompt .prompt (prompt traced) :=
  ⟨rfl, fun _ => origin_of_mem_mark⟩

theorem Fits.cleared {i n : ℕ} (ht : splice t i n [] = []) (ins : List Char) :
    Fits date .current .typed (splice t i n (ins.map (traced.mark .typed))) := by
  refine ⟨rfl, fun c hc => ?_⟩
  rcases mem_splice.mp hc with hc | hc
  · rw [ht] at hc
    exact absurd hc List.not_mem_nil
  · exact Or.inr (Or.inl (origin_of_mem_mark hc))

theorem Fits.splice (h : Fits date v o t) (i n : ℕ) (ins : List Char) :
    Fits date (v.type date) .typed (splice t i n (ins.map (traced.mark .typed))) := by
  have hown (hv : v.Own date) :
      ∀ c ∈ Text.splice t i n (ins.map (traced.mark .typed)), OwnOrigin date c.2 := by
    intro c hc
    rcases mem_of_mem_splice hc with hc | hc
    · exact (h.own hv).2 c hc
    · exact Or.inr (Or.inl (origin_of_mem_mark hc))
  cases v with
  | prompt => exact ⟨rfl, hown trivial⟩
  | current => exact ⟨rfl, hown trivial⟩
  | read key =>
    simp only [Shows.type]
    split_ifs with hk
    · exact ⟨rfl, hown hk⟩
    · trivial
  | other => trivial

theorem splice_untouched {i n : ℕ} {ins : List Char} (h : untouched t i n ins = true) :
    splice t i n (ins.map (traced.mark .typed)) = t := by
  obtain ⟨hi, ht⟩ : ins = [] ∧ (t.drop i).take n = [] := by simpa [untouched] using h
  have hd : t.drop (i + n) = t.drop i := by
    rw [← List.drop_drop]
    exact (List.nil_append _).symm.trans (ht ▸ List.take_append_drop n (t.drop i))
  rw [Text.splice, hi, hd, List.map_nil, List.append_nil, List.take_append_drop]

theorem Fits.press (h : Fits date v o t) : Fits date' v.press o.age (t.map traced.age) := by
  cases v with
  | prompt =>
    refine ⟨Origin.age_eq_prompt.mpr h.1, fun c hc => ?_⟩
    obtain ⟨p, hp, rfl⟩ := List.mem_map.mp hc
    exact Origin.age_eq_prompt.mpr (h.2 p hp)
  | current => trivial
  | read key =>
    refine ⟨(congrArg Origin.age h.1).trans rfl, fun c hc => ?_⟩
    obtain ⟨p, hp, rfl⟩ := List.mem_map.mp hc
    exact (congrArg Origin.age (h.2 p hp)).trans rfl
  | other => trivial

/-- The text and its trail fit what is shown, and every save so far stored a text of its own
day. -/
structure Owned (p : (Screen Traced × Trail) × Shows) : Prop where
  fits : Fits p.1.1.date p.2 p.1.2.text p.1.1.editor.view.text
  writes : List.Forall₂ Write.Own p.1.1.writes p.1.2.stored

theorem owned_save {s : Screen Traced} (h : Owned ((s, x), v)) (hv : v.Own s.date) :
    Owned ((s.saveButtonClicked, { x with stored := x.stored ++ [x.text] }), v) :=
  ⟨h.fits, List.rel_append h.writes (.cons (h.fits.own hv) .nil)⟩

theorem owned_opened {s : Screen Traced} {label : List Char} (h : Owned ((s, x), v)) :
    Owned ((s.opened traced date label, { x with text := x.text.age }), v.press) :=
  ⟨h.fits.press, h.writes⟩

theorem owned_edit {s : Screen Traced} (h : Owned ((s, x), v)) (e : Edit) :
    Owned (({ s with editor := s.editor.step traced e }, x.next s (.edit e)),
      v.next s (.edit e)) := by
  refine ⟨?_, h.writes⟩
  have hf := h.fits
  cases e with
  | beginEditing =>
    by_cases hc : s.editor.editing = false ∧ s.editor.view.textColor = .lightGray
    · simp [Editor.step, Shows.next, Trail.next, Trail.edited, hc, textViewDidBeginEditing, Fits]
    · rw [show (s.editor.step traced .beginEditing).view.text = s.editor.view.text by
        cases hed : s.editor.editing <;> simp_all [Editor.step, textViewDidBeginEditing]]
      simpa [Shows.next, Trail.next, Trail.edited, hc] using hf
  | replace i n ins =>
    cases hed : s.editor.editing with
    | false => simpa [Editor.step, Shows.next, Trail.next, Trail.edited, hed] using hf
    | true =>
      cases hu : untouched s.editor.view.text i n ins with
      | true =>
        simpa [Editor.step, Shows.next, Trail.next, Trail.edited, hed, hu, splice_untouched hu]
          using hf
      | false =>
        by_cases ht : splice s.editor.view.text i n [] = []
        · simpa [Editor.step, Shows.next, Trail.next, Trail.edited, hed, hu, ht]
            using Fits.cleared ht ins
        · simpa [Editor.step, Shows.next, Trail.next, Trail.edited, hed, hu, ht]
            using hf.splice i n ins
  | endEditing =>
    by_cases hc : s.editor.editing ∧ s.editor.view.text.isEmpty
    · simpa [Editor.step, Shows.next, Trail.next, Trail.edited, hc, textViewDidEndEditing,
        placeholderSetting] using Fits.placeholder
    · rw [show (s.editor.step traced .endEditing).view.text = s.editor.view.text by
        cases hed : s.editor.editing <;> simp_all [Editor.step, textViewDidEndEditing]]
      simpa only [Shows.next, Trail.next, Trail.edited, if_neg hc] using hf

theorem owned_answered {s : Screen Traced} {i : ℕ} {a : Answer} {key : Key}
    (h : Owned ((s, x), v)) (hk : s.reads[i]? = some key) :
    Owned ((s.answered traced i key a, x.next s (.completed i a)), v.next s (.completed i a)) := by
  cases a with
  | error =>
    simp only [Shows.next, Trail.next, hk]
    exact ⟨h.fits, h.writes⟩
  | noData =>
    simp only [Shows.next, Trail.next, hk]
    exact ⟨Fits.placeholder, h.writes⟩
  | value text =>
    simp only [Shows.next, Trail.next, hk]
    exact ⟨⟨rfl, fun _ => origin_of_mem_mark⟩, h.writes⟩

def traceStep :
    (Screen Traced × Trail) × Shows → Event → Option ((Screen Traced × Trail) × Shows) :=
  observed (observed (step traced) Trail.next) fun v p => Shows.next v p.1

/-- One step keeps every stored text to its day, if saves are pressed in time. -/
theorem owned_step {p p' : (Screen Traced × Trail) × Shows} {e : Event} (h : Owned p)
    (hc : SaveShown (p.1.1, p.2) e) (hs : traceStep p e = some p') : Owned p' := by
  obtain ⟨⟨s, x⟩, v⟩ := p
  obtain ⟨⟨s', x'⟩, v'⟩ := p'
  obtain ⟨ho, rfl⟩ := observed_eq_some.mp hs
  obtain ⟨hs', rfl⟩ := observed_eq_some.mp ho
  cases steps_of_step hs' with
  | edit => exact owned_edit h _
  | opened he =>
    rcases he with rfl | rfl
    · exact owned_opened h
    · exact owned_opened h
  | saved he =>
    rcases he with rfl | rfl
    · exact owned_save h hc
    · exact owned_save h hc
  | stray hk => simpa only [Shows.next, Trail.next, hk] using h
  | answered hk => exact owned_answered h hk

theorem owned_viewDidLoad {currentUser : Option Uid} {s : Screen Traced}
    (h : viewDidLoad traced currentUser date = some s) : Owned ((s, ⟨.prompt, []⟩), .prompt) := by
  obtain ⟨uid, label, rfl⟩ := viewDidLoad_eq_some h
  exact ⟨Fits.placeholder, .nil⟩

/-- Every text is stored under its own day, a text of no characters included, when no save is
pressed while a text of another day is shown. -/
theorem writes_own (currentUser : Option Uid) (date : Key) {s : Screen Traced} {es : List Event}
    (hload : viewDidLoad traced currentUser date = some s)
    (h : Along (observed (step traced) Shows.next) SaveShown (s, .prompt) es) :
    Always (observed (step traced) Trail.next)
      (fun p => List.Forall₂ Write.Own p.1.writes p.2.stored) (s, ⟨.prompt, []⟩) es := by
  have hc : Along traceStep (fun p e => SaveShown (p.1.1, p.2) e)
      ((s, ⟨.prompt, []⟩), .prompt) es := along_observed_observed.mpr h
  have hp : Always traceStep Owned ((s, ⟨.prompt, []⟩), .prompt) es :=
    Always.of_invariant (fun _ _ _ => owned_step) hc (owned_viewDidLoad hload)
  apply Always.of_observed
  exact hp.mono fun _ ho => ho.writes

/-- A walk over two days that saves on both, each time after the answer, and at last an
emptied text. -/
theorem writes_own_of_two_days :
    ∃ s : Screen Traced, viewDidLoad traced (some "u") "20210501".toList = some s ∧
      Always (observed (step traced) Trail.next)
        (fun p => List.Forall₂ Write.Own p.1.writes p.2.stored) (s, ⟨.prompt, []⟩)
        [.completed 0 (.value ['a']), .edit .beginEditing, .edit (.replace 1 0 ['b']), .save,
          .after, .completed 0 (.value ['c']), .temporarySave, .edit (.replace 0 1 []), .save] :=
  ⟨_, rfl, writes_own (some "u") "20210501".toList rfl (by decide)⟩

/-- The text of 1 May is stored under 2 May when a save follows the press at once. -/
theorem save_before_answer_stores_other_day :
    ¬ ∀ (currentUser : Option Uid) (date : Key) (s : Screen Traced) (es : List Event),
      viewDidLoad traced currentUser date = some s →
        Always (observed (step traced) Trail.next)
          (fun p => List.Forall₂ Write.Own p.1.writes p.2.stored) (s, ⟨.prompt, []⟩) es := by
  intro h
  have hw := (h (some "u") "20210501".toList _
    [.completed 0 (.value ['a']), .after, .save] rfl).reached rfl
  obtain ⟨hw, -⟩ := List.forall₂_cons.mp hw
  exact absurd hw.1 (by decide)

end Screen

end Treena.Diary
