import Treena.Book.Basic
import Treena.Civil.Order
import Treena.Plus.Screen

/-! # A session of the new-entry screen

The screen reads the clock when it loads, for the label, and again at every press of a save
button, for the key. A save goes under the day of the label exactly when the clock still
shows that day.
-/

namespace Treena

open Text Firebase Diary Decimal Civil Run

section Children

/-- The children of `diary/<uid>` once the writes have reached the store. -/
def Diary.children (uid : Uid) (store : Book.Store) (writes : List (Write Char)) : Book.Store :=
  (writes.filter (·.uid = uid)).foldl (fun s w => s.insert w.key w.text) store

variable {uid : Uid} {store : Book.Store} {writes : List (Write Char)} {w : Write Char} {k : Key}

theorem children_append_singleton : children uid store (writes ++ [w]) =
    if w.uid = uid then (children uid store writes).insert w.key w.text
    else children uid store writes := by
  by_cases h : w.uid = uid <;> simp [children, h]

theorem lookup_children (h : ∀ w ∈ writes, w.uid = uid → w.key ≠ k) :
    (children uid store writes).lookup k = store.lookup k := by
  induction writes using List.reverseRecOn with
  | nil => rfl
  | append_singleton writes w ih =>
    have hw := h w (List.mem_append_right _ (List.mem_singleton.mpr rfl))
    have hws := ih fun v hv => h v (List.mem_append_left _ hv)
    rw [children_append_singleton]
    split_ifs with hu
    · rw [AList.lookup_insert_ne (hw hu).symm, hws]
    · exact hws

end Children

namespace Plus

theorem dateString_injective : Function.Injective dateString := by
  intro d e h
  have hdigits : ∀ n, ∀ c ∈ Nat.toDigits 10 n, c.isDigit := fun n c hc =>
    Nat.isDigit_of_mem_toDigits (by decide) (by decide) hc
  simp only [dateString, List.append_assoc] at h
  obtain ⟨hyear, h⟩ := append_cons_inj (fun _ => isDigit_of_mem_padded)
    (fun _ => isDigit_of_mem_padded) (by decide) h
  obtain ⟨hmonth, h⟩ := append_cons_inj (hdigits _) (hdigits _) (by decide)
    (List.cons.inj h).2
  obtain ⟨hday, -⟩ := append_cons_inj (hdigits _) (hdigits _) (by decide)
    (List.cons.inj h).2
  exact Day.ext (padded_injective 4 hyear) (toDigits_injective hmonth) (toDigits_injective hday)

theorem day_unique {e : Event} {d d' : Day} (h : e = .save d ∨ e = .temporarySave d)
    (h' : e = .save d' ∨ e = .temporarySave d') : d = d' := by
  rcases h with rfl | rfl <;> rcases h' with h | h <;> cases h <;> rfl

structure Session where
  screen : Screen Char
  clock : Day

inductive Act
  | edit (e : Edit)
  | save
  | temporarySave
  | advance (n : ℕ)
  deriving DecidableEq

namespace Session

variable (endpoint : Option String)

def onScreen (s : Session) (e : Event) : Option Session :=
  (Screen.step plain endpoint s.screen e).map fun x => { s with screen := x }

def step (s : Session) : Act → Option Session
  | .edit e => s.onScreen endpoint (.edit e)
  | .save => s.onScreen endpoint (.save s.clock)
  | .temporarySave => s.onScreen endpoint (.temporarySave s.clock)
  | .advance n => some { s with clock := Day.next^[n] s.clock }

def viewDidLoad (currentUser : Option Uid) (today : Day) : Session :=
  ⟨Screen.viewDidLoad plain currentUser today, today⟩

/-- No child of a diary differs from before, except under the day of the label. -/
def OneDay (s : Session) : Prop :=
  ∀ (uid : Uid) (store : Book.Store) (d : Day) (k : Key), s.screen.dateLabel = dateString d →
    k ≠ yyyyMMdd d → (children uid store s.screen.writes).lookup k = store.lookup k

/-- A save that reaches the database is pressed on the day of the label. -/
def SameDay (s : Session) : Act → Prop
  | .save => s.screen.crashed = false → s.screen.uid.isSome →
      s.screen.dateLabel = dateString s.clock
  | .temporarySave => s.screen.crashed = false → s.screen.uid.isSome →
      s.screen.dateLabel = dateString s.clock
  | _ => True

instance (s : Session) : ∀ a : Act, Decidable (SameDay s a)
  | .save => inferInstanceAs (Decidable (_ → _ → _))
  | .temporarySave => inferInstanceAs (Decidable (_ → _ → _))
  | .edit _ => isTrue trivial
  | .advance _ => isTrue trivial

/-- The label names a day, and everything written is written under it. -/
structure Dated (today : Day) (s : Session) : Prop where
  label : s.screen.dateLabel = dateString today
  keys : ∀ w ∈ s.screen.writes, w.key = yyyyMMdd today

variable {endpoint} {s s' : Session} {a : Act} {today : Day}

theorem Dated.oneDay (h : Dated today s) : OneDay s := by
  intro uid store d k hlabel hk
  obtain rfl := dateString_injective (h.label.symm.trans hlabel)
  apply lookup_children
  intro w hw _ hwk
  exact hk (hwk.symm.trans (h.keys w hw))

theorem Dated.onScreen {e : Event} (h : Dated today s)
    (hday : ∀ d, e = .save d ∨ e = .temporarySave d → s.screen.crashed = false →
      s.screen.uid.isSome → d = today)
    (hs : s.onScreen endpoint e = some s') : Dated today s' := by
  obtain ⟨x, hx, rfl⟩ := Option.map_eq_some_iff.mp hs
  obtain ⟨hc, hlabel, hcases⟩ := Screen.step_cases hx
  refine ⟨hlabel.trans h.label, fun w hw => ?_⟩
  rcases hcases with ⟨_, -, -, hwrites⟩ | ⟨uid, d, he, hu, -, hwrites⟩
  · exact h.keys w (hwrites ▸ hw)
  · rw [hwrites] at hw
    rcases List.mem_append.mp hw with hw | hw
    · exact h.keys w hw
    · obtain rfl := List.mem_singleton.mp hw
      rw [hday d he hc (hu ▸ rfl)]

theorem Dated.clock_eq (h : Dated today s) (hl : s.screen.dateLabel = dateString s.clock) :
    s.clock = today :=
  dateString_injective (hl.symm.trans h.label)

theorem dated_step (h : Dated today s) (hc : SameDay s a) (hs : step endpoint s a = some s') :
    Dated today s' := by
  cases a with
  | edit e => exact h.onScreen (fun d he => by simp at he) hs
  | save =>
    apply h.onScreen _ hs
    rintro d (he | he) hcrash hu
    · exact (Event.save.inj he) ▸ h.clock_eq (hc hcrash hu)
    · cases he
  | temporarySave =>
    apply h.onScreen _ hs
    rintro d (he | he) hcrash hu
    · cases he
    · exact (Event.temporarySave.inj he) ▸ h.clock_eq (hc hcrash hu)
  | advance n => obtain rfl := Option.some.inj hs; exact ⟨h.label, h.keys⟩

/-- A save on another day adds the key of that day to an empty diary. -/
theorem label_of_oneDay {e : Event} (h : Dated today s)
    (he : e = .save s.clock ∨ e = .temporarySave s.clock) (hc : s.screen.crashed = false)
    (hu : s.screen.uid.isSome) (hp : ∀ s', s.onScreen endpoint e = some s' → OneDay s') :
    s.screen.dateLabel = dateString s.clock := by
  by_contra hl
  have hk : yyyyMMdd s.clock ≠ yyyyMMdd today := fun hk =>
    hl (h.label.trans (congrArg dateString (yyyyMMdd_injective hk).symm))
  have hgo : (Screen.step plain endpoint s.screen e).isSome := Screen.isSome_step_save he hc hu
  obtain ⟨x, hx⟩ := Option.isSome_iff_exists.mp hgo
  have hone := hp ⟨x, s.clock⟩ (Option.map_eq_some_iff.mpr ⟨x, hx, rfl⟩)
  obtain ⟨-, hlabel, ⟨_, rfl, -⟩ | ⟨uid, d, he', -, -, hwrites⟩⟩ := Screen.step_cases hx
  · simp at he
  · obtain rfl := day_unique he' he
    have hnone := hone uid ∅ today _ (hlabel.trans h.label) hk
    rw [hwrites, children_append_singleton, if_pos rfl, AList.lookup_insert] at hnone
    simp at hnone

theorem sameDay_of_oneDay (h : Dated today s)
    (hp : ∀ s', step endpoint s a = some s' → OneDay s') : SameDay s a := by
  cases a with
  | edit e => trivial
  | save => exact fun hc hu => label_of_oneDay h (Or.inl rfl) hc hu hp
  | temporarySave => exact fun hc hu => label_of_oneDay h (Or.inr rfl) hc hu hp
  | advance n => trivial

/-- In a session only the child of the day of the label changes exactly when every save is
pressed on that day. -/
theorem one_day_iff (endpoint : Option String) (currentUser : Option Uid) (today : Day)
    (as : List Act) :
    Always (step endpoint) OneDay (viewDidLoad currentUser today) as ↔
      Along (step endpoint) SameDay (viewDidLoad currentUser today) as := by
  have hload : Dated today (viewDidLoad currentUser today) :=
    ⟨rfl, fun w hw => absurd hw List.not_mem_nil⟩
  exact always_iff_of_invariant (fun _ _ _ => dated_step) (fun _ => Dated.oneDay)
    (fun _ _ => sameDay_of_oneDay) hload

/-- Past midnight a temporary save adds an entry for the day after. -/
theorem temporary_save_after_midnight :
    ¬ ∀ (endpoint : Option String) (currentUser : Option Uid) (today : Day) (as : List Act),
      Always (step endpoint) OneDay (viewDidLoad currentUser today) as := by
  intro h
  let today : Day := ⟨2021, 5, 1, by decide, by decide, by decide, by decide, by decide⟩
  have hone := (h none (some "u") today [.advance 1, .temporarySave]).reached rfl
  have hk := hone "u" ∅ today "20210502".toList rfl (by decide +kernel)
  exact absurd hk (by decide +kernel)

end Session

end Plus

end Treena
