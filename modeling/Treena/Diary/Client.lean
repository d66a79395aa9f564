import Treena.Diary.Screen
import Treena.Firebase.Latest

/-! # The diary screen over the client library

The screen saves and reads through the library, which keeps the writes that the server has not
answered yet. A day that is opened while a save of it is pending is answered by the library
alone, with the text that was saved there last.
-/

namespace Treena.Diary

open Text Firebase Run FNode FRepo FWriteTree

def nameOf (text : List Char) : Option Name :=
  if h : text.all (·.toNat < 128) ∧ isMinusZero text = false ∧ text ≠ ".priority".toList then
    some ⟨text, h.1, h.2.1, h.2.2⟩
  else none

/-- `ref.child("diary").child(uid).child(date)`. -/
def dayPath (uid : Uid) (date : Key) : Option (List Name) := do
  let diary ← nameOf "diary".toList
  let uid ← nameOf uid.toList
  let date ← nameOf date
  return [diary, uid, date]

structure Client where
  screen : Screen Char
  repo : FRepo Name (List Char)

inductive Act
  | screen (e : Event)
  | ackWrite (writeId : ℤ) (success : Bool)
  | onDataUpdate (path : List Name) (message : Message Name (List Char))

namespace Client

def setValue (c : Client) : Option (FRepo Name (List Char)) := do
  let path ← dayPath c.screen.uid c.screen.date
  c.repo.set FUtilities.ofNames (path.map .key) (.leaf c.screen.editor.view.text .empty)

def readDiary (screen : Screen Char) (repo : FRepo Name (List Char)) : Option Client := do
  let path ← dayPath screen.uid screen.date
  let found ← repo.getData FUtilities.ofNames (path.map .key)
  return ⟨screen, found.1⟩

/-- The screen opens on a library without pending writes, which only it uses. -/
def viewDidLoad (currentUser : Option Uid) (date : Key) : Option Client := do
  let screen ← Screen.viewDidLoad plain currentUser date
  readDiary screen .init

/-- An event on the screen, with what it asks of the library. -/
def onScreen (c : Client) (screen : Screen Char) : Event → Option Client
  | .save => c.setValue.map fun repo => ⟨screen, repo⟩
  | .temporarySave => c.setValue.map fun repo => ⟨screen, repo⟩
  | .before => readDiary screen c.repo
  | .after => readDiary screen c.repo
  | .edit _ => some ⟨screen, c.repo⟩
  | .completed _ _ => some ⟨screen, c.repo⟩

def step (c : Client) : Act → Option Client
  | .screen e => (c.screen.step plain e).bind fun screen => c.onScreen screen e
  | .ackWrite writeId success =>
    (c.repo.ackWrite FUtilities.ofNames writeId success).map fun repo => { c with repo := repo }
  | .onDataUpdate path message =>
    (c.repo.onDataUpdate FUtilities.ofNames (path.map .key) message).map
      fun repo => { c with repo := repo }

def tell (told : FNode Name (List Char)) (c : Client) : Act → FNode Name (List Char)
  | .onDataUpdate path message =>
    FRepo.tell FUtilities.ofNames told c.repo (.onDataUpdate path message)
  | _ => told

/-- The server answers in the order of the writes, and nothing is removed from under a leaf. -/
def Keeps (p : Client × FNode Name (List Char)) : Act → Prop
  | .screen _ => True
  | .ackWrite writeId success =>
    FRepo.Keeps FUtilities.ofNames (p.1.repo, p.2) (.ackWrite writeId success)
  | .onDataUpdate path message =>
    FRepo.Keeps FUtilities.ofNames (p.1.repo, p.2) (.onDataUpdate path message)

/-- What was saved for a day, in the order of the saves. -/
def saves (date : Key) (screen : Screen Char) : List (FNode Name (List Char)) :=
  (screen.writes.filter (·.key = date)).map fun w => .leaf w.text .empty

/-- The writes of a day that are pending are the last of its saves. -/
structure Saved (p : Client × FNode Name (List Char)) : Prop where
  synced : Synced FUtilities.ofNames (fun _ => False) (p.1.repo, p.2)
  length : ∀ e ∈ pending p.1.repo.allWrites, e.1.length = 3
  latest : ∀ date path, dayPath p.1.screen.uid date = some path →
    writesOf path (pending p.1.repo.allWrites) <:+ saves date p.1.screen

section Paths

variable {uid : Uid} {date date' : Key} {text : List Char} {n : Name} {path : List Name}

theorem text_nameOf (h : nameOf text = some n) : n.text = text := by
  unfold nameOf at h
  split at h
  · obtain rfl := Option.some.inj h
    rfl
  · cases h

theorem dayPath_eq_some (h : dayPath uid date = some path) :
    ∃ diary user day, path = [diary, user, day] ∧ day.text = date := by
  simp only [dayPath, Option.bind_eq_bind, Option.bind_eq_some_iff] at h
  obtain ⟨diary, -, user, -, day, hday, h⟩ := h
  exact ⟨diary, user, day, (Option.some.inj h).symm, text_nameOf hday⟩

theorem length_dayPath (h : dayPath uid date = some path) : path.length = 3 := by
  obtain ⟨diary, user, day, rfl, -⟩ := dayPath_eq_some h
  rfl

theorem dayPath_injective (h : dayPath uid date = some path) (h' : dayPath uid date' = some path) :
    date = date' := by
  obtain ⟨diary, user, day, rfl, hd⟩ := dayPath_eq_some h
  obtain ⟨diary', user', day', hp, hd'⟩ := dayPath_eq_some h'
  simp only [List.cons.injEq, and_true] at hp
  rw [← hd, ← hd', hp.2.2]

theorem eq_or_apart {p q : List Name} (h : p.length = q.length) : p = q ∨ Apart p q := by
  by_cases he : p = q
  · exact .inl he
  · exact .inr ⟨fun hp => he (hp.eq_of_length h), fun hq => he (hq.eq_of_length h.symm).symm⟩

end Paths

section Steps

variable {c c' : Client} {told : FNode Name (List Char)} {screen : Screen Char}
  {repo : FRepo Name (List Char)} {act : Act}

theorem Saved.of_pending (h : Saved (c, told)) {told' : FNode Name (List Char)}
    (hs : Synced FUtilities.ofNames (fun _ => False) (repo, told'))
    (hp : repo.allWrites = c.repo.allWrites) (hu : screen.uid = c.screen.uid)
    (hw : screen.writes = c.screen.writes) : Saved (⟨screen, repo⟩, told') := by
  refine ⟨hs, fun e he => h.length e (hp ▸ he), fun date path hpath => ?_⟩
  have hl := h.latest date path (hu ▸ hpath)
  unfold saves at hl ⊢
  rw [hp, hw]
  exact hl

theorem Saved.readDiary (h : Saved (c, told)) (hr : Client.readDiary screen c.repo = some c')
    (hu : screen.uid = c.screen.uid) (hw : screen.writes = c.screen.writes) :
    Saved (c', told) := by
  obtain ⟨path, -, hr⟩ := Option.bind_eq_some_iff.mp hr
  obtain ⟨found, hget, hr⟩ := Option.bind_eq_some_iff.mp hr
  obtain rfl := Option.some.inj hr
  obtain ⟨repo', answer, hget', hs⟩ := h.synced.getData (p := path)
  obtain rfl := Option.some.inj (hget'.symm.trans hget)
  exact h.of_pending hs (allWrites_getData hget) hu hw

/-- A save is the last of the day, in the library as on the screen. -/
theorem Saved.setValue (h : Saved (c, told)) (hr : c.setValue = some repo) :
    Saved (⟨c.screen.saveButtonClicked, repo⟩, told) := by
  obtain ⟨path, hpath, hr⟩ := Option.bind_eq_some_iff.mp hr
  have hleaf : (FNode.leaf c.screen.editor.view.text .empty : FNode Name (List Char)).Plain
      FUtilities.ofNames.keyComparator := .leaf _
  have hfull : (FNode.leaf c.screen.editor.view.text .empty : FNode Name (List Char)).isEmpty →
      Free FUtilities.ofNames.keyComparator told path := fun he => by cases he
  obtain ⟨repo', hset, hs⟩ := h.synced.set hleaf hfull
  obtain rfl := Option.some.inj (hset.symm.trans hr)
  have hp := h.synced.pending_set hleaf hset
  refine ⟨hs, fun e he => ?_, fun date q hq => ?_⟩
  · rw [hp, List.mem_append, List.mem_singleton] at he
    rcases he with he | rfl
    · exact h.length e he
    · exact length_dayPath hpath
  · have hl := h.latest date q hq
    have hsaves : saves date c.screen.saveButtonClicked = saves date c.screen ++
        if c.screen.date = date then [.leaf c.screen.editor.view.text .empty] else [] := by
      unfold saves Screen.saveButtonClicked
      by_cases hd : c.screen.date = date <;> simp [hd]
    rw [hp, writesOf_append, hsaves]
    by_cases hd : c.screen.date = date
    · subst hd
      obtain rfl := Option.some.inj (hpath.symm.trans hq)
      obtain ⟨l, hl⟩ := hl
      have hone : writesOf path [(path, FNode.leaf c.screen.editor.view.text .empty)] =
          [FNode.leaf (κ := Name) c.screen.editor.view.text .empty] := writesOf_cons_self
      rw [if_pos rfl, ← hl, List.append_assoc, hone]
      exact List.suffix_append _ _
    · have hne : path ≠ q := fun he => hd (dayPath_injective hpath (he ▸ hq))
      rw [if_neg hd, writesOf_cons_of_ne hne, writesOf_nil, List.append_nil, List.append_nil]
      exact hl

theorem Saved.onScreen (h : Saved (c, told)) {e : Event}
    (hscreen : c.screen.step plain e = some screen) (hr : c.onScreen screen e = some c') :
    Saved (c', told) := by
  have hsteps := Screen.steps_of_step hscreen
  cases e with
  | edit ed =>
    obtain rfl := Option.some.inj hr
    obtain rfl := Option.some.inj hscreen
    exact h.of_pending h.synced rfl rfl rfl
  | completed i a =>
    obtain rfl := Option.some.inj hr
    cases hsteps with
    | opened he => rcases he with he | he <;> cases he
    | saved he => rcases he with he | he <;> cases he
    | stray => exact h.of_pending h.synced rfl rfl rfl
    | answered => exact h.of_pending h.synced rfl rfl rfl
  | before =>
    obtain ⟨date, label, rfl⟩ := Screen.openDate_eq_some hscreen
    exact h.readDiary hr rfl rfl
  | after =>
    obtain ⟨date, label, rfl⟩ := Screen.openDate_eq_some hscreen
    exact h.readDiary hr rfl rfl
  | save =>
    obtain ⟨repo, hset, rfl⟩ := Option.map_eq_some_iff.mp hr
    obtain rfl := Option.some.inj hscreen
    exact h.setValue hset
  | temporarySave =>
    obtain ⟨repo, hset, rfl⟩ := Option.map_eq_some_iff.mp hr
    obtain rfl := Option.some.inj hscreen
    exact h.setValue hset

theorem Saved.step (h : Saved (c, told)) (hk : Keeps (c, told) act)
    (hr : c.step act = some c') : Saved (c', tell told c act) := by
  cases act with
  | screen e =>
    obtain ⟨screen, hscreen, hr⟩ := Option.bind_eq_some_iff.mp hr
    exact h.onScreen hscreen hr
  | ackWrite writeId success =>
    obtain ⟨repo, hack, rfl⟩ := Option.map_eq_some_iff.mp hr
    obtain ⟨repo', hack', hs⟩ := h.synced.ackWrite hk
    obtain rfl := Option.some.inj (hack'.symm.trans hack)
    obtain ⟨as, e, bs, hp, hp', ha⟩ := h.synced.pending_ackWrite hk hack
    refine ⟨hs, fun e he => h.length e ?_, fun date path hpath => ?_⟩
    · rw [hp'] at he
      rw [hp]
      exact (List.sublist_cons_self ..).append_left _ |>.subset he
    · have hl := h.latest date path hpath
      rw [hp] at hl
      rw [hp']
      exact (writesOf_suffix ha).trans hl
  | onDataUpdate path message =>
    obtain ⟨repo, hdata, rfl⟩ := Option.map_eq_some_iff.mp hr
    obtain ⟨repo', hdata', hs⟩ := h.synced.onDataUpdate hk
    obtain rfl := Option.some.inj (hdata'.symm.trans hdata)
    exact h.of_pending hs (allWrites_onDataUpdate hdata) rfl rfl

theorem saved_viewDidLoad {currentUser : Option Uid} {date : Key}
    (h : viewDidLoad currentUser date = some c) : Saved (c, .empty) := by
  obtain ⟨screen, hscreen, hr⟩ := Option.bind_eq_some_iff.mp h
  obtain ⟨uid, label, rfl⟩ := Screen.viewDidLoad_eq_some hscreen
  have hs : Saved (⟨⟨uid, date, label, ⟨placeholderSetting plain, false⟩, [date], []⟩, .init⟩,
      (.empty : FNode Name (List Char))) :=
    ⟨synced_init, fun _ he => absurd he List.not_mem_nil, fun _ _ _ => List.nil_suffix⟩
  exact hs.readDiary hr rfl rfl

end Steps

section Runs

variable {c : Client} {acts : List Act} {currentUser : Option Uid} {date : Key}

def someDay : Key := ['2', '0', '2', '1', '0', '9', '1', '4']

def savedAndReopened : List Act :=
  [.screen (.edit .beginEditing), .screen (.edit (.replace 0 0 ['h', 'i'])), .screen .save,
    .screen .after, .screen .before]

end Runs

end Client

end Treena.Diary
