import Mathlib.Data.List.AList
import Treena.Diary.Screen

/-! # The diary of one user

The screens that write entries, on the navigation stack above the home screen, and the
children of `diary/<uid>`. The calendar keeps a copy of the keys, which its own read fills
once. The connection sends requests in the order of issue, so the answer to a read has the
writes issued before the read was sent and no others. What waits for a connection, or for an
answer when the connection is lost, is sent when there is one again, the reads after the
writes.
-/

namespace Treena.Book

open Diary Civil

/-- The read of `getDiaryDates`: waiting for a connection, sent after the writes that make
these keys, delivered to the completion handler, or failed. -/
inductive DatesRead
  | waiting
  | sent (keys : List Key)
  | delivered
  | failed
  deriving DecidableEq

structure CalendarVC where
  read : DatesRead
  datesWithDiary : List Key
  deriving DecidableEq

inductive Screen
  | home
  | plus
  | calendar (c : CalendarVC)
  | calendarDiary (date : Key)
  deriving DecidableEq

/-- The children of `diary/<uid>` once the writes so far have arrived. -/
abbrev Store := AList fun _ : Key => List Char

structure State where
  store : Store
  /-- The navigation stack, its top first. -/
  stack : List Screen
  connected : Bool
  /-- The number of writes that the server has not acknowledged. -/
  pendingWrites : ℕ
  crashed : Bool

/-- What the user does, what becomes of the connection and of the writes, and what becomes of
the read of the `i`th screen from the top. The texts are those that the text views hold at the
press. -/
inductive Event
  | calendarButton
  | plusButton
  | homeButton
  | select (date : Day)
  | before
  | after
  | save (text : List Char)
  | temporarySave (text : List Char)
  | plusSave (today : Day) (text : List Char)
  | plusTemporarySave (today : Day) (text : List Char)
  | back
  | connect
  | disconnect
  | acknowledge
  | deliver (i : ℕ)
  | fail (i : ℕ)
  deriving DecidableEq

namespace CalendarVC

/-- `viewDidLoad` issues the read of `getDiaryDates`. -/
def viewDidLoad (connected : Bool) (store : Store) : CalendarVC :=
  ⟨if connected then .sent store.keys else .waiting, []⟩

/-- `restoreState` sends a read that waits, after all writes. -/
def send (store : Store) (c : CalendarVC) : CalendarVC :=
  match c.read with
  | .waiting => { c with read := .sent store.keys }
  | _ => c

/-- A read without an answer waits for the next connection. -/
def lose (c : CalendarVC) : CalendarVC :=
  match c.read with
  | .sent _ => { c with read := .waiting }
  | _ => c

/-- The completion handler: no key when the node does not exist. -/
def deliver (c : CalendarVC) : CalendarVC :=
  match c.read with
  | .sent keys => ⟨.delivered, c.datesWithDiary ++ keys⟩
  | _ => c

def fail (c : CalendarVC) : CalendarVC :=
  match c.read with
  | .waiting => { c with read := .failed }
  | .sent _ => { c with read := .failed }
  | _ => c

def imageFor (c : CalendarVC) (date : Day) : Option String :=
  if c.datesWithDiary.contains (yyyyMMdd date) then some "icon_cat" else none

end CalendarVC

def Screen.onCalendar (f : CalendarVC → CalendarVC) : Screen → Screen
  | .calendar c => .calendar (f c)
  | x => x

namespace State

def initial : State := ⟨∅, [.home], true, 0, false⟩

def push (x : Screen) (b : State) : State := { b with stack := x :: b.stack }

def calendarButtonClicked (b : State) : State :=
  match b.stack with
  | .home :: _ => b.push (.calendar (.viewDidLoad b.connected b.store))
  | _ => b

def plusButtonClicked (b : State) : State :=
  match b.stack with
  | .home :: _ => b.push .plus
  | _ => b

def homeButtonClicked (b : State) : State :=
  match b.stack with
  | .calendar _ :: _ => b.push .home
  | _ => b

/-- `calendar(_:didSelect:at:)`, with `setDate` in `viewDidLoad` of the pushed screen. -/
def didSelect (d : Day) (b : State) : Option State :=
  match b.stack with
  | .calendar _ :: _ => do
    let date := yyyyMMdd d
    let _ ← setDate date
    return b.push (.calendarDiary date)
  | _ => some b

def walk (next : Key → Option Key) (b : State) : Option State :=
  match b.stack with
  | .calendarDiary date :: rest => do
    let date ← next date
    let _ ← setDate date
    return { b with stack := .calendarDiary date :: rest }
  | _ => some b

def beforeDiaryButtonClicked : State → Option State := walk beforeDate

def afterDiaryButtonClicked : State → Option State := walk afterDate

def setValue (key : Key) (text : List Char) (b : State) : State :=
  { b with store := b.store.insert key text, pendingWrites := b.pendingWrites + 1 }

/-- The key that a save button of the top screen writes to, with the day of the clock. -/
def diaryKey (b : State) : Option Key :=
  match b.stack with
  | .calendarDiary date :: _ => some date
  | _ => none

def plusKey (today : Day) (b : State) : Option Key :=
  match b.stack with
  | .plus :: _ => some (yyyyMMdd today)
  | _ => none

def saveAt (key : Option Key) (text : List Char) (b : State) : State :=
  match key with
  | some k => b.setValue k text
  | none => b

def back (b : State) : State :=
  match b.stack with
  | _ :: x :: rest => { b with stack := x :: rest }
  | _ => b

def onCalendar (f : CalendarVC → CalendarVC) (i : ℕ) (b : State) : State :=
  match b.stack[i]? with
  | some (.calendar c) => { b with stack := b.stack.set i (.calendar (f c)) }
  | _ => b

def restoreState (b : State) : State :=
  { b with stack := b.stack.map (Screen.onCalendar (.send b.store)), connected := true }

def disconnect (b : State) : State :=
  { b with stack := b.stack.map (Screen.onCalendar .lose), connected := false }

def acknowledge (b : State) : State :=
  if b.connected then { b with pendingWrites := b.pendingWrites - 1 } else b

def savedKey (b : State) : Event → Option Key
  | .save _ => b.diaryKey
  | .temporarySave _ => b.diaryKey
  | .plusSave today _ => b.plusKey today
  | .plusTemporarySave today _ => b.plusKey today
  | _ => none

/-- A save of the new-entry screen also calls `postTest`, which traps without an endpoint. -/
def step (endpoint : Option String) (b : State) (e : Event) : Option State :=
  if b.crashed then none
  else match e with
    | .calendarButton => some b.calendarButtonClicked
    | .plusButton => some b.plusButtonClicked
    | .homeButton => some b.homeButtonClicked
    | .select d => b.didSelect d
    | .before => b.beforeDiaryButtonClicked
    | .after => b.afterDiaryButtonClicked
    | .save text => some (b.saveAt b.diaryKey text)
    | .temporarySave text => some (b.saveAt b.diaryKey text)
    | .plusSave today text =>
      some { b.saveAt (b.plusKey today) text with
        crashed := (b.plusKey today).isSome && endpoint.isNone }
    | .plusTemporarySave today text => some (b.saveAt (b.plusKey today) text)
    | .back => some b.back
    | .connect => some b.restoreState
    | .disconnect => some b.disconnect
    | .acknowledge => some b.acknowledge
    | .deliver i => some (b.onCalendar .deliver i)
    | .fail i => some (b.onCalendar .fail i)

variable {endpoint : Option String} {b b' : State} {e : Event}

inductive Arises (b : State) (e : Event) : Screen → Prop
  | old {x : Screen} : x ∈ b.stack → Arises b e x
  | home : Arises b e .home
  | plus : Arises b e .plus
  | calendar : Arises b e (.calendar (.viewDidLoad b.connected b.store))
  | selected {d : Day} : e = .select d → Arises b e (.calendarDiary (yyyyMMdd d))
  | before {date date' : Key} : .calendarDiary date ∈ b.stack → b.diaryKey = some date →
      e = .before → beforeDate date = some date' → Arises b e (.calendarDiary date')
  | after {date date' : Key} : .calendarDiary date ∈ b.stack → b.diaryKey = some date →
      e = .after → afterDate date = some date' → Arises b e (.calendarDiary date')
  | sent {c : CalendarVC} : .calendar c ∈ b.stack → Arises b e (.calendar (c.send b.store))
  | lost {c : CalendarVC} : .calendar c ∈ b.stack → Arises b e (.calendar c.lose)
  | delivered {c : CalendarVC} : .calendar c ∈ b.stack → Arises b e (.calendar c.deliver)
  | failed {c : CalendarVC} : .calendar c ∈ b.stack → Arises b e (.calendar c.fail)

/-- The store is left alone, and every screen of the new stack arises in the step. -/
def Quiet (b : State) (e : Event) (b' : State) : Prop :=
  b'.store = b.store ∧ ∀ x ∈ b'.stack, Arises b e x

/-- The key of the event is written, and the stack is left alone. -/
def Writes (b : State) (e : Event) (b' : State) : Prop :=
  ∃ k text, b.savedKey e = some k ∧ b'.store = b.store.insert k text ∧ b'.stack = b.stack

theorem quiet_refl : Quiet b e b := ⟨rfl, fun _ => .old⟩

theorem quiet_push {x : Screen} (hx : Arises b e x) : Quiet b e (b.push x) := by
  refine ⟨rfl, fun y hy => ?_⟩
  rcases List.mem_cons.mp hy with rfl | hy
  · exact hx
  · exact .old hy

theorem quiet_calendarButtonClicked : Quiet b e b.calendarButtonClicked := by
  unfold calendarButtonClicked
  split
  · exact quiet_push .calendar
  · exact quiet_refl

theorem quiet_plusButtonClicked : Quiet b e b.plusButtonClicked := by
  unfold plusButtonClicked
  split
  · exact quiet_push .plus
  · exact quiet_refl

theorem quiet_homeButtonClicked : Quiet b e b.homeButtonClicked := by
  unfold homeButtonClicked
  split
  · exact quiet_push .home
  · exact quiet_refl

theorem quiet_didSelect {d : Day} (h : b.didSelect d = some b') : Quiet b (.select d) b' := by
  unfold didSelect at h
  split at h
  · obtain ⟨_, -, h⟩ := Option.bind_eq_some_iff.mp h
    obtain rfl := Option.some.inj h
    exact quiet_push (.selected rfl)
  · obtain rfl := Option.some.inj h
    exact quiet_refl

theorem quiet_walk {next : Key → Option Key}
    (hx : ∀ date date', .calendarDiary date ∈ b.stack → b.diaryKey = some date →
      next date = some date' → Arises b e (.calendarDiary date'))
    (h : b.walk next = some b') : Quiet b e b' := by
  unfold walk at h
  split at h
  · rename_i date rest hst
    obtain ⟨date', hd, h⟩ := Option.bind_eq_some_iff.mp h
    obtain ⟨_, -, h⟩ := Option.bind_eq_some_iff.mp h
    obtain rfl := Option.some.inj h
    refine ⟨rfl, fun y hy => ?_⟩
    rcases List.mem_cons.mp hy with rfl | hy
    · exact hx date date' (by simp [hst]) (by simp [diaryKey, hst]) hd
    · exact .old (by simp [hst, hy])
  · obtain rfl := Option.some.inj h
    exact quiet_refl

theorem quiet_back : Quiet b e b.back := by
  unfold back
  split
  · rename_i y x rest hst
    exact ⟨rfl, fun z hz => .old (hst ▸ List.mem_cons_of_mem _ hz)⟩
  · exact quiet_refl

theorem quiet_onCalendar {f : CalendarVC → CalendarVC} {i : ℕ}
    (hf : ∀ c, .calendar c ∈ b.stack → Arises b e (.calendar (f c))) :
    Quiet b e (b.onCalendar f i) := by
  unfold onCalendar
  split
  · rename_i c hc
    refine ⟨rfl, fun x hx => ?_⟩
    rcases List.mem_or_eq_of_mem_set hx with hx | rfl
    · exact .old hx
    · exact hf c (List.mem_of_getElem? hc)
  · exact quiet_refl

theorem arises_of_mem_map {f : CalendarVC → CalendarVC}
    (hf : ∀ c, .calendar c ∈ b.stack → Arises b e (.calendar (f c))) {x : Screen}
    (hx : x ∈ b.stack.map (Screen.onCalendar f)) : Arises b e x := by
  obtain ⟨y, hy, rfl⟩ := List.mem_map.mp hx
  cases y with
  | calendar c => exact hf c hy
  | _ => exact .old hy

theorem quiet_acknowledge : Quiet b e b.acknowledge := by
  unfold acknowledge
  split_ifs
  · exact ⟨rfl, fun _ hx => .old hx⟩
  · exact quiet_refl

theorem writes_or_quiet_saveAt {key : Option Key} {text : List Char} (hk : b.savedKey e = key) :
    Writes b e (b.saveAt key text) ∨ Quiet b e (b.saveAt key text) := by
  cases key with
  | none => exact Or.inr quiet_refl
  | some k => exact Or.inl ⟨k, text, hk, rfl, rfl⟩

/-- A step writes the key of its event, or it changes screens only. -/
theorem step_cases (h : step endpoint b e = some b') : Writes b e b' ∨ Quiet b e b' := by
  unfold step at h
  split_ifs at h
  cases e with
  | calendarButton => obtain rfl := Option.some.inj h; exact Or.inr quiet_calendarButtonClicked
  | plusButton => obtain rfl := Option.some.inj h; exact Or.inr quiet_plusButtonClicked
  | homeButton => obtain rfl := Option.some.inj h; exact Or.inr quiet_homeButtonClicked
  | select d => exact Or.inr (quiet_didSelect h)
  | before => exact Or.inr (quiet_walk (fun _ _ hm hk hd => .before hm hk rfl hd) h)
  | after => exact Or.inr (quiet_walk (fun _ _ hm hk hd => .after hm hk rfl hd) h)
  | save text => obtain rfl := Option.some.inj h; exact writes_or_quiet_saveAt rfl
  | temporarySave text => obtain rfl := Option.some.inj h; exact writes_or_quiet_saveAt rfl
  | plusSave today text =>
    obtain rfl := Option.some.inj h
    exact writes_or_quiet_saveAt (e := .plusSave today text) rfl
  | plusTemporarySave today text =>
    obtain rfl := Option.some.inj h
    exact writes_or_quiet_saveAt (e := .plusTemporarySave today text) rfl
  | back => obtain rfl := Option.some.inj h; exact Or.inr quiet_back
  | connect =>
    obtain rfl := Option.some.inj h
    exact Or.inr ⟨rfl, fun _ => arises_of_mem_map fun _ => .sent⟩
  | disconnect =>
    obtain rfl := Option.some.inj h
    exact Or.inr ⟨rfl, fun _ => arises_of_mem_map fun _ => .lost⟩
  | acknowledge => obtain rfl := Option.some.inj h; exact Or.inr quiet_acknowledge
  | deliver i =>
    obtain rfl := Option.some.inj h
    exact Or.inr (quiet_onCalendar fun _ => .delivered)
  | fail i => obtain rfl := Option.some.inj h; exact Or.inr (quiet_onCalendar fun _ => .failed)

end State

end Treena.Book
