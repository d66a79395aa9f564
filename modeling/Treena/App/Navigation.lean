import Mathlib.Data.Finset.Erase
import Mathlib.Data.Finset.Insert
import Treena.Firebase.Basic

/-! # Accounts and the navigation stack

Every screen takes the uid of the signed-in user when it loads, except that the home screen
takes it again whenever it appears. Sign-out and sign-in push screens and remove none, and a
sign-in is answered whatever screen is on top by then.
-/

namespace Treena.App

open Firebase

/-- A user object of the authentication service; every sign-in makes a new one. -/
structure User where
  uid : Uid
  object : ℕ
  deriving DecidableEq

inductive Root
  | users
  | diary
  deriving DecidableEq

/-- A read or write under `<root>/<uid>`, and the user signed in when it is issued. -/
structure Op where
  root : Root
  uid : Uid
  currentUser : Option Uid
  deriving DecidableEq

/-- The screens with the uid they hold. A new-entry screen counts the requests of `postTest`
that are on their way. -/
inductive Screen
  | login
  | register
  | home (uid : Option Uid)
  | plus (uid : Option Uid) (posts : ℕ)
  | image (uid : Option Uid)
  | calendar (uid : Option Uid)
  | calendarDiary (uid : Option Uid)
  | myPage (user : User)
  deriving DecidableEq

/-- The uid under which the screen writes entries, when it is one that does. -/
def Screen.entryUid : Screen → Option (Option Uid)
  | .plus uid _ => some uid
  | .calendarDiary uid => some uid
  | _ => none

/-- The accounts, the uids given out so far, the uids with a node under `Users` and under
`diary`, and the uids whose node under `Users` is being removed. -/
structure Server where
  accounts : Finset Uid
  uids : Finset Uid
  users : Finset Uid
  diary : Finset Uid
  cleanups : Finset Uid

namespace Server

def register (uid : Uid) (v : Server) : Server :=
  { v with
    accounts := insert uid v.accounts
    uids := insert uid v.uids
    users := insert uid v.users }

def write (uid : Uid) (v : Server) : Server := { v with diary := insert uid v.diary }

def delete (uid : Uid) (v : Server) : Server :=
  { v with accounts := v.accounts.erase uid, cleanups := insert uid v.cleanups }

def cleanup (uid : Uid) (v : Server) : Server :=
  { v with users := v.users.erase uid, cleanups := v.cleanups.erase uid }

end Server

inductive Ask
  | signIn (uid : Uid)
  | createUser
  | delete (user : User)
  deriving DecidableEq

/-- A request to the authentication service that has no answer yet, and the place of the screen
that sent it, counted from the bottom of the stack, until that screen is popped. -/
structure Request where
  screen : Option ℕ
  ask : Ask
  deriving DecidableEq

/-- A popped screen has no navigation controller any more. -/
def Request.pop (place : ℕ) (r : Request) : Request :=
  if r.screen = some place then { r with screen := none } else r

structure State where
  currentUser : Option User
  /-- The number of user objects made so far. -/
  objects : ℕ
  server : Server
  /-- The navigation stack, its top first. -/
  stack : List Screen
  /-- The requests without an answer, in the order of issue. -/
  requests : List Request
  ops : List Op
  crashed : Bool

/-- The presses and the completions of requests, which come in any order. -/
inductive Event
  | registerMove
  | signIn (uid : Uid)
  | signedIn (i : ℕ) (success : Bool)
  | register
  | registered (i : ℕ) (uid : Option Uid)
  | myPage
  | plus
  | calendar
  | select
  | home
  | save
  | temporarySave
  | before
  | after
  | reply (i : ℕ)
  | logout
  | deleteUser
  | deleted (i : ℕ) (success : Bool)
  | cleanup (uid : Uid)
  | back
  deriving DecidableEq

namespace State

def currentUid (s : State) : Option Uid := s.currentUser.map (·.uid)

def push (x : Screen) (s : State) : State := { s with stack := x :: s.stack }

/-- `ref.child(root).child(uid)` and a read or write there. -/
def issue (root : Root) (uid : Uid) (s : State) : State :=
  { s with ops := s.ops ++ [⟨root, uid, s.currentUid⟩] }

/-- `fetchData` of the home screen on top: `initilaize`, then the read of `checkDiaryUsage`,
which unwraps the uid. -/
def fetchData (s : State) : Option State :=
  match s.stack with
  | .home uid :: rest => do
    let uid ← bindUid s.currentUid uid
    return { s with stack := .home (some uid) :: rest }.issue .diary uid
  | _ => some s

def pushHome (s : State) : Option State := do
  let s ← (s.push (.home none)).fetchData
  s.fetchData

/-- A new login screen passes on to the home screen when somebody is signed in. -/
def pushLogin (s : State) : Option State :=
  if s.currentUser.isSome then (s.push .login).pushHome else some (s.push .login)

/-- A screen that takes the uid and reads under it in `viewDidLoad`. -/
def pushReader (screen : Option Uid → Screen) (s : State) : Option State := do
  let uid ← bindUid s.currentUid none
  return (s.push (screen (some uid))).issue .diary uid

/-- An app with no data yet starts, for the user of its last run if there was one. -/
def launch (accounts : Finset Uid) (user : Option Uid) : Option State :=
  let accounts := user.elim accounts (insert · accounts)
  pushLogin ⟨user.map (⟨·, 0⟩), 1, ⟨accounts, accounts, ∅, ∅, ∅⟩, [], [], [], false⟩

def signedIn (uid : Uid) (s : State) : State :=
  { s with currentUser := some ⟨uid, s.objects⟩, objects := s.objects + 1 }

def send (ask : Ask) (s : State) : State :=
  { s with requests := s.requests ++ [⟨some (s.stack.length - 1), ask⟩] }

def answered (i : ℕ) (s : State) : State := { s with requests := s.requests.eraseIdx i }

/-- What a completion pushes when its screen still has a navigation controller. -/
def pushFrom (screen : Option ℕ) (pushScreen : State → Option State) (s : State) : Option State :=
  if screen.isSome then pushScreen s else some s

def registerMoveButtonClick (s : State) : Option State :=
  match s.stack with
  | .login :: _ => some (s.push .register)
  | _ => some s

def loginButtonClick (uid : Uid) (s : State) : Option State :=
  match s.stack with
  | .login :: _ => some (s.send (.signIn uid))
  | _ => some s

/-- A sign-in that succeeds replaces the user, whoever that was. -/
def loginCompletion (i : ℕ) (success : Bool) (s : State) : Option State :=
  match s.requests[i]? with
  | some ⟨screen, .signIn uid⟩ =>
    if success ∧ uid ∈ s.server.accounts then
      ((s.answered i).signedIn uid).pushFrom screen pushHome
    else some (s.answered i)
  | _ => some s

def registerButtonClicked (s : State) : Option State :=
  match s.stack with
  | .register :: _ => some (s.send .createUser)
  | _ => some s

/-- A `createUser` that succeeds gives out a new uid and signs the user in. -/
def registerCompletion (i : ℕ) (uid : Option Uid) (s : State) : Option State :=
  match s.requests[i]?, uid with
  | some ⟨screen, .createUser⟩, some uid =>
    if uid ∈ s.server.uids then some s
    else
      let s := (s.answered i).signedIn uid
      { s.issue .users uid with server := s.server.register uid }.pushFrom screen pushHome
  | some ⟨_, .createUser⟩, none => some (s.answered i)
  | _, _ => some s

/-- `viewDidLoad` of the page unwraps the user. -/
def mypageButtonClicked (s : State) : Option State :=
  match s.stack with
  | .home _ :: _ => do
    let user ← s.currentUser
    return s.push (.myPage user)
  | _ => some s

def plusButtonClicked (s : State) : Option State :=
  match s.stack with
  | .home _ :: _ => some (s.push (.plus (bindUid s.currentUid none) 0))
  | _ => some s

def calendarButtonClicked (s : State) : Option State :=
  match s.stack with
  | .home _ :: _ => s.pushReader .calendar
  | _ => some s

def didSelect (s : State) : Option State :=
  match s.stack with
  | .calendar _ :: _ => s.pushReader .calendarDiary
  | _ => some s

def homeButtonClicked (s : State) : Option State :=
  match s.stack with
  | .calendar _ :: _ => s.pushHome
  | _ => some s

def setValue (uid : Option Uid) (s : State) : Option State := do
  let uid ← uid
  return { s.issue .diary uid with server := s.server.write uid }

/-- On the new-entry screen the save goes on to `postTest`, which traps without an endpoint. -/
def saveButtonClicked (endpoint : Option String) (s : State) : Option State :=
  match s.stack with
  | .plus uid posts :: rest => do
    let s ← s.setValue uid
    return match endpoint with
      | none => { s with crashed := true }
      | some _ => { s with stack := .plus uid (posts + 1) :: rest }
  | .calendarDiary uid :: _ => s.setValue uid
  | _ => some s

def temporaySaveButtonClicked (s : State) : Option State :=
  match s.stack with
  | .plus uid _ :: _ => s.setValue uid
  | .calendarDiary uid :: _ => s.setValue uid
  | _ => some s

/-- Both navigation buttons of the diary screen read the entry of the new date. -/
def readDiary (s : State) : Option State :=
  match s.stack with
  | .calendarDiary uid :: _ => do
    let uid ← uid
    return s.issue .diary uid
  | _ => some s

/-- The answer to a request of `postTest`: the picture screen, pushed when the new-entry screen
is still on the stack, reads in `viewDidLoad`. -/
def reply (i : ℕ) (s : State) : Option State :=
  match s.stack[i]? with
  | some (.plus uid (posts + 1)) =>
    { s with stack := s.stack.set i (.plus uid posts) }.pushReader .image
  | _ => some s

def logoutClicked (s : State) : Option State :=
  match s.stack with
  | .myPage _ :: _ => { s with currentUser := none }.pushLogin
  | _ => some s

def deleteUserClicked (s : State) : Option State :=
  match s.stack with
  | .myPage user :: _ => some (s.send (.delete user))
  | _ => some s

/-- A deletion that succeeds signs out the user object it was asked of, then removes the node
under `Users`. -/
def deleteCompletion (i : ℕ) (success : Bool) (s : State) : Option State :=
  match s.requests[i]? with
  | some ⟨screen, .delete user⟩ =>
    if success ∧ user.uid ∈ s.server.accounts then
      let s := s.answered i
      let s := { s with currentUser := if s.currentUser = some user then none else s.currentUser }
      { s.issue .users user.uid with server := s.server.delete user.uid }.pushFrom screen pushLogin
    else some (s.answered i)
  | _ => some s

def cleanup (uid : Uid) (s : State) : State :=
  if uid ∈ s.server.cleanups then { s with server := s.server.cleanup uid } else s

def back (s : State) : Option State :=
  match s.stack with
  | _ :: x :: rest =>
    { s with
      stack := x :: rest
      requests := s.requests.map (Request.pop (rest.length + 1)) }.fetchData
  | _ => some s

def step (endpoint : Option String) (s : State) (e : Event) : Option State :=
  if s.crashed then none
  else match e with
    | .registerMove => s.registerMoveButtonClick
    | .signIn uid => s.loginButtonClick uid
    | .signedIn i success => s.loginCompletion i success
    | .register => s.registerButtonClicked
    | .registered i uid => s.registerCompletion i uid
    | .myPage => s.mypageButtonClicked
    | .plus => s.plusButtonClicked
    | .calendar => s.calendarButtonClicked
    | .select => s.didSelect
    | .home => s.homeButtonClicked
    | .save => s.saveButtonClicked endpoint
    | .temporarySave => s.temporaySaveButtonClicked
    | .before => s.readDiary
    | .after => s.readDiary
    | .reply i => s.reply i
    | .logout => s.logoutClicked
    | .deleteUser => s.deleteUserClicked
    | .deleted i success => s.deleteCompletion i success
    | .cleanup uid => some (s.cleanup uid)
    | .back => s.back

end State

end Treena.App
