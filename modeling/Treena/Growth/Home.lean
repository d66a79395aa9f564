import Treena.Firebase.Basic
import Treena.Growth.Level

/-! # The home screens of a process

Every home screen has a view model with a database service of its own; the services share
one static state. A view model publishes at once, before the read that it starts is answered.
-/

namespace Treena.Growth

open Firebase

/-- `Observable`, with whether a listener is set. -/
structure Observable (α : Type) where
  value : α
  listener : Bool

structure HomeVC where
  /-- `uid` of the service. -/
  uid : Option Uid
  storage : Observable (List UserDiaryState)
  /-- The values that the closure of `setUpBinding` was called with. -/
  received : List (List UserDiaryState)
  /-- The pictures that `setBindTreeImage` asked for. -/
  requested : List ℕ

/-- The static `data`, the reads of `checkDiaryUsage` on their way, and the home screens in
the order of their creation. -/
structure Process where
  currentUser : Option Uid
  data : UserDiaryState
  pending : List Uid
  homes : List HomeVC

/-- `complete uid outcome` answers a read of `diary/<uid>`. -/
inductive Event
  | signIn (uid : Uid)
  | signOut
  | load
  | appear (i : ℕ)
  | complete (uid : Uid) (outcome : CountRead)
  deriving DecidableEq

/-- The `UserDiaryState` that `getData` hands to its closure. -/
def getData (data : UserDiaryState) : List UserDiaryState := [⟨20, data.treeLevel⟩]

namespace Process

def launch (currentUser : Option Uid) : Process := ⟨currentUser, ⟨20, 2⟩, [], []⟩

def initilaize (p : Process) (v : HomeVC) : HomeVC := { v with uid := bindUid p.currentUser v.uid }

/-- A read is issued under the uid of the service, which has to be there. -/
def checkDiaryUsage (p : Process) (v : HomeVC) : Option (Process × HomeVC) := do
  let v := p.initilaize v
  let uid ← v.uid
  return ({ p with pending := p.pending ++ [uid] }, v)

/-- `storage` is replaced by a new observable. -/
def fetchData (p : Process) (v : HomeVC) : Option (Process × HomeVC) := do
  let (p, v) ← p.checkDiaryUsage v
  return (p, { v with storage := ⟨getData p.data, false⟩ })

def checkTreeLevel (p : Process) (v : HomeVC) : Option (Process × HomeVC) := do
  let (p, v) ← p.checkDiaryUsage v
  let p := { p with data := setTreeLevel p.data }
  return (p, { v with storage := ⟨[⟨p.data.diaryUsage, p.data.treeLevel⟩], false⟩ })

def setBindTreeImage (p : Process) (v : HomeVC) : Option HomeVC := do
  let picture ← pictureAt p.data.treeLevel
  return { v with requested := v.requested ++ [picture] }

/-- `bind` calls the closure with the value, then stores it. -/
def setUpBinding (p : Process) (v : HomeVC) : Option HomeVC := do
  let v ← p.setBindTreeImage { v with received := v.received ++ [v.storage.value] }
  return { v with storage := { v.storage with listener := true } }

def viewDidLoad (p : Process) : Option Process := do
  let (p, v) ← p.fetchData ⟨none, ⟨[], false⟩, [], []⟩
  let v ← p.setBindTreeImage v
  let v ← p.setUpBinding v
  return { p with homes := p.homes ++ [v] }

def viewWillAppear (i : ℕ) (p : Process) : Option Process :=
  match p.homes[i]? with
  | some v => do
    let (p, v) ← p.fetchData v
    let v ← p.setBindTreeImage v
    return { p with homes := p.homes.set i v }
  | none => some p

def complete (uid : Uid) (outcome : CountRead) (p : Process) : Process :=
  if uid ∈ p.pending then
    { p with
      data := checkDiaryUsageCompletion outcome p.data
      pending := p.pending.erase uid }
  else p

def step (p : Process) : Event → Option Process
  | .signIn uid => some { p with currentUser := some uid }
  | .signOut => some { p with currentUser := none }
  | .load => p.viewDidLoad
  | .appear i => p.viewWillAppear i
  | .complete uid outcome => some (p.complete uid outcome)

/-- The home screen that `viewDidLoad` leaves, with the picture of the level it found. -/
def loaded (p : Process) (uid : Uid) (picture : ℕ) : Process :=
  { p with
    pending := p.pending ++ [uid]
    homes := p.homes ++
      [⟨some uid, ⟨getData p.data, true⟩, [getData p.data], [picture, picture]⟩] }

def appeared (p : Process) (i : ℕ) (v : HomeVC) (uid : Uid) (picture : ℕ) : Process :=
  { p with
    pending := p.pending ++ [uid]
    homes := p.homes.set i
      ⟨some uid, ⟨getData p.data, false⟩, v.received, v.requested ++ [picture]⟩ }

variable {p p' : Process} {i : ℕ}

theorem viewDidLoad_eq_some :
    p.viewDidLoad = some p' ↔ ∃ uid picture, p.currentUser = some uid ∧
      pictureAt p.data.treeLevel = some picture ∧ p' = p.loaded uid picture := by
  cases hu : p.currentUser <;> cases hp : pictureAt p.data.treeLevel <;>
    simp [viewDidLoad, fetchData, checkDiaryUsage, initilaize, setBindTreeImage, setUpBinding,
      loaded, hu, hp, eq_comm]

theorem viewWillAppear_eq_some {v : HomeVC} (hv : p.homes[i]? = some v) :
    p.viewWillAppear i = some p' ↔ ∃ uid picture, bindUid p.currentUser v.uid = some uid ∧
      pictureAt p.data.treeLevel = some picture ∧ p' = p.appeared i v uid picture := by
  cases hu : bindUid p.currentUser v.uid <;> cases hp : pictureAt p.data.treeLevel <;>
    simp [viewWillAppear, hv, fetchData, checkDiaryUsage, initilaize, setBindTreeImage, appeared,
      hu, hp, eq_comm]

end Process

end Treena.Growth
