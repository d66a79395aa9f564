import Mathlib.Logic.Function.Basic
import Treena.Growth.Home
import Treena.Run.Basic

/-! # Observables in memory

An observable is an object: it passes on the values that it is set to. The view model of a
home screen publishes by putting a new object in the place of the one that the screen has
bound, so the screen hears of no value after the first.
-/

namespace Treena.Growth.Binding

open Firebase Run

/-- The observables under their identities, and the calls of the listener. -/
structure Memory (α : Type) where
  objects : ℕ → Observable α
  /-- The identity of the next object. -/
  next : ℕ
  received : List α

namespace Memory

variable {α : Type}

/-- `Observable(value)`. -/
def new (value : α) (m : Memory α) : Memory α :=
  { m with objects := Function.update m.objects m.next ⟨value, false⟩, next := m.next + 1 }

def set (ref : ℕ) (value : α) (m : Memory α) : Memory α :=
  { m with
    objects := Function.update m.objects ref { m.objects ref with value := value }
    received := if (m.objects ref).listener then m.received ++ [value] else m.received }

/-- `bind` calls the closure with the value, then stores it. -/
def bind (ref : ℕ) (m : Memory α) : Memory α :=
  { m with
    objects := Function.update m.objects ref { m.objects ref with listener := true }
    received := m.received ++ [(m.objects ref).value] }

variable {m : Memory α} {ref : ℕ}

theorem set_listener (value : α) :
    ((m.set ref value).objects ref).listener = (m.objects ref).listener := by
  simp [set]

theorem received_foldl_set (h : (m.objects ref).listener = true) (vs : List α) :
    (vs.foldl (fun m v => m.set ref v) m).received = m.received ++ vs := by
  induction vs generalizing m with
  | nil => exact (List.append_nil _).symm
  | cons v vs ih =>
    have hv : (m.set ref v).received = m.received ++ [v] := by simp [set, h]
    rw [List.foldl_cons, ih ((set_listener v).trans h), hv, List.append_assoc]
    rfl

/-- An object that is bound and then set passes on its value and every value it is set to. -/
theorem received_bind_foldl_set (vs : List α) :
    (vs.foldl (fun m v => m.set ref v) (m.bind ref)).received =
      m.received ++ (m.objects ref).value :: vs := by
  have h : ((m.bind ref).objects ref).listener = true := by simp [bind]
  rw [received_foldl_set h, bind, List.append_assoc]
  rfl

end Memory

/-- `ViewController` with its `viewModel`, whose `storage` refers to an object. -/
structure HomeVC where
  currentUser : Option Uid
  data : UserDiaryState
  pending : List Uid
  uid : Option Uid
  memory : Memory (List UserDiaryState)
  storage : ℕ
  requested : List ℕ

inductive Event
  | fetchData
  | checkTreeLevel
  | complete (uid : Uid) (outcome : CountRead)
  deriving DecidableEq

namespace HomeVC

def launch (currentUser : Option Uid) (data : UserDiaryState) (pending : List Uid) : HomeVC :=
  ⟨currentUser, data, pending, none, ⟨fun _ => ⟨[], false⟩, 1, []⟩, 0, []⟩

def value (v : HomeVC) : List UserDiaryState := (v.memory.objects v.storage).value

def checkDiaryUsage (v : HomeVC) : Option HomeVC := do
  let uid ← bindUid v.currentUser v.uid
  return { v with uid := some uid, pending := v.pending ++ [uid] }

def publish (value : List UserDiaryState) (v : HomeVC) : HomeVC :=
  { v with memory := v.memory.new value, storage := v.memory.next }

def fetchData (v : HomeVC) : Option HomeVC := do
  let v ← v.checkDiaryUsage
  return v.publish (getData v.data)

def checkTreeLevel (v : HomeVC) : Option HomeVC := do
  let v ← v.checkDiaryUsage
  let v := { v with data := setTreeLevel v.data }
  return v.publish [⟨v.data.diaryUsage, v.data.treeLevel⟩]

def setBindTreeImage (v : HomeVC) : Option HomeVC := do
  let picture ← pictureAt v.data.treeLevel
  return { v with requested := v.requested ++ [picture] }

/-- The closure asks for the picture of the level. -/
def setUpBinding (v : HomeVC) : Option HomeVC :=
  { v with memory := v.memory.bind v.storage }.setBindTreeImage

def complete (uid : Uid) (outcome : CountRead) (v : HomeVC) : HomeVC :=
  if uid ∈ v.pending then
    { v with data := checkDiaryUsageCompletion outcome v.data, pending := v.pending.erase uid }
  else v

def step (v : HomeVC) : Event → Option HomeVC
  | .fetchData => v.fetchData
  | .checkTreeLevel => v.checkTreeLevel
  | .complete uid outcome => some (v.complete uid outcome)

/-- The values that `storage` takes: one more whenever it refers to another object or its
value is another one. -/
def taken (values : List (List UserDiaryState)) (v : HomeVC) (e : Event) :
    List (List UserDiaryState) :=
  match v.step e with
  | some v' =>
    if v'.storage = v.storage ∧ v'.value = v.value then values else values ++ [v'.value]
  | none => values

/-- The listener was called once for every value in their order, the last one the current. -/
def Delivered (p : HomeVC × List (List UserDiaryState)) : Prop :=
  p.1.memory.received = p.2 ∧ p.1.memory.received.getLast? = some p.1.value

def Unpublished (v : HomeVC) : Event → Prop
  | .complete _ _ => True
  | _ => bindUid v.currentUser v.uid = none

section Projection

/-! The home screens by value are the projections of these. -/

def home (v : HomeVC) : Growth.HomeVC :=
  ⟨v.uid, v.memory.objects v.storage, v.memory.received, v.requested⟩

def process (p : Process) (v : HomeVC) : Process :=
  { p with currentUser := v.currentUser, data := v.data, pending := v.pending }

/-- One home screen by value, with its process. -/
def project (p : Process) (v : HomeVC) : Process × Growth.HomeVC := (v.process p, v.home)

def stepByValue (x : Process × Growth.HomeVC) : Event → Option (Process × Growth.HomeVC)
  | .fetchData => x.1.fetchData x.2
  | .checkTreeLevel => x.1.checkTreeLevel x.2
  | .complete uid outcome => some (x.1.complete uid outcome, x.2)

variable (p : Process) (v : HomeVC)

theorem fetchData_project :
    (v.process p).fetchData v.home = v.fetchData.map (project p) := by
  cases hu : bindUid v.currentUser v.uid <;>
    simp [Process.fetchData, Process.checkDiaryUsage, Process.initilaize, fetchData,
      checkDiaryUsage, publish, Memory.new, home, process, project, hu]

theorem checkTreeLevel_project :
    (v.process p).checkTreeLevel v.home = v.checkTreeLevel.map (project p) := by
  cases hu : bindUid v.currentUser v.uid <;>
    simp [Process.checkTreeLevel, Process.checkDiaryUsage, Process.initilaize, checkTreeLevel,
      checkDiaryUsage, publish, Memory.new, home, process, project, hu]

theorem complete_project (uid : Uid) (outcome : CountRead) :
    ((v.process p).complete uid outcome, v.home) = (v.complete uid outcome).project p := by
  by_cases h : uid ∈ v.pending <;> simp [Process.complete, complete, process, home, project, h]

theorem setUpBinding_home :
    (v.process p).setUpBinding v.home = v.setUpBinding.map home := by
  cases hp : pictureAt v.data.treeLevel <;>
    simp [Process.setUpBinding, Process.setBindTreeImage, setUpBinding, setBindTreeImage,
      Memory.bind, home, process, hp]

theorem process_setUpBinding {v v' : HomeVC} (h : v.setUpBinding = some v') :
    v'.process p = v.process p := by
  obtain ⟨picture, -, h⟩ := Option.bind_eq_some_iff.mp h
  obtain rfl := Option.some.inj h
  rfl

theorem run_project (es : List Event) :
    run stepByValue (project p v) es = (run step v es).map (project p) := by
  refine run_map fun v e => ?_
  cases e with
  | fetchData => exact fetchData_project p v
  | checkTreeLevel => exact checkTreeLevel_project p v
  | complete uid outcome => exact congrArg some (complete_project p v uid outcome)

/-- What is seen of a home screen before and after the binding is the same by value, though
the values do not say which object is bound. -/
theorem run_bound_project (before es : List Event) :
    ((run stepByValue (project p v) before).bind fun x =>
      (x.1.setUpBinding x.2).bind fun w => run stepByValue (x.1, w) es) =
    ((run step v before).bind fun v => v.setUpBinding.bind fun v => run step v es).map
      (project p) := by
  rw [run_project]
  cases run step v before with
  | none => rfl
  | some w =>
    have hb := setUpBinding_home p w
    rw [Option.map_some, Option.bind_some, Option.bind_some]
    change ((w.process p).setUpBinding w.home).bind _ = _
    rw [hb]
    cases hw : w.setUpBinding with
    | none => rfl
    | some w' =>
      have hp : (project p w).1 = w'.process p := (process_setUpBinding p hw).symm
      rw [Option.map_some, Option.bind_some, Option.bind_some, hp]
      exact run_project p w' es

end Projection

def Allocated (v : HomeVC) : Prop := v.storage < v.memory.next

variable {v v' : HomeVC} {e : Event} {uid : Uid} {values : List (List UserDiaryState)}

theorem checkDiaryUsage_eq_some : v.checkDiaryUsage = some v' ↔
    ∃ uid, bindUid v.currentUser v.uid = some uid ∧
      v' = { v with uid := some uid, pending := v.pending ++ [uid] } := by
  cases hu : bindUid v.currentUser v.uid <;> simp [checkDiaryUsage, hu, eq_comm]

theorem complete_memory (outcome : CountRead) :
    (v.complete uid outcome).memory = v.memory ∧ (v.complete uid outcome).storage = v.storage := by
  unfold complete
  split_ifs <;> exact ⟨rfl, rfl⟩

/-- A step that publishes puts the next object in the place of the one before and calls no
listener; a completion leaves all objects alone. -/
theorem step_cases (h : v.step e = some v') :
    (∃ uid outcome, e = .complete uid outcome ∧ v'.memory = v.memory ∧ v'.storage = v.storage) ∨
    (¬ Unpublished v e ∧ v'.storage = v.memory.next ∧
      v'.memory.next = v.memory.next + 1 ∧ v'.memory.received = v.memory.received) := by
  cases e with
  | fetchData =>
    obtain ⟨w, hw, h⟩ := Option.bind_eq_some_iff.mp h
    obtain ⟨uid, hu, rfl⟩ := checkDiaryUsage_eq_some.mp hw
    obtain rfl := Option.some.inj h
    exact Or.inr ⟨by simp [Unpublished, hu], rfl, rfl, rfl⟩
  | checkTreeLevel =>
    obtain ⟨w, hw, h⟩ := Option.bind_eq_some_iff.mp h
    obtain ⟨uid, hu, rfl⟩ := checkDiaryUsage_eq_some.mp hw
    obtain rfl := Option.some.inj h
    exact Or.inr ⟨by simp [Unpublished, hu], rfl, rfl, rfl⟩
  | complete uid outcome =>
    obtain rfl := Option.some.inj h
    exact Or.inl ⟨uid, outcome, rfl, complete_memory outcome⟩

theorem isSome_step (h : ¬ Unpublished v e) : (v.step e).isSome := by
  cases e with
  | fetchData =>
    obtain ⟨uid, hu⟩ := Option.ne_none_iff_exists'.mp h
    rw [step, fetchData, checkDiaryUsage_eq_some.mpr ⟨uid, hu, rfl⟩]
    rfl
  | checkTreeLevel =>
    obtain ⟨uid, hu⟩ := Option.ne_none_iff_exists'.mp h
    rw [step, checkTreeLevel, checkDiaryUsage_eq_some.mpr ⟨uid, hu, rfl⟩]
    rfl
  | complete uid outcome => rfl

structure Fresh (v : HomeVC) : Prop where
  allocated : v.Allocated
  received : v.memory.received = []

theorem fresh_step (h : Fresh v) (hs : v.step e = some v') : Fresh v' := by
  rcases step_cases hs with ⟨_, _, -, hm, hst⟩ | ⟨-, hst, hn, hr⟩
  · exact ⟨by rw [Allocated, hm, hst]; exact h.allocated, by rw [hm]; exact h.received⟩
  · exact ⟨by rw [Allocated, hst, hn]; exact Nat.lt_succ_self _, hr.trans h.received⟩

theorem taken_of_same {e : Event} (h : v.step e = some v') (hst : v'.storage = v.storage)
    (hv : v'.value = v.value) : taken values v e = values := by
  simp [taken, h, hst, hv]

theorem taken_of_ne {e : Event} (h : v.step e = some v') (hst : v'.storage ≠ v.storage) :
    taken values v e = values ++ [v'.value] := by
  simp [taken, h, hst]

/-- Every value so far is delivered, and the next object is a new one. -/
structure Bound (p : HomeVC × List (List UserDiaryState)) : Prop where
  allocated : p.1.Allocated
  delivered : Delivered p

theorem bound_setUpBinding (h : Fresh v) (hb : v.setUpBinding = some v') :
    Bound (v', [v'.value]) := by
  obtain ⟨picture, -, hb⟩ := Option.bind_eq_some_iff.mp hb
  obtain rfl := Option.some.inj hb
  refine ⟨h.allocated, ?_, ?_⟩
  · simp [Memory.bind, value, h.received]
  · simp [Memory.bind, value, h.received]

theorem bound_step {p p' : HomeVC × List (List UserDiaryState)} (h : Bound p)
    (hc : Unpublished p.1 e) (hs : observed step taken p e = some p') : Bound p' := by
  obtain ⟨v, values⟩ := p
  obtain ⟨v', values'⟩ := p'
  obtain ⟨hstep, rfl⟩ := observed_eq_some.mp hs
  rcases step_cases hstep with ⟨uid, outcome, -, hm, hst⟩ | ⟨hpub, -⟩
  · have hv : v'.value = v.value := by rw [value, value, hm, hst]
    rw [taken_of_same hstep hst hv]
    exact ⟨by rw [Allocated, hm, hst]; exact h.allocated,
      by rw [Delivered, hm, hv]; exact h.delivered⟩
  · exact absurd hc hpub

theorem unpublished_of_delivered {p : HomeVC × List (List UserDiaryState)} (h : Bound p)
    (hp : ∀ p', observed step taken p e = some p' → Delivered p') : Unpublished p.1 e := by
  obtain ⟨v, values⟩ := p
  by_contra hc
  obtain ⟨v', hs⟩ := Option.isSome_iff_exists.mp (isSome_step hc)
  have hd := (hp (v', taken values v e) (observed_eq_some.mpr ⟨hs, rfl⟩)).1
  rcases step_cases hs with ⟨uid, outcome, rfl, -⟩ | ⟨-, hst, -, hr⟩
  · exact hc trivial
  · have hne : v'.storage ≠ v.storage := hst ▸ h.allocated.ne'
    rw [taken_of_ne hs hne, hr, h.delivered.1] at hd
    simp at hd

/-- The bound listener misses no value exactly when no value is published any more. -/
theorem delivered_iff (currentUser : Option Uid) (data : UserDiaryState) (pending : List Uid)
    (before es : List Event) (v : HomeVC)
    (hv : (run step (launch currentUser data pending) before).bind setUpBinding = some v) :
    Always (observed step taken) Delivered (v, [v.value]) es ↔ Along step Unpublished v es := by
  obtain ⟨w, hw, hv⟩ := Option.bind_eq_some_iff.mp hv
  have hfresh : Fresh (launch currentUser data pending) := ⟨Nat.zero_lt_one, rfl⟩
  have hbound : Bound (v, [v.value]) :=
    bound_setUpBinding ((Always.of_step (fun _ _ _ => fresh_step) hfresh).reached hw) hv
  rw [← along_observed]
  exact always_iff_of_invariant (fun _ _ _ => bound_step) (fun _ h => h.delivered)
    (fun _ _ => unpublished_of_delivered) hbound

/-- After `viewDidLoad`, its read completes. -/
theorem delivered_until_read_completes :
    ∃ v, (run step (launch (some "u") ⟨20, 2⟩ []) [.fetchData]).bind setUpBinding = some v ∧
      Always (observed step taken) Delivered (v, [v.value]) [.complete "u" (.count 30)] :=
  ⟨_, rfl, (delivered_iff (some "u") ⟨20, 2⟩ [] [.fetchData] [.complete "u" (.count 30)] _ rfl).mpr
    ⟨trivial, fun _ _ => trivial⟩⟩

/-- The fetch of `viewWillAppear` is not delivered. -/
theorem fetch_after_load_not_delivered :
    ¬ ∀ (currentUser : Option Uid) (data : UserDiaryState) (pending : List Uid)
      (before es : List Event) (v : HomeVC),
      (run step (launch currentUser data pending) before).bind setUpBinding = some v →
        Always (observed step taken) Delivered (v, [v.value]) es := by
  intro h
  have hd := (h (some "u") ⟨20, 2⟩ [] [.fetchData] [.fetchData] _ rfl).reached rfl
  exact absurd hd.1 (by decide +kernel)

end HomeVC

end Treena.Growth.Binding
