import Mathlib.Data.List.Chain
import Treena.App.Navigation
import Treena.Run.Basic

/-! # Confinement to the signed-in user

A sign-in is answered at any time, so the user may change under screens that hold the uid of
another one, and signing out leaves the old screens one press of back away. The database is
used as it should be exactly when neither is used after that.
-/

namespace Treena.App

open Firebase Run

namespace Screen

def Outside : Screen → Prop
  | .login => True
  | .register => True
  | .myPage _ => True
  | _ => False

/-- The uid under which a screen reads or writes when an event comes to it. -/
def uses : Screen → Event → Option (Option Uid)
  | .plus uid _, .save => some uid
  | .plus uid _, .temporarySave => some uid
  | .calendarDiary uid, .save => some uid
  | .calendarDiary uid, .temporarySave => some uid
  | .calendarDiary uid, .before => some uid
  | .calendarDiary uid, .after => some uid
  | _, _ => none

end Screen

/-- Which screen may stand directly above which: under one with nothing to read or write there
is another such screen or a home screen. -/
def Over (x y : Screen) : Prop := x.Outside → y.Outside ∨ ∃ uid, y = .home uid

def Op.Confined (op : Op) : Prop := op.currentUser = some op.uid

instance (op : Op) : Decidable op.Confined := inferInstanceAs (Decidable (_ = _))

theorem over_of_not_outside {x y : Screen} (h : ¬ x.Outside) : Over x y := fun hx => absurd hx h

theorem over_plus {uid uid' : Option Uid} {n m : ℕ} {x : Screen} (h : Over x (.plus uid n)) :
    Over x (.plus uid' m) := by
  intro hx
  rcases h hx with h | ⟨_, h⟩
  · exact h.elim
  · cases h

theorem linked_set {l : List Screen} (hl : l.IsChain Over) {i : ℕ} {uid : Option Uid} {n m : ℕ}
    (hi : l[i]? = some (.plus uid n)) : (l.set i (.plus uid m)).IsChain Over := by
  induction hl generalizing i with
  | nil => cases hi
  | singleton a =>
    cases i with
    | zero => exact .singleton _
    | succ i => cases hi
  | @cons_cons a b l hr hl ih =>
    cases i with
    | zero => exact .cons_cons (over_of_not_outside id) hl
    | succ i =>
      have hset := ih hi
      cases i with
      | zero =>
        obtain rfl := Option.some.inj hi
        exact .cons_cons (over_plus hr) hset
      | succ i => exact .cons_cons hr hset

namespace State

/-- The stack is linked, and all reads and writes so far were confined. -/
structure Sound (s : State) : Prop where
  linked : s.stack.IsChain Over
  ops : ∀ op ∈ s.ops, op.Confined

/-- Without a user, the top screen has nothing to read or write. -/
structure Confined (s : State) : Prop extends Sound s where
  guarded : s.currentUser = none → ∀ x ∈ s.stack.head?, x.Outside

def coversHome (s : State) : Bool :=
  match s.stack with
  | _ :: .home _ :: _ => true
  | _ => false

/-- A new-entry screen at that place of the stack waits for an answer. -/
def awaits (i : ℕ) (s : State) : Bool :=
  match s.stack[i]? with
  | some (.plus _ (_ + 1)) => true
  | _ => false

/-- The events that take the uid of the user without a look at whether there is one. -/
def needsUser (s : State) : Event → Bool
  | .back => s.coversHome
  | .reply i => s.awaits i
  | _ => false

/-- Back uncovers no home screen and no new-entry screen gets its answer while nobody is signed
in, and the screen on top is used by the user it was loaded for. -/
def StaysIn (s : State) (e : Event) : Prop :=
  s.crashed = false → (s.needsUser e = true → s.currentUser ≠ none) ∧
    ∀ x ∈ s.stack.head?, ∀ uid ∈ x.uses e, uid = s.currentUid

instance (s : State) (e : Event) : Decidable (StaysIn s e) :=
  inferInstanceAs (Decidable (s.crashed = false → (s.needsUser e = true → s.currentUser ≠ none) ∧
    ∀ x ∈ s.stack.head?, ∀ uid ∈ x.uses e, uid = s.currentUid))

variable {s t : State} {x : Screen} {u : Uid} {rest : List Screen} {root : Root} {e : Event}

/-- The outcome of a handler that goes through and keeps the user. -/
def Goes (s : State) (o : Option State) : Prop :=
  ∃ t, o = some t ∧ Sound t ∧ t.currentUser = s.currentUser

theorem Sound.push (h : Sound s) (hx : ∀ y ∈ s.stack.head?, Over x y) : Sound (s.push x) :=
  ⟨h.linked.cons hx, h.ops⟩

theorem Sound.issue (h : Sound s) (hu : s.currentUid = some u) : Sound (s.issue root u) := by
  refine ⟨h.linked, fun op hop => ?_⟩
  rcases List.mem_append.mp hop with hop | hop
  · exact h.ops op hop
  · obtain rfl := List.mem_singleton.mp hop
    exact hu

theorem Sound.setTop (h : Sound s) {y : Screen} (hst : s.stack = x :: rest) (hy : ¬ y.Outside) :
    Sound { s with stack := y :: rest } := by
  have hl := h.linked
  rw [hst] at hl
  exact ⟨hl.tail.cons fun _ _ => over_of_not_outside hy, h.ops⟩

theorem goes_fetchData (h : Sound s) (hu : s.currentUid = some u) : Goes s s.fetchData := by
  unfold fetchData
  split
  · rename_i uid rest hst
    rw [hu]
    exact ⟨_, rfl, (h.setTop hst id).issue hu, rfl⟩
  · exact ⟨s, rfl, h, rfl⟩

theorem fetchData_of_outside (hst : s.stack = x :: rest) (hx : x.Outside) :
    s.fetchData = some s := by
  cases x with
  | login => simp only [fetchData, hst]
  | register => simp only [fetchData, hst]
  | myPage => simp only [fetchData, hst]
  | _ => exact hx.elim

theorem currentUid_eq (h : t.currentUser = s.currentUser) : t.currentUid = s.currentUid := by
  rw [currentUid, h, currentUid]

theorem Goes.bind {o : Option State} {f : State → Option State} (h : Goes s o)
    (hf : ∀ t, Sound t → t.currentUser = s.currentUser → Goes t (f t)) : Goes s (o.bind f) := by
  obtain ⟨t, rfl, ht, hu⟩ := h
  obtain ⟨t', ht', hs, hu'⟩ := hf t ht hu
  exact ⟨t', ht', hs, hu'.trans hu⟩

theorem goes_pushHome (h : Sound s) (hu : s.currentUid = some u) : Goes s s.pushHome := by
  have hp : Sound (s.push (.home none)) := h.push fun _ _ => over_of_not_outside id
  refine Goes.bind (s := s) (goes_fetchData (u := u) hp hu) fun t ht htu => ?_
  exact goes_fetchData ht (u := u) ((currentUid_eq htu).trans hu)

theorem goes_pushReader (screen : Option Uid → Screen) (h : Sound s) (hu : s.currentUid = some u)
    (hx : ¬ (screen (some u)).Outside) : Goes s (s.pushReader screen) := by
  unfold pushReader
  rw [hu]
  exact ⟨_, rfl, (h.push fun _ _ => over_of_not_outside hx).issue hu, rfl⟩

theorem goes_setValue (h : Sound s) (hu : s.currentUid = some u) :
    Goes s (s.setValue (some u)) := by
  have hi : Sound (s.issue .diary u) := h.issue hu
  exact ⟨_, rfl, ⟨hi.linked, hi.ops⟩, rfl⟩

/-- The outcome of a step under the condition. -/
def Stays (o : Option State) : Prop := ∃ t, o = some t ∧ Confined t

theorem Goes.stays {o : Option State} (h : Goes s o) (hu : s.currentUid = some u) : Stays o := by
  obtain ⟨t, rfl, ht, htu⟩ := h
  refine ⟨t, rfl, ht, fun hn => ?_⟩
  rw [currentUid, ← htu, hn] at hu
  cases hu

theorem exists_currentUid (h : s.currentUser ≠ none) : ∃ u, s.currentUid = some u := by
  obtain ⟨user, hu⟩ := Option.ne_none_iff_exists'.mp h
  exact ⟨user.uid, by simp [currentUid, hu]⟩

theorem Confined.exists_currentUid (h : Confined s) (hst : s.stack = x :: rest)
    (hx : ¬ x.Outside) : ∃ u, s.currentUid = some u :=
  State.exists_currentUid fun hu => hx (h.guarded hu x (by simp [hst]))

theorem Confined.requests (h : Confined s) (l : List Request) :
    Confined { s with requests := l } := ⟨⟨h.linked, h.ops⟩, h.guarded⟩

theorem over_head {z : Screen} (hst : s.stack = x :: rest) (hz : Over z x) :
    ∀ y ∈ s.stack.head?, Over z y := by
  intro y hy
  rw [hst] at hy
  obtain rfl := Option.some.inj hy
  exact hz

theorem stays_pushFrom (h : Sound s) (hu : s.currentUid = some u) (screen : Option ℕ) :
    Stays (s.pushFrom screen pushHome) := by
  unfold pushFrom
  split_ifs
  · exact (goes_pushHome h hu).stays hu
  · exact Goes.stays ⟨s, rfl, h, rfl⟩ hu

section Handlers

variable (h : Confined s)
include h

theorem stays_self : Stays (some s) := ⟨s, rfl, h⟩

theorem stays_send (ask : Ask) : Stays (some (s.send ask)) := ⟨_, rfl, h.requests _⟩

theorem stays_answered (i : ℕ) : Stays (some (s.answered i)) := ⟨_, rfl, h.requests _⟩

theorem stays_push (hx : x.Outside) (hover : ∀ y ∈ s.stack.head?, Over x y) :
    Stays (some (s.push x)) := by
  refine ⟨_, rfl, h.push hover, fun _ y hy => ?_⟩
  obtain rfl := Option.some.inj hy
  exact hx

theorem stays_registerMoveButtonClick : Stays s.registerMoveButtonClick := by
  unfold registerMoveButtonClick
  split
  · exact stays_push h trivial (over_head ‹_› fun _ => Or.inl (by trivial))
  · exact stays_self h

theorem stays_loginButtonClick : Stays (s.loginButtonClick u) := by
  unfold loginButtonClick
  split
  · exact stays_send h _
  · exact stays_self h

theorem stays_loginCompletion (i : ℕ) (success : Bool) : Stays (s.loginCompletion i success) := by
  unfold loginCompletion
  split
  · rename_i screen uid hi
    split_ifs
    · have hs : Sound ((s.answered i).signedIn uid) := ⟨h.linked, h.ops⟩
      exact stays_pushFrom (u := uid) hs rfl screen
    · exact stays_answered h i
  · exact stays_self h

theorem stays_registerButtonClicked : Stays s.registerButtonClicked := by
  unfold registerButtonClicked
  split
  · exact stays_send h _
  · exact stays_self h

theorem stays_registerCompletion (i : ℕ) (uid : Option Uid) :
    Stays (s.registerCompletion i uid) := by
  unfold registerCompletion
  split
  · rename_i screen u hi
    split_ifs
    · exact stays_self h
    · have hs : Sound ((s.answered i).signedIn u) := ⟨h.linked, h.ops⟩
      have hi : Sound (((s.answered i).signedIn u).issue .users u) := hs.issue rfl
      have hw : Sound { ((s.answered i).signedIn u).issue .users u with
          server := s.server.register u } := ⟨hi.linked, hi.ops⟩
      exact stays_pushFrom (u := u) hw rfl screen
  · exact stays_answered h i
  · exact stays_self h

theorem stays_mypageButtonClicked : Stays s.mypageButtonClicked := by
  unfold mypageButtonClicked
  split
  · rename_i uid rest hst
    obtain ⟨u, hu⟩ := h.exists_currentUid hst id
    obtain ⟨user, huser, -⟩ := Option.map_eq_some_iff.mp hu
    rw [huser]
    exact stays_push h trivial (over_head hst fun _ => Or.inr ⟨_, rfl⟩)
  · exact stays_self h

theorem stays_plusButtonClicked : Stays s.plusButtonClicked := by
  unfold plusButtonClicked
  split
  · obtain ⟨u, hu⟩ := h.exists_currentUid ‹_› id
    exact Goes.stays ⟨_, rfl, h.push fun _ _ => over_of_not_outside id, rfl⟩ hu
  · exact stays_self h

theorem stays_calendarButtonClicked : Stays s.calendarButtonClicked := by
  unfold calendarButtonClicked
  split
  · obtain ⟨u, hu⟩ := h.exists_currentUid ‹_› id
    exact (goes_pushReader _ h.toSound hu id).stays hu
  · exact stays_self h

theorem stays_didSelect : Stays s.didSelect := by
  unfold didSelect
  split
  · obtain ⟨u, hu⟩ := h.exists_currentUid ‹_› id
    exact (goes_pushReader _ h.toSound hu id).stays hu
  · exact stays_self h

theorem stays_homeButtonClicked : Stays s.homeButtonClicked := by
  unfold homeButtonClicked
  split
  · obtain ⟨u, hu⟩ := h.exists_currentUid ‹_› id
    exact (goes_pushHome h.toSound hu).stays hu
  · exact stays_self h

theorem exists_uses (hc : StaysIn s e) (hr : s.crashed = false) (hst : s.stack = x :: rest)
    (hx : ¬ x.Outside) {uid : Option Uid} (hu : x.uses e = some uid) :
    ∃ u, s.currentUid = some u ∧ uid = some u := by
  obtain ⟨u, hcur⟩ := h.exists_currentUid hst hx
  exact ⟨u, hcur, ((hc hr).2 x (by simp [hst]) uid hu).trans hcur⟩

theorem stays_setValue (hc : StaysIn s e) (hr : s.crashed = false) (hst : s.stack = x :: rest)
    (hx : ¬ x.Outside) {uid : Option Uid} (hu : x.uses e = some uid) :
    Stays (s.setValue uid) := by
  obtain ⟨u, hcur, rfl⟩ := exists_uses h hc hr hst hx hu
  exact (goes_setValue h.toSound hcur).stays hcur

theorem stays_saveButtonClicked (endpoint : Option String) (hc : StaysIn s .save)
    (hr : s.crashed = false) : Stays (s.saveButtonClicked endpoint) := by
  unfold saveButtonClicked
  split
  · rename_i uid posts rest hst
    obtain ⟨u, hu, rfl⟩ := exists_uses h hc hr hst id rfl
    obtain ⟨_, hv, hs, -⟩ := goes_setValue h.toSound hu
    obtain rfl := Option.some.inj hv
    cases endpoint with
    | none => exact Goes.stays ⟨_, rfl, ⟨hs.linked, hs.ops⟩, rfl⟩ hu
    | some url => exact Goes.stays ⟨_, rfl, hs.setTop hst id, rfl⟩ hu
  · exact stays_setValue h hc hr ‹_› id rfl
  · exact stays_self h

theorem stays_temporaySaveButtonClicked (hc : StaysIn s .temporarySave) (hr : s.crashed = false) :
    Stays s.temporaySaveButtonClicked := by
  unfold temporaySaveButtonClicked
  split
  · exact stays_setValue h hc hr ‹_› id rfl
  · exact stays_setValue h hc hr ‹_› id rfl
  · exact stays_self h

theorem stays_readDiary (hc : StaysIn s e) (hr : s.crashed = false)
    (he : e = .before ∨ e = .after) : Stays s.readDiary := by
  unfold readDiary
  split
  · rename_i uid rest hst
    have hu : (Screen.calendarDiary uid).uses e = some uid := by rcases he with rfl | rfl <;> rfl
    obtain ⟨u, hcur, rfl⟩ := exists_uses h hc hr hst id hu
    exact Goes.stays ⟨_, rfl, h.issue hcur, rfl⟩ hcur
  · exact stays_self h

theorem stays_reply (i : ℕ) (hc : StaysIn s (.reply i)) (hr : s.crashed = false) :
    Stays (s.reply i) := by
  unfold reply
  split
  · rename_i uid posts hi
    obtain ⟨u, hu⟩ := exists_currentUid ((hc hr).1 (by simp [needsUser, awaits, hi]))
    have hs : Sound { s with stack := s.stack.set i (.plus uid posts) } :=
      ⟨linked_set h.linked hi, h.ops⟩
    exact (goes_pushReader .image hs hu id).stays hu
  · exact stays_self h

theorem stays_logoutClicked : Stays s.logoutClicked := by
  unfold logoutClicked
  split
  · have hs : Confined { s with currentUser := none } :=
      ⟨⟨h.linked, h.ops⟩, fun _ y hy => by rw [show s.stack = _ from ‹_›] at hy; cases hy; trivial⟩
    exact stays_push hs trivial (over_head ‹_› fun _ => Or.inl (by trivial))
  · exact stays_self h

theorem stays_deleteUserClicked : Stays s.deleteUserClicked := by
  unfold deleteUserClicked
  split
  · exact stays_send h _
  · exact stays_self h

theorem stays_deleteCompletion_false (i : ℕ) : Stays (s.deleteCompletion i false) := by
  unfold deleteCompletion
  split
  · exact stays_answered h i
  · exact stays_self h

theorem stays_cleanup : Stays (some (s.cleanup u)) := by
  unfold cleanup
  split_ifs
  · exact ⟨_, rfl, ⟨h.linked, h.ops⟩, h.guarded⟩
  · exact stays_self h

theorem stays_back (hc : StaysIn s .back) (hr : s.crashed = false) : Stays s.back := by
  unfold back
  split
  · rename_i y x rest hst
    have hlink : (y :: x :: rest).IsChain Over := hst ▸ h.linked
    have hs : Sound { s with
        stack := x :: rest, requests := s.requests.map (Request.pop (rest.length + 1)) } :=
      ⟨hlink.tail, h.ops⟩
    rcases Option.eq_none_or_eq_some s.currentUser with hu | ⟨user, hu⟩
    · have hy : y.Outside := h.guarded hu y (by simp [hst])
      have hx : x.Outside := by
        rcases (List.isChain_cons_cons.mp hlink).1 hy with hx | ⟨uid, rfl⟩
        · exact hx
        · exact absurd hu ((hc hr).1 (by simp [needsUser, coversHome, hst]))
      refine ⟨_, fetchData_of_outside rfl hx, hs, fun _ z hz => ?_⟩
      obtain rfl := Option.some.inj hz
      exact hx
    · have hu' : s.currentUid = some user.uid := by simp [currentUid, hu]
      exact (goes_fetchData hs hu').stays hu'
  · exact stays_self h

end Handlers

/-- A step of a running app that meets the condition goes through and stays confined, unless it
is a deletion that succeeds. -/
theorem stays_step (h : Confined s) {endpoint : Option String} (hc : StaysIn s e)
    (hd : ∀ i, e ≠ .deleted i true) (hr : s.crashed = false) : Stays (s.step endpoint e) := by
  simp only [step, hr, Bool.false_eq_true, if_false]
  cases e with
  | registerMove => exact stays_registerMoveButtonClick h
  | signIn uid => exact stays_loginButtonClick h
  | signedIn i success => exact stays_loginCompletion h i success
  | register => exact stays_registerButtonClicked h
  | registered i uid => exact stays_registerCompletion h i uid
  | myPage => exact stays_mypageButtonClicked h
  | plus => exact stays_plusButtonClicked h
  | calendar => exact stays_calendarButtonClicked h
  | select => exact stays_didSelect h
  | home => exact stays_homeButtonClicked h
  | save => exact stays_saveButtonClicked h endpoint hc hr
  | temporarySave => exact stays_temporaySaveButtonClicked h hc hr
  | before => exact stays_readDiary h hc hr (Or.inl rfl)
  | after => exact stays_readDiary h hc hr (Or.inr rfl)
  | reply i => exact stays_reply h i hc hr
  | logout => exact stays_logoutClicked h
  | deleteUser => exact stays_deleteUserClicked h
  | deleted i success =>
    cases success with
    | false => exact stays_deleteCompletion_false h i
    | true => exact absurd rfl (hd i)
  | cleanup uid => exact stays_cleanup h
  | back => exact stays_back h hc hr

/-- No uid or user is unwrapped that is not there. -/
def Unwraps (endpoint : Option String) (s : State) (e : Event) : Prop :=
  s.crashed = false → (s.step endpoint e).isSome

/-- The step goes through without an unwrapped `nil`, and what it issues is confined. -/
def Fine (o : Option State) : Prop := o.isSome ∧ ∀ t, o = some t → ∀ op ∈ t.ops, op.Confined

theorem not_fine_issue (root : Root) {v : Uid} {o : Option State} (hu : s.currentUid ≠ some v)
    (ho : o = some t) (ht : t.ops = (s.issue root v).ops) : ¬ Fine o := by
  rintro ⟨-, h⟩
  have hop : (⟨root, v, s.currentUid⟩ : Op) ∈ t.ops :=
    ht ▸ List.mem_append_right _ (List.mem_singleton_self _)
  exact hu (h t ho _ hop)

theorem not_fine_setValue {uid : Option Uid} (hu : uid ≠ s.currentUid) :
    ¬ Fine (s.setValue uid) := by
  cases uid with
  | none => exact fun h => absurd h.1 Bool.false_ne_true
  | some v => exact not_fine_issue .diary (fun h => hu h.symm) rfl rfl

theorem not_fine_save {endpoint : Option String} {uid : Option Uid} (hst : s.stack = x :: rest)
    (hx : x.uses .save = some uid) (hu : uid ≠ s.currentUid) :
    ¬ Fine (s.saveButtonClicked endpoint) := by
  cases x with
  | plus w posts =>
    obtain rfl := Option.some.inj hx
    cases w with
    | none =>
      intro h
      simp [saveButtonClicked, hst, setValue, Fine] at h
    | some v =>
      have hv : s.currentUid ≠ some v := fun h => hu h.symm
      cases endpoint with
      | none =>
        have hsave : s.saveButtonClicked none = some
            { s.issue .diary v with server := s.server.write v, crashed := true } := by
          simp only [saveButtonClicked, hst]; rfl
        exact not_fine_issue .diary hv hsave rfl
      | some url =>
        have hsave : s.saveButtonClicked (some url) = some { s.issue .diary v with
            server := s.server.write v, stack := .plus (some v) (posts + 1) :: rest } := by
          simp only [saveButtonClicked, hst]; rfl
        exact not_fine_issue .diary hv hsave rfl
  | calendarDiary w =>
    obtain rfl := Option.some.inj hx
    simpa only [saveButtonClicked, hst] using not_fine_setValue hu
  | _ => cases hx

theorem not_fine_temporarySave {uid : Option Uid} (hst : s.stack = x :: rest)
    (hx : x.uses .temporarySave = some uid) (hu : uid ≠ s.currentUid) :
    ¬ Fine s.temporaySaveButtonClicked := by
  cases x with
  | plus w posts =>
    obtain rfl := Option.some.inj hx
    simpa only [temporaySaveButtonClicked, hst] using not_fine_setValue hu
  | calendarDiary w =>
    obtain rfl := Option.some.inj hx
    simpa only [temporaySaveButtonClicked, hst] using not_fine_setValue hu
  | _ => cases hx

theorem not_fine_readDiary {uid : Option Uid} (hst : s.stack = .calendarDiary uid :: rest)
    (hu : uid ≠ s.currentUid) : ¬ Fine s.readDiary := by
  cases uid with
  | none =>
    intro h
    simp [readDiary, hst, Fine] at h
  | some v =>
    exact not_fine_issue .diary (fun h => hu h.symm)
      (by simp only [readDiary, hst]; rfl) rfl

/-- A screen that is used by another user than the one it was loaded for is not confined. -/
theorem not_fine_of_uses {endpoint : Option String} {uid : Option Uid} (hr : s.crashed = false)
    (hst : s.stack = x :: rest) (hx : x.uses e = some uid) (hu : uid ≠ s.currentUid) :
    ¬ Fine (s.step endpoint e) := by
  simp only [step, hr, Bool.false_eq_true, if_false]
  cases e with
  | save => exact not_fine_save hst hx hu
  | temporarySave => exact not_fine_temporarySave hst hx hu
  | before =>
    cases x with
    | calendarDiary w => exact not_fine_readDiary hst (Option.some.inj hx ▸ hu)
    | _ => cases hx
  | after =>
    cases x with
    | calendarDiary w => exact not_fine_readDiary hst (Option.some.inj hx ▸ hu)
    | _ => cases hx
  | _ => cases x <;> cases hx

theorem not_fine_back (hcov : s.coversHome = true) (hu : s.currentUid = none) :
    ¬ Fine s.back := by
  obtain ⟨y, uid, rest, hst⟩ : ∃ y uid rest, s.stack = y :: .home uid :: rest := by
    unfold coversHome at hcov
    split at hcov
    · exact ⟨_, _, _, ‹_›⟩
    · cases hcov
  cases uid with
  | none =>
    have hcur : s.currentUser = none := by simpa [currentUid] using hu
    intro h
    simp [back, hst, fetchData, currentUid, hcur, Fine] at h
  | some v =>
    have hcur : s.currentUser = none := by simpa [currentUid] using hu
    have hv : s.currentUid ≠ some v := by simp [hu]
    have hback : s.back = some ({ s with
        stack := .home (some v) :: rest
        requests := s.requests.map (Request.pop (rest.length + 1)) }.issue .diary v) := by
      simp [back, hst, fetchData, currentUid, hcur]
    exact not_fine_issue .diary hv hback rfl

theorem not_fine_reply {i : ℕ} (ha : s.awaits i = true) (hu : s.currentUid = none) :
    ¬ Fine (s.reply i) := by
  intro h
  unfold awaits at ha
  split at ha
  · rename_i uid posts hi
    have hcur : s.currentUser = none := by simpa [currentUid] using hu
    simp [reply, hi, pushReader, currentUid, hcur, Fine] at h
  · cases ha

/-- A step that goes through and stays confined meets the condition. -/
theorem staysIn_of_confined {endpoint : Option String} (hd : Unwraps endpoint s e)
    (hp : ∀ t, s.step endpoint e = some t → ∀ op ∈ t.ops, op.Confined) : StaysIn s e := by
  intro hr
  have hfine : Fine (s.step endpoint e) := ⟨hd hr, hp⟩
  constructor
  · intro hn hu
    have hcur : s.currentUid = none := by simp [currentUid, hu]
    simp only [step, hr, Bool.false_eq_true, if_false] at hfine
    cases e with
    | back => exact not_fine_back hn hcur hfine
    | reply i => exact not_fine_reply hn hcur hfine
    | _ => cases hn
  · intro x hx uid hu
    by_contra hne
    obtain ⟨rest, hst⟩ := List.head?_eq_some_iff.mp hx
    exact not_fine_of_uses hr hst hu hne hfine

theorem confined_launch {accounts : Finset Uid} {user : Option Uid}
    (hl : launch accounts user = some s) : Confined s := by
  have hlogin : ∀ t : State, t.stack = [.login] → t.ops = [] → Sound t :=
    fun t hst hops => ⟨hst ▸ .singleton _, by simp [hops]⟩
  have hstays : Stays (launch accounts user) := by
    cases user with
    | none =>
      refine ⟨_, rfl, hlogin _ rfl rfl, fun _ x hx => ?_⟩
      obtain rfl := Option.some.inj hx
      trivial
    | some u => exact (goes_pushHome (hlogin _ rfl rfl) rfl).stays (u := u) rfl
  obtain ⟨t, ht, hc⟩ := hstays
  exact Option.some.inj (ht.symm.trans hl) ▸ hc

end State

end Treena.App
