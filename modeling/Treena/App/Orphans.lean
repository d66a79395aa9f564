import Treena.App.Navigation
import Treena.Run.Basic

/-! # Data without an account

An entry is written under the uid that a screen holds, and stays when the account goes: a
deletion removes the node under `Users` only.
-/

namespace Treena.App

open Firebase Run

namespace State

def savedUid (s : State) : Event → Option Uid
  | .save => (s.stack.head?.bind Screen.entryUid).join
  | .temporarySave => (s.stack.head?.bind Screen.entryUid).join
  | _ => none

def deletedUid (s : State) : Event → Option Uid
  | .deleted i true =>
    match s.requests[i]? with
    | some ⟨_, .delete user⟩ => if user.uid ∈ s.server.accounts then some user.uid else none
    | _ => none
  | _ => none

/-- The writer has an account, and the account deleted has no entries. -/
def Owned (s : State) (e : Event) : Prop :=
  (∀ u ∈ s.savedUid e, u ∈ s.server.accounts) ∧ ∀ u ∈ s.deletedUid e, u ∉ s.server.diary

instance (s : State) (e : Event) : Decidable (Owned s e) :=
  inferInstanceAs (Decidable ((∀ u ∈ s.savedUid e, u ∈ s.server.accounts) ∧
    ∀ u ∈ s.deletedUid e, u ∉ s.server.diary))

def NoOrphans (s : State) : Prop :=
  ∀ u, u ∈ s.server.users ∨ u ∈ s.server.diary → u ∈ s.server.accounts

variable {s t s₀ : State} {e : Event} {u : Uid} {endpoint : Option String}

/-- Screens were pushed or popped, and new ones hold the uid of the user; requests were sent or
answered. -/
structure Moves (s t : State) : Prop where
  server : t.server = s.server
  currentUser : t.currentUser = s.currentUser
  entry : ∀ x ∈ t.stack, ∀ u, x.entryUid = some (some u) →
    s.currentUid = some u ∨ ∃ y ∈ s.stack, y.entryUid = some (some u)

inductive Acts (s : State) : Event → State → Prop
  | keep {e : Event} : s.savedUid e = none → s.deletedUid e = none → Acts s e s
  | signIn {i : ℕ} {u : Uid} : u ∈ s.server.accounts → Acts s (.signedIn i true) (s.signedIn u)
  | register {i : ℕ} {u : Uid} : u ∉ s.server.uids →
      Acts s (.registered i (some u)) { s.signedIn u with server := s.server.register u }
  | logout : Acts s .logout { s with currentUser := none }
  | save {e : Event} {u : Uid} : s.savedUid e = some u → s.deletedUid e = none →
      Acts s e { s with server := s.server.write u }
  | delete {e : Event} {u : Uid} {user : Option User} : s.savedUid e = none →
      s.deletedUid e = some u → (user = s.currentUser ∨ user = none) →
      Acts s e { s with currentUser := user, server := s.server.delete u }
  | cleanup {u : Uid} : u ∈ s.server.cleanups →
      Acts s (.cleanup u) { s with server := s.server.cleanup u }

section Moves

theorem moves_refl : Moves s s := ⟨rfl, rfl, fun x hx _ hu => Or.inr ⟨x, hx, hu⟩⟩

theorem Moves.trans {r : State} (h : Moves s t) (h' : Moves t r) : Moves s r := by
  refine ⟨h'.server.trans h.server, h'.currentUser.trans h.currentUser, fun x hx u hu => ?_⟩
  rcases h'.entry x hx u hu with hc | ⟨y, hy, hyu⟩
  · exact Or.inl (by rw [← hc, currentUid, currentUid, h.currentUser])
  · exact h.entry y hy u hyu

theorem moves_push {x : Screen} (hx : ∀ u, x.entryUid = some (some u) → s.currentUid = some u) :
    Moves s (s.push x) := by
  refine ⟨rfl, rfl, fun y hy u hu => ?_⟩
  rcases List.mem_cons.mp hy with rfl | hy
  · exact Or.inl (hx u hu)
  · exact Or.inr ⟨y, hy, hu⟩

theorem moves_issue {root : Root} : Moves s (s.issue root u) :=
  ⟨rfl, rfl, fun x hx _ hv => Or.inr ⟨x, hx, hv⟩⟩

theorem moves_requests (l : List Request) : Moves s { s with requests := l } :=
  ⟨rfl, rfl, fun x hx _ hv => Or.inr ⟨x, hx, hv⟩⟩

theorem bindUid_none_right (s : State) : bindUid s.currentUid none = s.currentUid := by
  cases s.currentUid <;> rfl

theorem moves_fetchData (h : s.fetchData = some t) : Moves s t := by
  unfold fetchData at h
  split at h
  · rename_i uid rest hst
    obtain ⟨u, -, h⟩ := Option.bind_eq_some_iff.mp h
    obtain rfl := Option.some.inj h
    refine ⟨rfl, rfl, fun x hx v hv => ?_⟩
    rcases List.mem_cons.mp hx with rfl | hx
    · cases hv
    · exact Or.inr ⟨x, hst ▸ List.mem_cons_of_mem _ hx, hv⟩
  · obtain rfl := Option.some.inj h
    exact moves_refl

theorem moves_pushHome (h : s.pushHome = some t) : Moves s t := by
  obtain ⟨r, hr, h⟩ := Option.bind_eq_some_iff.mp h
  have hp : Moves s (s.push (.home none)) := moves_push (by exact fun _ h => nomatch h)
  exact (hp.trans (moves_fetchData hr)).trans (moves_fetchData h)

theorem moves_pushLogin (h : s.pushLogin = some t) : Moves s t := by
  have hp : Moves s (s.push .login) := moves_push (by exact fun _ h => nomatch h)
  unfold pushLogin at h
  split_ifs at h
  · exact hp.trans (moves_pushHome h)
  · obtain rfl := Option.some.inj h
    exact hp

theorem moves_pushReader {screen : Option Uid → Screen} (h : s.pushReader screen = some t)
    (hx : ∀ u v, (screen (some u)).entryUid = some (some v) → v = u) : Moves s t := by
  obtain ⟨u, hu, h⟩ := Option.bind_eq_some_iff.mp h
  obtain rfl := Option.some.inj h
  rw [bindUid_none_right] at hu
  exact (moves_push fun v hv => hx u v hv ▸ hu).trans moves_issue

end Moves

section Acts

/-- What a step does: the change of its event, then moves between screens. -/
def Steps (s : State) (e : Event) (t : State) : Prop := ∃ r, Acts s e r ∧ Moves r t

theorem steps_keep (hs : s.savedUid e = none) (hd : s.deletedUid e = none) (h : Moves s t) :
    Steps s e t := ⟨s, .keep hs hd, h⟩

theorem steps_self (hs : s.savedUid e = none) (hd : s.deletedUid e = none)
    (h : some s = some t) : Steps s e t := by
  obtain rfl := Option.some.inj h
  exact steps_keep hs hd moves_refl

theorem steps_registerMove (h : s.registerMoveButtonClick = some t) : Steps s .registerMove t := by
  unfold registerMoveButtonClick at h
  split at h
  · obtain rfl := Option.some.inj h
    exact steps_keep rfl rfl (moves_push fun _ h => nomatch h)
  · exact steps_self rfl rfl h

theorem steps_send {ask : Ask} (hs : s.savedUid e = none) (hd : s.deletedUid e = none)
    (h : some (s.send ask) = some t) : Steps s e t := by
  obtain rfl := Option.some.inj h
  exact steps_keep hs hd (moves_requests _)

theorem steps_answered {i : ℕ} (hs : s.savedUid e = none) (hd : s.deletedUid e = none)
    (h : some (s.answered i) = some t) : Steps s e t := by
  obtain rfl := Option.some.inj h
  exact steps_keep hs hd (moves_requests _)

theorem moves_pushFrom {screen : Option ℕ} {pushScreen : State → Option State}
    (hp : ∀ r, pushScreen s = some r → Moves s r) (h : s.pushFrom screen pushScreen = some t) :
    Moves s t := by
  unfold pushFrom at h
  split_ifs at h
  · exact hp t h
  · obtain rfl := Option.some.inj h
    exact moves_refl

theorem steps_signIn (h : s.loginButtonClick u = some t) : Steps s (.signIn u) t := by
  unfold loginButtonClick at h
  split at h
  · exact steps_send rfl rfl h
  · exact steps_self rfl rfl h

theorem steps_signedIn {i : ℕ} {success : Bool} (h : s.loginCompletion i success = some t) :
    Steps s (.signedIn i success) t := by
  unfold loginCompletion at h
  split at h
  · rename_i screen uid hi
    split_ifs at h with hu
    · obtain ⟨rfl, hu⟩ := hu
      have hm : Moves (s.signedIn uid) ((s.answered i).signedIn uid) := moves_requests _
      exact ⟨_, .signIn hu, hm.trans (moves_pushFrom (fun _ => moves_pushHome) h)⟩
    · exact steps_answered rfl rfl h
  · exact steps_self rfl rfl h

theorem steps_register (h : s.registerButtonClicked = some t) : Steps s .register t := by
  unfold registerButtonClicked at h
  split at h
  · exact steps_send rfl rfl h
  · exact steps_self rfl rfl h

theorem steps_registered {i : ℕ} {uid : Option Uid} (h : s.registerCompletion i uid = some t) :
    Steps s (.registered i uid) t := by
  unfold registerCompletion at h
  split at h
  · rename_i screen u hi
    split_ifs at h with hu
    · exact steps_self rfl rfl h
    · have hm : Moves { s.signedIn u with server := s.server.register u }
          { ((s.answered i).signedIn u).issue .users u with server := s.server.register u } :=
        Moves.trans moves_issue (moves_requests _)
      exact ⟨_, .register hu, hm.trans (moves_pushFrom (fun _ => moves_pushHome) h)⟩
  · exact steps_answered rfl rfl h
  · exact steps_self rfl rfl h

theorem steps_myPage (h : s.mypageButtonClicked = some t) : Steps s .myPage t := by
  unfold mypageButtonClicked at h
  split at h
  · obtain ⟨user, -, h⟩ := Option.bind_eq_some_iff.mp h
    obtain rfl := Option.some.inj h
    exact steps_keep rfl rfl (moves_push fun _ h => nomatch h)
  · exact steps_self rfl rfl h

theorem steps_plus (h : s.plusButtonClicked = some t) : Steps s .plus t := by
  unfold plusButtonClicked at h
  split at h
  · obtain rfl := Option.some.inj h
    refine steps_keep rfl rfl (moves_push fun u hu => ?_)
    rw [← bindUid_none_right]
    exact Option.some.inj hu
  · exact steps_self rfl rfl h

theorem steps_calendar (h : s.calendarButtonClicked = some t) : Steps s .calendar t := by
  unfold calendarButtonClicked at h
  split at h
  · exact steps_keep rfl rfl (moves_pushReader h fun _ _ h => nomatch h)
  · exact steps_self rfl rfl h

theorem steps_select (h : s.didSelect = some t) : Steps s .select t := by
  unfold didSelect at h
  split at h
  · refine steps_keep rfl rfl (moves_pushReader h fun u v huv => ?_)
    exact (Option.some.inj (Option.some.inj huv)).symm
  · exact steps_self rfl rfl h

theorem steps_home (h : s.homeButtonClicked = some t) : Steps s .home t := by
  unfold homeButtonClicked at h
  split at h
  · exact steps_keep rfl rfl (moves_pushHome h)
  · exact steps_self rfl rfl h

theorem setValue_eq_some {uid : Option Uid} : s.setValue uid = some t ↔
    ∃ u, uid = some u ∧ t = { s.issue .diary u with server := s.server.write u } := by
  cases uid <;> simp [setValue, eq_comm]

theorem savedUid_eq_none (h : ∀ uid posts rest, s.stack = .plus uid posts :: rest → False)
    (h' : ∀ uid rest, s.stack = .calendarDiary uid :: rest → False) :
    (s.stack.head?.bind Screen.entryUid).join = none := by
  cases hst : s.stack with
  | nil => rfl
  | cons x rest =>
    cases x with
    | plus uid posts => exact (h _ _ _ hst).elim
    | calendarDiary uid => exact (h' _ _ hst).elim
    | _ => rfl

theorem Steps.moves {r : State} (h : Steps s e r) (hm : Moves r t) : Steps s e t := by
  obtain ⟨q, ha, hq⟩ := h
  exact ⟨q, ha, hq.trans hm⟩

theorem steps_setValue {x : Screen} {uid : Option Uid} {rest : List Screen}
    (hst : s.stack = x :: rest) (hx : x.entryUid = some uid)
    (hs : s.savedUid e = (s.stack.head?.bind Screen.entryUid).join) (hd : s.deletedUid e = none)
    (h : s.setValue uid = some t) : Steps s e t := by
  obtain ⟨u, rfl, rfl⟩ := setValue_eq_some.mp h
  have hu : s.savedUid e = some u := by simp [hs, hst, hx]
  have hi : Moves { s with server := s.server.write u }
      { s.issue .diary u with server := s.server.write u } := moves_issue
  exact ⟨_, .save hu hd, hi⟩

theorem steps_save (h : s.saveButtonClicked endpoint = some t) : Steps s .save t := by
  unfold saveButtonClicked at h
  split at h
  · rename_i uid posts rest hst
    obtain ⟨r, hr, h⟩ := Option.bind_eq_some_iff.mp h
    obtain rfl := Option.some.inj h
    refine (steps_setValue hst rfl rfl rfl hr).moves ?_
    obtain ⟨u, rfl, rfl⟩ := setValue_eq_some.mp hr
    cases endpoint with
    | none => exact ⟨rfl, rfl, fun x hx _ hv => Or.inr ⟨x, hx, hv⟩⟩
    | some url =>
      refine ⟨rfl, rfl, fun x hx v hv => Or.inr ?_⟩
      rcases List.mem_cons.mp hx with rfl | hx
      · exact ⟨.plus (some u) posts, by simp [issue, hst], hv⟩
      · exact ⟨x, by simp [issue, hst, hx], hv⟩
  · exact steps_setValue ‹_› rfl rfl rfl h
  · exact steps_self (savedUid_eq_none ‹_› ‹_›) rfl h

theorem steps_temporarySave (h : s.temporaySaveButtonClicked = some t) :
    Steps s .temporarySave t := by
  unfold temporaySaveButtonClicked at h
  split at h
  · exact steps_setValue ‹_› rfl rfl rfl h
  · exact steps_setValue ‹_› rfl rfl rfl h
  · exact steps_self (savedUid_eq_none ‹_› ‹_›) rfl h

theorem steps_readDiary (hs : s.savedUid e = none) (hd : s.deletedUid e = none)
    (h : s.readDiary = some t) : Steps s e t := by
  unfold readDiary at h
  split at h
  · obtain ⟨u, -, h⟩ := Option.bind_eq_some_iff.mp h
    obtain rfl := Option.some.inj h
    exact steps_keep hs hd moves_issue
  · exact steps_self hs hd h

theorem steps_reply {i : ℕ} (h : s.reply i = some t) : Steps s (.reply i) t := by
  unfold reply at h
  split at h
  · rename_i uid posts hi
    have hset : Moves s { s with stack := s.stack.set i (.plus uid posts) } := by
      refine ⟨rfl, rfl, fun x hx u hu => Or.inr ?_⟩
      rcases List.mem_or_eq_of_mem_set hx with hx | rfl
      · exact ⟨x, hx, hu⟩
      · exact ⟨_, List.mem_of_getElem? hi, hu⟩
    exact steps_keep rfl rfl (hset.trans (moves_pushReader h fun _ _ h => nomatch h))
  · exact steps_self rfl rfl h

theorem steps_logout (h : s.logoutClicked = some t) : Steps s .logout t := by
  unfold logoutClicked at h
  split at h
  · exact ⟨_, .logout, moves_pushLogin h⟩
  · exact steps_self rfl rfl h

theorem steps_deleteUser (h : s.deleteUserClicked = some t) : Steps s .deleteUser t := by
  unfold deleteUserClicked at h
  split at h
  · exact steps_send rfl rfl h
  · exact steps_self rfl rfl h

theorem steps_deleted_false {i : ℕ} (h : s.deleteCompletion i false = some t) :
    Steps s (.deleted i false) t := by
  unfold deleteCompletion at h
  split at h
  · exact steps_answered rfl rfl (by simpa using h)
  · exact steps_self rfl rfl h

theorem steps_deleted_true {i : ℕ} (h : s.deleteCompletion i true = some t) :
    Steps s (.deleted i true) t := by
  unfold deleteCompletion at h
  split at h
  · rename_i screen user hi
    have hdel : s.deletedUid (.deleted i true) =
        if user.uid ∈ s.server.accounts then some user.uid else none := by
      simp [deletedUid, hi]
    by_cases hu : user.uid ∈ s.server.accounts
    · rw [if_pos ⟨rfl, hu⟩] at h
      rw [if_pos hu] at hdel
      refine ⟨_, .delete rfl hdel ?_, Moves.trans (Moves.trans moves_issue (moves_requests _))
        (moves_pushFrom (fun _ => moves_pushLogin) h)⟩
      split_ifs
      · exact Or.inr rfl
      · exact Or.inl rfl
    · rw [if_neg fun hd => hu hd.2] at h
      rw [if_neg hu] at hdel
      exact steps_answered rfl hdel h
  · rename_i hst
    refine steps_self rfl ?_ h
    simp only [deletedUid]

theorem steps_cleanup : Steps s (.cleanup u) (s.cleanup u) := by
  unfold cleanup
  split_ifs with hu
  · exact ⟨_, .cleanup hu, moves_refl⟩
  · exact steps_keep rfl rfl moves_refl

theorem steps_back (h : s.back = some t) : Steps s .back t := by
  unfold back at h
  split at h
  · rename_i y x rest hst
    have hpop : Moves s { s with
        stack := x :: rest, requests := s.requests.map (Request.pop (rest.length + 1)) } :=
      ⟨rfl, rfl, fun z hz _ hv => Or.inr ⟨z, hst ▸ List.mem_cons_of_mem _ hz, hv⟩⟩
    exact steps_keep rfl rfl (hpop.trans (moves_fetchData h))
  · exact steps_self rfl rfl h

theorem steps_of_step (h : s.step endpoint e = some t) : Steps s e t := by
  unfold step at h
  split_ifs at h
  cases e with
  | registerMove => exact steps_registerMove h
  | signIn u => exact steps_signIn h
  | signedIn i success => exact steps_signedIn h
  | register => exact steps_register h
  | registered i uid => exact steps_registered h
  | myPage => exact steps_myPage h
  | plus => exact steps_plus h
  | calendar => exact steps_calendar h
  | select => exact steps_select h
  | home => exact steps_home h
  | save => exact steps_save h
  | temporarySave => exact steps_temporarySave h
  | before => exact steps_readDiary rfl rfl h
  | after => exact steps_readDiary rfl rfl h
  | reply i => exact steps_reply h
  | logout => exact steps_logout h
  | deleteUser => exact steps_deleteUser h
  | deleted i success =>
    cases success with
    | false => exact steps_deleted_false h
    | true => exact steps_deleted_true h
  | cleanup u => obtain rfl := Option.some.inj h; exact steps_cleanup
  | back => exact steps_back h

end Acts

/-- Nodes under `Users` are those of accounts, up to the clean-ups on their way, and so are
the nodes under `diary`. -/
structure Clean (s : State) : Prop where
  users : ∀ u ∈ s.server.users, u ∈ s.server.accounts ∨ u ∈ s.server.cleanups
  diary : ∀ u ∈ s.server.diary, u ∈ s.server.accounts

structure Known (s : State) : Prop where
  accounts : ∀ u ∈ s.server.accounts, u ∈ s.server.uids
  currentUser : ∀ u, s.currentUid = some u → u ∈ s.server.uids
  entry : ∀ x ∈ s.stack, ∀ u, x.entryUid = some (some u) → u ∈ s.server.uids

/-- Entries of `u` are left without an account, and no account can get the uid again. -/
structure Lost (u : Uid) (s : State) : Prop where
  diary : u ∈ s.server.diary
  accounts : u ∉ s.server.accounts
  uids : u ∈ s.server.uids

theorem mem_accounts_of_deletedUid (h : s.deletedUid e = some u) : u ∈ s.server.accounts := by
  unfold deletedUid at h
  split at h
  · split at h
    · split_ifs at h with hu
      exact Option.some.inj h ▸ hu
    · cases h
  · cases h

theorem Clean.acts (h : Clean s) (hc : Owned s e) (ha : Acts s e t) : Clean t := by
  cases ha with
  | keep => exact h
  | signIn => exact ⟨h.users, h.diary⟩
  | logout => exact ⟨h.users, h.diary⟩
  | @register _ v _ =>
    constructor
    · intro u hu
      rcases Finset.mem_insert.mp hu with rfl | hu
      · exact Or.inl (Finset.mem_insert_self _ _)
      · exact (h.users u hu).imp_left (Finset.mem_insert_of_mem)
    · intro u hu
      exact Finset.mem_insert_of_mem (h.diary u hu)
  | @save _ v hs _ =>
    refine ⟨h.users, fun u hu => ?_⟩
    rcases Finset.mem_insert.mp hu with rfl | hu
    · exact hc.1 _ hs
    · exact h.diary u hu
  | @delete _ v _ _ hd _ =>
    constructor
    · intro u hu
      by_cases huv : u = v
      · exact Or.inr (huv ▸ Finset.mem_insert_self _ _)
      · rcases h.users u hu with hu | hu
        · exact Or.inl (Finset.mem_erase.mpr ⟨huv, hu⟩)
        · exact Or.inr (Finset.mem_insert_of_mem hu)
    · intro u hu
      refine Finset.mem_erase.mpr ⟨?_, h.diary u hu⟩
      rintro rfl
      exact hc.2 _ hd hu
  | @cleanup v _ =>
    refine ⟨fun u hu => ?_, h.diary⟩
    obtain ⟨huv, hu⟩ := Finset.mem_erase.mp hu
    exact (h.users u hu).imp_right fun hcl => Finset.mem_erase.mpr ⟨huv, hcl⟩

theorem Known.acts (h : Known s) (ha : Acts s e t) : Known t := by
  cases ha with
  | keep => exact h
  | signIn hu =>
    refine ⟨h.accounts, fun v hv => ?_, h.entry⟩
    obtain rfl := Option.some.inj hv
    exact h.accounts _ hu
  | logout => exact ⟨h.accounts, fun v hv => (nomatch hv), h.entry⟩
  | @register _ v _ =>
    refine ⟨fun u hu => ?_, fun u hu => ?_, fun x hx u hu => ?_⟩
    · rcases Finset.mem_insert.mp hu with rfl | hu
      · exact Finset.mem_insert_self _ _
      · exact Finset.mem_insert_of_mem (h.accounts u hu)
    · obtain rfl := Option.some.inj hu
      exact Finset.mem_insert_self _ _
    · exact Finset.mem_insert_of_mem (h.entry x hx u hu)
  | save => exact ⟨h.accounts, h.currentUser, h.entry⟩
  | @delete _ v user _ _ huser =>
    refine ⟨fun u hu => h.accounts u (Finset.mem_of_mem_erase hu), fun u hu => ?_, h.entry⟩
    rcases huser with rfl | rfl
    · exact h.currentUser u hu
    · cases hu
  | cleanup => exact ⟨h.accounts, h.currentUser, h.entry⟩

theorem Lost.acts (h : Lost u s) (ha : Acts s e t) : Lost u t := by
  cases ha with
  | keep => exact h
  | signIn => exact ⟨h.diary, h.accounts, h.uids⟩
  | logout => exact ⟨h.diary, h.accounts, h.uids⟩
  | @register _ v hv =>
    refine ⟨h.diary, fun hu => ?_, Finset.mem_insert_of_mem h.uids⟩
    rcases Finset.mem_insert.mp hu with rfl | hu
    · exact hv h.uids
    · exact h.accounts hu
  | save => exact ⟨Finset.mem_insert_of_mem h.diary, h.accounts, h.uids⟩
  | delete => exact ⟨h.diary, fun hu => h.accounts (Finset.mem_of_mem_erase hu), h.uids⟩
  | cleanup => exact ⟨h.diary, h.accounts, h.uids⟩

theorem Known.moves (h : Known s) (hm : Moves s t) : Known t := by
  have hcur : t.currentUid = s.currentUid := by rw [currentUid, hm.currentUser, currentUid]
  refine ⟨hm.server ▸ h.accounts, hm.server ▸ hcur ▸ h.currentUser, fun x hx u hu => ?_⟩
  rw [hm.server]
  rcases hm.entry x hx u hu with hc | ⟨y, hy, hyu⟩
  · exact h.currentUser u hc
  · exact h.entry y hy u hyu

theorem clean_step (h : Clean s) (hc : Owned s e) (hs : s.step endpoint e = some t) : Clean t := by
  obtain ⟨r, ha, hm⟩ := steps_of_step hs
  have hr := h.acts hc ha
  exact ⟨hm.server ▸ hr.users, hm.server ▸ hr.diary⟩

theorem known_step (h : Known s) (hs : s.step endpoint e = some t) : Known t := by
  obtain ⟨r, ha, hm⟩ := steps_of_step hs
  exact (h.acts ha).moves hm

theorem lost_step (h : Lost u s) (hs : s.step endpoint e = some t) : Lost u t := by
  obtain ⟨r, ha, hm⟩ := steps_of_step hs
  have hr := h.acts ha
  exact ⟨hm.server ▸ hr.diary, hm.server ▸ hr.accounts, hm.server ▸ hr.uids⟩

theorem exists_of_savedUid (h : s.savedUid e = some u) :
    ∃ x ∈ s.stack, x.entryUid = some (some u) := by
  have htop : (s.stack.head?.bind Screen.entryUid).join = some u := by
    cases e <;> first | exact h | cases h
  obtain ⟨x, hx, hu⟩ := Option.bind_eq_some_iff.mp (Option.join_eq_some_iff.mp htop)
  exact ⟨x, List.mem_of_mem_head? hx, hu⟩

/-- A step against the condition leaves entries without an account. -/
theorem exists_lost (h : Known s) (hc : ¬ Owned s e) (hs : s.step endpoint e = some t) :
    ∃ u, Lost u t := by
  obtain ⟨r, ha, hm⟩ := steps_of_step hs
  suffices hr : ∃ u, Lost u r by
    obtain ⟨u, hu⟩ := hr
    exact ⟨u, hm.server ▸ hu.diary, hm.server ▸ hu.accounts, hm.server ▸ hu.uids⟩
  rcases not_and_or.mp hc with hc | hc
  · obtain ⟨u, hu, hna⟩ : ∃ u, s.savedUid e = some u ∧ u ∉ s.server.accounts := by
      simpa using hc
    obtain ⟨x, hx, hxu⟩ := exists_of_savedUid hu
    cases ha with
    | save hs' _ =>
      obtain rfl := Option.some.inj (hu.symm.trans hs')
      exact ⟨u, Finset.mem_insert_self _ _, hna, h.entry x hx u hxu⟩
    | keep hs' _ => cases hu.symm.trans hs'
    | delete hs' _ _ => cases hu.symm.trans hs'
    | _ => cases hu
  · obtain ⟨u, hu, hd⟩ : ∃ u, s.deletedUid e = some u ∧ u ∈ s.server.diary := by
      simpa using hc
    cases ha with
    | delete _ hd' _ =>
      obtain rfl := Option.some.inj (hu.symm.trans hd')
      exact ⟨u, hd, Finset.notMem_erase _ _, h.accounts u (mem_accounts_of_deletedUid hu)⟩
    | keep _ hd' => cases hu.symm.trans hd'
    | save _ hd' => cases hu.symm.trans hd'
    | _ => cases hu

theorem clean_and_known_launch {accounts : Finset Uid} {user : Option Uid}
    (hl : launch accounts user = some s) : Clean s ∧ Known s := by
  have hm := moves_pushLogin hl
  constructor
  · constructor
    · intro u hu
      rw [hm.server] at hu
      cases hu
    · intro u hu
      rw [hm.server] at hu
      cases hu
  · refine Known.moves ⟨fun u hu => hu, fun u hu => ?_, by simp⟩ hm
    cases user with
    | none => cases hu
    | some v =>
      obtain rfl := Option.some.inj hu
      exact Finset.mem_insert_self _ _

/-- At the end of a run with no clean-up on its way, there are no orphans exactly when nobody
wrote without an account and no account with entries was deleted. -/
theorem no_orphans_iff (endpoint : Option String) {accounts : Finset Uid} {user : Option Uid}
    {es : List Event} (hl : launch accounts user = some s)
    (hr : run (step endpoint) s es = some t) (hq : t.server.cleanups = ∅) :
    NoOrphans t ↔ Along (step endpoint) Owned s es := by
  obtain ⟨hclean, hknown⟩ := clean_and_known_launch hl
  constructor
  · intro hno
    clear hl hclean
    induction es generalizing s with
    | nil => trivial
    | cons e es ih =>
      obtain ⟨r, hs, hr⟩ := run_cons_eq_some.mp hr
      refine (along_cons_of_some hs).mpr ⟨?_, ih hr (known_step hknown hs)⟩
      by_contra hc
      obtain ⟨u, hu⟩ := exists_lost hknown hc hs
      have hlost : Lost u t :=
        (Always.of_step (fun _ _ _ hl hs => lost_step hl hs) hu).reached hr
      exact hlost.accounts (hno u (Or.inr hlost.diary))
  · intro hc
    have hct : Clean t := (Always.of_invariant (fun _ _ _ => clean_step) hc hclean).reached hr
    rintro u (hu | hu)
    · exact (hct.users u hu).resolve_right (by simp [hq])
    · exact hct.diary u hu

/-- One user deletes an account without entries, another writes and stays. -/
theorem no_orphans_of_empty_account :
    ∃ s t, launch ∅ none = some s ∧
      run (step none) s [.registerMove, .register, .registered 0 (some "A"), .myPage, .deleteUser,
        .deleted 0 true, .cleanup "A", .registerMove, .register, .registered 0 (some "B"), .plus,
        .temporarySave] = some t ∧ NoOrphans t := by
  let s : State := ⟨none, 1, ⟨∅, ∅, ∅, ∅, ∅⟩, [.login], [], [], false⟩
  have hl : launch ∅ none = some s := rfl
  have hq : (run (step none) s [.registerMove, .register, .registered 0 (some "A"), .myPage,
      .deleteUser, .deleted 0 true, .cleanup "A", .registerMove, .register,
      .registered 0 (some "B"), .plus, .temporarySave]).map
        (fun t => t.server.cleanups) = some ∅ := by
    decide +kernel
  obtain ⟨t, hr, hq⟩ := Option.map_eq_some_iff.mp hq
  exact ⟨s, t, hl, hr, (no_orphans_iff none hl hr hq).mpr (by decide +kernel)⟩

/-- An account is deleted and its entries stay. -/
theorem delete_leaves_entries :
    ¬ ∀ (endpoint : Option String) (accounts : Finset Uid) (user : Option Uid) (s t : State)
        (es : List Event),
      launch accounts user = some s → run (step endpoint) s es = some t →
        t.server.cleanups = ∅ → NoOrphans t := by
  intro h
  let s : State := ⟨none, 1, ⟨∅, ∅, ∅, ∅, ∅⟩, [.login], [], [], false⟩
  have hq : (run (step none) s [.registerMove, .register, .registered 0 (some "A"), .plus,
      .temporarySave, .back, .myPage, .deleteUser, .deleted 0 true, .cleanup "A"]).map
        (fun t => (t.server.cleanups, t.server.accounts, t.server.diary)) =
      some (∅, ∅, {"A"}) := by
    decide +kernel
  obtain ⟨t, hr, hq⟩ := Option.map_eq_some_iff.mp hq
  obtain ⟨hcl, hacc, hdiary⟩ : t.server.cleanups = ∅ ∧ t.server.accounts = ∅ ∧
      t.server.diary = {"A"} := by
    simpa using hq
  have hmem := h none ∅ none s t _ rfl hr hcl "A" (Or.inr (by simp [hdiary]))
  simp [hacc] at hmem

end State

end Treena.App
