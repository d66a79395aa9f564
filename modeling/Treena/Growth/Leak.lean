import Treena.Growth.History

/-! # What one user shows of another

The static data outlive a user. Two runs that differ in the answers to the reads of one user
show the same on a home screen exactly when these answers leave the same levels behind.
-/

namespace Treena.Growth

open Firebase Run

/-- The same action, or an answer to `A` with other entries. -/
inductive SameBut (A : Uid) : Event → Event → Prop
  | same (e : Event) : SameBut A e e
  | entries {o o' : CountRead} : (o = .error ↔ o' = .error) →
      SameBut A (.complete A o) (.complete A o')

/-- The pictures and the published state of the `i`th home screen, and the static data. -/
def SameObservation (i : ℕ) (p q : Process) : Prop :=
  p.homes[i]?.map (fun v => (v.requested, v.storage.value)) =
    q.homes[i]?.map (fun v => (v.requested, v.storage.value)) ∧ p.data = q.data

/-- The last counts have the same levels, at each appearance of the `i`th home screen and now,
and the last count is the same now. -/
def SameLevels (i : ℕ) (h g : History) : Prop :=
  (h.shown i).map levelAt = (g.shown i).map levelAt ∧
    levelAt h.inRange = levelAt g.inRange ∧ usageAt h.counted = usageAt g.counted

structure Alike (p q : Process) : Prop where
  currentUser : p.currentUser = q.currentUser
  pending : p.pending = q.pending
  uids : p.homes.map (·.uid) = q.homes.map (·.uid)

variable {A : Uid} {p q p' : Process} {h g : History} {e f : Event} {i : ℕ} {v w : HomeVC}
  {ks js : List (Option ℕ)}

theorem Alike.getElem?_uid (ha : Alike p q) (i : ℕ) :
    p.homes[i]?.map (·.uid) = q.homes[i]?.map (·.uid) := by
  rw [← List.getElem?_map, ha.uids, List.getElem?_map]

theorem Alike.load (ha : Alike p q) {uid : Uid} {a b : ℕ} :
    Alike (p.loaded uid a) (q.loaded uid b) := by
  constructor
  · exact ha.currentUser
  · simp [Process.loaded, ha.pending]
  · simp [Process.loaded, ha.uids]

theorem Alike.appear (ha : Alike p q) {uid : Uid} {a b : ℕ} :
    Alike (p.appeared i v uid a) (q.appeared i w uid b) := by
  constructor
  · exact ha.currentUser
  · simp [Process.appeared, ha.pending]
  · simp [Process.appeared, List.map_set, ha.uids]

theorem Alike.complete (ha : Alike p q) {uid : Uid} {o o' : CountRead} :
    Alike (p.complete uid o) (q.complete uid o') := by
  unfold Process.complete
  rw [ha.pending]
  split_ifs
  · exact ⟨ha.currentUser, rfl, ha.uids⟩
  · exact ha

theorem Follows.pictureAt (hf : Follows p h) :
    ∃ k, Growth.pictureAt p.data.treeLevel = some k :=
  ⟨_, hf.treeLevel ▸ pictureAt_levelAt⟩

theorem alike_step (ha : Alike p q) (hq : Follows q g) (he : SameBut A e f)
    (hs : p.step e = some p') : ∃ q', q.step f = some q' ∧ Alike p' q' := by
  obtain ⟨k, hk⟩ := hq.pictureAt
  cases he with
  | entries _ =>
    obtain rfl := Option.some.inj hs
    exact ⟨_, rfl, ha.complete⟩
  | same =>
    cases e with
    | signIn uid =>
      obtain rfl := Option.some.inj hs
      exact ⟨_, rfl, rfl, ha.pending, ha.uids⟩
    | signOut =>
      obtain rfl := Option.some.inj hs
      exact ⟨_, rfl, rfl, ha.pending, ha.uids⟩
    | load =>
      obtain ⟨uid, _, hu, -, rfl⟩ := Process.viewDidLoad_eq_some.mp hs
      exact ⟨_, Process.viewDidLoad_eq_some.mpr ⟨uid, k, ha.currentUser ▸ hu, hk, rfl⟩, ha.load⟩
    | appear i =>
      have hi := ha.getElem?_uid i
      cases hv : p.homes[i]? with
      | none =>
        have hw : q.homes[i]? = none := by simpa [hv] using hi.symm
        obtain rfl : p = p' := by simpa [Process.step, Process.viewWillAppear, hv] using hs
        exact ⟨q, by simp [Process.step, Process.viewWillAppear, hw], ha⟩
      | some v =>
        obtain ⟨w, hw, hvw⟩ : ∃ w, q.homes[i]? = some w ∧ v.uid = w.uid := by
          simpa [hv, Option.map_eq_some_iff, eq_comm] using hi
        obtain ⟨uid, _, hu, -, rfl⟩ := (Process.viewWillAppear_eq_some hv).mp hs
        rw [ha.currentUser, hvw] at hu
        exact ⟨_, (Process.viewWillAppear_eq_some hw).mpr ⟨uid, k, hu, hk, rfl⟩, ha.appear⟩
    | complete uid outcome =>
      obtain rfl := Option.some.inj hs
      exact ⟨_, rfl, ha.complete⟩

/-- A run of the same actions goes as far, and the two processes stay alike. -/
theorem alike_run {currentUser : Option Uid} {es fs : List Event}
    (hsame : List.Forall₂ (SameBut A) es fs)
    (hr : run (observed Process.step History.next) (Process.launch currentUser, History.start) es =
      some (p, h)) :
    ∃ q g, run (observed Process.step History.next)
      (Process.launch currentUser, History.start) fs = some (q, g) ∧ Alike p q := by
  have hstep : ∀ (s t : Process × History) (e f : Event) (s' : Process × History),
      Alike s.1 t.1 ∧ Follows t.1 t.2 → SameBut A e f →
      observed Process.step History.next s e = some s' →
      ∃ t', observed Process.step History.next t f = some t' ∧
        Alike s'.1 t'.1 ∧ Follows t'.1 t'.2 := by
    rintro s ⟨q, g⟩ e f s' ⟨ha, hq⟩ he hs
    obtain ⟨q', hq', ha'⟩ := alike_step ha hq he (observed_eq_some.mp hs).1
    have ht : observed Process.step History.next (q, g) f = some (q', g.next q f) :=
      observed_eq_some.mpr ⟨hq', rfl⟩
    exact ⟨_, ht, ha', follows_step hq ht⟩
  obtain ⟨⟨q, g⟩, hr', ha, -⟩ :=
    run_related hstep hsame ⟨⟨rfl, rfl, rfl⟩, follows_launch currentUser⟩ hr
  exact ⟨q, g, hr', ha⟩

/-- The pictures and the published state of a screen tell the levels it found, no more. -/
theorem Tracks.eq_iff (hv : Tracks v ks) (hw : Tracks w js) :
    (v.requested, v.storage.value) = (w.requested, w.storage.value) ↔
      ks.map levelAt = js.map levelAt := by
  obtain ⟨k, hk, -, hvs⟩ := hv.getLast?_requested
  obtain ⟨j, hj, -, hws⟩ := hw.getLast?_requested
  rw [Prod.mk.injEq, hv.requested, hw.requested, hvs, hws]
  constructor
  · rintro ⟨hreq, -⟩
    cases ks with
    | nil => exact absurd rfl hv.nonempty
    | cons a ks =>
      cases js with
      | nil => exact absurd rfl hw.nonempty
      | cons b js => exact (List.cons.inj hreq).2
  · intro hm
    have hhead : ks.head?.map levelAt = js.head?.map levelAt := by
      rw [← List.head?_map, hm, List.head?_map]
    have hlast : levelAt k = levelAt j := by
      have := congrArg List.getLast? hm
      simpa [List.getLast?_map, hk, hj] using this
    refine ⟨?_, by rw [hlast]⟩
    rw [List.map_append, List.map_append, hm, ← Option.toList_map, ← Option.toList_map, hhead]

/-- In two runs that differ in the entries of `A` only, a home screen and the static data are
the same exactly when the last counts, those of `A` included, have the same levels. -/
theorem same_observation_iff (currentUser : Option Uid) {es fs : List Event}
    (hsame : List.Forall₂ (SameBut A) es fs)
    (hr : run (observed Process.step History.next) (Process.launch currentUser, History.start) es =
      some (p, h)) (hi : i < p.homes.length) :
    ∃ q g, run (observed Process.step History.next)
      (Process.launch currentUser, History.start) fs = some (q, g) ∧
        (SameObservation i p q ↔ SameLevels i h g) := by
  obtain ⟨q, g, hr', ha⟩ := alike_run hsame hr
  refine ⟨q, g, hr', ?_⟩
  have hlen : p.homes.length = q.homes.length := by
    simpa using congrArg List.length ha.uids
  have hp := follows_run hr
  have hq := follows_run hr'
  have hv := List.getElem?_eq_getElem hi
  have hw := List.getElem?_eq_getElem (hlen ▸ hi)
  have hdata : p.data = q.data ↔
      levelAt h.inRange = levelAt g.inRange ∧ usageAt h.counted = usageAt g.counted := by
    rw [← hp.diaryUsage, ← hq.diaryUsage, ← Int.natCast_inj, ← hp.treeLevel, ← hq.treeLevel]
    exact ⟨fun hd => hd ▸ ⟨rfl, rfl⟩, fun ⟨hl, hu⟩ => UserDiaryState.ext hu hl⟩
  rw [SameObservation, SameLevels, hv, hw, Option.map_some, Option.map_some, Option.some.injEq,
    (hp.homes i _ hv).eq_iff (hq.homes i _ hw), hdata]

/-- Entries of `A` of one level are not told apart on the screen of `B`. -/
theorem same_observation_of_same_level :
    let session := fun n => [Event.signIn "A", .load, .appear 0, .complete "A" (.count n),
      .signOut, .signIn "B", .load, .appear 1, .complete "B" (.count 20)]
    ∃ p h q g,
      run (observed Process.step History.next) (Process.launch none, History.start) (session 3) =
        some (p, h) ∧
      run (observed Process.step History.next) (Process.launch none, History.start) (session 7) =
        some (q, g) ∧
      SameObservation 1 p q := by
  intro session
  have hsame : List.Forall₂ (SameBut "A") (session 3) (session 7) :=
    .cons (.same _) <| .cons (.same _) <| .cons (.same _) <| .cons (.entries (by decide)) <|
      .cons (.same _) <| .cons (.same _) <| .cons (.same _) <| .cons (.same _) <|
      .cons (.same _) .nil
  obtain ⟨p, h, q, g, hp, hq, hlen, hl⟩ : ∃ p h q g,
      run (observed Process.step History.next) (Process.launch none, History.start) (session 3) =
        some (p, h) ∧
      run (observed Process.step History.next) (Process.launch none, History.start) (session 7) =
        some (q, g) ∧
      p.homes.length = 2 ∧ SameLevels 1 h g :=
    ⟨_, _, _, _, rfl, rfl, rfl, rfl, rfl, rfl⟩
  obtain ⟨q', g', hq', hobs⟩ := same_observation_iff none hsame hp (hlen ▸ Nat.one_lt_two)
  obtain ⟨rfl, rfl⟩ := Prod.mk.inj (Option.some.inj (hq.symm.trans hq'))
  exact ⟨p, h, q, g, hp, hq, hobs.mpr hl⟩

/-- The tree of `A` is on the screen of `B`, who has no entries. -/
theorem tree_of_other_user :
    let session := fun n => [Event.signIn "A", .load, .appear 0, .complete "A" (.count n),
      .signOut, .signIn "B", .load, .appear 1, .complete "B" .noData]
    List.Forall₂ (SameBut "A") (session 5) (session 30) ∧
    ∃ p h q g,
      run (observed Process.step History.next) (Process.launch none, History.start) (session 5) =
        some (p, h) ∧
      run (observed Process.step History.next) (Process.launch none, History.start) (session 30) =
        some (q, g) ∧
      ¬ SameObservation 1 p q := by
  intro session
  constructor
  · exact .cons (.same _) <| .cons (.same _) <| .cons (.same _) <| .cons (.entries (by decide)) <|
      .cons (.same _) <| .cons (.same _) <| .cons (.same _) <| .cons (.same _) <|
      .cons (.same _) .nil
  · refine ⟨_, _, _, _, rfl, rfl, ?_⟩
    rintro ⟨-, hd⟩
    have hl : (1 : ℤ) = 5 := congrArg UserDiaryState.treeLevel hd
    exact absurd hl (by decide)

end Treena.Growth
