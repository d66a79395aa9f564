import Treena.Growth.Home
import Treena.Run.Basic

/-! # What the home screens show

The pictures and the published states are those of the counts delivered before a screen
appeared; a count that comes later changes neither. The published usage is a constant.
-/

namespace Treena.Growth

open Firebase Run

/-- The answers so far: the last one, the last count, the last count that has a level, and for
every home screen the last count with a level at each of its appearances. -/
structure History where
  last : Option CountRead
  counted : Option ℕ
  inRange : Option ℕ
  shown : ℕ → List (Option ℕ)

namespace History

def start : History := ⟨none, none, none, fun _ => []⟩

def deliver (outcome : CountRead) (h : History) : History :=
  match outcome with
  | .count n =>
    { h with
      last := some outcome
      counted := some n
      inRange := if n ≤ 56 then some n else h.inRange }
  | _ => { h with last := some outcome }

def next (h : History) (p : Process) : Event → History
  | .load => { h with shown := Function.update h.shown p.homes.length [h.inRange] }
  | .appear i => { h with shown := Function.update h.shown i (h.shown i ++ [h.inRange]) }
  | .complete uid outcome => if uid ∈ p.pending then h.deliver outcome else h
  | _ => h

end History

/-- The level of a last count; the static data start at level 2. -/
def levelAt (k : Option ℕ) : ℕ := k.elim 2 level

/-- The usage of a last count; the static data start at 20. -/
def usageAt (k : Option ℕ) : ℕ := k.getD 20

/-- A screen whose appearances found the last counts `ks`. -/
structure Tracks (v : HomeVC) (ks : List (Option ℕ)) : Prop where
  nonempty : ks ≠ []
  requested : v.requested = (ks.head?.toList ++ ks).map levelAt
  storage : ∀ k ∈ ks.getLast?, v.storage.value = [⟨20, levelAt k⟩]

/-- The state is determined by the history. -/
structure Follows (p : Process) (h : History) : Prop where
  diaryUsage : p.data.diaryUsage = usageAt h.counted
  treeLevel : p.data.treeLevel = levelAt h.inRange
  homes : ∀ i v, p.homes[i]? = some v → Tracks v (h.shown i)

variable {p p' : Process} {h h' : History} {e : Event} {i : ℕ} {v : HomeVC}
  {ks : List (Option ℕ)} {k : Option ℕ}

theorem pictureAt_levelAt : pictureAt (levelAt k : ℤ) = some (levelAt k) := by
  cases k with
  | none => rfl
  | some n => exact pictureAt_level

theorem getData_eq (hd : p.data.treeLevel = levelAt k) : getData p.data = [⟨20, levelAt k⟩] := by
  rw [getData, hd]

theorem tracks_load {uid : Option Uid} {o : Observable (List UserDiaryState)}
    {r : List (List UserDiaryState)} (ho : o.value = [⟨20, levelAt k⟩]) :
    Tracks ⟨uid, o, r, [levelAt k, levelAt k]⟩ [k] := by
  constructor
  · exact List.cons_ne_nil _ _
  · rfl
  · rintro k' hk
    obtain rfl := Option.some.inj hk
    exact ho

theorem Tracks.appear (ht : Tracks v ks) {uid : Option Uid} {o : Observable (List UserDiaryState)}
    (ho : o.value = [⟨20, levelAt k⟩]) :
    Tracks ⟨uid, o, v.received, v.requested ++ [levelAt k]⟩ (ks ++ [k]) := by
  constructor
  · simp
  · rw [List.head?_append_of_ne_nil _ ht.nonempty, ht.requested]
    simp
  · rintro k' hk
    rw [List.getLast?_concat] at hk
    obtain rfl := Option.some.inj hk
    exact ho

theorem Tracks.getLast?_requested (ht : Tracks v ks) :
    ∃ k, ks.getLast? = some k ∧ v.requested.getLast? = some (levelAt k) ∧
      v.storage.value = [⟨20, levelAt k⟩] := by
  refine ⟨ks.getLast ht.nonempty, List.getLast?_eq_some_getLast _, ?_,
    ht.storage _ (List.getLast?_eq_some_getLast _)⟩
  rw [ht.requested, List.getLast?_map, List.getLast?_append_of_ne_nil _ ht.nonempty,
    List.getLast?_eq_some_getLast ht.nonempty]
  rfl

theorem Follows.load {uid : Uid} (hf : Follows p h) :
    Follows (p.loaded uid (levelAt h.inRange)) (h.next p .load) := by
  refine ⟨hf.diaryUsage, hf.treeLevel, fun i v hv => ?_⟩
  simp only [Process.loaded] at hv
  rcases Nat.lt_trichotomy i p.homes.length with hi | rfl | hi
  · rw [List.getElem?_append_left hi] at hv
    simpa [History.next, Function.update_of_ne hi.ne] using hf.homes i v hv
  · rw [List.getElem?_concat_length] at hv
    obtain rfl := Option.some.inj hv
    simpa [History.next] using tracks_load (getData_eq hf.treeLevel)
  · rw [List.getElem?_eq_none (by simpa using Nat.succ_le_of_lt hi)] at hv
    cases hv

theorem Follows.appear {uid : Uid} (hf : Follows p h) (hv : p.homes[i]? = some v) :
    Follows (p.appeared i v uid (levelAt h.inRange)) (h.next p (.appear i)) := by
  refine ⟨hf.diaryUsage, hf.treeLevel, fun j w hw => ?_⟩
  obtain ⟨hi, -⟩ := List.getElem?_eq_some_iff.mp hv
  simp only [Process.appeared] at hw
  by_cases hj : j = i
  · subst hj
    rw [List.getElem?_set_self hi] at hw
    obtain rfl := Option.some.inj hw
    simpa [History.next] using (hf.homes j v hv).appear (getData_eq hf.treeLevel)
  · rw [List.getElem?_set_ne (Ne.symm hj)] at hw
    simpa [History.next, Function.update_of_ne hj] using hf.homes j w hw

theorem Follows.deliver (hf : Follows p h) (outcome : CountRead) (pending : List Uid) :
    Follows { p with data := checkDiaryUsageCompletion outcome p.data, pending := pending }
      (h.deliver outcome) := by
  cases outcome with
  | error => exact ⟨hf.diaryUsage, hf.treeLevel, hf.homes⟩
  | noData => exact ⟨hf.diaryUsage, hf.treeLevel, hf.homes⟩
  | count n =>
    by_cases hn : n ≤ 56
    · have hl : setTreeLevel { p.data with diaryUsage := n } = ⟨n, level n⟩ := setTreeLevel_of_le hn
      constructor
      · simp [checkDiaryUsageCompletion, hl, History.deliver, usageAt]
      · simp [checkDiaryUsageCompletion, hl, History.deliver, levelAt, hn]
      · exact hf.homes
    · have hl : setTreeLevel { p.data with diaryUsage := n } = { p.data with diaryUsage := n } :=
        setTreeLevel_of_lt (not_le.mp hn)
      constructor
      · simp [checkDiaryUsageCompletion, hl, History.deliver, usageAt]
      · simpa [checkDiaryUsageCompletion, hl, History.deliver, hn] using hf.treeLevel
      · exact hf.homes

theorem follows_step (hf : Follows p h)
    (hs : observed Process.step History.next (p, h) e = some (p', h')) : Follows p' h' := by
  obtain ⟨hstep, rfl⟩ := observed_eq_some.mp hs
  have hpic : pictureAt p.data.treeLevel = some (levelAt h.inRange) :=
    hf.treeLevel ▸ pictureAt_levelAt
  cases e with
  | signIn uid =>
    obtain rfl := Option.some.inj hstep
    exact ⟨hf.diaryUsage, hf.treeLevel, hf.homes⟩
  | signOut =>
    obtain rfl := Option.some.inj hstep
    exact ⟨hf.diaryUsage, hf.treeLevel, hf.homes⟩
  | load =>
    obtain ⟨uid, picture, -, hp, rfl⟩ := Process.viewDidLoad_eq_some.mp hstep
    obtain rfl := Option.some.inj (hpic.symm.trans hp)
    exact hf.load
  | appear i =>
    cases hv : p.homes[i]? with
    | none =>
      obtain rfl : p = p' := by simpa [Process.step, Process.viewWillAppear, hv] using hstep
      refine ⟨hf.diaryUsage, hf.treeLevel, fun j w hw => ?_⟩
      have hj : j ≠ i := by rintro rfl; rw [hv] at hw; cases hw
      simpa [History.next, Function.update_of_ne hj] using hf.homes j w hw
    | some v =>
      obtain ⟨uid, picture, -, hp, rfl⟩ := (Process.viewWillAppear_eq_some hv).mp hstep
      obtain rfl := Option.some.inj (hpic.symm.trans hp)
      exact hf.appear hv
  | complete uid outcome =>
    obtain rfl := Option.some.inj hstep
    simp only [Process.complete, History.next]
    split_ifs
    · exact hf.deliver outcome _
    · exact hf

theorem follows_launch (currentUser : Option Uid) :
    Follows (Process.launch currentUser) History.start :=
  ⟨rfl, rfl, fun i v hv => by simp [Process.launch] at hv⟩

/-- In every run of a process, its state follows from its history. -/
theorem follows_run {currentUser : Option Uid} {es : List Event}
    (hr : run (observed Process.step History.next) (Process.launch currentUser, History.start) es =
      some (p, h)) : Follows p h := by
  have hstep : ∀ (q : Process × History) (e : Event) (q' : Process × History), Follows q.1 q.2 →
      observed Process.step History.next q e = some q' → Follows q'.1 q'.2 :=
    fun _ _ _ => follows_step
  exact (Always.of_step hstep (follows_launch currentUser)).reached hr

end Treena.Growth
