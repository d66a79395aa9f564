import Treena.Growth.History

/-! # Freshness of the home screen

A home screen is meant to catch up with the answer to its read. It publishes and asks for a
picture when it appears, and nothing happens on it when the answer comes.
-/

namespace Treena.Growth

open Firebase Run

variable {p p' : Process} {h : History} {e : Event} {v : HomeVC} {ks : List (Option ℕ)}
  {k : Option ℕ}

/-- The entries that an answer reports, none when the node does not exist. -/
def CountRead.reported : CountRead → Option ℕ
  | .error => none
  | .noData => some 0
  | .count n => some n

/-- No read is on its way, and the last answer reported `n`, which has a level. -/
structure Settled (n : ℕ) (p : Process) (h : History) : Prop where
  pending : p.pending = []
  reported : h.last.bind CountRead.reported = some n
  le : n ≤ 56

def Fresh (n : ℕ) (p : Process) : Prop :=
  ∃ v, p.homes = [v] ∧ v.requested.getLast? = some (level n) ∧ v.storage.value = [⟨n, level n⟩]

/-- What happens to one home screen of one user after it has loaded. -/
def Solo (uid : Uid) (e : Event) : Prop := e = .appear 0 ∨ ∃ outcome, e = .complete uid outcome

theorem levelAt_eq_three : levelAt k = 3 ↔ ∃ m, k = some m ∧ 15 ≤ m ∧ m ≤ 21 := by
  cases k with
  | none => simp [levelAt]
  | some m =>
    simp only [levelAt, Option.elim_some, level, Option.some.injEq, exists_eq_left']
    split_ifs with hm
    · exact ⟨False.elim, fun h => by omega⟩
    · omega

theorem length_homes_of_solo {uid : Uid} (he : Solo uid e) (hs : p.step e = some p') :
    p'.homes.length = p.homes.length := by
  rcases he with rfl | ⟨outcome, rfl⟩
  · cases hv : p.homes[0]? with
    | none =>
      obtain rfl : p = p' := by simpa [Process.step, Process.viewWillAppear, hv] using hs
      rfl
    | some v =>
      obtain ⟨_, _, -, -, rfl⟩ := (Process.viewWillAppear_eq_some hv).mp hs
      exact List.length_set
  · obtain rfl := Option.some.inj hs
    unfold Process.complete
    split_ifs <;> rfl

theorem exists_home_of_solo {uid : Uid} {es : List Event} (hes : ∀ e ∈ es, Solo uid e)
    (hr : run Process.step (Process.launch (some uid)) (.load :: es) = some p) :
    ∃ v, p.homes = [v] := by
  obtain ⟨q, hq, hr⟩ := run_cons_eq_some.mp hr
  obtain ⟨_, _, -, -, rfl⟩ := Process.viewDidLoad_eq_some.mp hq
  have hstep : ∀ (p : Process) (e : Event) (p' : Process), p.homes.length = 1 → Solo uid e →
      p.step e = some p' → p'.homes.length = 1 :=
    fun _ _ _ hl he hs => (length_homes_of_solo he hs).trans hl
  apply List.length_eq_one_iff.mp
  exact (Always.of_invariant hstep (along_of_forall_mem hes) rfl).reached hr

/-- In a settled state the home screen is fresh exactly when there are 20 entries and the last
count with a level before its last appearance was one of level 3. -/
theorem fresh_iff (uid : Uid) {es : List Event} {n : ℕ} (hes : ∀ e ∈ es, Solo uid e)
    (hr : run (observed Process.step History.next)
      (Process.launch (some uid), History.start) (.load :: es) = some (p, h))
    (_hs : Settled n p h) :
    Fresh n p ↔ n = 20 ∧ ∃ m, (h.shown 0).getLast? = some (some m) ∧ 15 ≤ m ∧ m ≤ 21 := by
  obtain ⟨v, hv⟩ := exists_home_of_solo hes (run_of_observed hr)
  obtain ⟨k, hk, hreq, hsto⟩ := ((follows_run hr).homes 0 v (by simp [hv])).getLast?_requested
  have h3 : (∃ m, (h.shown 0).getLast? = some (some m) ∧ 15 ≤ m ∧ m ≤ 21) ↔ levelAt k = 3 := by
    rw [levelAt_eq_three, hk]; simp
  rw [h3]
  constructor
  · rintro ⟨w, hw, -, hws⟩
    obtain rfl : v = w := by simpa [hv] using hw
    obtain ⟨hn, hl⟩ : 20 = n ∧ levelAt k = level n := by simpa [hsto] using hws
    exact ⟨hn.symm, hl.trans (hn ▸ rfl)⟩
  · rintro ⟨rfl, hk3⟩
    exact ⟨v, hv, by rw [hreq, hk3]; rfl, by rw [hsto, hk3]; rfl⟩

theorem fresh_of_twenty_entries :
    ∃ p h, run (observed Process.step History.next) (Process.launch (some "u"), History.start)
      [.load, .appear 0, .complete "u" (.count 20), .appear 0, .complete "u" (.count 20),
        .complete "u" (.count 20)] = some (p, h) ∧
        Fresh 20 p := by
  have hes : ∀ e ∈ [Event.appear 0, .complete "u" (.count 20), .appear 0,
      .complete "u" (.count 20), .complete "u" (.count 20)], Solo "u" e := by
    simp [Solo]
  exact ⟨_, _, rfl, (fresh_iff "u" hes rfl ⟨rfl, rfl, by decide⟩).mpr
    ⟨rfl, 20, rfl, by decide, by decide⟩⟩

/-- Five entries are delivered after the screen has loaded, and it stays as it was. -/
theorem stale_after_five_entries :
    ¬ ∀ (uid : Uid) (es : List Event) (n : ℕ) (p : Process) (h : History),
      (∀ e ∈ es, Solo uid e) →
      run (observed Process.step History.next) (Process.launch (some uid), History.start)
        (.load :: es) = some (p, h) →
      Settled n p h → Fresh n p := by
  intro hall
  obtain ⟨v, hv, hreq, -⟩ := hall "u"
    [.appear 0, .complete "u" (.count 5), .complete "u" (.count 5)] 5 _ _ (by simp [Solo]) rfl
    ⟨rfl, rfl, by decide⟩
  obtain rfl := List.head_eq_of_cons_eq hv
  exact absurd hreq (by decide)

end Treena.Growth
