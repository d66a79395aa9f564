import Treena.Sorted.Dictionary

/-! # Runs of a sorted dictionary

Insertions and removals in any order never throw, and leave a dictionary that answers as
the list of entries they describe, whichever of two keys that compare as the same it keeps.
-/

namespace Treena.Sorted.FImmutableSortedDictionary

variable {α β : Type*}

inductive Change (α β : Type*)
  | setObject (k : α) (v : β)
  | removeObject (k : α)

def step (cmp : Cmp α) (d : FImmutableSortedDictionary α β) :
    Change α β → Option (FImmutableSortedDictionary α β)
  | .setObject k v => d.insertKey cmp k v
  | .removeObject k => some (d.removeKey cmp k)

/-- What a change means for the entries. -/
def Change.apply (cmp : Cmp α) (l : List (α × β)) : Change α β → List (α × β)
  | .setObject k v => upsert cmp k v l
  | .removeObject k => erase cmp k l

variable {cmp : Cmp α} [Std.TransCmp cmp]
  {d : FImmutableSortedDictionary α β}

theorem Change.ties {l l' : List (α × β)} (h : Ties cmp l l') (e : Change α β) :
    Ties cmp (e.apply cmp l) (e.apply cmp l') := by
  cases e with
  | setObject k v => exact h.upsert
  | removeObject k => exact h.erase

theorem WF.step (h : WF cmp d) (e : Change α β) :
    ∃ d', step cmp d e = some d' ∧ WF cmp d' ∧ Ties cmp d'.entries (e.apply cmp d.entries) := by
  cases e with
  | setObject k v => exact h.insertKey
  | removeObject k => exact ⟨_, rfl, h.removeKey.1, h.removeKey.2 ▸ .refl _⟩

theorem WF.run (h : WF cmp d) {l : List (α × β)} (hl : Ties cmp d.entries l)
    (es : List (Change α β)) :
    ∃ d', Run.run (FImmutableSortedDictionary.step cmp) d es = some d' ∧ WF cmp d' ∧
      Ties cmp d'.entries (es.foldl (Change.apply cmp) l) := by
  induction es generalizing d l with
  | nil => exact ⟨d, rfl, h, hl⟩
  | cons e es ih =>
    obtain ⟨t, ht, hwf, he⟩ := h.step e
    obtain ⟨d', hr, hwf', he'⟩ := ih hwf (he.trans (Change.ties hl e))
    exact ⟨d', Run.run_cons_eq_some.mpr ⟨t, ht, hr⟩, hwf', he'⟩

theorem fromDictionary_eq_some {dictionary : List (α × β)}
    (h : dictionary.Pairwise fun p q => cmp p.1 q.1 ≠ .eq) :
    ∃ d, fromDictionary cmp dictionary = some d ∧ WF cmp d ∧
      d.entries = FTreeSortedDictionary.sortedKeyList cmp dictionary := by
  have ho := FTreeSortedDictionary.ordered_sortedKeyList_iff.mpr h
  unfold fromDictionary
  split
  · refine ⟨.array (.ofEntries (FTreeSortedDictionary.sortedKeyList cmp dictionary)), ?_,
      FArraySortedDictionary.wf_ofEntries ho, FArraySortedDictionary.entries_mk⟩
    rw [FArraySortedDictionary.fromDictionary, if_pos (FTreeSortedDictionary.ascending_iff.mpr ho)]
    rfl
  · obtain ⟨root, hr, -, he, hwf⟩ := FTreeSortedDictionary.fromDictionary_eq_some h
    exact ⟨.tree root, by rw [hr]; rfl, hwf, he⟩

theorem fromDictionary_eq_none_iff {dictionary : List (α × β)} :
    fromDictionary cmp dictionary = none ↔
      ¬ dictionary.Pairwise fun p q => cmp p.1 q.1 ≠ .eq := by
  constructor
  · intro hn h
    obtain ⟨d, hd, -⟩ := fromDictionary_eq_some h
    rw [hn] at hd
    cases hd
  · intro h
    unfold fromDictionary
    split
    · have ho := FTreeSortedDictionary.ordered_sortedKeyList_iff.not.mpr h
      rw [FArraySortedDictionary.fromDictionary,
        if_neg (FTreeSortedDictionary.ascending_iff.not.mpr ho)]
      rfl
    · rw [FTreeSortedDictionary.fromDictionary_eq_none_iff.mpr h]
      rfl

theorem wf_of_fromDictionary {dictionary : List (α × β)}
    (hd : fromDictionary cmp dictionary = some d) :
    WF cmp d ∧ d.entries = FTreeSortedDictionary.sortedKeyList cmp dictionary := by
  have hp : dictionary.Pairwise fun p q => cmp p.1 q.1 ≠ .eq := by
    by_contra h
    rw [fromDictionary_eq_none_iff.mpr h] at hd
    cases hd
  obtain ⟨d', hd', h⟩ := fromDictionary_eq_some hp
  obtain rfl := Option.some.inj (hd.symm.trans hd')
  exact h

/-- The order in which an enumeration meets the keys makes no difference. -/
theorem fromDictionary_perm {dictionary dictionary' : List (α × β)}
    (hperm : dictionary.Perm dictionary') :
    fromDictionary cmp dictionary = fromDictionary cmp dictionary' := by
  have hsymm : ∀ p q : α × β, cmp p.1 q.1 ≠ .eq → cmp q.1 p.1 ≠ .eq :=
    fun p q h hqp => h (Std.OrientedCmp.eq_symm hqp)
  have hiff := List.Perm.pairwise_iff (fun {p q} => hsymm p q) hperm
  by_cases h : dictionary.Pairwise fun p q => cmp p.1 q.1 ≠ .eq
  · have hs : FTreeSortedDictionary.sortedKeyList cmp dictionary =
        FTreeSortedDictionary.sortedKeyList cmp dictionary' := by
      refine Ordered.eq_of_perm (FTreeSortedDictionary.ordered_sortedKeyList_iff.mpr h)
        (FTreeSortedDictionary.ordered_sortedKeyList_iff.mpr (hiff.mp h)) ?_
      exact (FTreeSortedDictionary.perm_sortedKeyList ..).trans
        (hperm.trans (FTreeSortedDictionary.perm_sortedKeyList ..).symm)
    simp only [fromDictionary, FArraySortedDictionary.fromDictionary,
      FTreeSortedDictionary.fromDictionary, hs, hperm.length_eq]
  · rw [fromDictionary_eq_none_iff.mpr h, fromDictionary_eq_none_iff.mpr fun h' => h (hiff.mpr h')]

/-- Keys that compare as the same are refused; any others are sorted, in whatever order an
enumeration meets them. -/
theorem fromDictionary_represents (dictionary : List (α × β)) :
    (fromDictionary cmp dictionary = none ↔
      ∃ p q, [p, q].Sublist dictionary ∧ cmp p.1 q.1 = .eq) ∧
    (∀ d, fromDictionary cmp dictionary = some d →
      ∃ l, Ordered cmp l ∧ l.Perm dictionary ∧ Represents cmp d l) ∧
    ∀ dictionary', dictionary.Perm dictionary' →
      fromDictionary cmp dictionary = fromDictionary cmp dictionary' := by
  refine ⟨?_, fun d hd => ?_, fun _ hperm => fromDictionary_perm hperm⟩
  · rw [fromDictionary_eq_none_iff, List.pairwise_iff_forall_sublist]
    simp only [not_forall, not_not]
    constructor
    · rintro ⟨p, q, hs, h⟩
      exact ⟨p, q, hs, h⟩
    · rintro ⟨p, q, hs, h⟩
      exact ⟨p, q, hs, h⟩
  · obtain ⟨hwf, he⟩ := wf_of_fromDictionary hd
    exact ⟨_, hwf.ordered, he ▸ FTreeSortedDictionary.perm_sortedKeyList .., hwf.represents⟩

/-- The keys of an `NSDictionary` in two orders. -/
theorem fromDictionary_represents_nat :
    (fromDictionary (compare : Cmp ℕ) [(2, 'b'), (1, 'a')] = none ↔
      ∃ p q, [p, q].Sublist [(2, 'b'), (1, 'a')] ∧ compare p.1 q.1 = .eq) ∧
    (∀ d, fromDictionary (compare : Cmp ℕ) [(2, 'b'), (1, 'a')] = some d →
      ∃ l, Ordered (compare : Cmp ℕ) l ∧ l.Perm [(2, 'b'), (1, 'a')] ∧ Represents compare d l) ∧
    ∀ dictionary', [(2, 'b'), (1, 'a')].Perm dictionary' →
      fromDictionary (compare : Cmp ℕ) [(2, 'b'), (1, 'a')] =
        fromDictionary (compare : Cmp ℕ) dictionary' :=
  fromDictionary_represents [(2, 'b'), (1, 'a')]

/-- How a dictionary comes into being, and its first entries. -/
inductive Made (cmp : Cmp α) : FImmutableSortedDictionary α β → List (α × β) → Prop
  | empty : Made cmp dictionaryWithComparator []
  | fromDictionary {dictionary : List (α × β)} {d : FImmutableSortedDictionary α β} :
      fromDictionary cmp dictionary = some d →
      Made cmp d (FTreeSortedDictionary.sortedKeyList cmp dictionary)

theorem Made.wf {l : List (α × β)} (h : Made cmp d l) : WF cmp d ∧ d.entries = l := by
  cases h with
  | empty => exact ⟨⟨rfl, ordered_nil⟩, rfl⟩
  | fromDictionary hd => exact wf_of_fromDictionary hd

/-- No run throws, and every question after it is answered as by the entries it leaves, up to
which of two keys that compare as the same is kept. -/
theorem run_represents {l : List (α × β)} (h : Made cmp d l) (es : List (Change α β)) :
    ∃ d' r, Run.run (step cmp) d es = some d' ∧ Ties cmp r (es.foldl (Change.apply cmp) l) ∧
      Represents cmp d' r := by
  obtain ⟨hwf, rfl⟩ := h.wf
  obtain ⟨d', hr, hwf', he⟩ := hwf.run (.refl _) es
  exact ⟨d', _, hr, he, hwf'.represents⟩

/-- Twenty-seven keys are inserted into the arrays, which become a tree, and one is removed. -/
theorem run_represents_nat :
    let es : List (Change ℕ Unit) := (List.range 27).map (.setObject · ()) ++ [.removeObject 3]
    ∃ d r, Run.run (step compare) dictionaryWithComparator es = some d ∧
      Ties compare r (es.foldl (Change.apply compare) []) ∧ Represents compare d r :=
  run_represents .empty _

/-- The tree in a dictionary passes its own checks, the second one unless it is empty, and a
search in it is short. -/
theorem run_checks {l : List (α × β)} (h : Made cmp d l) (es : List (Change α β))
    {root : FLLRBNode α β} (hr : Run.run (step cmp) d es = some (.tree root)) :
    root.check.isSome ∧ (root.isEmpty = false → root.checkMaxDepth = some true) ∧
      root.depth ≤ 2 * (root.count + 1).log2 := by
  obtain ⟨d', hr', hwf, -⟩ := h.wf.1.run (.refl _) es
  obtain rfl := Option.some.inj (hr.symm.trans hr')
  obtain ⟨b, hb⟩ := FTreeSortedDictionary.WF.balanced hwf
  obtain ⟨hc, hm, -⟩ := FTreeSortedDictionary.WF.checks hwf
  refine ⟨hc, hm, ?_⟩
  have hd := hb.depth_le
  have hlog : b ≤ (root.count + 1).log2 := (Nat.le_log2 (by simp)).mpr hb.two_pow_le
  simp only [if_neg (show Color.black ≠ .red by decide)] at hd
  omega

/-- Twenty-six keys make a tree, which stays one. -/
theorem run_checks_nat : ∃ d : FImmutableSortedDictionary ℕ Unit, ∃ root,
    Run.run (step compare) d [.setObject 30 (), .removeObject 3] = some (.tree root) ∧
      root.check.isSome ∧ (root.isEmpty = false → root.checkMaxDepth = some true) ∧
        root.depth ≤ 2 * (root.count + 1).log2 := by
  have hp : ((List.range 26).map fun k => (k, ())).Pairwise
      fun p q => compare p.1 q.1 ≠ .eq := by decide
  obtain ⟨root, hr, -⟩ := FTreeSortedDictionary.fromDictionary_eq_some hp
  have hd : fromDictionary compare ((List.range 26).map fun k => (k, ())) = some (.tree root) := by
    simp [fromDictionary, hr, arrayToRBTreeSizeThreshold]
  exact ⟨.tree root, _, rfl,
    run_checks (.fromDictionary hd) [.setObject 30 (), .removeObject 3] rfl⟩

end Treena.Sorted.FImmutableSortedDictionary
