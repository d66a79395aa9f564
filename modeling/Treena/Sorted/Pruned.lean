import Mathlib.Data.List.Perm.Lattice
import Mathlib.Data.List.Nodup
import Treena.Sorted.Entries

/-! # Entries that are not stored

Children that are empty are left out of an ordered list: the child of a key that is not
there is the empty one, and to place an empty child is to remove the entry. Such lists are
the same if they have the same child under every key.
-/

namespace Treena.Sorted

variable {α γ : Type*}

/-- The child of a key, which is empty if there is no entry. -/
def child (cmp : Cmp α) (empty : γ) (k : α) (l : List (α × γ)) : γ := (lookup cmp k l).getD empty

/-- The entries with a child under a key, where an empty child removes the entry. -/
def place (cmp : Cmp α) (isEmpty : γ → Bool) (k : α) (c : γ) (l : List (α × γ)) :
    List (α × γ) :=
  if isEmpty c then erase cmp k l else upsert cmp k c l

/-- The entries are ordered, and none of them is empty. -/
structure Pruned (cmp : Cmp α) (isEmpty : γ → Bool) (l : List (α × γ)) : Prop where
  ordered : Ordered cmp l
  stored : ∀ p ∈ l, isEmpty p.2 = false

section Basic

variable {cmp : Cmp α} {isEmpty : γ → Bool} {empty c : γ} {k : α} {p : α × γ}
  {l : List (α × γ)}

@[simp] theorem pruned_nil : Pruned cmp isEmpty ([] : List (α × γ)) :=
  ⟨ordered_nil, fun _ h => absurd h List.not_mem_nil⟩

@[simp] theorem child_nil : child cmp empty k ([] : List (α × γ)) = empty := rfl

theorem child_cons : child cmp empty k (p :: l) =
    if cmp k p.1 = .eq then p.2 else child cmp empty k l := by
  unfold child
  rw [lookup_cons]
  split <;> rfl

theorem child_of_absent (h : Absent cmp k l) : child cmp empty k l = empty := by
  rw [child, lookup_eq_none_iff.mpr h, Option.getD_none]

theorem child_eq_or_mem (cmp : Cmp α) (empty : γ) (k : α) (l : List (α × γ)) :
    child cmp empty k l = empty ∨ ∃ p ∈ l, child cmp empty k l = p.2 := by
  unfold child lookup
  cases h : l.find? fun p => cmp k p.1 == .eq with
  | none => exact .inl rfl
  | some p => exact .inr ⟨p, List.mem_of_find?_eq_some h, rfl⟩

theorem mem_or_eq_of_mem_upsert [Std.ReflCmp cmp] (h : p ∈ upsert cmp k c l) :
    p ∈ l ∨ cmp k p.1 = .eq ∧ p.2 = c := by
  induction l with
  | nil =>
    obtain rfl := List.mem_singleton.mp h
    exact .inr ⟨Std.ReflCmp.compare_self, rfl⟩
  | cons q l ih =>
    cases hq : cmp k q.1 with
    | lt =>
      rw [upsert_cons_lt hq] at h
      rcases List.mem_cons.mp h with rfl | h
      · exact .inr ⟨Std.ReflCmp.compare_self, rfl⟩
      · exact .inl h
    | eq =>
      rw [upsert_cons_eq hq] at h
      rcases List.mem_cons.mp h with rfl | h
      · exact .inr ⟨hq, rfl⟩
      · exact .inl (List.mem_cons_of_mem _ h)
    | gt =>
      rw [upsert_cons_gt hq] at h
      rcases List.mem_cons.mp h with rfl | h
      · exact .inl List.mem_cons_self
      · exact (ih h).imp_left (List.mem_cons_of_mem _)

theorem mem_place [Std.ReflCmp cmp] (h : p ∈ place cmp isEmpty k c l) :
    p ∈ l ∨ cmp k p.1 = .eq ∧ p.2 = c ∧ isEmpty c = false := by
  unfold place at h
  split at h
  next => exact .inl (mem_of_mem_erase h)
  next hc =>
    exact (mem_or_eq_of_mem_upsert h).imp_right fun ⟨hk, hp⟩ => ⟨hk, hp, by simpa using hc⟩

theorem upsert_ne_nil (cmp : Cmp α) (k : α) (c : γ) (l : List (α × γ)) :
    upsert cmp k c l ≠ [] := by
  cases l with
  | nil => exact List.cons_ne_nil _ _
  | cons p l => cases h : cmp k p.1 <;> simp [upsert, h]

end Basic

section Order

variable {cmp : Cmp α} [Std.TransCmp cmp] {isEmpty : γ → Bool} {empty c : γ} {k k' : α}
  {p : α × γ} {l l' : List (α × γ)}

theorem child_place_self (ho : Ordered cmp l) (hc : isEmpty c → c = empty) :
    child cmp empty k (place cmp isEmpty k c l) = c := by
  unfold child place
  split
  next h => rw [lookup_erase, if_pos Std.ReflCmp.compare_self, hc h, Option.getD_none]
  next h => rw [lookup_upsert ho, if_pos Std.ReflCmp.compare_self, Option.getD_some]

theorem child_place_of_ne (ho : Ordered cmp l) (hk : cmp k' k ≠ .eq) :
    child cmp empty k' (place cmp isEmpty k c l) = child cmp empty k' l := by
  unfold child place
  split
  next => rw [lookup_erase, if_neg hk]
  next => rw [lookup_upsert ho, if_neg hk]

theorem Pruned.place (h : Pruned cmp isEmpty l) : Pruned cmp isEmpty (place cmp isEmpty k c l) := by
  constructor
  · unfold Sorted.place
    split
    · exact h.ordered.erase
    · exact h.ordered.upsert
  · intro p hp
    rcases mem_place hp with hp | ⟨-, hp, hc⟩
    · exact h.stored p hp
    · rw [hp, hc]

omit [Std.TransCmp cmp] in
theorem mem_iff_lookup [Std.LawfulEqCmp cmp] (ho : Ordered cmp l) :
    p ∈ l ↔ lookup cmp p.1 l = some p.2 := by
  induction l with
  | nil => simp
  | cons q l ih =>
    rw [ordered_cons] at ho
    rw [lookup_cons, List.mem_cons, ih ho.2]
    by_cases hq : cmp p.1 q.1 = .eq
    · rw [if_pos hq, Option.some.injEq]
      obtain hpq := Std.LawfulEqCmp.eq_of_compare hq
      constructor
      · rintro (rfl | h)
        · rfl
        · have hn : lookup cmp p.1 l = none := lookup_eq_none_iff.mpr
            (absent_of_lt fun a ha => hpq ▸ ho.1 a ha)
          rw [hn] at h
          cases h
      · intro h
        exact .inl (Prod.ext hpq h.symm)
    · rw [if_neg hq]
      constructor
      · rintro (rfl | h)
        · exact absurd Std.ReflCmp.compare_self hq
        · exact h
      · exact .inr

theorem mem_upsert_iff [Std.LawfulEqCmp cmp] {v : γ} (ho : Ordered cmp l) :
    p ∈ upsert cmp k v l ↔ p.1 = k ∧ p.2 = v ∨ p.1 ≠ k ∧ p ∈ l := by
  rw [mem_iff_lookup ho.upsert, lookup_upsert ho, mem_iff_lookup ho]
  by_cases hk : p.1 = k
  · rw [hk, if_pos Std.ReflCmp.compare_self, Option.some.injEq]
    simp [eq_comm]
  · rw [if_neg fun he => hk (Std.LawfulEqCmp.eq_of_compare he)]
    simp [hk]

omit [Std.TransCmp cmp] in
theorem child_of_mem [Std.LawfulEqCmp cmp] (ho : Ordered cmp l) (hp : p ∈ l) :
    child cmp empty p.1 l = p.2 := by
  rw [child, (mem_iff_lookup ho).mp hp, Option.getD_some]

omit [Std.TransCmp cmp] in
theorem mem_iff_child [Std.LawfulEqCmp cmp] (he : isEmpty empty) (h : Pruned cmp isEmpty l) :
    p ∈ l ↔ child cmp empty p.1 l = p.2 ∧ isEmpty p.2 = false := by
  constructor
  · intro hp
    exact ⟨child_of_mem h.ordered hp, h.stored p hp⟩
  · rintro ⟨hc, hp⟩
    rw [mem_iff_lookup h.ordered]
    unfold child at hc
    cases hl : lookup cmp p.1 l with
    | none =>
      rw [hl, Option.getD_none] at hc
      rw [← hc, he] at hp
      cases hp
    | some d =>
      rw [hl, Option.getD_some] at hc
      rw [hc]

theorem Ordered.nodup (h : Ordered cmp l) : l.Nodup := by
  refine List.Pairwise.imp (fun {p q} hpq he => ?_) h
  have hs : cmp q.1 q.1 = .eq := Std.ReflCmp.compare_self
  rw [he, hs] at hpq
  cases hpq

/-- Pruned lists with the same children are the same. -/
theorem Pruned.ext [Std.LawfulEqCmp cmp] (he : isEmpty empty) (h : Pruned cmp isEmpty l)
    (h' : Pruned cmp isEmpty l') (hc : ∀ k, child cmp empty k l = child cmp empty k l') :
    l = l' := by
  refine Ordered.eq_of_perm h.ordered h'.ordered ?_
  refine (List.perm_ext_iff_of_nodup h.ordered.nodup h'.ordered.nodup).mpr fun p => ?_
  rw [mem_iff_child he h, mem_iff_child he h', hc]

end Order

end Treena.Sorted
