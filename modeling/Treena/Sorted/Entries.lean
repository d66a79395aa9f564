import Mathlib.Data.List.Forall2
import Mathlib.Data.Nat.Notation

/-! # Ordered entries

The finite maps that a sorted dictionary represents: lists of entries in strictly
increasing order of a comparator, with lookup, insertion and removal.
-/

namespace Treena.Sorted

variable {α β : Type*}

abbrev Cmp (α : Type*) := α → α → Ordering

def Ordered (cmp : Cmp α) (l : List (α × β)) : Prop :=
  l.Pairwise fun p q => cmp p.1 q.1 = .lt

def lookup (cmp : Cmp α) (k : α) (l : List (α × β)) : Option β :=
  (l.find? fun p => cmp k p.1 == .eq).map (·.2)

/-- The key of an entry that is already there stays. -/
def upsert (cmp : Cmp α) (k : α) (v : β) : List (α × β) → List (α × β)
  | [] => [(k, v)]
  | p :: l =>
    match cmp k p.1 with
    | .lt => (k, v) :: p :: l
    | .eq => (p.1, v) :: l
    | .gt => p :: upsert cmp k v l

def erase (cmp : Cmp α) (k : α) (l : List (α × β)) : List (α × β) :=
  l.filter fun p => cmp k p.1 != .eq

/-- The same entries, but for which of the keys that compare as the same are kept. -/
def Ties (cmp : Cmp α) : List (α × β) → List (α × β) → Prop :=
  List.Forall₂ fun p q => cmp p.1 q.1 = .eq ∧ p.2 = q.2

/-- The entries whose keys compare to a key in a given way. -/
def select (f : Ordering → Bool) (cmp : Cmp α) (k : α) (l : List (α × β)) : List (α × β) :=
  l.filter fun p => f (cmp p.1 k)

abbrev before (cmp : Cmp α) (k : α) (l : List (α × β)) : List (α × β) :=
  select Ordering.isLT cmp k l

abbrev onward (cmp : Cmp α) (k : α) (l : List (α × β)) : List (α × β) :=
  select Ordering.isGE cmp k l

abbrev upTo (cmp : Cmp α) (k : α) (l : List (α × β)) : List (α × β) :=
  select Ordering.isLE cmp k l

/-- The key before a key that is there, if any. -/
def predecessor (cmp : Cmp α) (k : α) (l : List (α × β)) : Option (Option α) :=
  (lookup cmp k l).map fun _ => (before cmp k l).getLast?.map (·.1)

def Absent (cmp : Cmp α) (k : α) (l : List (α × β)) : Prop := ∀ p ∈ l, cmp k p.1 ≠ .eq

section Basic

variable {cmp : Cmp α} {k k' : α} {v : β} {p : α × β} {l l' r : List (α × β)}

@[simp] theorem ordered_nil : Ordered cmp ([] : List (α × β)) := .nil

theorem ordered_cons :
    Ordered cmp (p :: l) ↔ (∀ q ∈ l, cmp p.1 q.1 = .lt) ∧ Ordered cmp l :=
  List.pairwise_cons

theorem Ordered.sublist (h : Ordered cmp l') (hl : l.Sublist l') : Ordered cmp l :=
  List.Pairwise.sublist hl h

theorem ordered_append :
    Ordered cmp (l ++ r) ↔
      Ordered cmp l ∧ Ordered cmp r ∧ ∀ p ∈ l, ∀ q ∈ r, cmp p.1 q.1 = .lt :=
  List.pairwise_append

@[simp] theorem upsert_nil : upsert cmp k v [] = [(k, v)] := rfl

theorem upsert_cons_lt (h : cmp k p.1 = .lt) : upsert cmp k v (p :: l) = (k, v) :: p :: l := by
  simp [upsert, h]

theorem upsert_cons_eq (h : cmp k p.1 = .eq) : upsert cmp k v (p :: l) = (p.1, v) :: l := by
  simp [upsert, h]

theorem upsert_cons_gt (h : cmp k p.1 = .gt) :
    upsert cmp k v (p :: l) = p :: upsert cmp k v l := by
  simp [upsert, h]

theorem upsert_append_of_lt (h : cmp k p.1 = .lt) :
    upsert cmp k v (l ++ p :: r) = upsert cmp k v l ++ p :: r := by
  induction l with
  | nil => exact upsert_cons_lt h
  | cons q l ih =>
    cases hq : cmp k q.1 with
    | lt => simp [upsert_cons_lt hq]
    | eq => simp [upsert_cons_eq hq]
    | gt => simp [upsert_cons_gt hq, ih]

theorem upsert_append_of_gt (h : ∀ p ∈ l, cmp k p.1 = .gt) :
    upsert cmp k v (l ++ r) = l ++ upsert cmp k v r := by
  induction l with
  | nil => rfl
  | cons q l ih =>
    rw [List.forall_mem_cons] at h
    rw [List.cons_append, upsert_cons_gt h.1, ih h.2, List.cons_append]

@[simp] theorem erase_nil : erase cmp k ([] : List (α × β)) = [] := rfl

theorem erase_cons : erase cmp k (p :: l) =
    if cmp k p.1 = .eq then erase cmp k l else p :: erase cmp k l := by
  by_cases h : cmp k p.1 = .eq <;> simp [erase, h]

@[simp] theorem erase_append : erase cmp k (l ++ r) = erase cmp k l ++ erase cmp k r :=
  List.filter_append ..

theorem Absent.erase_eq (h : Absent cmp k l) : erase cmp k l = l := by
  simpa [erase, Absent, List.filter_eq_self] using h

theorem absent_of_lt (h : ∀ p ∈ l, cmp k p.1 = .lt) : Absent cmp k l := by
  intro p hp
  simp [h p hp]

theorem absent_of_gt (h : ∀ p ∈ l, cmp k p.1 = .gt) : Absent cmp k l := by
  intro p hp
  simp [h p hp]

@[simp] theorem absent_nil : Absent cmp k ([] : List (α × β)) := by simp [Absent]

@[simp] theorem absent_cons : Absent cmp k (p :: l) ↔ cmp k p.1 ≠ .eq ∧ Absent cmp k l :=
  List.forall_mem_cons

@[simp] theorem absent_append : Absent cmp k (l ++ r) ↔ Absent cmp k l ∧ Absent cmp k r :=
  List.forall_mem_append

theorem Absent.subset (h : Absent cmp k l') (hl : l ⊆ l') : Absent cmp k l :=
  fun p hp => h p (hl hp)

theorem absent_erase : Absent cmp k (erase cmp k l) := by
  intro p hp
  simpa using (List.mem_filter.mp hp).2

theorem mem_of_mem_erase (h : p ∈ erase cmp k l) : p ∈ l := (List.mem_filter.mp h).1

theorem Ordered.erase (h : Ordered cmp l) : Ordered cmp (erase cmp k l) :=
  h.sublist List.filter_sublist

@[simp] theorem lookup_nil : lookup cmp k ([] : List (α × β)) = none := rfl

theorem lookup_cons : lookup cmp k (p :: l) =
    if cmp k p.1 = .eq then some p.2 else lookup cmp k l := by
  by_cases h : cmp k p.1 = .eq <;> simp [lookup, h]

theorem lookup_append : lookup cmp k (l ++ r) = (lookup cmp k l).or (lookup cmp k r) := by
  simp [lookup, List.find?_append, Option.map_or]

theorem lookup_eq_none_iff : lookup cmp k l = none ↔ Absent cmp k l := by
  simp [lookup, Absent]

section Select

variable {f : Ordering → Bool} {o : Ordering}

@[simp] theorem select_append :
    select f cmp k (l ++ r) = select f cmp k l ++ select f cmp k r := List.filter_append ..

theorem select_cons_pos (h : f (cmp p.1 k)) :
    select f cmp k (p :: l) = p :: select f cmp k l := List.filter_cons_of_pos h

theorem select_cons_neg (h : f (cmp p.1 k) = false) :
    select f cmp k (p :: l) = select f cmp k l := List.filter_cons_of_neg (by simp [h])

theorem select_eq_self (h : ∀ q ∈ l, cmp q.1 k = o) (ho : f o) : select f cmp k l = l :=
  List.filter_eq_self.mpr fun q hq => by rw [h q hq, ho]

theorem select_eq_nil (h : ∀ q ∈ l, cmp q.1 k = o) (ho : f o = false) :
    select f cmp k l = [] :=
  List.filter_eq_nil_iff.mpr fun q hq => by rw [h q hq, ho]; exact Bool.false_ne_true

end Select

end Basic

section Order

variable {cmp : Cmp α} [Std.TransCmp cmp] {k k' : α} {v : β} {p q : α × β}
  {l l' r : List (α × β)}

theorem ordered_middle :
    Ordered cmp (l ++ p :: r) ↔ Ordered cmp l ∧ Ordered cmp r ∧
      (∀ q ∈ l, cmp q.1 p.1 = .lt) ∧ ∀ q ∈ r, cmp p.1 q.1 = .lt := by
  rw [ordered_append, ordered_cons]
  constructor
  · rintro ⟨hl, ⟨hp, hr⟩, h⟩
    exact ⟨hl, hr, fun q hq => h q hq p List.mem_cons_self, hp⟩
  · rintro ⟨hl, hr, hlp, hpr⟩
    refine ⟨hl, ⟨hpr, hr⟩, fun a ha b hb => ?_⟩
    rcases List.mem_cons.mp hb with rfl | hb
    · exact hlp a ha
    · exact Std.TransCmp.lt_trans (hlp a ha) (hpr b hb)

theorem gt_of_before (hl : ∀ q ∈ l, cmp q.1 p.1 = .lt) (h : cmp k p.1 ≠ .lt) :
    ∀ q ∈ l, cmp k q.1 = .gt := by
  intro q hq
  apply Std.OrientedCmp.gt_of_lt
  cases hk : cmp k p.1 with
  | lt => exact absurd hk h
  | eq => exact Std.TransCmp.lt_of_lt_of_eq (hl q hq) (Std.OrientedCmp.eq_symm hk)
  | gt => exact Std.TransCmp.lt_trans (hl q hq) (Std.OrientedCmp.lt_of_gt hk)

theorem lt_of_after (hr : ∀ q ∈ r, cmp p.1 q.1 = .lt) (h : cmp k p.1 ≠ .gt) :
    ∀ q ∈ r, cmp k q.1 = .lt := by
  intro q hq
  cases hk : cmp k p.1 with
  | lt => exact Std.TransCmp.lt_trans hk (hr q hq)
  | eq => exact Std.TransCmp.lt_of_eq_of_lt hk (hr q hq)
  | gt => exact absurd hk h

theorem mem_upsert (h : q ∈ upsert cmp k v l) :
    q ∈ l ∨ cmp k q.1 = .eq := by
  induction l with
  | nil =>
    obtain rfl := List.mem_singleton.mp h
    exact .inr Std.ReflCmp.compare_self
  | cons p l ih =>
    cases hp : cmp k p.1 with
    | lt =>
      rw [upsert_cons_lt hp, List.mem_cons] at h
      rcases h with rfl | h
      · exact .inr Std.ReflCmp.compare_self
      · exact .inl h
    | eq =>
      rw [upsert_cons_eq hp, List.mem_cons] at h
      rcases h with rfl | h
      · exact .inr hp
      · exact .inl (List.mem_cons_of_mem _ h)
    | gt =>
      rw [upsert_cons_gt hp, List.mem_cons] at h
      rcases h with rfl | h
      · exact .inl List.mem_cons_self
      · exact (ih h).imp_left (List.mem_cons_of_mem _)

theorem Ordered.upsert (h : Ordered cmp l) : Ordered cmp (upsert cmp k v l) := by
  induction l with
  | nil => exact List.pairwise_singleton ..
  | cons p l ih =>
    rw [ordered_cons] at h
    cases hp : cmp k p.1 with
    | lt =>
      rw [upsert_cons_lt hp]
      refine ordered_cons.mpr ⟨fun q hq => ?_, ordered_cons.mpr h⟩
      rcases List.mem_cons.mp hq with rfl | hq
      · exact hp
      · exact Std.TransCmp.lt_trans hp (h.1 q hq)
    | eq =>
      rw [upsert_cons_eq hp]
      exact ordered_cons.mpr h
    | gt =>
      rw [upsert_cons_gt hp]
      refine ordered_cons.mpr ⟨fun q hq => ?_, ih h.2⟩
      rcases mem_upsert hq with hq | hq
      · exact h.1 q hq
      · exact Std.TransCmp.lt_of_lt_of_eq (Std.OrientedCmp.lt_of_gt hp) hq

theorem lookup_upsert (h : Ordered cmp l) :
    lookup cmp k' (upsert cmp k v l) = if cmp k' k = .eq then some v else lookup cmp k' l := by
  induction l with
  | nil => rw [upsert_nil, lookup_cons]
  | cons p l ih =>
    rw [ordered_cons] at h
    cases hp : cmp k p.1 with
    | lt => rw [upsert_cons_lt hp, lookup_cons]
    | eq =>
      rw [upsert_cons_eq hp, lookup_cons, lookup_cons, Std.TransCmp.congr_right hp]
      split <;> rfl
    | gt =>
      rw [upsert_cons_gt hp, lookup_cons, ih h.2, lookup_cons]
      by_cases hk : cmp k' k = .eq
      · rw [if_pos hk, if_pos hk, if_neg]
        rw [Std.TransCmp.congr_left hk, hp]
        decide
      · rw [if_neg hk, if_neg hk]

theorem lookup_erase :
    lookup cmp k' (erase cmp k l) = if cmp k' k = .eq then none else lookup cmp k' l := by
  split
  next h =>
    refine lookup_eq_none_iff.mpr fun p hp => ?_
    rw [Std.TransCmp.congr_left h]
    exact absent_erase p hp
  next h =>
    induction l with
    | nil => rfl
    | cons p l ih =>
      rw [erase_cons, lookup_cons]
      by_cases hp : cmp k p.1 = .eq
      · rw [if_pos hp, ih, if_neg]
        rwa [← Std.TransCmp.congr_right hp]
      · rw [if_neg hp, lookup_cons, ih]

theorem Ordered.eq_of_perm (hl : Ordered cmp l) (hr : Ordered cmp r)
    (h : l.Perm r) : l = r := by
  refine h.eq_of_pairwise (fun p q _ _ hpq hqp => ?_) hl hr
  rw [Std.OrientedCmp.gt_of_lt hpq] at hqp
  cases hqp

theorem Ties.refl (l : List (α × β)) : Ties cmp l l :=
  List.forall₂_same.mpr fun _ _ => ⟨Std.ReflCmp.compare_self, rfl⟩

theorem Ties.trans {l₁ l₂ l₃ : List (α × β)} (h : Ties cmp l₁ l₂) (h' : Ties cmp l₂ l₃) :
    Ties cmp l₁ l₃ := by
  induction h generalizing l₃ with
  | nil => exact h'
  | cons hpq _ ih =>
    cases h' with
    | cons hqr h' => exact .cons ⟨Std.TransCmp.eq_trans hpq.1 hqr.1, hpq.2.trans hqr.2⟩ (ih h')

theorem Ties.of_lt {l l' : List (α × β)} (h : Ties cmp l l') (hl : ∀ q ∈ l', cmp k q.1 = .lt) :
    ∀ q ∈ l, cmp k q.1 = .lt := by
  induction h with
  | nil => exact fun _ hq => absurd hq List.not_mem_nil
  | cons hpq _ ih =>
    rw [List.forall_mem_cons] at hl ⊢
    exact ⟨(Std.TransCmp.congr_right hpq.1).trans hl.1, ih hl.2⟩

theorem Ties.ordered {l l' : List (α × β)} (h : Ties cmp l l') (ho : Ordered cmp l') :
    Ordered cmp l := by
  induction h with
  | nil => exact ho
  | cons hpq h ih =>
    rw [ordered_cons] at ho ⊢
    refine ⟨Ties.of_lt h fun q hq => ?_, ih ho.2⟩
    exact (Std.TransCmp.congr_left hpq.1).trans (ho.1 q hq)

theorem Ties.upsert {l l' : List (α × β)} (h : Ties cmp l l') :
    Ties cmp (upsert cmp k v l) (upsert cmp k v l') := by
  induction h with
  | nil => exact .refl _
  | @cons p q l l' hpq h ih =>
    have hk : cmp k p.1 = cmp k q.1 := Std.TransCmp.congr_right hpq.1
    cases hq : cmp k q.1 with
    | lt =>
      rw [upsert_cons_lt (hk.trans hq), upsert_cons_lt hq]
      exact .cons ⟨Std.ReflCmp.compare_self, rfl⟩ (.cons hpq h)
    | eq =>
      rw [upsert_cons_eq (hk.trans hq), upsert_cons_eq hq]
      exact .cons ⟨hpq.1, rfl⟩ h
    | gt =>
      rw [upsert_cons_gt (hk.trans hq), upsert_cons_gt hq]
      exact .cons hpq ih

theorem Ties.erase {l l' : List (α × β)} (h : Ties cmp l l') :
    Ties cmp (erase cmp k l) (erase cmp k l') := by
  induction h with
  | nil => exact .refl _
  | @cons p q l l' hpq h ih =>
    have hk : cmp k p.1 = cmp k q.1 := Std.TransCmp.congr_right hpq.1
    rw [erase_cons, erase_cons, hk]
    split_ifs
    · exact ih
    · exact .cons hpq ih

theorem lt_of_before (hl : ∀ q ∈ l, cmp q.1 p.1 = .lt) (h : cmp p.1 k ≠ .gt) :
    ∀ q ∈ l, cmp q.1 k = .lt := by
  intro q hq
  apply Std.OrientedCmp.lt_of_gt
  exact gt_of_before hl (fun hk => h (Std.OrientedCmp.gt_of_lt hk)) q hq

theorem gt_of_after (hr : ∀ q ∈ r, cmp p.1 q.1 = .lt) (h : cmp p.1 k ≠ .lt) :
    ∀ q ∈ r, cmp q.1 k = .gt := by
  intro q hq
  apply Std.OrientedCmp.gt_of_lt
  exact lt_of_after hr (fun hk => h (Std.OrientedCmp.lt_of_gt hk)) q hq

theorem before_append_onward (h : Ordered cmp l) : before cmp k l ++ onward cmp k l = l := by
  induction l with
  | nil => rfl
  | cons p l ih =>
    unfold before onward at *
    rw [ordered_cons] at h
    by_cases hp : cmp p.1 k = .lt
    · rw [select_cons_pos (by simp [hp]), select_cons_neg (by simp [hp]), List.cons_append, ih h.2]
    · have hs := gt_of_after h.1 hp
      have hge : (cmp p.1 k).isGE := by cases hk : cmp p.1 k <;> simp_all
      have hlt : (cmp p.1 k).isLT = false := by cases hk : cmp p.1 k <;> simp_all
      rw [select_cons_neg hlt, select_eq_nil hs rfl, select_cons_pos hge, select_eq_self hs rfl]
      rfl

/-- A new entry goes between what is before its key and what is after it. -/
theorem Absent.upsert_eq (ho : Ordered cmp l) (h : Absent cmp k l) :
    upsert cmp k v l = before cmp k l ++ (k, v) :: onward cmp k l := by
  have hb : ∀ q ∈ before cmp k l, cmp k q.1 = .gt := by
    intro q hq
    have := (List.mem_filter.mp hq).2
    exact Std.OrientedCmp.gt_of_lt (by simpa using this)
  have hc := before_append_onward (k := k) ho
  rw [← hc, absent_append] at h
  conv_lhs => rw [← hc]
  rw [upsert_append_of_gt hb]
  congr 1
  cases hr : onward cmp k l with
  | nil => rfl
  | cons p r =>
    rw [hr, absent_cons] at h
    have hp : p ∈ onward cmp k l := by rw [hr]; exact List.mem_cons_self
    have hge := (List.mem_filter.mp hp).2
    refine upsert_cons_lt ?_
    cases hk : cmp k p.1 with
    | lt => rfl
    | eq => exact absurd hk h.2.1
    | gt => simp [Std.OrientedCmp.lt_of_gt hk] at hge

theorem split_of_eq {a b : List (α × β)} (ho : Ordered cmp (a ++ p :: b)) (hk : cmp k p.1 = .eq) :
    upsert cmp k v (a ++ p :: b) = a ++ (p.1, v) :: b ∧ erase cmp k (a ++ p :: b) = a ++ b ∧
      lookup cmp k (a ++ p :: b) = some p.2 ∧ before cmp k (a ++ p :: b) = a ∧
      upTo cmp k (a ++ p :: b) = a ++ [p] := by
  obtain ⟨-, -, hap, hpb⟩ := ordered_middle.mp ho
  have hk' : cmp p.1 k = .eq := Std.OrientedCmp.eq_symm hk
  have ha := gt_of_before hap (k := k) (by simp [hk])
  have hb := absent_of_lt (lt_of_after hpb (k := k) (by simp [hk]))
  have ha' := lt_of_before hap (k := k) (by simp [hk'])
  have hb' := gt_of_after hpb (k := k) (by simp [hk'])
  refine ⟨?_, ?_, ?_, ?_, ?_⟩
  · rw [upsert_append_of_gt ha, upsert_cons_eq hk]
  · rw [erase_append, (absent_of_gt ha).erase_eq, erase_cons, if_pos hk, hb.erase_eq]
  · rw [lookup_append, lookup_eq_none_iff.mpr (absent_of_gt ha), lookup_cons, if_pos hk]
    rfl
  · unfold before
    rw [select_append, select_eq_self ha' rfl, select_cons_neg (by simp [hk']),
      select_eq_nil hb' rfl, List.append_nil]
  · unfold upTo
    rw [select_append, select_eq_self ha' rfl, select_cons_pos (by simp [hk']),
      select_eq_nil hb' rfl]

end Order

end Treena.Sorted
