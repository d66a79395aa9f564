import Treena.Firebase.Layer

/-! # Writes in a compound write

The writes that a compound write holds are apart from each other. Writes that are added in
turn leave the same compound write without one of them, if a later write is above it or if
its path is cut off and no other write is near.
-/

namespace Treena.Firebase.FCompoundWrite

open Sorted FImmutableTree FNode

variable {κ β : Type*} {F : FUtilities κ}

def leaves : FCompoundWrite κ β → List (List κ × FNode κ β)
  | ⟨some value, _⟩ => [([], value)]
  | ⟨none, l⟩ => leavesOf l
where
  leavesOf : List (Piece κ × FCompoundWrite κ β) → List (List κ × FNode κ β)
    | [] => []
    | (.priority, _) :: rest => leavesOf rest
    | (.key k, c) :: rest => (leaves c).map (fun w => (k :: w.1, w.2)) ++ leavesOf rest

/-- Writes that are added in turn. -/
def layer (F : FUtilities κ) (es : List (List κ × FNode κ β)) (t : FCompoundWrite κ β) :
    FCompoundWrite κ β :=
  es.foldl (fun t e => add F e.2 t e.1) t

abbrev under (p : List κ) (w : List κ × FNode κ β) : List κ × FNode κ β := (p ++ w.1, w.2)

section Leaves

variable {t c : FCompoundWrite κ β} {l : List (Piece κ × FCompoundWrite κ β)} {k : κ}
  {p : List κ} {w : List κ × FNode κ β}

theorem mem_leavesOf (hw : w ∈ leaves.leavesOf l) :
    ∃ k c w', (.key k, c) ∈ l ∧ w' ∈ leaves c ∧ w = (k :: w'.1, w'.2) := by
  induction l with
  | nil => cases hw
  | cons q l ih =>
    obtain ⟨x, c⟩ := q
    cases x with
    | priority =>
      obtain ⟨k, c', w', hm, h⟩ := ih hw
      exact ⟨k, c', w', List.mem_cons_of_mem _ hm, h⟩
    | key k =>
      rcases List.mem_append.mp hw with hw | hw
      · obtain ⟨w', hw', rfl⟩ := List.mem_map.mp hw
        exact ⟨k, c, w', List.mem_cons_self, hw', rfl⟩
      · obtain ⟨k, c', w', hm, h⟩ := ih hw
        exact ⟨k, c', w', List.mem_cons_of_mem _ hm, h⟩

theorem Plain.leaves (h : Plain F t) : ∀ w ∈ leaves t, w.2.Plain F.keyComparator := by
  induction h with
  | write hv => exact fun w hw => List.mem_singleton.mp hw ▸ hv
  | branch _ _ _ ih =>
    intro w hw
    obtain ⟨k, c, w', hm, hw', rfl⟩ := mem_leavesOf hw
    exact ih _ hm w' hw'

theorem forEachChild_eq {path : List (Piece κ)}
    (hp : ∀ q ∈ l, q.1.isPriority = false)
    (h : ∀ q ∈ l, ∀ path, forEach path q.2 =
      (leaves q.2).map fun w => (path ++ w.1.map .key, w.2)) :
    forEach.forEachChild path l =
      (leaves.leavesOf l).map fun w => (path ++ w.1.map .key, w.2) := by
  induction l with
  | nil => rfl
  | cons q l ih =>
    obtain ⟨x, c⟩ := q
    rw [List.forall_mem_cons] at hp h
    cases x with
    | priority => exact absurd hp.1 (by simp [Piece.isPriority])
    | key k =>
      rw [show forEach.forEachChild path ((.key k, c) :: l) =
          forEach (path ++ [.key k]) c ++ forEach.forEachChild path l from rfl,
        h.1, ih hp.2 h.2]
      simp [leaves.leavesOf]

/-- The order of `forEach:` is that of the writes. -/
theorem forEach_eq (h : Plain F t) (path : List (Piece κ)) :
    t.forEach path = (leaves t).map fun w => (path ++ w.1.map .key, w.2) := by
  induction h generalizing path with
  | write => simp [forEach, forEach.forEachChild, FCompoundWrite.leaves]
  | branch _ hp _ ih =>
    simp only [forEach, Option.toList_none, List.map_nil, List.append_nil]
    exact forEachChild_eq hp ih

theorem pairwise_leavesOf [F.Lawful] (ho : Ordered F.stringComparator l)
    (h : ∀ q ∈ l, (FCompoundWrite.leaves q.2).Pairwise fun v w => Apart v.1 w.1) :
    (leaves.leavesOf l).Pairwise fun v w => Apart v.1 w.1 := by
  induction l with
  | nil => exact .nil
  | cons q l ih =>
    obtain ⟨x, c⟩ := q
    rw [ordered_cons] at ho
    rw [List.forall_mem_cons] at h
    cases x with
    | priority => exact ih ho.2 h.2
    | key k =>
      refine List.pairwise_append.mpr ⟨?_, ih ho.2 h.2, ?_⟩
      · refine List.pairwise_map.mpr (h.1.imp fun {v w} hvw => ?_)
        exact apart_cons.mpr (.inr ⟨rfl, hvw⟩)
      · intro v hv w hw
        obtain ⟨v', -, rfl⟩ := List.mem_map.mp hv
        obtain ⟨k', c', w', hm, -, rfl⟩ := mem_leavesOf hw
        refine apart_cons.mpr (.inl fun he => ?_)
        subst he
        have hlt : F.stringComparator (.key k) (.key k) = .lt := ho.1 _ hm
        have hself : F.stringComparator (.key k) (.key k) = .eq := Std.ReflCmp.compare_self
        rw [hself] at hlt
        cases hlt

theorem pairwise_leaves [F.Lawful] (h : Plain F t) :
    (leaves t).Pairwise fun v w => Apart v.1 w.1 := by
  induction h with
  | write => exact List.pairwise_singleton ..
  | branch hpr _ _ ih => exact pairwise_leavesOf hpr.ordered ih

end Leaves

section Layer

variable {t t' u u' c : FCompoundWrite κ β} {es es' : List (List κ × FNode κ β)} {k : κ}
  {p q s : List κ} {v : FNode κ β} {n : FNode κ β} {e : List κ × FNode κ β}

@[simp] theorem layer_nil : layer F [] t = t := rfl

@[simp] theorem layer_cons : layer F (e :: es) t = layer F es (add F e.2 t e.1) := rfl

@[simp] theorem layer_append : layer F (es ++ es') t = layer F es' (layer F es t) :=
  List.foldl_append ..

variable [F.Lawful]

theorem Plain.layer (h : Plain F t) (hes : ∀ e ∈ es, e.2.Plain F.keyComparator) :
    Plain F (layer F es t) := by
  induction es generalizing t with
  | nil => exact h
  | cons e es ih =>
    rw [List.forall_mem_cons] at hes
    exact ih (h.add hes.1) hes.2

/-- Writes laid over a node are updates made in turn. -/
theorem lay_layer (h : Plain F t) (hes : ∀ e ∈ es, e.2.Plain F.keyComparator)
    (hn : n.Plain F.keyComparator) (hf : ∀ e ∈ es, e.2.isEmpty → Free F.keyComparator n e.1) :
    lay F (FCompoundWrite.layer F es t) n =
      es.foldl (fun n e => n.put F.keyComparator e.1 e.2) (lay F t n) := by
  induction es generalizing t with
  | nil => rfl
  | cons e es ih =>
    rw [List.forall_mem_cons] at hes hf
    rw [layer_cons, ih (h.add hes.1) hes.2 hf.2, lay_add h hn hes.1 hf.1, List.foldl_cons]

def Open (F : FUtilities κ) : List κ → FCompoundWrite κ β → Prop
  | [], _ => True
  | k :: q, t => t.value = none ∧ Open F q (t.sub F.stringComparator (.key k))

/-- Nothing but what is at the path or below is different. -/
def Agree (F : FUtilities κ) : List κ → FCompoundWrite κ β → FCompoundWrite κ β → Prop
  | [], _, _ => True
  | k :: q, t, u => t = u ∨ t.value = none ∧ u.value = none ∧
      (∀ c ≠ .key k, t.sub F.stringComparator c = u.sub F.stringComparator c) ∧
      Agree F q (t.sub F.stringComparator (.key k)) (u.sub F.stringComparator (.key k))

omit [F.Lawful] in
theorem Agree.refl (q : List κ) (t : FCompoundWrite κ β) : Agree F q t t := by
  cases q with
  | nil => trivial
  | cons k q => exact .inl rfl

omit [F.Lawful] in
theorem value_add_of_none (hv : t.value = none) : (add F v t (k :: p)).value = none := by
  rw [add_cons_of_none hv]

theorem Agree.add (ht : Plain F t) (hu : Plain F u) (h : Agree F q t u) :
    Agree F q (add F v t p) (add F v u p) := by
  induction q generalizing t u p with
  | nil => trivial
  | cons k q ih =>
    rcases h with rfl | ⟨htv, huv, hc, hk⟩
    · exact .inl rfl
    · obtain _ | ⟨k', p⟩ := p
      · exact .inl rfl
      · refine .inr ⟨value_add_of_none htv, value_add_of_none huv, fun c hne => ?_, ?_⟩
        · by_cases hck : c = .key k'
          · subst hck
            rw [sub_add_self ht htv, sub_add_self hu huv, hc _ hne]
          · rw [sub_add_of_ne ht htv hck, sub_add_of_ne hu huv hck, hc _ hne]
        · by_cases hkk : k = k'
          · subst hkk
            rw [sub_add_self ht htv, sub_add_self hu huv]
            exact ih (ht.sub _) (hu.sub _) hk
          · have hne : Piece.key k ≠ .key k' := fun he => hkk (Piece.key.inj he)
            rw [sub_add_of_ne ht htv hne, sub_add_of_ne hu huv hne]
            exact hk

theorem Agree.eq (ht : Plain F t) (hu : Plain F u) (hv : v.Plain F.keyComparator)
    (h : Agree F q t u) (hp : p <+: q) :
    FCompoundWrite.add F v t p = FCompoundWrite.add F v u p := by
  induction q generalizing t u p with
  | nil =>
    obtain rfl := List.prefix_nil.mp hp
    rfl
  | cons k q ih =>
    obtain _ | ⟨k', p⟩ := p
    · rfl
    obtain ⟨rfl, hpq⟩ := List.cons_prefix_cons.mp hp
    rcases h with rfl | ⟨htv, huv, hc, hk⟩
    · rfl
    · refine (ht.add hv).ext (hu.add hv) ?_ fun c => ?_
      · rw [value_add_of_none htv, value_add_of_none huv]
      · by_cases hck : c = .key k'
        · subst hck
          rw [sub_add_self ht htv, sub_add_self hu huv, ih (ht.sub _) (hu.sub _) hk hpq]
        · rw [sub_add_of_ne ht htv hck, sub_add_of_ne hu huv hck, hc _ hck]

omit [F.Lawful] in
theorem open_empty : Open F q (FImmutableTree.empty : FCompoundWrite κ β) := by
  induction q with
  | nil => trivial
  | cons k q ih => exact ⟨rfl, ih⟩

theorem Open.add (ht : Plain F t) (h : Open F q t) (hp : p <+: q → p = q) :
    Open F q (add F v t p) := by
  induction q generalizing t p with
  | nil => trivial
  | cons k q ih =>
    obtain _ | ⟨k', p⟩ := p
    · cases hp List.nil_prefix
    · refine ⟨value_add_of_none h.1, ?_⟩
      by_cases hkk : k = k'
      · subst hkk
        rw [sub_add_self ht h.1]
        refine ih (ht.sub _) h.2 fun hpq => ?_
        exact (List.cons.inj (hp (List.cons_prefix_cons.mpr ⟨rfl, hpq⟩))).2
      · rw [sub_add_of_ne ht h.1 fun he => hkk (Piece.key.inj he)]
        exact h.2

theorem Agree.write (hu : Plain F u) (h : Agree F q u t) (ho : Open F q u) (hp : q <+: p) :
    Agree F q (FCompoundWrite.add F v u p) t := by
  induction q generalizing t u p with
  | nil => trivial
  | cons k q ih =>
    obtain ⟨p, rfl⟩ := hp
    have hsub : ∀ c ≠ Piece.key k, (FCompoundWrite.add F v u (k :: q ++ p)).sub
        F.stringComparator c = u.sub F.stringComparator c :=
      fun c hc => sub_add_of_ne hu ho.1 hc
    rw [List.cons_append] at hsub ⊢
    have hk := sub_add_self (v := v) (k := k) (p := q ++ p) hu ho.1
    rcases h with rfl | ⟨-, htv, hc, hk'⟩
    · exact .inr ⟨value_add_of_none ho.1, ho.1, hsub,
        hk ▸ ih (hu.sub _) (.refl ..) ho.2 (List.prefix_append ..)⟩
    · exact .inr ⟨value_add_of_none ho.1, htv, fun c hne => (hsub c hne).trans (hc c hne),
        hk ▸ ih (hu.sub _) hk' ho.2 (List.prefix_append ..)⟩

theorem open_layer (ht : Plain F t) (hes : ∀ e ∈ es, e.2.Plain F.keyComparator) (h : Open F q t)
    (hp : ∀ e ∈ es, e.1 <+: q → e.1 = q) : Open F q (layer F es t) := by
  induction es generalizing t with
  | nil => exact h
  | cons e es ih =>
    rw [List.forall_mem_cons] at hes hp
    exact ih (ht.add hes.1) hes.2 (h.add ht hp.1) hp.2

theorem agree_layer (ht : Plain F t) (hu : Plain F u) (hes : ∀ e ∈ es, e.2.Plain F.keyComparator)
    (h : Agree F q t u) : Agree F q (layer F es t) (layer F es u) := by
  induction es generalizing t u with
  | nil => exact h
  | cons e es ih =>
    rw [List.forall_mem_cons] at hes
    exact ih (ht.add hes.1) (hu.add hes.1) hes.2 (h.add ht hu)

theorem agree_layer_below (hu : Plain F u) (hes : ∀ e ∈ es, e.2.Plain F.keyComparator)
    (h : Agree F q u t) (ho : Open F q u) (hp : ∀ e ∈ es, q <+: e.1) :
    Agree F q (layer F es u) t := by
  induction es generalizing u with
  | nil => exact h
  | cons e es ih =>
    rw [List.forall_mem_cons] at hes hp
    refine ih (hu.add hes.1) hes.2 (h.write hu ho hp.1) (ho.add hu fun hpq => ?_) hp.2
    exact hpq.eq_of_length (Nat.le_antisymm hpq.length_le hp.1.length_le)

/-- Writes below a later one make no difference. -/
theorem layer_shadowed {rs : List (List κ × FNode κ β)} (ht : Plain F t)
    (hes : ∀ e ∈ es, e.2.Plain F.keyComparator) (hrs : ∀ e ∈ rs, e.2.Plain F.keyComparator)
    (hes' : ∀ e ∈ es', e.2.Plain F.keyComparator) (ho : Open F q t)
    (hp : ∀ e ∈ es, e.1 <+: q → e.1 = q) (hr : ∀ e ∈ rs, q <+: e.1) (hq : ∃ v, (q, v) ∈ es') :
    layer F (es ++ rs ++ es') t = layer F (es ++ es') t := by
  obtain ⟨v, hq⟩ := hq
  obtain ⟨as, bs, rfl⟩ := List.append_of_mem hq
  simp only [List.forall_mem_append, List.forall_mem_cons] at hes'
  have ht' := ht.layer hes
  have hu' := ht'.layer hrs
  have ha := agree_layer_below ht' hrs (.refl q _) (open_layer ht hes ho hp) hr
  have he := (agree_layer hu' ht' hes'.1 ha).eq (hu'.layer hes'.1) (ht'.layer hes'.1) hes'.2.1
    List.prefix_rfl
  simp only [layer_append, layer_cons, he]

end Layer

section Cut

variable {t u : FCompoundWrite κ β} {es rs : List (List κ × FNode κ β)} {k : κ} {p q : List κ}
  {v w : FNode κ β}

def cut (F : FUtilities κ) (t : FCompoundWrite κ β) (p : List κ) : FCompoundWrite κ β :=
  t.setTree F.stringComparator (p.map .key) FImmutableTree.empty

theorem removeWriteAtPath_eq : t.removeWriteAtPath F (p.map .key) = cut F t p := by
  cases p with
  | nil => rfl
  | cons k p => rfl

def Vacant (F : FUtilities κ) : List κ → FCompoundWrite κ β → Prop
  | [], t => t = FImmutableTree.empty
  | k :: p, t => t.value = none ∧ Vacant F p (t.sub F.stringComparator (.key k))

/-- The second has one write more than the first, and that at the path. -/
def OneMore (F : FUtilities κ) (v : FNode κ β) :
    List κ → FCompoundWrite κ β → FCompoundWrite κ β → Prop
  | [], t, u => t = FImmutableTree.empty ∧ u = ⟨some v, []⟩
  | k :: p, t, u => t.value = none ∧ u.value = none ∧
      (∀ c ≠ .key k, u.sub F.stringComparator c = t.sub F.stringComparator c) ∧
      OneMore F v p (t.sub F.stringComparator (.key k)) (u.sub F.stringComparator (.key k))

variable [F.Lawful]

omit [F.Lawful] in
theorem vacant_empty : Vacant F p (FImmutableTree.empty : FCompoundWrite κ β) := by
  induction p with
  | nil => rfl
  | cons k p ih => exact ⟨rfl, ih⟩

theorem Vacant.add (ht : Plain F t) (h : Vacant F p t) (ha : Apart p q) :
    Vacant F p (add F w t q) := by
  induction p generalizing t q with
  | nil => exact absurd List.nil_prefix ha.1
  | cons k p ih =>
    obtain _ | ⟨k', q⟩ := q
    · exact absurd List.nil_prefix ha.2
    · refine ⟨value_add_of_none h.1, ?_⟩
      rcases apart_cons.mp ha with hk | ⟨rfl, hpq⟩
      · rw [sub_add_of_ne ht h.1 fun he => hk (Piece.key.inj he)]
        exact h.2
      · rw [sub_add_self ht h.1]
        exact ih (ht.sub _) h.2 hpq

theorem Vacant.oneMore (ht : Plain F t) (h : Vacant F p t) :
    OneMore F v p t (FCompoundWrite.add F v t p) := by
  induction p generalizing t with
  | nil => exact ⟨h, rfl⟩
  | cons k p ih =>
    refine ⟨h.1, value_add_of_none h.1, fun c hc => sub_add_of_ne ht h.1 hc, ?_⟩
    rw [sub_add_self ht h.1]
    exact ih (ht.sub _) h.2

theorem OneMore.add (ht : Plain F t) (hu : Plain F u) (h : OneMore F v p t u) (ha : Apart p q) :
    OneMore F v p (add F w t q) (add F w u q) := by
  induction p generalizing t u q with
  | nil => exact absurd List.nil_prefix ha.1
  | cons k p ih =>
    obtain ⟨htv, huv, hc, hk⟩ := h
    obtain _ | ⟨k', q⟩ := q
    · exact absurd List.nil_prefix ha.2
    · refine ⟨value_add_of_none htv, value_add_of_none huv, fun c hne => ?_, ?_⟩
      · by_cases hck : c = .key k'
        · subst hck
          rw [sub_add_self ht htv, sub_add_self hu huv, hc _ hne]
        · rw [sub_add_of_ne ht htv hck, sub_add_of_ne hu huv hck, hc _ hne]
      · rcases apart_cons.mp ha with hkk | ⟨rfl, hpq⟩
        · have hne : Piece.key k ≠ .key k' := fun he => hkk (Piece.key.inj he)
          rw [sub_add_of_ne ht htv hne, sub_add_of_ne hu huv hne]
          exact hk
        · rw [sub_add_self ht htv, sub_add_self hu huv]
          exact ih (ht.sub _) (hu.sub _) hk hpq

omit [F.Lawful] in
@[simp] theorem cut_empty : cut F (FImmutableTree.empty : FCompoundWrite κ β) p =
    FImmutableTree.empty := by
  induction p with
  | nil => rfl
  | cons k p ih =>
    change (⟨none, place _ _ _ (cut F FImmutableTree.empty p) []⟩ : FCompoundWrite κ β) = _
    rw [ih]
    rfl

theorem Plain.cut (h : Plain F t) : Plain F (cut F t p) := by
  induction p generalizing t with
  | nil => exact plain_empty
  | cons k p ih =>
    have hk := ih (h.sub (.key k))
    cases h with
    | @write value hv =>
      change Plain F ⟨some value, place _ _ _ (FCompoundWrite.cut F FImmutableTree.empty p) []⟩
      rw [cut_empty]
      exact .write hv
    | branch hpr hp hl =>
      refine .branch hpr.place (fun q hq => ?_) fun q hq => ?_
      · rcases mem_place hq with hq | ⟨hq, -, -⟩
        · exact hp q hq
        · rw [← Std.LawfulEqCmp.eq_of_compare hq]
          rfl
      · rcases mem_place hq with hq | ⟨-, hq, -⟩
        · exact hl q hq
        · rw [hq]
          exact hk

theorem OneMore.cut_eq (ht : Plain F t) (hu : Plain F u) (h : OneMore F v p t u) :
    FCompoundWrite.cut F u p = t := by
  induction p generalizing t u with
  | nil => exact h.1.symm
  | cons k p ih =>
    obtain ⟨htv, huv, hc, hk⟩ := h
    refine hu.cut.ext ht (huv.trans htv.symm) fun c => ?_
    by_cases hck : c = .key k
    · subst hck
      rw [← ih (ht.sub _) (hu.sub _) hk]
      exact child_place_self hu.pruned.ordered fun he => eq_empty he
    · rw [← hc c hck]
      exact child_place_of_ne hu.pruned.ordered
        fun he => hck (Std.LawfulEqCmp.eq_of_compare he)

theorem vacant_layer (ht : Plain F t) (hes : ∀ e ∈ es, e.2.Plain F.keyComparator)
    (h : Vacant F p t) (ha : ∀ e ∈ es, Apart p e.1) : Vacant F p (layer F es t) := by
  induction es generalizing t with
  | nil => exact h
  | cons e es ih =>
    rw [List.forall_mem_cons] at hes ha
    exact ih (ht.add hes.1) hes.2 (h.add ht ha.1) ha.2

theorem oneMore_layer (ht : Plain F t) (hu : Plain F u)
    (hes : ∀ e ∈ es, e.2.Plain F.keyComparator) (h : OneMore F v p t u)
    (ha : ∀ e ∈ es, Apart p e.1) : OneMore F v p (layer F es t) (layer F es u) := by
  induction es generalizing t u with
  | nil => exact h
  | cons e es ih =>
    rw [List.forall_mem_cons] at hes ha
    exact ih (ht.add hes.1) (hu.add hes.1) hes.2 (h.add ht hu ha.1) ha.2

/-- Writes that are apart from all others are cut off again, in their order. -/
theorem cut_layer {es' : List (List κ × FNode κ β)} (hes : ∀ e ∈ es, e.2.Plain F.keyComparator)
    (hrs : ∀ e ∈ rs, e.2.Plain F.keyComparator) (hes' : ∀ e ∈ es', e.2.Plain F.keyComparator)
    (hr : rs.Pairwise fun v w => Apart v.1 w.1)
    (ha : ∀ r ∈ rs, ∀ e ∈ es ++ es', Apart r.1 e.1) :
    rs.foldl (fun t r => FCompoundWrite.cut F t r.1)
        (layer F (es ++ rs ++ es') (FImmutableTree.empty : FCompoundWrite κ β)) =
      layer F (es ++ es') FImmutableTree.empty := by
  induction rs with
  | nil => simp
  | cons r rs ih =>
    rw [List.pairwise_cons] at hr
    rw [List.forall_mem_cons] at hrs ha
    have ht := (plain_empty (F := F)).layer hes
    have hv : Vacant F r.1 (layer F es FImmutableTree.empty) :=
      vacant_layer plain_empty hes vacant_empty fun e he => ha.1 e (List.mem_append_left _ he)
    have hrest : ∀ e ∈ rs ++ es', e.2.Plain F.keyComparator :=
      List.forall_mem_append.mpr ⟨hrs.2, hes'⟩
    have ho := oneMore_layer ht (ht.add hrs.1) hrest (hv.oneMore (v := r.2) ht) fun e he => ?_
    · have hcut := ho.cut_eq (ht.layer hrest) ((ht.add hrs.1).layer hrest)
      rw [← ih hrs.2 hr.2 ha.2, List.foldl_cons]
      congr 1
      simpa using hcut
    · rcases List.mem_append.mp he with he | he
      · exact hr.1 e he
      · exact ha.1 e (List.mem_append_right _ he)

end Cut

end Treena.Firebase.FCompoundWrite
