import Treena.Firebase.Answers
import Treena.Firebase.Below

/-! # Merges

A merge is a compound write, which is made of its writes. At a path below the root it is one
of the writes moved below the path, and its children can be laid in any order.
-/

namespace Treena.Firebase.FCompoundWrite

open Sorted FImmutableTree FNode

variable {κ β : Type} {F : FUtilities κ} [F.Lawful] {t c A : FCompoundWrite κ β}
  {l : List (Piece κ × FCompoundWrite κ β)} {es : List (List κ × FNode κ β)}
  {m m' n s : FNode κ β} {k : κ} {p : List κ} {ks ks' : List κ}

section Leaves

omit [F.Lawful] in
theorem ne_nil_of_mem_leavesOf {w : List κ × FNode κ β} (hw : w ∈ leaves.leavesOf l) :
    w.1 ≠ [] := by
  obtain ⟨k, c, w', -, -, rfl⟩ := mem_leavesOf hw
  exact List.cons_ne_nil k w'.1

omit [F.Lawful] in
theorem value_layer_of_none (ht : t.value = none) (hes : ∀ e ∈ es, e.1 ≠ []) :
    (layer F es t).value = none := by
  induction es generalizing t with
  | nil => exact ht
  | cons e es ih =>
    rw [List.forall_mem_cons] at hes
    obtain ⟨k, p, hp⟩ := List.exists_cons_of_ne_nil hes.1
    have hv : (add F e.2 t e.1).value = none := by
      rw [hp]
      exact value_add_of_none ht
    exact ih hv hes.2

theorem sub_priority_layer (ht : Plain F t) (hv : t.value = none)
    (hes : ∀ e ∈ es, e.2.Plain F.keyComparator) (hne : ∀ e ∈ es, e.1 ≠ []) :
    (layer F es t).sub F.stringComparator .priority = t.sub F.stringComparator .priority := by
  induction es generalizing t with
  | nil => rfl
  | cons e es ih =>
    rw [List.forall_mem_cons] at hes hne
    obtain ⟨k, p, hp⟩ := List.exists_cons_of_ne_nil hne.1
    have hs := sub_add_of_ne (v := e.2) (k := k) (p := p) ht hv (c := .priority) nofun
    rw [layer_cons, hp, ih (ht.add hes.1) (value_add_of_none hv) hes.2 hne.2, hs]

theorem sub_layer [DecidableEq κ] (ht : Plain F t) (hv : t.value = none)
    (hes : ∀ e ∈ es, e.2.Plain F.keyComparator) (hne : ∀ e ∈ es, e.1 ≠ []) :
    (layer F es t).sub F.stringComparator (.key k) =
      layer F (es.filterMap (forChild F k)) (t.sub F.stringComparator (.key k)) := by
  have hw := writesAt_layer (q := [k]) ht hes
  rw [writesAt_cons_of_none (value_layer_of_none hv hne), writesAt_cons_of_none hv] at hw
  refine hw.trans (congrArg (layer F · _) (List.filterMap_congr fun e _ => ?_))
  exact Option.bind_fun_some _

omit [F.Lawful] in
theorem filterMap_forChild_map [DecidableEq κ] :
    (es.map (under [k])).filterMap (forChild F k) = es := by
  rw [List.filterMap_map]
  refine (List.filterMap_congr fun e _ => ?_).trans List.filterMap_some
  exact if_pos rfl

omit [F.Lawful] in
theorem filterMap_forChild_of_ne [DecidableEq κ] {k' : κ} (hk : k' ≠ k) :
    (es.map (under [k'])).filterMap (forChild F k) = [] := by
  rw [List.filterMap_map, List.filterMap_eq_nil_iff]
  exact fun e _ => if_neg hk

theorem filterMap_leavesOf [DecidableEq κ] (ho : Ordered F.stringComparator l) :
    (leaves.leavesOf l).filterMap (forChild F k) =
      leaves (child F.stringComparator FImmutableTree.empty (.key k) l) := by
  induction l with
  | nil => rfl
  | cons q l ih =>
    obtain ⟨x, c⟩ := q
    rw [ordered_cons] at ho
    rw [child_cons]
    cases x with
    | priority =>
      rw [if_neg fun he => by cases Std.LawfulEqCmp.eq_of_compare he]
      exact ih ho.2
    | key k' =>
      change ((leaves c).map (under [k']) ++ leaves.leavesOf l).filterMap _ = _
      rw [List.filterMap_append, ih ho.2]
      by_cases hk : k' = k
      · subst hk
        rw [filterMap_forChild_map, if_pos Std.ReflCmp.compare_self,
          child_of_absent (absent_of_lt ho.1)]
        exact List.append_nil _
      · rw [filterMap_forChild_of_ne hk,
          if_neg fun he => hk (Piece.key.inj (Std.LawfulEqCmp.eq_of_compare he)).symm]
        rfl

/-- A compound write is made of its writes. -/
theorem layer_leaves [DecidableEq κ] (ht : Plain F t) :
    layer F (leaves t) FImmutableTree.empty = t := by
  induction ht with
  | write => rfl
  | @branch l hpr hp hl ih =>
    have hpl : Plain F ⟨none, l⟩ := .branch hpr hp hl
    have hes := hpl.leaves
    have hne : ∀ e ∈ leaves.leavesOf l, e.1 ≠ [] := fun e he => ne_nil_of_mem_leavesOf he
    refine (plain_empty.layer hes).ext hpl (value_layer_of_none rfl hne) fun x => ?_
    cases x with
    | priority =>
      refine (sub_priority_layer plain_empty rfl hes hne).trans ?_
      refine (child_of_absent fun q hq he => ?_).symm
      have hpq := hp q hq
      rw [← Std.LawfulEqCmp.eq_of_compare he] at hpq
      cases hpq
    | key k =>
      refine (sub_layer plain_empty rfl hes hne).trans ?_
      change layer F ((leaves.leavesOf l).filterMap _) FImmutableTree.empty = _
      rw [filterMap_leavesOf hpr.ordered]
      rcases child_eq_or_mem F.stringComparator FImmutableTree.empty (.key k) l with
        hc | ⟨q, hq, hc⟩
      · rw [FImmutableTree.sub, hc]
        rfl
      · rw [FImmutableTree.sub, hc]
        exact ih q hq

end Leaves

section Order

variable [DecidableEq κ] {v u : FNode κ β} {p q : List κ}

theorem add_comm (ht : Plain F t) (hv : v.Plain F.keyComparator) (hu : u.Plain F.keyComparator)
    (h : Apart p q) : add F u (add F v t p) q = add F v (add F u t q) p := by
  induction p generalizing q t with
  | nil => exact absurd List.nil_prefix h.1
  | cons k p ih =>
    obtain _ | ⟨k', q⟩ := q
    · exact absurd List.nil_prefix h.2
    cases hx : t.value with
    | some x =>
      rw [add_cons_of_value hx, add_cons_of_value hx, add_cons_of_value rfl,
        add_cons_of_value rfl, put_comm (ht.of_value hx) hv hu h]
    | none =>
      have hav : (add F v t (k :: p)).value = none := value_add_of_none hx
      have hau : (add F u t (k' :: q)).value = none := value_add_of_none hx
      refine ((ht.add hv).add hu).ext ((ht.add hu).add hv) ?_ fun c => ?_
      · rw [value_add_of_none hav, value_add_of_none hau]
      · by_cases hk : c = .key k
        · subst hk
          rw [sub_add_self (ht.add hu) hau]
          rcases apart_cons.mp h with hne | ⟨rfl, hpq⟩
          · have hc : Piece.key k ≠ .key k' := fun he => hne (Piece.key.inj he)
            rw [sub_add_of_ne (ht.add hv) hav hc, sub_add_self ht hx, sub_add_of_ne ht hx hc]
          · rw [sub_add_self (ht.add hv) hav, sub_add_self ht hx, sub_add_self ht hx]
            exact ih (ht.sub _) hpq
        · rw [sub_add_of_ne (ht.add hu) hau hk]
          by_cases hk' : c = .key k'
          · subst hk'
            rw [sub_add_self (ht.add hv) hav, sub_add_of_ne ht hx hk, sub_add_self ht hx]
          · rw [sub_add_of_ne (ht.add hv) hav hk', sub_add_of_ne ht hx hk,
              sub_add_of_ne ht hx hk']

theorem layer_add (ht : Plain F t) (hes : ∀ e ∈ es, e.2.Plain F.keyComparator)
    (hv : v.Plain F.keyComparator) (ha : ∀ e ∈ es, Apart p e.1) :
    layer F es (add F v t p) = add F v (layer F es t) p := by
  induction es generalizing t with
  | nil => rfl
  | cons e es ih =>
    rw [List.forall_mem_cons] at hes ha
    rw [layer_cons, layer_cons, add_comm ht hv hes.1 ha.1]
    exact ih (ht.add hes.1) hes.2 ha.2

/-- Writes apart from each other can be made in two rounds. -/
theorem layer_partition (ht : Plain F t) (hes : ∀ e ∈ es, e.2.Plain F.keyComparator)
    (ha : es.Pairwise fun d e => Apart d.1 e.1) (b : List κ × FNode κ β → Bool) :
    layer F (es.filter fun e => !b e) (layer F (es.filter b) t) = layer F es t := by
  induction es generalizing t with
  | nil => rfl
  | cons e es ih =>
    rw [List.forall_mem_cons] at hes
    rw [List.pairwise_cons] at ha
    cases hb : b e with
    | true =>
      rw [List.filter_cons_of_pos hb, List.filter_cons_of_neg (by simp [hb])]
      exact ih (ht.add hes.1) hes.2 ha.2
    | false =>
      have hfirst : (e :: es).filter b = es.filter b := List.filter_cons_of_neg (by simp [hb])
      rw [hfirst, List.filter_cons_of_pos (by simp [hb]), layer_cons, layer_cons,
        ← ih (ht.add hes.1) hes.2 ha.2,
        layer_add ht (fun d hd => hes.2 d (List.mem_filter.mp hd).1) hes.1
          fun d hd => ha.1 d (List.mem_filter.mp hd).1]

end Order

section Under

omit [F.Lawful] in
theorem plain_under (hes : ∀ e ∈ es, e.2.Plain F.keyComparator) :
    ∀ e ∈ es.map (under p), e.2.Plain F.keyComparator := by
  intro e he
  obtain ⟨e', he', rfl⟩ := List.mem_map.mp he
  exact hes e' he'

theorem value?_set_or (hn : n.Plain F.keyComparator) (hm : m.Plain F.keyComparator) :
    (n.set F.keyComparator k m).value? = n.value? ∨
      ∃ i, (n.set F.keyComparator k m).get F.keyComparator i ≠ .empty := by
  by_cases he : m.isEmpty
  · left
    rw [value?_set hm hn, if_pos he]
  · refine .inr ⟨k, fun hk => he ?_⟩
    rw [get_set_self hn hm] at hk
    rw [hk]
    rfl

theorem lay_under [DecidableEq κ] (hes : ∀ e ∈ es, e.2.Plain F.keyComparator)
    (hn : n.Plain F.keyComparator) : lay F (layer F (es.map (under p)) FImmutableTree.empty) n =
      n.put F.keyComparator p (lay F (layer F es FImmutableTree.empty)
        (n.find F.keyComparator p)) := by
  induction p generalizing n with
  | nil =>
    rw [show es.map (under []) = es from List.map_id es]
    rfl
  | cons k p ih =>
    have hmap : es.map (under (k :: p)) = (es.map (under p)).map (under [k]) := by
      rw [List.map_map]
      rfl
    have hus := plain_under (p := p) hes
    have huus := plain_under (p := [k]) hus
    have hne : ∀ e ∈ (es.map (under p)).map (under [k]), e.1 ≠ [] := by
      intro e he
      obtain ⟨e', -, rfl⟩ := List.mem_map.mp he
      exact List.cons_ne_nil k e'.1
    have hT := plain_empty.layer huus
    have hTv := value_layer_of_none (F := F) (t := FImmutableTree.empty) rfl hne
    have hz := (plain_empty.layer hes).lay (hn.find (p := k :: p))
    have hx := (hn.get k).put (p := p) hz
    rw [hmap, put_cons hz]
    refine ext_over (hT.lay hn) (hn.set hx) (value?_lay hT hTv hn) (value?_set_or hn hx) fun i => ?_
    rw [get_lay hT hTv hn, sub_layer plain_empty rfl huus hne]
    by_cases hi : i = k
    · subst hi
      rw [filterMap_forChild_map, get_set_self hn hx, find_cons]
      exact ih (hn.get i)
    · rw [filterMap_forChild_of_ne fun he => hi he.symm,
        get_set_of_ne hn hx fun he => hi (Std.LawfulEqCmp.eq_of_compare he)]
      rfl

end Under

section Patched

structure Patched (F : FUtilities κ) (A : FCompoundWrite κ β) (n : FNode κ β) (ks : List κ)
    (m : FNode κ β) : Prop where
  plain : m.Plain F.keyComparator
  get : ∀ i, i ∈ ks ∧ m.get F.keyComparator i =
      lay F (A.sub F.stringComparator (.key i)) (n.get F.keyComparator i) ∨
    i ∉ ks ∧ m.get F.keyComparator i = n.get F.keyComparator i
  value : m.value? = n.value? ∨ ∃ i, m.get F.keyComparator i ≠ .empty

omit [F.Lawful] in
theorem patched_nil (hn : n.Plain F.keyComparator) : Patched F A n [] n :=
  ⟨hn, fun _ => .inr ⟨List.not_mem_nil, rfl⟩, .inl rfl⟩

theorem Patched.cons (hA : Plain F A) (hn : n.Plain F.keyComparator) (h : Patched F A n ks m)
    (hk : k ∉ ks) : Patched F A n (k :: ks) (m.set F.keyComparator k
      (lay F (A.sub F.stringComparator (.key k)) (n.get F.keyComparator k))) := by
  have hz := (hA.sub (.key k)).lay (hn.get k)
  refine ⟨h.plain.set hz, fun i => ?_, ?_⟩
  · by_cases hi : i = k
    · subst hi
      exact .inl ⟨List.mem_cons_self, get_set_self h.plain hz⟩
    · rw [get_set_of_ne h.plain hz fun he => hi (Std.LawfulEqCmp.eq_of_compare he)]
      exact (h.get i).imp (And.imp_left (List.mem_cons_of_mem k))
        (And.imp_left fun hn hm => (List.mem_cons.mp hm).elim hi hn)
  · rcases value?_set_or (k := k) h.plain hz with hv | hv
    · rcases h.value with hm | ⟨i, hi⟩
      · exact .inl (hv.trans hm)
      · by_cases hik : i = k
        · -- the only child was there before
          subst hik
          have hni : n.get F.keyComparator i ≠ .empty := by
            rcases h.get i with ⟨hm, -⟩ | ⟨-, he⟩
            · exact absurd hm hk
            · exact he ▸ hi
          left
          rw [hv]
          by_contra hne
          rcases h.get i with ⟨hm, -⟩ | ⟨-, he⟩
          · exact absurd hm hk
          · by_cases hnv : n.value? = none
            · rw [hnv] at hne
              exact hi (get_of_value?_ne h.plain hne)
            · exact hni (get_of_value?_ne hn hnv)
        · refine .inr ⟨i, ?_⟩
          rwa [get_set_of_ne h.plain hz fun he => hik (Std.LawfulEqCmp.eq_of_compare he)]
    · exact .inr hv

theorem Patched.eq (hA : Plain F A) (hv : A.value = none) (hn : n.Plain F.keyComparator)
    (h : Patched F A n ks m)
    (hks : ∀ i, A.sub F.stringComparator (.key i) ≠ FImmutableTree.empty → i ∈ ks) :
    m = lay F A n := by
  refine ext_over h.plain (hA.lay hn) h.value (value?_lay hA hv hn) fun i => ?_
  rw [get_lay hA hv hn]
  rcases h.get i with ⟨-, he⟩ | ⟨hm, he⟩
  · exact he
  · rw [he]
    by_cases hs : A.sub F.stringComparator (.key i) = FImmutableTree.empty
    · rw [hs, lay_empty]
    · exact absurd (hks i hs) hm

theorem Patched.free (hA : Plain F A) (hv : A.value = none) (hn : n.Plain F.keyComparator)
    (h : Patched F A n ks m) (hf : Free F.keyComparator n p)
    (hf' : Free F.keyComparator (lay F A n) p) : Free F.keyComparator m p := by
  cases p with
  | nil => trivial
  | cons k p =>
    refine ⟨?_, ?_⟩
    · rcases h.value with hm | ⟨i, hi⟩
      · exact hm.trans hf.1
      · by_contra hne
        exact hi (get_of_value?_ne h.plain hne)
    · rcases h.get k with ⟨-, he⟩ | ⟨-, he⟩
      · have hf' := hf'.2
        rw [get_lay hA hv hn, ← he] at hf'
        exact hf'
      · rw [he]
        exact hf.2

end Patched

end Treena.Firebase.FCompoundWrite
