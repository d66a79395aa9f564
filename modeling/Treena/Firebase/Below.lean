import Treena.Firebase.Pending

/-! # Writes below a path

What a compound write does below a path is one with the writes that are seen from there. An
update below what is laid is laid, as long as no leaf that stands in its way is brought back.
-/

namespace Treena.Firebase.FCompoundWrite

open Sorted FImmutableTree FNode

variable {κ β : Type*} {F : FUtilities κ}

section Seen

variable [DecidableEq κ]

/-- A write as the child of a key sees it. -/
def forChild (F : FUtilities κ) (k : κ) : List κ × FNode κ β → Option (List κ × FNode κ β)
  | ([], v) => some ([], v.get F.keyComparator k)
  | (k' :: p, v) => if k' = k then some (p, v) else none

def forPath (F : FUtilities κ) : List κ → List κ × FNode κ β → Option (List κ × FNode κ β)
  | [], e => some e
  | k :: q, e => (forChild F k e).bind (forPath F q)

variable {t : FCompoundWrite κ β} {es : List (List κ × FNode κ β)} {e e' : List κ × FNode κ β}
  {n v : FNode κ β} {k : κ} {p q s : List κ}

theorem forPath_append : forPath F (p ++ q) e = (forPath F p e).bind (forPath F q) := by
  induction p generalizing e with
  | nil => rfl
  | cons k p ih =>
    change (forChild F k e).bind (forPath F (p ++ q)) = ((forChild F k e).bind _).bind _
    rw [Option.bind_assoc]
    exact congrArg _ (funext fun _ => ih)

theorem forPath_self : forPath F p (p ++ s, v) = some (s, v) := by
  induction p with
  | nil => rfl
  | cons k p ih =>
    rw [List.cons_append, forPath, forChild, if_pos rfl]
    exact ih

theorem forPath_above : forPath F (p ++ s) (p, v) = some ([], v.find F.keyComparator s) := by
  rw [forPath_append, show forPath F p (p, v) = some ([], v) by simpa using forPath_self (s := [])]
  change forPath F s ([], v) = _
  induction s generalizing v with
  | nil => rfl
  | cons k s ih =>
    rw [find_cons]
    exact ih

theorem forPath_apart (h : Apart p q) : forPath F q (p, v) = none := by
  induction p generalizing q with
  | nil => exact absurd List.nil_prefix h.1
  | cons k p ih =>
    obtain _ | ⟨k', q⟩ := q
    · exact absurd List.nil_prefix h.2
    · rw [forPath, forChild]
      rcases apart_cons.mp h with hk | ⟨rfl, hpq⟩
      · rw [if_neg hk]
        rfl
      · rw [if_pos rfl]
        exact ih hpq

theorem forPath_cases (F : FUtilities κ) (p q : List κ) (v : FNode κ β) :
    (∃ s, p = q ++ s ∧ forPath F q (p, v) = some (s, v)) ∨
      (∃ s, q = p ++ s ∧ forPath F q (p, v) = some ([], v.find F.keyComparator s)) ∨
      Apart p q ∧ forPath F q (p, v) = none := by
  by_cases hqp : q <+: p
  · obtain ⟨s, rfl⟩ := hqp
    exact .inl ⟨s, rfl, forPath_self⟩
  · by_cases hpq : p <+: q
    · obtain ⟨s, rfl⟩ := hpq
      exact .inr (.inl ⟨s, rfl, forPath_above⟩)
    · exact .inr (.inr ⟨⟨hpq, hqp⟩, forPath_apart ⟨hpq, hqp⟩⟩)

variable [F.Lawful]

theorem find_put (hn : n.Plain F.keyComparator) (hv : v.Plain F.keyComparator) :
    (n.put F.keyComparator p v).find F.keyComparator q =
      match forPath F q (p, v) with
      | some e => (n.find F.keyComparator q).put F.keyComparator e.1 e.2
      | none => n.find F.keyComparator q := by
  rcases forPath_cases F p q v with ⟨s, rfl, hs⟩ | ⟨s, rfl, hs⟩ | ⟨ha, hs⟩
  · rw [hs, find_put_above hn hv]
  · rw [hs, find_put_append hn hv]
    rfl
  · rw [hs, find_put_of_apart hn hv ha]

omit [DecidableEq κ] [F.Lawful] in
theorem writesAt_append (ht : Plain F t) :
    writesAt F t (p ++ q) = writesAt F (writesAt F t p) q := by
  induction p generalizing t with
  | nil => rfl
  | cons k p ih =>
    rw [List.cons_append]
    cases hv : t.value with
    | some x =>
      rw [writesAt_of_value ht hv, writesAt_of_value ht hv,
        writesAt_of_value (.write (ht.of_value hv).find) rfl, ← List.cons_append, find_append]
    | none => rw [writesAt_cons_of_none hv, writesAt_cons_of_none hv, ih (ht.sub _)]

theorem writesAt_add (ht : Plain F t) (hv : v.Plain F.keyComparator) :
    writesAt F (add F v t p) q =
      match forPath F q (p, v) with
      | some e => add F e.2 (writesAt F t q) e.1
      | none => writesAt F t q := by
  induction q generalizing t p v with
  | nil => rfl
  | cons k q ih =>
    obtain _ | ⟨k', p⟩ := p
    · have hw : writesAt F (add F v t []) (k :: q) = _ := writesAt_of_value (.write hv) rfl
      rw [hw, show forPath F (k :: q) ([], v) = some ([], v.find F.keyComparator (k :: q)) from
          forPath_above (p := [])]
      rfl
    · cases hx : t.value with
      | some x =>
        have hp : Plain F (add F v t (k' :: p)) := ht.add hv
        rw [writesAt_of_value hp (by rw [add_cons_of_value hx]), find_put (ht.of_value hx) hv,
          writesAt_of_value ht hx]
        cases forPath F (k :: q) (k' :: p, v) with
        | none => rfl
        | some e =>
          obtain ⟨s, w⟩ := e
          cases s with
          | nil => rfl
          | cons i s => exact (add_cons_of_value rfl).symm
      | none =>
        rw [writesAt_cons_of_none (value_add_of_none hx), writesAt_cons_of_none hx]
        by_cases hk : k' = k
        · subst hk
          rw [sub_add_self ht hx, ih (ht.sub _) hv, forPath, forChild, if_pos rfl]
          rfl
        · rw [sub_add_of_ne ht hx fun he => hk (Piece.key.inj he).symm, forPath, forChild,
            if_neg hk]
          rfl

theorem writesAt_layer (ht : Plain F t) (hes : ∀ e ∈ es, e.2.Plain F.keyComparator) :
    writesAt F (layer F es t) q = layer F (es.filterMap (forPath F q)) (writesAt F t q) := by
  induction es generalizing t with
  | nil => rfl
  | cons e es ih =>
    rw [List.forall_mem_cons] at hes
    rw [layer_cons, ih (ht.add hes.1) hes.2, writesAt_add ht hes.1]
    cases he : forPath F q e with
    | none => rw [List.filterMap_cons_none he]
    | some e' => rw [List.filterMap_cons_some he, layer_cons]

omit [DecidableEq κ] [F.Lawful] in
@[simp] theorem writesAt_empty : writesAt F (FImmutableTree.empty : FCompoundWrite κ β) q =
    FImmutableTree.empty := by
  induction q with
  | nil => rfl
  | cons k q ih => exact ih

omit [DecidableEq κ] [F.Lawful] in
theorem isSome_value_layer :
    (layer F es t).value.isSome ↔ t.value.isSome ∨ ∃ e ∈ es, e.1 = [] := by
  induction es generalizing t with
  | nil => simp
  | cons e es ih =>
    rw [layer_cons, ih]
    simp only [List.mem_cons, exists_eq_or_imp, ← or_assoc]
    refine or_congr_left ?_
    obtain ⟨p, v⟩ := e
    cases p with
    | nil => exact ⟨fun _ => .inr rfl, fun _ => rfl⟩
    | cons k p =>
      cases hx : t.value with
      | some x => rw [add_cons_of_value hx]; simp
      | none => rw [value_add_of_none hx]; simp

theorem isSome_writesAt_layer (hes : ∀ e ∈ es, e.2.Plain F.keyComparator) :
    (writesAt F (layer F es (FImmutableTree.empty : FCompoundWrite κ β)) q).value.isSome ↔
      ∃ e ∈ es, e.1 <+: q := by
  rw [writesAt_layer plain_empty hes, isSome_value_layer, writesAt_empty]
  constructor
  · rintro (h | ⟨e', he', hnil⟩)
    · cases h
    · obtain ⟨⟨p, v⟩, he, hp⟩ := List.mem_filterMap.mp he'
      refine ⟨(p, v), he, ?_⟩
      rcases forPath_cases F p q v with ⟨s, rfl, hs⟩ | ⟨s, rfl, -⟩ | ⟨-, hs⟩
      · obtain rfl := Option.some.inj (hs.symm.trans hp)
        obtain rfl : s = [] := hnil
        simp
      · exact List.prefix_append ..
      · cases hs.symm.trans hp
  · rintro ⟨⟨p, v⟩, he, s, rfl⟩
    exact .inr ⟨_, List.mem_filterMap.mpr ⟨(p, v), he, forPath_above⟩, rfl⟩

end Seen

section Laid

variable {t t' u : FCompoundWrite κ β} {l : List (Piece κ × FCompoundWrite κ β)}
  {es : List (List κ × FNode κ β)} {e : List κ × FNode κ β} {n s v x : FNode κ β} {k : κ}
  {p q : List κ} [F.Lawful]

theorem value?_layChildren (ho : Ordered F.stringComparator l) (hl : ∀ p ∈ l, Plain F p.2)
    (hn : n.Plain F.keyComparator) : (lay.layChildren F l n).value? = n.value? ∨
      ∃ k, (lay.layChildren F l n).get F.keyComparator k ≠ .empty := by
  induction l generalizing n with
  | nil => exact .inl rfl
  | cons q l ih =>
    obtain ⟨c, t⟩ := q
    rw [ordered_cons] at ho
    rw [List.forall_mem_cons] at hl
    cases c with
    | priority => exact ih ho.2 hl.2 hn
    | key k =>
      have hz := hl.1.lay (hn.get k)
      have hm := hn.set (k := k) hz
      by_cases he : (lay F t (n.get F.keyComparator k)).isEmpty
      · rw [show (lay.layChildren F ((.key k, t) :: l) n) = lay.layChildren F l _ from rfl]
        refine (ih ho.2 hl.2 hm).imp_left fun h => h.trans ?_
        rw [value?_set hz hn, if_pos he]
      · refine .inr ⟨k, fun hk => he ?_⟩
        have hg := get_layChildren (k := k) ho.2 hl.2 hm
        rw [child_of_absent (absent_of_lt ho.1), lay_empty, get_set_self hn hz] at hg
        rw [← hg]
        exact hk ▸ FNode.isEmpty_empty

theorem value?_lay (ht : Plain F t) (hv : t.value = none) (hn : n.Plain F.keyComparator) :
    (lay F t n).value? = n.value? ∨ ∃ k, (lay F t n).get F.keyComparator k ≠ .empty := by
  rw [lay_of_none hv]
  exact value?_layChildren ht.pruned.ordered ht.of_mem hn

theorem ext_over {m m' : FNode κ β} (hm : m.Plain F.keyComparator) (hm' : m'.Plain F.keyComparator)
    (hv : m.value? = n.value? ∨ ∃ k, m.get F.keyComparator k ≠ .empty)
    (hv' : m'.value? = n.value? ∨ ∃ k, m'.get F.keyComparator k ≠ .empty)
    (h : ∀ k, m.get F.keyComparator k = m'.get F.keyComparator k) : m = m' := by
  refine hm.ext hm' ?_ h
  by_cases hk : ∃ k, m.get F.keyComparator k ≠ .empty
  · obtain ⟨k, hk⟩ := hk
    have h₁ : m.value? = none := by
      by_contra hne
      exact hk (get_of_value?_ne hm hne)
    have h₂ : m'.value? = none := by
      by_contra hne
      exact hk ((h k).trans (get_of_value?_ne hm' hne))
    rw [h₁, h₂]
  · rw [hv.resolve_right hk, hv'.resolve_right fun ⟨k, hk'⟩ => hk ⟨k, h k ▸ hk'⟩]

/-- What is laid over a node without a write at its root is what its children are. -/
theorem lay_ext (ht : Plain F t) (ht' : Plain F t') (hv : t.value = none) (hv' : t'.value = none)
    (hn : n.Plain F.keyComparator)
    (h : ∀ k, (lay F t n).get F.keyComparator k = (lay F t' n).get F.keyComparator k) :
    lay F t n = lay F t' n :=
  ext_over (ht.lay hn) (ht'.lay hn) (value?_lay ht hv hn) (value?_lay ht' hv' hn) h

/-- No leaf is left above a write. -/
def Clear (F : FUtilities κ) (t : FCompoundWrite κ β) (n : FNode κ β) : Prop :=
  ∀ q, (writesAt F t q).value = none → (writesAt F t q).isEmpty = false →
    ((lay F t n).find F.keyComparator q).value? = none

theorem Clear.sub (h : Clear F t n) (ht : Plain F t) (hv : t.value = none)
    (hn : n.Plain F.keyComparator) :
    Clear F (t.sub F.stringComparator (.key k)) (n.get F.keyComparator k) := by
  intro q hq hq'
  have hk := h (k :: q)
  rw [writesAt_cons_of_none hv, find_cons, get_lay ht hv hn] at hk
  exact hk hq hq'

omit [F.Lawful] in
theorem value?_find_of_free (h : Free F.keyComparator n (q ++ k :: p)) :
    (n.find F.keyComparator q).value? = none := by
  induction q generalizing n with
  | nil => exact h.1
  | cons i q ih =>
    rw [find_cons]
    exact ih h.2

theorem Clear.add [DecidableEq κ] (hc : Clear F t n) (ht : Plain F t)
    (hn : n.Plain F.keyComparator) (hv : v.Plain F.keyComparator)
    (h : v.isEmpty → Free F.keyComparator n p) : Clear F (FCompoundWrite.add F v t p) n := by
  intro q hq hq'
  have hlay := ht.lay hn
  rw [lay_add ht hn hv h]
  rw [writesAt_add ht hv] at hq hq'
  rw [find_put hlay hv]
  rcases forPath_cases F p q v with ⟨s, rfl, hs⟩ | ⟨s, rfl, hs⟩ | ⟨ha, hs⟩
  · rw [hs] at hq ⊢
    cases s with
    | nil => cases hq
    | cons k s =>
      have hw : (writesAt F t q).value = none := by
        by_contra hne
        obtain ⟨y, hy⟩ := Option.ne_none_iff_exists'.mp hne
        dsimp only at hq
        rw [add_cons_of_value hy] at hq
        cases hq
      dsimp only
      rw [put_cons hv, value?_set ((hlay.find.get k).put hv) hlay.find]
      split
      next he =>
        by_cases hwe : (writesAt F t q).isEmpty
        · rw [find_lay ht hn, eq_empty hwe, lay_empty]
          exact value?_find_of_free (h (by rw [eq_empty_of_put (hlay.find.get k) hv he]; rfl))
        · exact hc q hw (by simpa using hwe)
      next => rfl
  · rw [hs] at hq
    cases hq
  · rw [hs] at hq hq' ⊢
    exact hc q hq hq'

/-- Writes of nothing are not under leaves of the node. -/
theorem clear_layer [DecidableEq κ] (hes : ∀ e ∈ es, e.2.Plain F.keyComparator)
    (hn : n.Plain F.keyComparator) (h : ∀ e ∈ es, e.2.isEmpty → Free F.keyComparator n e.1) :
    Clear F (layer F es FImmutableTree.empty) n := by
  have haux : ∀ t : FCompoundWrite κ β, Plain F t → Clear F t n → Clear F (layer F es t) n := by
    induction es with
    | nil => exact fun t _ hc => hc
    | cons e es ih =>
      rw [List.forall_mem_cons] at hes h
      exact fun t ht hc => ih hes.2 h.2 _ (ht.add hes.1) (hc.add ht hn hes.1 h.1)
  refine haux _ plain_empty fun q _ hq => ?_
  rw [writesAt_empty] at hq
  cases hq

theorem lay_put_of_value (ht : Plain F t) (hn : n.Plain F.keyComparator)
    (hs : s.Plain F.keyComparator) (hc : Clear F t n) (hc' : Clear F t (n.put F.keyComparator p s))
    (h : (writesAt F t p).value = some x) :
    lay F t (n.put F.keyComparator p s) = lay F t n := by
  induction p generalizing t n with
  | nil => exact (lay_of_value h).trans (lay_of_value h).symm
  | cons k p ih =>
    cases hv : t.value with
    | some y => rw [lay_of_value hv, lay_of_value hv]
    | none =>
      have hm := hn.put (p := k :: p) hs
      have he : t.isEmpty = false := by
        by_contra hne
        have he : t.isEmpty := by simpa using hne
        rw [eq_empty he, writesAt_empty] at h
        cases h
      rw [writesAt_cons_of_none hv] at h
      refine (ht.lay hm).ext (ht.lay hn) ?_ fun i => ?_
      · exact (hc' [] hv he).trans (hc [] hv he).symm
      · rw [get_lay ht hv hm, get_lay ht hv hn]
        have hck := hc'.sub (k := k) ht hv hm
        rw [put_cons hs] at hck ⊢
        by_cases hi : i = k
        · subst hi
          rw [get_set_self hn ((hn.get i).put hs)] at hck ⊢
          exact ih (ht.sub _) (hn.get i) (hc.sub ht hv hn) hck h
        · rw [get_set_of_ne hn ((hn.get k).put hs) fun he => hi (Std.LawfulEqCmp.eq_of_compare he)]

theorem lay_put (ht : Plain F t) (hn : n.Plain F.keyComparator) (hs : s.Plain F.keyComparator)
    (hc : Clear F t n) (hc' : Clear F t (n.put F.keyComparator p s))
    (h : (writesAt F t p).value = none) : lay F t (n.put F.keyComparator p s) =
      (lay F t n).put F.keyComparator p (lay F (writesAt F t p) s) := by
  induction p generalizing t n with
  | nil => rfl
  | cons k p ih =>
    have hv : t.value = none := by
      by_contra hne
      obtain ⟨y, hy⟩ := Option.ne_none_iff_exists'.mp hne
      rw [writesAt_of_value ht hy] at h
      cases h
    by_cases he : t.isEmpty
    · rw [eq_empty he, writesAt_empty]
      rfl
    have he : t.isEmpty = false := by simpa using he
    have hm := hn.put (p := k :: p) hs
    have hlay := ht.lay hn
    have hz := ht.writesAt (p := k :: p) |>.lay hs
    have hck := hc'.sub (k := k) ht hv hm
    rw [put_cons hs, get_set_self hn ((hn.get k).put hs)] at hck
    have hk := ih (ht.sub (.key k)) (hn.get k) (hc.sub ht hv hn) hck
      (by rwa [writesAt_cons_of_none hv] at h)
    rw [← writesAt_cons_of_none hv, ← get_lay ht hv hn] at hk
    refine (ht.lay hm).ext (hlay.put hz) ?_ fun i => ?_
    · rw [put_cons hz, value?_set ((hlay.get k).put hz) hlay, show (lay F t n).value? = none from
        hc [] hv he, ite_self]
      exact hc' [] hv he
    · rw [get_lay ht hv hm, put_cons hs, put_cons hz]
      by_cases hi : i = k
      · subst hi
        rw [get_set_self hn ((hn.get i).put hs), get_set_self hlay ((hlay.get i).put hz), hk]
      · rw [get_set_of_ne hn ((hn.get k).put hs) fun he => hi (Std.LawfulEqCmp.eq_of_compare he),
          get_set_of_ne hlay ((hlay.get k).put hz) fun he => hi (Std.LawfulEqCmp.eq_of_compare he),
          get_lay ht hv hn]

end Laid

section Removed

variable {t u : FCompoundWrite κ β} {es : List (List κ × FNode κ β)} {n v : FNode κ β} {k : κ}
  {p q : List κ} [F.Lawful]

/-- What is laid at the path again makes up for what is different, if no leaf is above. -/
theorem lay_of_agree (ht : Plain F t) (hu : Plain F u) (hn : n.Plain F.keyComparator)
    (h : Agree F p t u) (hf : Free F.keyComparator n p) : lay F u n =
      (lay F t n).put F.keyComparator p (lay F (writesAt F u p) (n.find F.keyComparator p)) := by
  induction p generalizing t u n with
  | nil => rfl
  | cons k p ih =>
    have hlay := ht.lay hn
    rw [← find_lay hu hn]
    rcases h with rfl | ⟨htv, huv, hc, hk⟩
    · rw [put_find hlay]
    · have hz := (hu.lay hn).find (p := k :: p)
      have hk' := ih (ht.sub (.key k)) (hu.sub (.key k)) (hn.get k) hk hf.2
      rw [← find_lay (hu.sub _) (hn.get k), ← get_lay hu huv hn, ← get_lay ht htv hn,
        ← find_cons] at hk'
      refine (hu.lay hn).ext (hlay.put hz) ?_ fun i => ?_
      · rw [put_cons hz, value?_set ((hlay.get k).put hz) hlay, lay_of_none htv, lay_of_none huv,
          value?_layChildren_of_none ht.of_mem hn hf.1,
          value?_layChildren_of_none hu.of_mem hn hf.1, ite_self]
      · rw [put_cons hz]
        by_cases hi : i = k
        · subst hi
          rw [get_set_self hlay ((hlay.get i).put hz), ← hk']
        · rw [get_set_of_ne hlay ((hlay.get k).put hz)
            fun he => hi (Std.LawfulEqCmp.eq_of_compare he), get_lay hu huv hn, get_lay ht htv hn,
            hc _ fun he => hi (Piece.key.inj he)]

/-- What is laid is the same if it is the same at the path. -/
theorem eq_of_agree (ht : Plain F t) (hu : Plain F u) (hn : n.Plain F.keyComparator)
    (h : Agree F p t u) (he : (lay F t n).find F.keyComparator p =
      (lay F u n).find F.keyComparator p) : lay F t n = lay F u n := by
  induction p generalizing t u n with
  | nil => exact he
  | cons k p ih =>
    rcases h with rfl | ⟨htv, huv, hc, hk⟩
    · rfl
    · refine lay_ext ht hu htv huv hn fun i => ?_
      rw [get_lay ht htv hn, get_lay hu huv hn]
      by_cases hi : i = k
      · subst hi
        rw [find_cons, find_cons, get_lay ht htv hn, get_lay hu huv hn] at he
        exact ih (ht.sub _) (hu.sub _) (hn.get i) hk he
      · rw [hc _ fun he => hi (Piece.key.inj he)]

theorem lay_of_agree_cons (ht : Plain F t) (hu : Plain F u) (hn : n.Plain F.keyComparator)
    (h : Agree F (k :: p) t u) {x : FNode κ β}
    (hx : x = (lay F t n).set F.keyComparator k ((lay F u n).get F.keyComparator k)) :
    (if x.isEmpty && (lay F u n).isLeafNode then lay F u n else x) = lay F u n := by
  have hlt := ht.lay hn
  have hlu := hu.lay hn
  rcases h with rfl | ⟨htv, huv, hc, -⟩
  · rw [set_get hlt] at hx
    rw [hx, ite_self]
  have hpx : x.Plain F.keyComparator := hx ▸ hlt.set (hlu.get k)
  have hg : ∀ i, x.get F.keyComparator i = (lay F u n).get F.keyComparator i := by
    intro i
    rw [hx]
    by_cases hi : i = k
    · rw [hi, get_set_self hlt (hlu.get k)]
    · rw [get_set_of_ne hlt (hlu.get k) fun he => hi (Std.LawfulEqCmp.eq_of_compare he),
        get_lay ht htv hn, get_lay hu huv hn, hc _ fun he => hi (Piece.key.inj he)]
  split
  next => rfl
  next hne =>
    refine hpx.ext hlu ?_ hg
    by_cases hk : ∃ i, (lay F u n).get F.keyComparator i ≠ .empty
    · obtain ⟨i, hi⟩ := hk
      have h₁ : x.value? = none := by
        by_contra hv
        exact hi ((hg i).symm.trans (get_of_value?_ne hpx hv))
      have h₂ : (lay F u n).value? = none := by
        by_contra hv
        exact hi (get_of_value?_ne hlu hv)
      rw [h₁, h₂]
    · have hnk : ∀ i, (lay F u n).get F.keyComparator i = .empty := by
        intro i
        by_contra hi
        exact hk ⟨i, hi⟩
      have hvx : x.value? = (lay F t n).value? := by
        rw [hx, value?_set (hlu.get k) hlt, hnk k, if_pos FNode.isEmpty_empty]
      rcases value?_lay ht htv hn with hv | ⟨i, hi⟩
      · rw [hvx, hv, (value?_lay hu huv hn).resolve_right hk]
      · -- all that was laid is gone, and so is the leaf
        have h₁ : x.value? = none := by
          rw [hvx]
          by_contra hv
          exact hi (get_of_value?_ne hlt hv)
        obtain rfl : x = .empty := hpx.ext .empty h₁ fun i => (hg i).trans (hnk i)
        cases hl : lay F u n with
        | empty => rfl
        | leaf value priorityNode => exact absurd (by rw [hl]; rfl) hne
        | children priorityNode l => rfl

/-- The second tree is the first without a write at the path, and the first may have more
there if the second shows nothing at the path. -/
def Unshadowed (F : FUtilities κ) (q : List κ) (t u : FCompoundWrite κ β) : Prop :=
  t = u ∨ Agree F q t u ∧ (writesAt F u q).value = none

omit [F.Lawful] in
theorem Unshadowed.agree (h : Unshadowed F q t u) : Agree F q t u := by
  rcases h with rfl | h
  · exact .refl q t
  · exact h.1

theorem Unshadowed.add [DecidableEq κ] (ht : Plain F t) (hu : Plain F u)
    (hv : v.Plain F.keyComparator) (h : Unshadowed F q t u) :
    Unshadowed F q (FCompoundWrite.add F v t p) (FCompoundWrite.add F v u p) := by
  rcases h with rfl | ⟨h, hn⟩
  · exact .inl rfl
  by_cases hp : p <+: q
  · exact .inl (h.eq ht hu hv hp)
  refine .inr ⟨h.add ht hu, ?_⟩
  rw [writesAt_add hu hv]
  rcases forPath_cases F p q v with ⟨s, rfl, hs⟩ | ⟨s, rfl, hs⟩ | ⟨-, hs⟩
  · rw [hs]
    cases s with
    | nil => exact absurd (by simp) hp
    | cons k s => exact value_add_of_none hn
  · exact absurd (List.prefix_append ..) hp
  · rw [hs]
    exact hn

/-- A write that is apart from those made before is taken away. -/
theorem unshadowed_layer [DecidableEq κ] {e : List κ × FNode κ β}
    {as bs : List (List κ × FNode κ β)} (has : ∀ a ∈ as, a.2.Plain F.keyComparator)
    (he : e.2.Plain F.keyComparator) (hbs : ∀ b ∈ bs, b.2.Plain F.keyComparator)
    (hap : ∀ a ∈ as, Apart a.1 e.1) :
    Unshadowed F e.1 (layer F (as ++ e :: bs) FImmutableTree.empty)
      (layer F (as ++ bs) (FImmutableTree.empty : FCompoundWrite κ β)) := by
  have haux : ∀ t u : FCompoundWrite κ β, Plain F t → Plain F u → Unshadowed F e.1 t u →
      Unshadowed F e.1 (layer F bs t) (layer F bs u) := by
    induction bs with
    | nil => exact fun _ _ _ _ h => h
    | cons b bs ih =>
      rw [List.forall_mem_cons] at hbs
      exact fun t u ht hu h => ih hbs.2 _ _ (ht.add hbs.1) (hu.add hbs.1) (h.add ht hu hbs.1)
  have hT := plain_empty.layer has
  have hopen : Open F e.1 (layer F as FImmutableTree.empty) :=
    open_layer plain_empty has open_empty fun a ha hp => absurd hp (hap a ha).1
  have hseen : as.filterMap (forPath F e.1) = [] :=
    List.filterMap_eq_nil_iff.mpr fun a ha => forPath_apart (hap a ha)
  rw [layer_append, layer_append]
  refine haux _ _ (hT.add he) hT (.inr ⟨?_, ?_⟩)
  · exact (Agree.refl ..).write hT hopen List.prefix_rfl
  · rw [writesAt_layer plain_empty has, hseen, writesAt_empty]
    rfl

end Removed

end Treena.Firebase.FCompoundWrite
