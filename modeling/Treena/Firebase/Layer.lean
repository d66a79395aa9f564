import Treena.Firebase.Compound

/-! # Layers of writes

Without priorities, a compound write is one update after another: to add a write is to make
the update after those that are there, and the writes below a path are made below it.
-/

namespace Treena.Firebase.FCompoundWrite

open Sorted FImmutableTree

variable {κ β : Type*} {F : FUtilities κ}

inductive Plain (F : FUtilities κ) : FCompoundWrite κ β → Prop
  | write {value : FNode κ β} : value.Plain F.keyComparator → Plain F ⟨some value, []⟩
  | branch {l : List (Piece κ × FCompoundWrite κ β)} : Pruned F.stringComparator isEmpty l →
      (∀ p ∈ l, p.1.isPriority = false) → (∀ p ∈ l, Plain F p.2) → Plain F ⟨none, l⟩

/-- `addWrite`, from component to component. -/
def add (F : FUtilities κ) (v : FNode κ β) : FCompoundWrite κ β → List κ → FCompoundWrite κ β
  | _, [] => ⟨some v, []⟩
  | t, k :: p =>
    match t.value with
    | some value => ⟨some (value.put F.keyComparator (k :: p) v), []⟩
    | none =>
      ⟨none, place F.stringComparator isEmpty (.key k)
        (add F v (t.sub F.stringComparator (.key k)) p) t.children⟩

/-- `applyToNode`, from child to child. -/
def lay (F : FUtilities κ) : FCompoundWrite κ β → FNode κ β → FNode κ β
  | ⟨some value, _⟩, _ => value
  | ⟨none, l⟩, n => layChildren l n
where
  layChildren : List (Piece κ × FCompoundWrite κ β) → FNode κ β → FNode κ β
    | [], n => n
    | (.priority, _) :: rest, n => layChildren rest n
    | (.key k, c) :: rest, n =>
      layChildren rest (n.set F.keyComparator k (lay F c (n.get F.keyComparator k)))

section Add

variable {t : FCompoundWrite κ β} {v value : FNode κ β} {k : κ} {p : List κ}

theorem plain_empty : Plain F (FImmutableTree.empty : FCompoundWrite κ β) :=
  .branch pruned_nil (fun _ h => absurd h List.not_mem_nil) fun _ h => absurd h List.not_mem_nil

theorem Plain.children_eq_nil (h : Plain F t) (hv : t.value = some value) :
    t = ⟨some value, []⟩ := by
  cases h with
  | write => rw [← hv]
  | branch => cases hv

theorem Plain.pruned (h : Plain F t) : Pruned F.stringComparator isEmpty t.children := by
  cases h with
  | write => exact pruned_nil
  | branch hp _ _ => exact hp

theorem Plain.of_mem (h : Plain F t) : ∀ p ∈ t.children, Plain F p.2 := by
  cases h with
  | write => exact fun _ hp => absurd hp List.not_mem_nil
  | branch _ _ hl => exact hl

theorem Plain.isPriority (h : Plain F t) : ∀ p ∈ t.children, p.1.isPriority = false := by
  cases h with
  | write => exact fun _ hp => absurd hp List.not_mem_nil
  | branch _ hl _ => exact hl

theorem Plain.sub (h : Plain F t) (c : Piece κ) : Plain F (t.sub F.stringComparator c) := by
  rcases child_eq_or_mem F.stringComparator FImmutableTree.empty c t.children with hc | ⟨p, hp, hc⟩
  · rw [FImmutableTree.sub, hc]
    exact plain_empty
  · rw [FImmutableTree.sub, hc]
    exact h.of_mem p hp

theorem Plain.of_value (h : Plain F t) (hv : t.value = some value) :
    value.Plain F.keyComparator := by
  cases h with
  | write hx => exact Option.some.inj hv ▸ hx
  | branch => cases hv

theorem add_cons_of_value (hv : t.value = some value) :
    add F v t (k :: p) = ⟨some (value.put F.keyComparator (k :: p) v), []⟩ := by
  simp only [add, hv]

theorem add_cons_of_none (hv : t.value = none) : add F v t (k :: p) =
    ⟨none, place F.stringComparator isEmpty (.key k)
      (add F v (t.sub F.stringComparator (.key k)) p) t.children⟩ := by
  simp only [add, hv]

@[simp] theorem isEmpty_add : (add F v t p).isEmpty = false := by
  induction p generalizing t with
  | nil => rfl
  | cons k p ih =>
    cases hv : t.value with
    | some value =>
      rw [add_cons_of_value hv]
      rfl
    | none =>
      rw [add_cons_of_none hv]
      rw [place, if_neg (by rw [ih]; exact Bool.false_ne_true)]
      simpa [isEmpty] using upsert_ne_nil F.stringComparator (.key k)
        (add F v (t.sub F.stringComparator (.key k)) p) t.children

theorem place_add {c : Piece κ} {l : List (Piece κ × FCompoundWrite κ β)} :
    place F.stringComparator isEmpty c (add F v t p) l =
      upsert F.stringComparator c (add F v t p) l := by
  rw [place, if_neg (by rw [isEmpty_add]; exact Bool.false_ne_true)]

theorem setTree_eq_add (hf : t.findRootMostValueAndPath F.stringComparator (p.map .key) = none) :
    t.setTree F.stringComparator (p.map .key) (initWithValue (some v)) = add F v t p := by
  induction p generalizing t with
  | nil => rfl
  | cons k p ih =>
    cases hv : t.value with
    | some value => rw [findRootMostValueAndPath_of_value hv] at hf; cases hf
    | none =>
      rw [List.map_cons, findRootMostValueAndPath_cons hv, Option.map_eq_none_iff] at hf
      rw [add_cons_of_none hv, ← ih hf, ← hv]
      rfl

theorem setValue_eq_add (h : Plain F t) {root : List (Piece κ)} {value : FNode κ β}
    (hf : t.findRootMostValueAndPath F.stringComparator (p.map .key) = some (root, value)) :
    ∃ s : List κ, p.map .key = root ++ s.map Piece.key ∧
      t.setValue F.stringComparator (value.put F.keyComparator s v) root = add F v t p := by
  induction p generalizing t root with
  | nil =>
    obtain ⟨x, hx, he⟩ := Option.map_eq_some_iff.mp hf
    obtain ⟨rfl, rfl⟩ := Prod.mk.inj he
    rw [h.children_eq_nil hx]
    exact ⟨[], rfl, rfl⟩
  | cons k p ih =>
    cases hv : t.value with
    | some x =>
      rw [findRootMostValueAndPath_of_value hv] at hf
      obtain ⟨rfl, rfl⟩ := Prod.mk.inj (Option.some.inj hf)
      rw [h.children_eq_nil hv]
      exact ⟨k :: p, rfl, rfl⟩
    | none =>
      rw [List.map_cons, findRootMostValueAndPath_cons hv] at hf
      obtain ⟨⟨root', x⟩, hx, he⟩ := Option.map_eq_some_iff.mp hf
      obtain ⟨rfl, rfl⟩ := Prod.mk.inj he
      obtain ⟨s, hs, ha⟩ := ih (h.sub _) hx
      refine ⟨s, by rw [List.map_cons, hs]; rfl, ?_⟩
      rw [add_cons_of_none hv, place_add, ← ha, ← hv]
      rfl

theorem addWrite_eq [DecidableEq κ] (h : Plain F t) :
    t.addWrite F v (p.map .key) = some (add F v t p) := by
  unfold addWrite
  split
  next hp =>
    obtain rfl : p = [] := by simpa using hp
    rfl
  next =>
    cases hf : t.findRootMostValueAndPath F.stringComparator (p.map .key) with
    | none => rw [← setTree_eq_add hf]
    | some found =>
      obtain ⟨root, value⟩ := found
      obtain ⟨s, hs, ha⟩ := setValue_eq_add (v := v) h hf
      dsimp only
      rw [hs, relativePathFrom_append, Option.map_some, ha]

variable [F.Lawful]

theorem Plain.add (h : Plain F t) (hv : v.Plain F.keyComparator) : Plain F (add F v t p) := by
  induction p generalizing t with
  | nil => exact .write hv
  | cons k p ih =>
    cases hx : t.value with
    | some value =>
      rw [add_cons_of_value hx]
      exact .write ((h.of_value hx).put hv)
    | none =>
      rw [add_cons_of_none hx]
      refine .branch h.pruned.place (fun q hq => ?_) fun q hq => ?_
      · rcases mem_place hq with hq | ⟨hq, -, -⟩
        · exact h.isPriority q hq
        · rw [← Std.LawfulEqCmp.eq_of_compare hq]
          rfl
      · rcases mem_place hq with hq | ⟨-, hq, -⟩
        · exact h.of_mem q hq
        · rw [hq]
          exact ih (h.sub _)

theorem Plain.ext {t' : FCompoundWrite κ β} (h : Plain F t) (h' : Plain F t')
    (hv : t.value = t'.value)
    (hc : ∀ c, t.sub F.stringComparator c = t'.sub F.stringComparator c) : t = t' := by
  obtain ⟨value, l⟩ := t
  obtain ⟨value', l'⟩ := t'
  obtain rfl : value = value' := hv
  obtain rfl : l = l' := h.pruned.ext FImmutableTree.isEmpty_empty h'.pruned hc
  rfl

theorem sub_add_self (h : Plain F t) (hv : t.value = none) :
    (add F v t (k :: p)).sub F.stringComparator (.key k) =
      add F v (t.sub F.stringComparator (.key k)) p := by
  rw [add_cons_of_none hv]
  exact child_place_self h.pruned.ordered fun he => eq_empty he

theorem sub_add_of_ne (h : Plain F t) (hv : t.value = none) {c : Piece κ} (hc : c ≠ .key k) :
    (add F v t (k :: p)).sub F.stringComparator c = t.sub F.stringComparator c := by
  rw [add_cons_of_none hv]
  exact child_place_of_ne h.pruned.ordered fun he => hc (Std.LawfulEqCmp.eq_of_compare he)

end Add

section Lay

open FNode

variable {t : FCompoundWrite κ β} {l : List (Piece κ × FCompoundWrite κ β)}
  {n v value : FNode κ β} {k : κ} {p s r : List κ}

@[simp] theorem lay_empty : lay F (FImmutableTree.empty : FCompoundWrite κ β) n = n := rfl

theorem lay_of_value (hv : t.value = some value) : lay F t n = value := by
  obtain ⟨_, l⟩ := t
  obtain rfl := hv
  rfl

theorem lay_of_none (hv : t.value = none) : lay F t n = lay.layChildren F t.children n := by
  obtain ⟨_, l⟩ := t
  obtain rfl := hv
  rfl

variable [F.Lawful]

theorem plain_layChildren
    (h : ∀ p ∈ l, ∀ n : FNode κ β, n.Plain F.keyComparator → (lay F p.2 n).Plain F.keyComparator)
    (hn : n.Plain F.keyComparator) : (lay.layChildren F l n).Plain F.keyComparator := by
  induction l generalizing n with
  | nil => exact hn
  | cons q l ih =>
    obtain ⟨c, t⟩ := q
    rw [List.forall_mem_cons] at h
    cases c with
    | priority => exact ih h.2 hn
    | key k => exact ih h.2 (hn.set (h.1 _ (hn.get k)))

theorem Plain.lay (h : Plain F t) (hn : n.Plain F.keyComparator) :
    (lay F t n).Plain F.keyComparator := by
  induction h generalizing n with
  | write hx => exact hx
  | branch _ _ _ ih => exact plain_layChildren (fun p hp n hn => ih p hp hn) hn

theorem get_layChildren (ho : Ordered F.stringComparator l) (hl : ∀ p ∈ l, Plain F p.2)
    (hn : n.Plain F.keyComparator) : (lay.layChildren F l n).get F.keyComparator k =
      FCompoundWrite.lay F (child F.stringComparator FImmutableTree.empty (.key k) l)
        (n.get F.keyComparator k) := by
  induction l generalizing n with
  | nil => rfl
  | cons q l ih =>
    obtain ⟨c, t⟩ := q
    rw [ordered_cons] at ho
    rw [List.forall_mem_cons] at hl
    rw [child_cons]
    cases c with
    | priority =>
      have hne : F.stringComparator (.key k) .priority ≠ .eq := by
        intro he
        cases Std.LawfulEqCmp.eq_of_compare he
      rw [if_neg hne]
      exact ih ho.2 hl.2 hn
    | key k' =>
      have hz := hl.1.lay (hn.get k')
      change (lay.layChildren F l (n.set _ _ _)).get _ _ = _
      rw [ih ho.2 hl.2 (hn.set hz)]
      by_cases hk : k = k'
      · subst hk
        rw [if_pos Std.ReflCmp.compare_self, child_of_absent (absent_of_lt ho.1),
          get_set_self hn hz, lay_empty]
      · rw [if_neg fun he => hk (Piece.key.inj (Std.LawfulEqCmp.eq_of_compare he)),
          get_set_of_ne hn hz fun he => hk (Std.LawfulEqCmp.eq_of_compare he)]

theorem get_lay (h : Plain F t) (hv : t.value = none) (hn : n.Plain F.keyComparator) :
    (FCompoundWrite.lay F t n).get F.keyComparator k =
      FCompoundWrite.lay F (t.sub F.stringComparator (.key k)) (n.get F.keyComparator k) := by
  rw [lay_of_none hv, get_layChildren h.pruned.ordered h.of_mem hn]

theorem value?_layChildren_of_none (hl : ∀ p ∈ l, Plain F p.2) (hn : n.Plain F.keyComparator)
    (hv : n.value? = none) : (lay.layChildren F l n).value? = none := by
  induction l generalizing n with
  | nil => exact hv
  | cons q l ih =>
    obtain ⟨c, t⟩ := q
    rw [List.forall_mem_cons] at hl
    cases c with
    | priority => exact ih hl.2 hn hv
    | key k =>
      have hz := hl.1.lay (hn.get k)
      refine ih hl.2 (hn.set hz) ?_
      rw [value?_set hz hn, hv, ite_self]

/-- To add a write is to update what is laid, if a write of nothing is not under a leaf. -/
theorem lay_add (ht : Plain F t) (hn : n.Plain F.keyComparator) (hv : v.Plain F.keyComparator)
    (h : v.isEmpty → Free F.keyComparator n p) :
    FCompoundWrite.lay F (add F v t p) n = (FCompoundWrite.lay F t n).put F.keyComparator p v := by
  induction p generalizing t n with
  | nil => rfl
  | cons k p ih =>
    cases hx : t.value with
    | some value =>
      rw [add_cons_of_value hx, lay_of_value hx]
      rfl
    | none =>
      have hadd : Plain F (add F v t (k :: p)) := ht.add hv
      have hnone : (add F v t (k :: p)).value = none := by rw [add_cons_of_none hx]
      have hlay := ht.lay hn
      have hc := (hlay.get k).put (p := p) hv
      have hk := ih (ht.sub (.key k)) (hn.get k) fun he => (h he).2
      rw [← get_lay ht hx hn] at hk
      have hget : ∀ i, (FCompoundWrite.lay F (add F v t (k :: p)) n).get F.keyComparator i =
          ((FCompoundWrite.lay F t n).put F.keyComparator (k :: p) v).get F.keyComparator i := by
        intro i
        rw [get_lay hadd hnone hn, put_cons hv]
        by_cases hi : i = k
        · subst hi
          rw [sub_add_self ht hx, hk, get_set_self hlay hc]
        · rw [sub_add_of_ne ht hx fun he => hi (Piece.key.inj he),
            get_set_of_ne hlay hc fun he => hi (Std.LawfulEqCmp.eq_of_compare he),
            get_lay ht hx hn]
      refine (hadd.lay hn).ext (hlay.put hv) ?_ hget
      by_cases hl : n.value? = none
      · rw [lay_of_none hnone, value?_layChildren_of_none hadd.of_mem hn hl, put_cons hv,
          value?_set hc hlay, lay_of_none hx, value?_layChildren_of_none ht.of_mem hn hl, ite_self]
      · -- over a leaf something is written, and the leaf is gone
        have hne : ((((FCompoundWrite.lay F t n).get F.keyComparator k).put
            F.keyComparator p v).isEmpty) ≠ true := fun he =>
          hl (h (by rw [eq_empty_of_put (hlay.get k) hv he]; rfl)).1
        rw [put_cons hv, value?_set hc hlay, if_neg hne]
        by_contra hv'
        have hk' := hget k
        rw [get_of_value?_ne (hadd.lay hn) hv', put_cons hv, get_set_self hlay hc] at hk'
        exact hne (hk' ▸ rfl)

def writesAt (F : FUtilities κ) : FCompoundWrite κ β → List κ → FCompoundWrite κ β
  | t, [] => t
  | t, k :: p =>
    match t.value with
    | some value => ⟨some (value.find F.keyComparator (k :: p)), []⟩
    | none => writesAt F (t.sub F.stringComparator (.key k)) p

omit [F.Lawful] in
theorem writesAt_of_value (ht : Plain F t) (hv : t.value = some value) :
    writesAt F t p = ⟨some (value.find F.keyComparator p), []⟩ := by
  cases p with
  | nil => exact ht.children_eq_nil hv
  | cons k p => simp only [writesAt, hv]

omit [F.Lawful] in
theorem writesAt_cons_of_none (hv : t.value = none) :
    writesAt F t (k :: p) = writesAt F (t.sub F.stringComparator (.key k)) p := by
  simp only [writesAt, hv]

omit [F.Lawful] in
theorem Plain.writesAt (ht : Plain F t) : Plain F (writesAt F t p) := by
  induction p generalizing t with
  | nil => exact ht
  | cons k p ih =>
    cases hv : t.value with
    | some value =>
      rw [writesAt_of_value ht hv]
      exact .write (ht.of_value hv).find
    | none =>
      rw [writesAt_cons_of_none hv]
      exact ih (ht.sub _)

/-- What is laid at a path is laid by the writes there. -/
theorem find_lay (ht : Plain F t) (hn : n.Plain F.keyComparator) :
    (FCompoundWrite.lay F t n).find F.keyComparator p =
      FCompoundWrite.lay F (writesAt F t p) (n.find F.keyComparator p) := by
  induction p generalizing t n with
  | nil => rfl
  | cons k p ih =>
    cases hv : t.value with
    | some value => rw [lay_of_value hv, writesAt_of_value ht hv, lay_of_value rfl]
    | none =>
      rw [find_cons, get_lay ht hv hn, ih (ht.sub _) (hn.get k), writesAt_cons_of_none hv,
        find_cons]

end Lay

section Source

open FNode

variable {t : FCompoundWrite κ β} {l : List (Piece κ × FCompoundWrite κ β)}
  {n v value : FNode κ β} {k : κ} {p s r : List κ}

theorem writesAt_of_none (hf : t.findRootMostValueAndPath F.stringComparator (p.map .key) = none) :
    (writesAt F t p).value = none ∧
      t.subtreeAtPath F.stringComparator (p.map .key) = writesAt F t p := by
  induction p generalizing t with
  | nil => exact ⟨Option.map_eq_none_iff.mp hf, rfl⟩
  | cons k p ih =>
    cases hv : t.value with
    | some value => rw [findRootMostValueAndPath_of_value hv] at hf; cases hf
    | none =>
      rw [List.map_cons, findRootMostValueAndPath_cons hv, Option.map_eq_none_iff] at hf
      rw [writesAt_cons_of_none hv, List.map_cons, subtreeAtPath_cons]
      exact ih hf

theorem writesAt_of_some (ht : Plain F t) {root : List (Piece κ)}
    (hf : t.findRootMostValueAndPath F.stringComparator (p.map .key) = some (root, value)) :
    ∃ s : List κ, p.map .key = root ++ s.map Piece.key ∧
      writesAt F t p = ⟨some (value.find F.keyComparator s), []⟩ := by
  induction p generalizing t root with
  | nil =>
    obtain ⟨x, hx, he⟩ := Option.map_eq_some_iff.mp hf
    obtain ⟨rfl, rfl⟩ := Prod.mk.inj he
    exact ⟨[], rfl, ht.children_eq_nil hx⟩
  | cons k p ih =>
    cases hv : t.value with
    | some x =>
      rw [findRootMostValueAndPath_of_value hv] at hf
      obtain ⟨rfl, rfl⟩ := Prod.mk.inj (Option.some.inj hf)
      exact ⟨k :: p, rfl, writesAt_of_value ht hv⟩
    | none =>
      rw [List.map_cons, findRootMostValueAndPath_cons hv] at hf
      obtain ⟨⟨root', x⟩, hx, he⟩ := Option.map_eq_some_iff.mp hf
      obtain ⟨rfl, rfl⟩ := Prod.mk.inj he
      obtain ⟨s, hs, hw⟩ := ih (ht.sub _) hx
      exact ⟨s, by rw [List.map_cons, hs]; rfl, (writesAt_cons_of_none hv).trans hw⟩

variable [DecidableEq κ]

theorem completeNodeAtPath_eq (ht : Plain F t) :
    t.completeNodeAtPath F (p.map .key) = some (writesAt F t p).value := by
  unfold completeNodeAtPath
  cases hf : t.findRootMostValueAndPath F.stringComparator (p.map .key) with
  | none => rw [(writesAt_of_none hf).1]
  | some found =>
    obtain ⟨root, value⟩ := found
    obtain ⟨s, hs, hw⟩ := writesAt_of_some ht hf
    dsimp only
    rw [hs, relativePathFrom_append, Option.map_some, hw]

theorem childCompoundWriteAtPath_eq (ht : Plain F t) :
    t.childCompoundWriteAtPath F (p.map .key) = some (writesAt F t p) := by
  unfold childCompoundWriteAtPath
  split
  next hp =>
    obtain rfl : p = [] := by simpa using hp
    rfl
  next =>
    rw [completeNodeAtPath_eq ht, Option.map_some, Option.some.injEq]
    cases hf : t.findRootMostValueAndPath F.stringComparator (p.map .key) with
    | none =>
      rw [(writesAt_of_none hf).1]
      exact (writesAt_of_none hf).2
    | some found =>
      obtain ⟨s, -, hw⟩ := writesAt_of_some ht hf
      rw [hw]
      rfl

omit [DecidableEq κ] in
/-- Children are laid in turn, and nothing that is laid is lost under a leaf. -/
theorem applyChildren_eq [F.Lawful] (ho : Ordered F.stringComparator l)
    (hp : ∀ p ∈ l, p.1.isPriority = false) (hl : ∀ p ∈ l, Plain F p.2)
    (h : ∀ p ∈ l, ∀ r (n : FNode κ β), n.Plain F.keyComparator →
      applySubtreeWrite F (r.map .key) p.2 n =
        n.put F.keyComparator r (FCompoundWrite.lay F p.2 (n.find F.keyComparator r)))
    (hn : n.Plain F.keyComparator) :
    applySubtreeWrite.applyChildren F (r.map .key) l (n, none) =
      (n.put F.keyComparator r (lay.layChildren F l (n.find F.keyComparator r)), none) := by
  induction l generalizing n with
  | nil => exact congrArg (·, none) (put_find hn).symm
  | cons q l ih =>
    obtain ⟨c, t⟩ := q
    rw [ordered_cons] at ho
    rw [List.forall_mem_cons] at hp hl h
    cases c with
    | priority => exact absurd hp.1 (by simp [Piece.isPriority])
    | key k =>
      have hm := hn.find (p := r)
      have hz := hl.1.lay (hm.get k)
      have hx := hm.set (k := k) hz
      have hstep : applySubtreeWrite F (r.map .key ++ [.key k]) t n =
          n.put F.keyComparator r ((n.find F.keyComparator r).set F.keyComparator k
            (FCompoundWrite.lay F t ((n.find F.keyComparator r).get F.keyComparator k))) := by
        have hr := h.1 (r ++ [k]) n hn
        rw [List.map_append, find_append, put_append hn (hl.1.lay hm.find),
          put_cons (hl.1.lay hm.find), find_cons] at hr
        exact hr
      have hy := plain_layChildren (fun p hp n hn => (hl.2 p hp).lay hn) hx
      rw [show applySubtreeWrite.applyChildren F (r.map .key) ((.key k, t) :: l) (n, none) = _ from
        ih ho.2 hp.2 hl.2 h.2 (hstep ▸ hn.put hx), hstep, find_put_self hn hx]
      have hput := put_put (p := r) (s := []) hn hy hx fun he => ?_
      · rw [List.append_nil] at hput
        rw [hput]
        rfl
      by_cases hf : Free F.keyComparator n r
      · exact .inr hf
      · -- under a leaf, what is laid for this child stays while the others are laid
        left
        have hg := get_layChildren (k := k) ho.2 hl.2 hx
        rw [child_of_absent (absent_of_lt ho.1), lay_empty, get_set_self hm hz,
          hy.eq_empty he] at hg
        rw [← hg, find_of_not_free hn hf]
        rfl

omit [DecidableEq κ] in
theorem applySubtreeWrite_eq [F.Lawful] (ht : Plain F t) (hn : n.Plain F.keyComparator) :
    applySubtreeWrite F (r.map .key) t n =
      n.put F.keyComparator r (FCompoundWrite.lay F t (n.find F.keyComparator r)) := by
  induction ht generalizing n r with
  | write _ => rfl
  | @branch l hpr hp hl ih =>
    have hc := applyChildren_eq hpr.ordered hp hl (fun p hp r n hn => ih p hp hn) hn (r := r)
    rw [applySubtreeWrite, hc]
    rfl

omit [DecidableEq κ] in
theorem applyToNode_eq [F.Lawful] (ht : Plain F t) (hn : n.Plain F.keyComparator) :
    t.applyToNode F n = FCompoundWrite.lay F t n :=
  applySubtreeWrite_eq (r := []) ht hn

end Source

end Treena.Firebase.FCompoundWrite
