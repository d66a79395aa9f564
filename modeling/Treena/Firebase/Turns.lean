import Treena.Firebase.Shown
import Treena.Firebase.SyncTree

/-! # Turns

An operation goes from the root of the tree to the views. What it does to the writes and to the
data of the server it does below each key, too, as the operation that is seen there.
-/

namespace Treena.Firebase

open Sorted FNode FCompoundWrite

variable {κ β : Type} {F : FUtilities κ}

/-- No write of nothing is under a leaf. -/
def Unblocked (F : FUtilities κ) (es : List (List κ × FNode κ β)) (n : FNode κ β) : Prop :=
  ∀ e ∈ es, e.2.isEmpty → Free F.keyComparator n e.1

/-- The paths of an overwrite, below its own. -/
abbrev overwritten : FImmutableTree (Piece κ) Unit := ⟨some (), []⟩

/-- What an operation does to the pending writes and to the data that the server has told. A
write is answered after those that it overlaps with and that were made before. -/
inductive Turns (F : FUtilities κ) (es : List (List κ × FNode κ β)) (n : FNode κ β) :
    FOperation κ β → List (List κ × FNode κ β) → FNode κ β → Prop
  | userOverwrite {q : List κ} {v : FNode κ β} : v.Plain F.keyComparator →
      (v.isEmpty → Free F.keyComparator n q) →
      Turns F es n (.userOverwrite (q.map .key) v) (es ++ [(q, v)]) n
  | serverOverwrite {p : List κ} {s : FNode κ β} : s.Plain F.keyComparator →
      Unblocked F es (n.put F.keyComparator p s) →
      Turns F es n (.serverOverwrite (p.map .key) s) es (n.put F.keyComparator p s)
  | serverMerge {p : List κ} {c : FCompoundWrite κ β} : c.Plain F → c.value = none →
      Unblocked F es (n.put F.keyComparator p (lay F c (n.find F.keyComparator p))) →
      Turns F es n (.serverMerge (p.map .key) c) es
        (n.put F.keyComparator p (lay F c (n.find F.keyComparator p)))
  | ackUserWrite {as bs : List (List κ × FNode κ β)} {e : List κ × FNode κ β} :
      es = as ++ e :: bs → (∀ a ∈ as, Apart a.1 e.1) → Free F.keyComparator n e.1 →
      Turns F es n (.ackUserWrite (e.1.map .key) overwritten false) (as ++ bs) n
  | revertUserWrite {as bs : List (List κ × FNode κ β)} {e : List κ × FNode κ β} :
      es = as ++ e :: bs → (∀ a ∈ as, Apart a.1 e.1) →
      Turns F es n (.ackUserWrite (e.1.map .key) overwritten true) (as ++ bs) n
  | revertAll : Turns F es n (.ackUserWrite [] overwritten true) [] n
  | listenComplete {p : List κ} : Turns F es n (.listenComplete (p.map .key)) es n

section Children

variable [DecidableEq κ] {es es' as bs : List (List κ × FNode κ β)} {e : List κ × FNode κ β}
  {n n' : FNode κ β} {op : FOperation κ β} {k : κ} {p q : List κ}

abbrev seenFrom (F : FUtilities κ) (k : κ) (es : List (List κ × FNode κ β)) :
    List (List κ × FNode κ β) :=
  es.filterMap (forChild F k)

theorem forChild_cons {v : FNode κ β} : forChild F k (k :: p, v) = some (p, v) := if_pos rfl

theorem forChild_of_ne {i : κ} {v : FNode κ β} (h : i ≠ k) : forChild F k (i :: p, v) = none :=
  if_neg h

theorem forChild_eq_some {a e : List κ × FNode κ β} (h : forChild F k a = some e) :
    a.1 = [] ∧ e = ([], a.2.get F.keyComparator k) ∨ a.1 = k :: e.1 ∧ e.2 = a.2 := by
  obtain ⟨p, v⟩ := a
  cases p with
  | nil =>
    obtain rfl := Option.some.inj h
    exact .inl ⟨rfl, rfl⟩
  | cons i p =>
    by_cases hi : i = k
    · subst hi
      rw [forChild_cons] at h
      obtain rfl := Option.some.inj h
      exact .inr ⟨rfl, rfl⟩
    · rw [forChild_of_ne hi] at h
      cases h

theorem seenFrom_append :
    seenFrom F k (as ++ bs) = seenFrom F k as ++ seenFrom F k bs :=
  List.filterMap_append

theorem seenFrom_cons {v : FNode κ β} :
    seenFrom F k ((k :: p, v) :: bs) = (p, v) :: seenFrom F k bs :=
  List.filterMap_cons_some forChild_cons

theorem plain_seenFrom (h : ∀ e ∈ es, e.2.Plain F.keyComparator) :
    ∀ e ∈ seenFrom F k es, e.2.Plain F.keyComparator := by
  intro e he
  obtain ⟨a, ha, hae⟩ := List.mem_filterMap.mp he
  rcases forChild_eq_some hae with ⟨-, rfl⟩ | ⟨-, hv⟩
  · exact (h a ha).get k
  · exact hv ▸ h a ha

theorem Unblocked.child (h : Unblocked F es n) :
    Unblocked F (seenFrom F k es) (n.get F.keyComparator k) := by
  intro e he hemp
  obtain ⟨a, ha, hae⟩ := List.mem_filterMap.mp he
  rcases forChild_eq_some hae with ⟨-, rfl⟩ | ⟨hp, hv⟩
  · trivial
  · have hf := h a ha (hv ▸ hemp)
    rw [hp] at hf
    exact hf.2

theorem apart_child (h : ∀ a ∈ as, Apart a.1 (k :: q)) :
    ∀ a ∈ seenFrom F k as, Apart a.1 q := by
  intro e he
  obtain ⟨a, ha, hae⟩ := List.mem_filterMap.mp he
  have hap := h a ha
  rcases forChild_eq_some hae with ⟨hp, -⟩ | ⟨hp, -⟩
  · rw [hp] at hap
    exact absurd List.nil_prefix hap.1
  · rw [hp] at hap
    exact (apart_cons.mp hap).resolve_left (fun hne => hne rfl) |>.2

omit [DecidableEq κ] in
theorem eq_nil_of_apart_nil (h : ∀ a ∈ as, Apart a.1 []) : as = [] := by
  cases as with
  | nil => rfl
  | cons a as => exact absurd List.nil_prefix (h a List.mem_cons_self).2

theorem writesAt_seenFrom [F.Lawful] (hes : ∀ e ∈ es, e.2.Plain F.keyComparator) :
    writesAt F (layer F es FImmutableTree.empty) [k] =
      layer F (seenFrom F k es) FImmutableTree.empty := by
  rw [writesAt_layer plain_empty hes, writesAt_empty]
  exact congrArg (layer F · _) (List.filterMap_congr fun e _ => Option.bind_fun_some _)

variable [F.Lawful]

/-- What an operation does below a key that it comes to. -/
inductive Comes (F : FUtilities κ) (k : κ) (op : FOperation κ β)
    (es es' : List (List κ × FNode κ β))
    (n n' : FNode κ β) : Prop
  | passed {op' : FOperation κ β} : op.operationForChild F (.key k) = some (some op') →
      op'.path = op.path.tail →
      Turns F (seenFrom F k es) (n.get F.keyComparator k) op' (seenFrom F k es')
        (n'.get F.keyComparator k) →
      (∀ p, op' = .listenComplete p → op = .listenComplete op.path) → Comes F k op es es' n n'
  | dropped : op.operationForChild F (.key k) = some none → seenFrom F k es' = seenFrom F k es →
      n'.get F.keyComparator k = n.get F.keyComparator k → Comes F k op es es' n n'

omit [F.Lawful] in
theorem comes_userOverwrite {v : FNode κ β} (hv : v.Plain F.keyComparator)
    (hfree : v.isEmpty → Free F.keyComparator n q)
    (hk : q.map Piece.key = [] ∨ (q.map Piece.key).head? = some (.key k)) :
    Comes F k (.userOverwrite (q.map .key) v) es (es ++ [(q, v)]) n n := by
  cases q with
  | nil =>
    refine .passed rfl rfl ?_ fun _ h => by cases h
    rw [seenFrom_append]
    exact .userOverwrite (q := []) (hv.get k) fun _ => trivial
  | cons i q =>
    obtain rfl : i = k := by simpa using hk
    refine .passed rfl rfl ?_ fun _ h => by cases h
    rw [seenFrom_append, seenFrom_cons]
    exact .userOverwrite hv fun he => (hfree he).2

theorem comes_serverOverwrite {s : FNode κ β} (hn : n.Plain F.keyComparator)
    (hs : s.Plain F.keyComparator) (hub : Unblocked F es (n.put F.keyComparator p s))
    (hk : p.map Piece.key = [] ∨ (p.map Piece.key).head? = some (.key k)) :
    Comes F k (.serverOverwrite (p.map .key) s) es es n (n.put F.keyComparator p s) := by
  cases p with
  | nil =>
    refine .passed rfl rfl ?_ fun _ h => by cases h
    exact .serverOverwrite (p := []) (hs.get k) hub.child
  | cons i p =>
    obtain rfl : i = k := by simpa using hk
    refine .passed rfl rfl ?_ fun _ h => by cases h
    have hub := hub.child (k := i)
    rw [put_cons hs, get_set_self hn ((hn.get i).put hs)] at hub ⊢
    exact .serverOverwrite hs hub

section Merges

variable {c : FCompoundWrite κ β}

omit [F.Lawful] in
/-- What a merge at the root becomes at a child: a merge, or an overwrite where it has a write
for the child itself. -/
theorem operationForChild_merge (hc : c.Plain F) (hcv : c.value = none) :
    (FOperation.serverMerge [] c).operationForChild F (.key k) =
      if (c.sub F.stringComparator (.key k)).isEmpty then some none
      else match (c.sub F.stringComparator (.key k)).value with
        | some x => some (some (.serverOverwrite [] x))
        | none => some (some (.serverMerge [] (c.sub F.stringComparator (.key k)))) := by
  have hcc := FCompoundWrite.childCompoundWriteAtPath_eq (p := [k]) hc
  rw [writesAt_cons_of_none hcv, writesAt, List.map_singleton] at hcc
  have hop : (FOperation.serverMerge [] c).operationForChild F (.key k) = _ :=
    congrArg (Option.map _) hcc
  rw [hop, Option.map_some]
  split
  · rfl
  · cases (c.sub F.stringComparator (.key k)).value <;> rfl

theorem comes_serverMerge_root (hn : n.Plain F.keyComparator) (hc : c.Plain F)
    (hcv : c.value = none) (hub : Unblocked F es (lay F c n)) :
    Comes F k (.serverMerge [] c) es es n (lay F c n) := by
  have hop := operationForChild_merge (k := k) hc hcv
  have hg := get_lay (k := k) hc hcv hn
  have hub := hub.child (k := k)
  rw [hg] at hub
  by_cases he : (c.sub F.stringComparator (.key k)).isEmpty
  · rw [if_pos he] at hop
    refine .dropped hop rfl ?_
    rw [hg, FImmutableTree.eq_empty he, lay_empty]
  · rw [if_neg he] at hop
    cases hx : (c.sub F.stringComparator (.key k)).value with
    | some x =>
      rw [hx] at hop
      refine .passed hop rfl ?_ fun _ h => by cases h
      rw [lay_of_value hx] at hg hub
      rw [hg]
      exact .serverOverwrite (p := []) ((hc.sub _).of_value hx) hub
    | none =>
      rw [hx] at hop
      refine .passed hop rfl ?_ fun _ h => by cases h
      rw [hg]
      exact .serverMerge (p := []) (hc.sub _) hx hub

theorem comes_serverMerge (hn : n.Plain F.keyComparator) (hc : c.Plain F) (hcv : c.value = none)
    (hub : Unblocked F es (n.put F.keyComparator p (lay F c (n.find F.keyComparator p))))
    (hk : p.map Piece.key = [] ∨ (p.map Piece.key).head? = some (.key k)) :
    Comes F k (.serverMerge (p.map .key) c) es es n
      (n.put F.keyComparator p (lay F c (n.find F.keyComparator p))) := by
  cases p with
  | nil => exact comes_serverMerge_root hn hc hcv hub
  | cons i p =>
    obtain rfl : i = k := by simpa using hk
    refine .passed (if_pos rfl) rfl ?_ fun _ h => by cases h
    have hz := hc.lay (hn.find (p := i :: p))
    have hub := hub.child (k := i)
    rw [put_cons hz, get_set_self hn ((hn.get i).put hz), find_cons] at hub ⊢
    exact .serverMerge hc hcv hub

end Merges

omit [F.Lawful] in
theorem comes_ackUserWrite {v : FNode κ β} {revert : Bool} (hap : ∀ a ∈ as, Apart a.1 q)
    (hfree : revert = false → Free F.keyComparator n q)
    (hk : q.map Piece.key = [] ∨ (q.map Piece.key).head? = some (.key k)) :
    Comes F k (.ackUserWrite (q.map .key) overwritten revert) (as ++ (q, v) :: bs) (as ++ bs)
      n n := by
  have hturn : ∀ (q' : List κ) (v' : FNode κ β),
      seenFrom F k (as ++ (q, v) :: bs) = seenFrom F k as ++ (q', v') :: seenFrom F k bs →
      (∀ a ∈ seenFrom F k as, Apart a.1 q') →
      (revert = false → Free F.keyComparator (n.get F.keyComparator k) q') →
      Turns F (seenFrom F k (as ++ (q, v) :: bs)) (n.get F.keyComparator k)
        (.ackUserWrite (q'.map .key) overwritten revert) (seenFrom F k (as ++ bs))
        (n.get F.keyComparator k) := by
    intro q' v' hes hap' hfree'
    rw [show seenFrom F k (as ++ bs) = seenFrom F k as ++ seenFrom F k bs from seenFrom_append]
    cases revert with
    | false => exact .ackUserWrite (e := (q', v')) hes hap' (hfree' rfl)
    | true => exact .revertUserWrite (e := (q', v')) hes hap'
  cases q with
  | nil =>
    obtain rfl := eq_nil_of_apart_nil hap
    refine .passed rfl rfl ?_ fun _ h => by cases h
    exact hturn [] (v.get F.keyComparator k) rfl (List.forall_mem_nil _) fun _ => trivial
  | cons i q =>
    obtain rfl : i = k := by simpa using hk
    refine .passed (if_pos rfl) rfl ?_ fun _ h => by cases h
    refine hturn q v ?_ (apart_child hap) fun h => (hfree h).2
    rw [seenFrom_append, seenFrom_cons]

omit [F.Lawful] in
theorem comes_listenComplete : Comes F k (.listenComplete (p.map .key)) es es n n := by
  cases p with
  | nil => exact .passed rfl rfl (.listenComplete (p := [])) fun _ _ => rfl
  | cons i p => exact .passed rfl rfl .listenComplete fun _ _ => rfl

/-- What an operation does it does below each key that it comes to. -/
theorem Turns.child (h : Turns F es n op es' n') (hn : n.Plain F.keyComparator)
    (hk : op.path = [] ∨ op.path.head? = some (.key k)) : Comes F k op es es' n n' := by
  cases h with
  | userOverwrite hv hfree => exact comes_userOverwrite hv hfree hk
  | serverOverwrite hs hub => exact comes_serverOverwrite hn hs hub hk
  | serverMerge hc hcv hub => exact comes_serverMerge hn hc hcv hub hk
  | ackUserWrite hes hap hfree =>
    subst hes
    exact comes_ackUserWrite hap (fun _ => hfree) hk
  | revertUserWrite hes hap =>
    subst hes
    exact comes_ackUserWrite hap (fun h => by cases h) hk
  | revertAll => exact .passed rfl rfl .revertAll fun _ h => by cases h
  | listenComplete => exact comes_listenComplete

omit [DecidableEq κ] in
theorem get_put_off {s : FNode κ β} (hn : n.Plain F.keyComparator) (hs : s.Plain F.keyComparator)
    {i j : κ} (hj : ((j :: p).map Piece.key).head? = some (.key i)) (hk : k ≠ i) :
    (n.put F.keyComparator (j :: p) s).get F.keyComparator k = n.get F.keyComparator k := by
  obtain rfl := Piece.key.inj (Option.some.inj hj)
  rw [put_cons hs]
  exact get_set_of_ne hn ((hn.get j).put hs) fun he => hk (Std.LawfulEqCmp.eq_of_compare he)

omit [F.Lawful] in
theorem seenFrom_off {v : FNode κ β} {i : κ} (hq : (q.map Piece.key).head? = some (.key i))
    (hk : k ≠ i) : seenFrom F k (as ++ bs) = seenFrom F k (as ++ (q, v) :: bs) := by
  cases q with
  | nil => cases hq
  | cons j q =>
    obtain rfl := Piece.key.inj (Option.some.inj hq)
    rw [seenFrom_append, seenFrom_append]
    exact congrArg _ (List.filterMap_cons_none (forChild_of_ne (Ne.symm hk))).symm

/-- Nothing happens below a key that is not on the path. -/
theorem Turns.off (h : Turns F es n op es' n') (hn : n.Plain F.keyComparator) {i : κ}
    (hi : op.path.head? = some (.key i)) (hk : k ≠ i) :
    seenFrom F k es' = seenFrom F k es ∧ n'.get F.keyComparator k = n.get F.keyComparator k := by
  cases h with
  | @userOverwrite q v hv hfree =>
    have hs : seenFrom F k (es ++ []) = seenFrom F k (es ++ (q, v) :: []) := seenFrom_off hi hk
    rw [List.append_nil] at hs
    exact ⟨hs.symm, rfl⟩
  | @serverOverwrite p s hs hub =>
    cases p with
    | nil => cases hi
    | cons j p => exact ⟨rfl, get_put_off hn hs hi hk⟩
  | @serverMerge p c hc hcv hub =>
    cases p with
    | nil => cases hi
    | cons j p => exact ⟨rfl, get_put_off hn (hc.lay hn.find) hi hk⟩
  | ackUserWrite hes hap hfree =>
    subst hes
    exact ⟨seenFrom_off hi hk, rfl⟩
  | revertUserWrite hes hap =>
    subst hes
    exact ⟨seenFrom_off hi hk, rfl⟩
  | revertAll => cases hi
  | listenComplete => exact ⟨rfl, rfl⟩

end Children

section Views

variable {es es' : List (List κ × FNode κ β)} {n n' : FNode κ β} {op : FOperation κ β}

theorem Turns.plain [F.Lawful] (h : Turns F es n op es' n')
    (hes : ∀ e ∈ es, e.2.Plain F.keyComparator) (hn : n.Plain F.keyComparator) :
    (∀ e ∈ es', e.2.Plain F.keyComparator) ∧ n'.Plain F.keyComparator := by
  cases h with
  | userOverwrite hv _ =>
    exact ⟨List.forall_mem_append.mpr ⟨hes, List.forall_mem_singleton.mpr hv⟩, hn⟩
  | serverOverwrite hs _ => exact ⟨hes, hn.put hs⟩
  | serverMerge hc _ _ => exact ⟨hes, hn.put (hc.lay hn.find)⟩
  | ackUserWrite he _ _ =>
    subst he
    simp only [List.forall_mem_append, List.forall_mem_cons] at hes
    exact ⟨List.forall_mem_append.mpr ⟨hes.1, hes.2.2⟩, hn⟩
  | revertUserWrite he _ =>
    subst he
    simp only [List.forall_mem_append, List.forall_mem_cons] at hes
    exact ⟨List.forall_mem_append.mpr ⟨hes.1, hes.2.2⟩, hn⟩
  | revertAll => exact ⟨nofun, hn⟩
  | listenComplete => exact ⟨hes, hn⟩

theorem Turns.unblocked (h : Turns F es n op es' n') (hub : Unblocked F es n) :
    Unblocked F es' n' := by
  cases h with
  | userOverwrite _ hfree =>
    exact List.forall_mem_append.mpr ⟨hub, List.forall_mem_singleton.mpr hfree⟩
  | serverOverwrite _ h => exact h
  | serverMerge _ _ h => exact h
  | ackUserWrite he _ _ =>
    subst he
    obtain ⟨has, hbs⟩ := List.forall_mem_append.mp hub
    exact List.forall_mem_append.mpr ⟨has, (List.forall_mem_cons.mp hbs).2⟩
  | revertUserWrite he _ =>
    subst he
    obtain ⟨has, hbs⟩ := List.forall_mem_append.mp hub
    exact List.forall_mem_append.mpr ⟨has, (List.forall_mem_cons.mp hbs).2⟩
  | revertAll => exact nofun
  | listenComplete => exact hub

variable [DecidableEq κ] [F.Lawful]

/-- A view at the root takes part. -/
theorem Turns.moves {known : Prop} (h : Turns F es n op es' n')
    (hes : ∀ e ∈ es, e.2.Plain F.keyComparator) (hn : n.Plain F.keyComparator)
    (hub : Unblocked F es n) (hk : op = .listenComplete [] → known) :
    FViewProcessor.Moves F known (layer F es FImmutableTree.empty) n op
      (layer F es' FImmutableTree.empty) n' := by
  cases h with
  | userOverwrite hv hfree =>
    rw [layer_append, layer_cons, layer_nil]
    exact .userOverwrite hv hfree
  | serverOverwrite hs hub' =>
    exact .serverOverwrite hs (clear_layer hes hn hub) (clear_layer hes (hn.put hs) hub')
  | @serverMerge p c hc hcv hub' =>
    refine .serverMerge hc hcv fun ks m hm => clear_layer hes hm.plain fun e he hemp => ?_
    rw [← FViewProcessor.lay_mergeOf hc hn] at hub'
    exact hm.free (FViewProcessor.plain_mergeOf hc) (FViewProcessor.value_mergeOf hc hcv) hn
      (hub e he hemp) (hub' e he hemp)
  | ackUserWrite he hap hfree =>
    subst he
    simp only [List.forall_mem_append, List.forall_mem_cons] at hes
    exact .ackUserWrite rfl (unshadowed_layer hes.1 hes.2.1 hes.2.2 hap) hfree
  | revertUserWrite he hap =>
    subst he
    simp only [List.forall_mem_append, List.forall_mem_cons] at hes
    exact .revertUserWrite (unshadowed_layer hes.1 hes.2.1 hes.2.2 hap)
  | revertAll => exact .revertUserWrite (q := []) (.inr ⟨trivial, rfl⟩)
  | @listenComplete p =>
    refine .listenComplete fun hp => hk ?_
    rw [hp]
    rfl

end Views

end Treena.Firebase
