import Treena.Firebase.Applied

/-! # Answers to writes

When a write is answered, what the server has where it was made is written again, now that
nothing hides it. A write that is taken back is taken from what is shown.
-/

namespace Treena.Firebase

open Sorted FNode FCompoundWrite FChildChangeAccumulator FIndexedFilter

variable {κ β : Type} {F : FUtilities κ}

namespace FViewProcessor

variable [DecidableEq κ] [DecidableEq β] [F.Lawful] {w : FWriteTreeRef κ β}
  {W W' A : FCompoundWrite κ β} {view view' : FViewCache κ β} {n m : FNode κ β} {k : κ}
  {p q : List κ} {f : κ → FNode κ β} {acc? : Option (FChildChangeAccumulator κ β)}
  {affectedTree : FImmutableTree (Piece κ) Unit} {ps : List (List κ)}

section Overwrites

omit [DecidableEq β] in
theorem foldlM_addWrite_eq {l : List (κ × FNode κ β)} (hl : ∀ e ∈ l, e.2.Plain F.keyComparator)
    {c : FCompoundWrite κ β} (hc : c.Plain F) (hv : c.value = none) : ∃ c' : FCompoundWrite κ β,
      l.foldlM (fun changedChildren child => changedChildren.addWrite F child.2 [.key child.1]) c =
        some c' ∧ c'.Plain F ∧ c'.value = none := by
  induction l generalizing c with
  | nil => exact ⟨c, rfl, hc, hv⟩
  | cons e l ih =>
    rw [List.forall_mem_cons] at hl
    have ha := addWrite_eq (v := e.2) (p := [e.1]) hc
    rw [List.map_singleton] at ha
    rw [List.foldlM_cons, ha]
    exact ih hl.2 (hc.add hl.1) (value_add_of_none hv)

omit [DecidableEq κ] [DecidableEq β] [F.Lawful] in
theorem shows_of_unknown (hs : Shows F W n view)
    (hi : view.cachedServerSnap.isFullyInitialized = false) (hv : W'.value = none) :
    Shows F W' m view :=
  shows_of_incomplete hs.toPlain hi fun x hx => by rw [hv] at hx; cases hx

/-- What the server has at the path is written again. -/
theorem applyServerOverwriteTo_again (hW : W.Plain F) (h : Sees F w W') (hs : Shows F W n view)
    (ha : Agree F q W W') (hx : (writesAt F W' q).value = none)
    (hf : ∀ i, (f i).Plain F.keyComparator)
    (hc : Covers F.keyComparator f acc? view.cachedEventSnap.node)
    (hroot : q = [] → view.cachedServerSnap.isFullyInitialized)
    (hfree : view.cachedServerSnap.isFullyInitialized → Free F.keyComparator n q) :
    Reaches F.keyComparator f acc? (applyServerOverwriteTo F view (q.map .key)
      (view.cachedServerSnap.node.find F.keyComparator q) w acc?) (Shows F W' n) := by
  have hW' := h.plain_writes
  have hnone := value_of_writesAt hW' hx
  have hb : (view.cachedServerSnap.isFullyInitialized || q.isEmpty) =
      view.cachedServerSnap.isFullyInitialized := by
    cases q with
    | nil => rw [hroot rfl, Bool.true_or]
    | cons k q => exact Bool.or_false _
  refine (applyServerOverwriteTo_eq h hs.toPlain hf hc (hs.server.find (p := q))).mono ?_
  rintro view' (⟨rfl, hi, -⟩ | hr)
  · exact shows_of_unknown hs hi hnone
  · rw [put_find hs.server, hb, show view.updateServerSnap view.cachedServerSnap.node
      view.cachedServerSnap.isFullyInitialized = view from rfl] at hr
    refine hr.shows hW' hs.toPlain (fun x hx => by rw [hnone] at hx; cases hx)
      (fun hi => (hs.complete hi).1) (fun x hx' => by rw [hx] at hx'; cases hx') fun _ hi => ?_
    obtain ⟨hn, he⟩ := hs.complete hi
    rw [he, lay_of_agree hW hW' (hn ▸ hs.server) ha (hfree hi)]
    exact ⟨.inl rfl, rfl⟩

/-- The children that the server is known to have are merged again. -/
theorem applyServerMergeTo_children (h : Sees F w W') (hs : Shows F W n view)
    (hnone : W'.value = none) (hi : view.cachedServerSnap.isFullyInitialized = false)
    (hf : ∀ i, (f i).Plain F.keyComparator)
    (hc : Covers F.keyComparator f acc? view.cachedEventSnap.node) :
    Reaches F.keyComparator f acc? ((view.cachedServerSnap.node.entries.foldlM
      (fun (changedChildren : FCompoundWrite κ β) child =>
        changedChildren.addWrite F child.2 [.key child.1]) FCompoundWrite.emptyWrite).bind
          fun changedChildren =>
          applyServerMergeTo F view [] changedChildren w acc?) (Shows F W' n) := by
  obtain ⟨c, hr, hpc, hcv⟩ := foldlM_addWrite_eq (c := emptyWrite) hs.server.of_mem
    plain_empty rfl
  rw [hr, Option.bind_some]
  refine (applyServerMergeTo_shows (p := []) h (shows_of_unknown (m := n) hs hi hnone) hf hc hpc
    hcv fun hi' => ?_).mono ?_
  · rw [hi] at hi'
    cases hi'
  · exact fun view' hv' => shows_of_incomplete hv'.1.toPlain (hv'.2.trans hi) hv'.1.shadowed

theorem ackUserWriteOn_shows (hA : affectedTree.value.isSome) (hW : W.Plain F) (h : Sees F w W')
    (hs : Shows F W n view) (hu : Unshadowed F q W W') (hf : ∀ i, (f i).Plain F.keyComparator)
    (hc : Covers F.keyComparator f acc? view.cachedEventSnap.node)
    (hfree : view.cachedServerSnap.isFullyInitialized → Free F.keyComparator n q) :
    Reaches F.keyComparator f acc? (ackUserWriteOn F view (q.map .key) affectedTree w acc?)
      (Shows F W' n) := by
  unfold ackUserWriteOn
  dsimp only
  rw [h.shadowingWriteAtPath_eq]
  simp only [Option.bind_eq_bind, Option.bind_some]
  cases hx : (writesAt F W' q).value with
  | some x =>
    rcases hu with rfl | ⟨-, hn⟩
    · exact .stay hc hs
    · rw [hn] at hx
      cases hx
  | none =>
    have hnone := value_of_writesAt h.plain_writes hx
    dsimp only
    rw [if_pos hA]
    split
    next hcp =>
      refine applyServerOverwriteTo_again hW h hs hu.agree hx hf hc ?_ hfree
      rintro rfl
      exact hcp
    next hcp =>
      have hi : view.cachedServerSnap.isFullyInitialized = false := by
        cases q with
        | nil => exact Bool.eq_false_iff.mpr hcp
        | cons k q =>
          rw [List.map_cons, FCacheNode.isCompleteForPath, FCacheNode.isCompleteForChild,
            Bool.or_eq_true, not_or] at hcp
          exact Bool.eq_false_iff.mpr hcp.1
      split
      next hq =>
        obtain rfl : q = [] := by simpa using hq
        exact applyServerMergeTo_children h hs hnone hi hf hc
      next => exact .stay hc (shows_of_unknown hs hi hnone)

end Overwrites

section Merges

/-- The second tree is the first without the writes of a merge at these paths, and shows
nothing where the merge was made. Below a key the trees are the same, or the merge has written
there and the second tree does not hide it. -/
def Dropped (F : FUtilities κ) (q : List κ) (ps : List (List κ)) (t u : FCompoundWrite κ β) :
    Prop :=
  t = u ∨ ps ≠ [] ∧ t.value = none ∧ (writesAt F u q).value = none ∧
    ∀ i, t.sub F.stringComparator (.key i) = u.sub F.stringComparator (.key i) ∨
      (u.sub F.stringComparator (.key i)).value = none ∧ ∃ p ∈ ps, ∃ s, q ++ p = i :: s

structure Acked (F : FUtilities κ) (W W' : FCompoundWrite κ β) (n : FNode κ β) (ks : List κ)
    (view : FViewCache κ β) : Prop where
  server : view.cachedServerSnap = ⟨n, true⟩
  complete : view.cachedEventSnap.isFullyInitialized
  same : W = W' → view.cachedEventSnap.node = lay F W n
  value : n.value? = none → view.cachedEventSnap.node.value? = none
  get : ∀ i, view.cachedEventSnap.node.get F.keyComparator i =
    if i ∈ ks then (lay F W' n).get F.keyComparator i else (lay F W n).get F.keyComparator i

structure Acking (F : FUtilities κ) (W W' : FCompoundWrite κ β) (n : FNode κ β)
    (view : FViewCache κ β) (ks : List κ) (view' : FViewCache κ β) : Prop
    extends view'.Plain F.keyComparator where
  same : view'.cachedServerSnap.isFullyInitialized = view.cachedServerSnap.isFullyInitialized
  acked : view.cachedServerSnap.isFullyInitialized → Acked F W W' n ks view'

omit [DecidableEq β] in
theorem acking_refl (hW : W.Plain F) (hs : Shows F W n view) (hv : W.value = none) :
    Acking F W W' n view [] view := by
  refine ⟨hs.toPlain, rfl, fun hi => ?_⟩
  obtain ⟨hn, he⟩ := hs.complete hi
  have hpn : n.Plain F.keyComparator := hn ▸ hs.server
  refine ⟨FCacheNode.ext hn hi, by rw [he], fun _ => by rw [he], fun hnv => ?_, fun i => ?_⟩
  · rw [he]
    rcases value?_lay hW hv hpn with h | ⟨i, hi⟩
    · exact h.trans hnv
    · by_contra hne
      exact hi (get_of_value?_ne (hW.lay hpn) hne)
  · rw [he, if_neg List.not_mem_nil]

omit [DecidableEq κ] [DecidableEq β] in
/-- Below a key that a write hides nothing has changed. -/
theorem Dropped.get_of_hidden (hd : Dropped F q ps W W') (hW : W.Plain F) (hW' : W'.Plain F)
    (hn : n.Plain F.keyComparator) (hv : W.value = none) (hv' : W'.value = none)
    {x : FNode κ β} (hx : (writesAt F W' [k]).value = some x) :
    (lay F W n).get F.keyComparator k = (lay F W' n).get F.keyComparator k := by
  rcases hd with rfl | ⟨-, -, -, hsub⟩
  · rfl
  · rw [writesAt_cons_of_none hv', writesAt] at hx
    rcases hsub k with he | ⟨hnone, -⟩
    · rw [get_lay hW hv hn, get_lay hW' hv' hn, he]
    · rw [hnone] at hx
      cases hx

omit [DecidableEq β] in
theorem Acked.refreshed {ks : List κ} (ha : Acked F W W' n ks view) (hd : Dropped F q ps W W')
    (hW : W.Plain F) (hW' : W'.Plain F) (hp : view.Plain F.keyComparator) (hv : W.value = none)
    (hv' : W'.value = none) (hk : k ∉ ks) (hr : Refreshed F W' [k] view view') :
    Acked F W W' n (k :: ks) view' := by
  have hn : n.Plain F.keyComparator := by
    have hs := hp.server
    rwa [ha.server] at hs
  cases hr with
  | hidden hx =>
    refine ⟨ha.server, ha.complete, ha.same, ha.value, fun i => ?_⟩
    by_cases hi : i = k
    · subst hi
      rw [ha.get, if_neg hk, if_pos List.mem_cons_self,
        hd.get_of_hidden hW hW' hn hv hv' hx]
    · simp [ha.get, hi]
  | @shown m hx hm hput =>
    have hl : m = view.cachedEventSnap.node.set F.keyComparator k
        ((lay F W' n).get F.keyComparator k) := by
      have hz := (hW'.sub (.key k)).lay (hn.get k)
      rw [hput (.inl ha.complete), ha.server, writesAt_cons_of_none hv', writesAt,
        get_lay hW' hv' hn]
      dsimp only
      rw [find_cons]
      exact put_cons (n := view.cachedEventSnap.node) (k := k) (p := []) hz
    have hc := (hW'.lay hn).get k
    subst hl
    refine ⟨ha.server, ?_, fun he => ?_, fun hnv => ?_, fun i => ?_⟩
    · change (view.cachedEventSnap.isFullyInitialized || _) = true
      rw [ha.complete, Bool.true_or]
    · change view.cachedEventSnap.node.set F.keyComparator k _ = _
      rw [ha.same he, ← he, set_get (hW.lay hn)]
    · change (view.cachedEventSnap.node.set F.keyComparator k _).value? = none
      rw [value?_set hc hp.event, ha.value hnv, ite_self]
    · change (view.cachedEventSnap.node.set F.keyComparator k _).get F.keyComparator i = _
      by_cases hi : i = k
      · subst hi
        rw [get_set_self hp.event hc, if_pos List.mem_cons_self]
      · rw [get_set_of_ne hp.event hc fun he => hi (Std.LawfulEqCmp.eq_of_compare he), ha.get]
        simp [hi]

/-- What the server has at the paths of a merge is written again, child by child. -/
theorem merges_acking (h : Sees F w W') (hW : W.Plain F) (hs : Shows F W n view)
    (hd : Dropped F q ps W W') (hv : W.value = none) (hv' : W'.value = none)
    (hf : ∀ i, (f i).Plain F.keyComparator) (hA : A.Plain F) (hAv : A.value = none)
    (hlay : view.cachedServerSnap.isFullyInitialized → lay F A n = n) :
    Merges F f A w view (Acking F W W' n view) := by
  intro k ks view' acc? child hc hm hchild hk hks
  obtain ⟨_, t⟩ := child
  obtain rfl : _ = Piece.key k := hk
  have ht : t = A.sub F.stringComparator (.key k) := (child_of_mem hA.pruned.ordered hchild).symm
  have hsrv := hs.server.get k
  have hpt := hA.of_mem _ hchild
  unfold applyChildMerge
  dsimp only
  rw [applyToNode_eq hpt hsrv]
  refine (applyServerOverwriteTo_eq (p := [k]) h hm.toPlain hf hc (hpt.lay hsrv)).mono ?_
  rintro view'' (⟨rfl, hi, -⟩ | hr)
  · exact ⟨hm.toPlain, hm.same, fun hi' => by rw [← hm.same, hi] at hi'; cases hi'⟩
  · have hsame : view''.cachedServerSnap.isFullyInitialized =
        view.cachedServerSnap.isFullyInitialized := by
      rw [hr.server, ← hm.same]
      exact Bool.or_false _
    have hplain : view''.Plain F.keyComparator := by
      have hsp := hm.server.put (p := [k]) (hpt.lay hsrv)
      cases hr with
      | hidden => exact ⟨hm.event, hsp⟩
      | shown _ hm' => exact ⟨hm', hsp⟩
    refine ⟨hplain, hsame, fun hi => ?_⟩
    have ha := hm.acked hi
    have hn : n.Plain F.keyComparator := (hs.complete hi).1 ▸ hs.server
    -- the server is told what it has
    have hput : view'.updateServerSnap (view'.cachedServerSnap.node.put F.keyComparator [k]
        (lay F t (view.cachedServerSnap.node.get F.keyComparator k)))
          (view'.cachedServerSnap.isFullyInitialized || [k].isEmpty) = view' := by
      rw [(hs.complete hi).1, ht, ← get_lay hA hAv hn, hlay hi, ha.server, put_cons (hn.get k)]
      change FViewCache.mk _ ⟨n.set F.keyComparator k (n.get F.keyComparator k), _⟩ = view'
      rw [set_get hn]
      exact congrArg (FViewCache.mk _) ha.server.symm
    rw [hput] at hr
    exact ha.refreshed hd hW h.plain_writes hm.toPlain hv hv' hks hr

omit [DecidableEq β] in
theorem ackedChildren_eq {snap : FCacheNode κ β} (hs : snap.node.Plain F.keyComparator)
    (hps : affectedTree.forEach [] = ps.map fun p => (p.map .key, ())) :
    ackedChildren F snap (q.map .key) affectedTree = some (layer F
      ((ps.filter fun p => snap.isCompleteForPath F.keyComparator ((q ++ p).map .key)).map
        fun p => (p, snap.node.find F.keyComparator (q ++ p))) FImmutableTree.empty) := by
  unfold ackedChildren
  rw [hps, List.foldlM_map]
  have hstart : (emptyWrite : FCompoundWrite κ β).Plain F := plain_empty
  clear hps
  change List.foldlM _ (emptyWrite : FCompoundWrite κ β) ps = some (layer F _ emptyWrite)
  generalize (emptyWrite : FCompoundWrite κ β) = c at hstart ⊢
  induction ps generalizing c with
  | nil => rfl
  | cons p ps ih =>
    rw [List.foldlM_cons]
    dsimp only
    rw [← List.map_append]
    by_cases hb : snap.isCompleteForPath F.keyComparator ((q ++ p).map .key)
    · have hall : (p :: ps).filter (fun p => snap.isCompleteForPath F.keyComparator
          ((q ++ p).map .key)) = p :: ps.filter _ := List.filter_cons_of_pos hb
      rw [if_pos hb, hall, addWrite_eq hstart]
      exact ih _ (hstart.add hs.find)
    · have hall : (p :: ps).filter (fun p => snap.isCompleteForPath F.keyComparator
          ((q ++ p).map .key)) = ps.filter _ := List.filter_cons_of_neg hb
      rw [if_neg hb, hall]
      exact ih _ hstart

omit [DecidableEq κ] [DecidableEq β] [F.Lawful] in
theorem isCompleteForPath_of_complete {snap : FCacheNode κ β} {path : List (Piece κ)}
    (h : snap.isFullyInitialized) : snap.isCompleteForPath F.keyComparator path := by
  cases path with
  | nil => exact h
  | cons front path => exact Bool.or_eq_true_iff.mpr (.inl h)

omit [DecidableEq κ] [DecidableEq β] [F.Lawful] in
theorem free_find {r : List κ} (h : Free F.keyComparator n (q ++ r)) :
    Free F.keyComparator (n.find F.keyComparator q) r := by
  induction q generalizing n with
  | nil => exact h
  | cons k q ih =>
    rw [find_cons]
    exact ih h.2

omit [DecidableEq β] in
theorem lay_again (hn : n.Plain F.keyComparator)
    (hfree : ∀ p ∈ ps, Free F.keyComparator n (q ++ p)) :
    lay F (mergeOf F q (layer F (ps.map fun p => (p, n.find F.keyComparator (q ++ p)))
      FImmutableTree.empty)) n = n := by
  have hes : ∀ e ∈ ps.map fun p => (p, n.find F.keyComparator (q ++ p)),
      e.2.Plain F.keyComparator := by
    intro e he
    obtain ⟨p, -, rfl⟩ := List.mem_map.mp he
    exact hn.find
  have hf : ∀ e ∈ ps.map fun p => (p, n.find F.keyComparator (q ++ p)), e.2.isEmpty →
      Free F.keyComparator (n.find F.keyComparator q) e.1 := by
    intro e he _
    obtain ⟨p, hp, rfl⟩ := List.mem_map.mp he
    exact free_find (hfree p hp)
  rw [lay_mergeOf (plain_empty.layer hes) hn, lay_layer plain_empty hes hn.find hf, lay_empty]
  suffices hfold : (ps.map fun p => (p, n.find F.keyComparator (q ++ p))).foldl
      (fun n e => n.put F.keyComparator e.1 e.2) (n.find F.keyComparator q) =
        n.find F.keyComparator q by
    rw [hfold, put_find hn]
  clear hes hf hfree
  induction ps with
  | nil => rfl
  | cons p ps ih =>
    rw [List.map_cons, List.foldl_cons]
    dsimp only
    rw [find_append, put_find hn.find]
    exact ih

omit [DecidableEq β] in
theorem sub_mergeOf_ne {es : List (List κ × FNode κ β)} (hes : ∀ e ∈ es, e.2.Plain F.keyComparator)
    (hne : ∀ e ∈ es, e.1 ≠ []) {e : List κ × FNode κ β} (he : e ∈ es) {s : List κ}
    (hk : q ++ e.1 = k :: s) : (mergeOf F q (layer F es FImmutableTree.empty)).sub
      F.stringComparator (.key k) ≠ FImmutableTree.empty := by
  have hpc : (layer F es (FImmutableTree.empty : FCompoundWrite κ β)).Plain F :=
    plain_empty.layer hes
  have hsome :
      (writesAt F (mergeOf F q (layer F es FImmutableTree.empty)) (q ++ e.1)).value.isSome := by
    rw [isSome_writesAt_layer (plain_under hpc.leaves)]
    have hc : (writesAt F (layer F (leaves (layer F es FImmutableTree.empty))
        FImmutableTree.empty) e.1).value.isSome := by
      rw [layer_leaves hpc, isSome_writesAt_layer hes]
      exact ⟨e, he, List.prefix_rfl⟩
    obtain ⟨d, hd, hde⟩ := (isSome_writesAt_layer hpc.leaves).mp hc
    exact ⟨_, List.mem_map_of_mem hd, (List.prefix_append_right_inj q).mpr hde⟩
  intro hemp
  rw [hk, writesAt_cons_of_none (value_mergeOf hpc (value_layer_of_none rfl hne)), hemp,
    writesAt_empty] at hsome
  cases hsome

omit [DecidableEq β] in
theorem Acked.shows {ks : List κ} (ha : Acked F W W' n ks view) (hd : Dropped F q ps W W')
    (hW : W.Plain F) (hW' : W'.Plain F) (hp : view.Plain F.keyComparator) (hv : W.value = none)
    (hv' : W'.value = none) (hne : ∀ p ∈ ps, p ≠ [])
    (hfree : ∀ p ∈ ps, Free F.keyComparator n (q ++ p))
    (hks : ∀ p ∈ ps, ∀ i s, q ++ p = i :: s → i ∈ ks) : Shows F W' n view := by
  have hn : n.Plain F.keyComparator := by
    have hs := hp.server
    rwa [ha.server] at hs
  refine ⟨hp, fun _ => ⟨by rw [ha.server], FCacheNode.ext ?_ ha.complete⟩, fun x hx => ?_⟩
  · rcases hd with rfl | ⟨hps, -, -, hsub⟩
    · exact ha.same rfl
    · obtain ⟨p, hmem⟩ := List.exists_mem_of_ne_nil ps hps
      have hnv : n.value? = none := by
        have hf := hfree p hmem
        obtain ⟨i, s, hs⟩ := List.exists_cons_of_ne_nil (List.append_ne_nil_of_right_ne_nil q
          (hne p hmem))
        rw [hs] at hf
        exact hf.1
      refine ext_over hp.event (hW'.lay hn) (.inl ((ha.value hnv).trans hnv.symm))
        (value?_lay hW' hv' hn) fun i => ?_
      rw [ha.get]
      by_cases hi : i ∈ ks
      · rw [if_pos hi]
      · rw [if_neg hi]
        rcases hsub i with he | ⟨-, p, hp, s, hs⟩
        · rw [get_lay hW hv hn, get_lay hW' hv' hn, he]
        · exact absurd (hks p hp i s hs) hi
  · rw [hv'] at hx
    cases hx

/-- What the server is known to have at the paths of the merge is merged again. -/
theorem applyServerMergeTo_acked {es : List (List κ × FNode κ β)}
    (hes : es = (ps.filter fun p =>
      view.cachedServerSnap.isCompleteForPath F.keyComparator ((q ++ p).map .key)).map
        fun p => (p, view.cachedServerSnap.node.find F.keyComparator (q ++ p)))
    (hne : ∀ p ∈ ps, p ≠ []) (hW : W.Plain F) (h : Sees F w W') (hs : Shows F W n view)
    (hd : Dropped F q ps W W') (hv : W.value = none) (hv' : W'.value = none)
    (hf : ∀ i, (f i).Plain F.keyComparator)
    (hc : Covers F.keyComparator f acc? view.cachedEventSnap.node)
    (hfree : ∀ p ∈ ps, Free F.keyComparator n (q ++ p)) :
    Reaches F.keyComparator f acc? (applyServerMergeTo F view (q.map .key)
      (layer F es FImmutableTree.empty) w acc?) (Shows F W' n) := by
  have hpes : ∀ e ∈ es, e.2.Plain F.keyComparator := by
    intro e he
    obtain ⟨p, -, rfl⟩ := List.mem_map.mp (hes ▸ he)
    exact hs.server.find
  have hnes : ∀ e ∈ es, e.1 ≠ [] := by
    intro e he
    obtain ⟨p, hp, rfl⟩ := List.mem_map.mp (hes ▸ he)
    exact hne p (List.mem_filter.mp hp).1
  have hpc := (plain_empty (F := F)).layer hpes
  have hcv : (layer F es (FImmutableTree.empty : FCompoundWrite κ β)).value = none :=
    value_layer_of_none rfl hnes
  have hlay : view.cachedServerSnap.isFullyInitialized →
      lay F (mergeOf F q (layer F es FImmutableTree.empty)) n = n := by
    intro hi
    rw [hes, (hs.complete hi).1]
    exact lay_again ((hs.complete hi).1 ▸ hs.server)
      fun p hp => hfree p (List.mem_filter.mp hp).1
  have hM := merges_acking h hW hs hd hv hv' hf (plain_mergeOf (p := q) hpc)
    (value_mergeOf hpc hcv) hlay
  refine (applyServerMergeTo_eq hpc hM hc (acking_refl hW hs hv)).mono ?_
  rintro view' (⟨rfl, hi⟩ | ⟨ks, hack, hall⟩)
  · exact shows_of_unknown hs hi hv'
  · cases hi : view.cachedServerSnap.isFullyInitialized with
    | false =>
      exact shows_of_incomplete hack.toPlain (hack.same.trans hi)
        fun x hx => by rw [hv'] at hx; cases hx
    | true =>
      refine (hack.acked hi).shows hd hW h.plain_writes hack.toPlain hv hv' hne hfree
        fun p hp i s hqs => ?_
      have hmem : (p, view.cachedServerSnap.node.find F.keyComparator (q ++ p)) ∈ es := by
        rw [hes]
        exact List.mem_map.mpr ⟨p, List.mem_filter.mpr
          ⟨hp, isCompleteForPath_of_complete hi⟩, rfl⟩
      exact hall hi i (sub_mergeOf_ne hpes hnes hmem hqs)

/-- The answer to a merge. -/
theorem ackUserWriteOn_merged (hA : affectedTree.value = none)
    (hps : affectedTree.forEach [] = ps.map fun p => (p.map .key, ()))
    (hne : ∀ p ∈ ps, p ≠ []) (hW : W.Plain F) (h : Sees F w W') (hs : Shows F W n view)
    (hd : Dropped F q ps W W') (hf : ∀ i, (f i).Plain F.keyComparator)
    (hc : Covers F.keyComparator f acc? view.cachedEventSnap.node)
    (hfree : ∀ p ∈ ps, Free F.keyComparator n (q ++ p)) :
    Reaches F.keyComparator f acc? (ackUserWriteOn F view (q.map .key) affectedTree w acc?)
      (Shows F W' n) := by
  unfold ackUserWriteOn
  dsimp only
  rw [h.shadowingWriteAtPath_eq]
  simp only [Option.bind_eq_bind, Option.bind_some]
  cases hx : (writesAt F W' q).value with
  | some x =>
    rcases hd with rfl | ⟨-, -, hn, -⟩
    · exact .stay hc hs
    · rw [hn] at hx
      cases hx
  | none =>
    have hv' := value_of_writesAt h.plain_writes hx
    have hv : W.value = none := by
      rcases hd with rfl | ⟨-, hv, -⟩
      · exact hv'
      · exact hv
    dsimp only
    rw [if_neg (by simp [hA]), ackedChildren_eq hs.server hps, Option.bind_some]
    exact applyServerMergeTo_acked rfl hne hW h hs hd hv hv' hf hc hfree

end Merges

section Reverts

theorem revertedEventCache_shows (hW : W.Plain F) (h : Sees F w W') (hs : Shows F W n view)
    (ha : Agree F q W W') (hx : (writesAt F W' q).value = none)
    (hf : ∀ i, (f i).Plain F.keyComparator)
    (hc : Covers F.keyComparator f acc? view.cachedEventSnap.node) : ∃ m,
      m.Plain F.keyComparator ∧
      Tracks F.keyComparator f acc? (revertedEventCache F view (q.map .key) w acc?) m ∧
      (view.cachedServerSnap.isFullyInitialized → m = lay F W' n) := by
  have hW' := h.plain_writes
  cases q with
  | nil =>
    obtain ⟨m, hr, hm, hx⟩ := revertedNode_eq h hs.toPlain
    refine ⟨m, hm, ?_, fun hi => by rw [hx hi, (hs.complete hi).1]⟩
    rw [List.map_nil]
    simp only [revertedEventCache, hr, Option.bind_eq_bind, Option.bind_some]
    exact tracks_updateFullNode hs.event hm hf hc
  | cons k q =>
    obtain ⟨m, hm, ⟨acc?', hr, hsome, hc'⟩, hx'⟩ :=
      revertedChild_eq (k := k) (p := q) h hs.toPlain hf hc
    obtain ⟨m', hm', ⟨acc?'', hr', hsome', hc''⟩, hx''⟩ := restoredLeaf_eq h hs.toPlain hf hm hc'
    refine ⟨m', hm', ⟨acc?'', ?_, hsome'.trans hsome, hc''⟩, fun hi => ?_⟩
    · rw [List.map_cons]
      simp only [revertedEventCache, hr, Option.bind_eq_bind, Option.bind_some]
      exact hr'
    · obtain ⟨hn, he⟩ := hs.complete hi
      have hpn : n.Plain F.keyComparator := hn ▸ hs.server
      have hnone := value_of_writesAt hW' hx
      obtain ⟨c, hcl, hmc⟩ := hx' hi
      rw [hn, writesAt_cons_of_none hnone, writesAt, ← get_lay hW' hnone hpn] at hcl
      rw [he, hcl] at hmc
      rw [hx'' hi, hn]
      rcases hmc with hmc | ⟨hmc, hfind⟩
      · exact lay_of_agree_cons hW hW' hpn ha hmc
      · -- what is shown has been right already
        rw [← find_cons, ← find_cons] at hfind
        rw [hmc, eq_of_agree hW hW' hpn ha hfind, ite_self]

theorem revertUserWriteOn_shows (hW : W.Plain F) (h : Sees F w W') (hs : Shows F W n view)
    (hu : Unshadowed F q W W') (hf : ∀ i, (f i).Plain F.keyComparator)
    (hc : Covers F.keyComparator f acc? view.cachedEventSnap.node) :
    Reaches F.keyComparator f acc? (revertUserWriteOn F view (q.map .key) w acc?)
      (Shows F W' n) := by
  have hW' := h.plain_writes
  unfold revertUserWriteOn
  rw [h.shadowingWriteAtPath_eq]
  simp only [Option.bind_eq_bind, Option.bind_some]
  cases hx : (writesAt F W' q).value with
  | some x =>
    rcases hu with rfl | ⟨-, hn⟩
    · exact .stay hc hs
    · rw [hn] at hx
      cases hx
  | none =>
    have hnone := value_of_writesAt hW' hx
    obtain ⟨m, hm, ⟨acc?', hr, hsome, hc'⟩, hxm⟩ :=
      revertedEventCache_shows hW h hs hu.agree hx hf hc
    have hroot := h.shadowingWriteAtPath_eq (p := [])
    rw [List.map_nil, writesAt, hnone] at hroot
    simp only [hr, Option.bind_some, hroot, Option.isSome_none, Bool.or_false]
    refine ⟨_, acc?', rfl, hsome, hc', ⟨hm, hs.server⟩, fun hi => ?_, fun x hv => ?_⟩
    · refine ⟨(hs.complete hi).1, ?_⟩
      change FCacheNode.mk m _ = _
      rw [hxm hi, show view.cachedServerSnap.isFullyInitialized = true from hi]
    · rw [hnone] at hv
      cases hv

end Reverts

end FViewProcessor

end Treena.Firebase
