import Treena.Firebase.Turns

/-! # Trees of views

An operation is applied to every view of a tree that it concerns, and every view shows what it
has to after it.
-/

namespace Treena.Firebase

open Sorted FNode FCompoundWrite

variable {κ β : Type} {F : FUtilities κ}

/-- Something holds of all views of a tree, each with its path. Places are under keys. -/
inductive AllViews (F : FUtilities κ) :
    (List κ → FView κ β → Prop) → FSyncPointTree κ β → Prop
  | mk {P : List κ → FView κ β → Prop} {value : Option (FSyncPoint κ β)}
      {l : List (Piece κ × FSyncPointTree κ β)} : Ordered F.stringComparator l →
      (∀ c ∈ l, c.1.isPriority = false) →
      (∀ syncPoint ∈ value, ∀ view ∈ syncPoint.view, P [] view) →
      (∀ k c, (.key k, c) ∈ l → AllViews F (fun q => P (k :: q)) c) → AllViews F P ⟨value, l⟩

/-- A view shows the data of the server under the writes, and its registrations know. -/
def Informed (F : FUtilities κ) (W : FCompoundWrite κ β) (n : FNode κ β) (q : List κ)
    (view : FView κ β) : Prop :=
  Shows F (writesAt F W q) (n.find F.keyComparator q) view.viewCache ∧
    (view.viewCache.cachedEventSnap.isFullyInitialized →
      ∀ r ∈ view.eventRegistrations, r.raised = some view.viewCache.cachedEventSnap.node)

def Kept (F : FUtilities κ) (P : List κ → FView κ β → Prop) (W : FCompoundWrite κ β)
    (n : FNode κ β) (q : List κ) (view : FView κ β) : Prop :=
  (∃ old, P q old) ∧ Informed F W n q view

/-- The server says that it has told all only where the view has it. -/
def Ready (F : FUtilities κ) (op : FOperation κ β) (n : FNode κ β) (q : List κ)
    (view : FView κ β) : Prop :=
  ∀ p, op = .listenComplete (p.map .key) → p <+: q →
    view.viewCache.cachedServerSnap.node = n.find F.keyComparator q

section AllViews

variable {P Q : List κ → FView κ β → Prop} {T : FSyncPointTree κ β}

theorem AllViews.mono (h : AllViews F P T) (hPQ : ∀ q view, P q view → Q q view) :
    AllViews F Q T := by
  induction h generalizing Q with
  | mk ho hp hv _ ih =>
    exact .mk ho hp (fun sp hsp view hview => hPQ _ _ (hv sp hsp view hview))
      fun k c hc => ih k c hc fun q view hP => hPQ (k :: q) view hP

end AllViews

section Views

variable [DecidableEq κ] [DecidableEq β] [F.Lawful] {es es' : List (List κ × FNode κ β)}
  {n n' : FNode κ β} {op : FOperation κ β} {w : FWriteTreeRef κ β} {view : FView κ β}
  {cache : Option (FNode κ β)}

theorem FView.applyOperation_informed (h : Turns F es n op es' n')
    (hes : ∀ e ∈ es, e.2.Plain F.keyComparator) (hn : n.Plain F.keyComparator)
    (hub : Unblocked F es n) (hw : Sees F w (layer F es' FImmutableTree.empty))
    (hcache : ∀ c ∈ cache, c.Plain F.keyComparator)
    (hv : Informed F (layer F es FImmutableTree.empty) n [] view) (hr : Ready F op n [] view) :
    ∃ view', view.applyOperation F op w cache = some view' ∧
      Informed F (layer F es' FImmutableTree.empty) n' [] view' := by
  have hm := h.moves hes hn hub fun hop => hr [] hop List.prefix_rfl
  obtain ⟨result, happ, hs, -, hval⟩ :=
    FViewProcessor.applyOperationOn_shows (plain_empty.layer hes) hv.1 hm hw hcache
  refine ⟨⟨result.viewCache, view.eventRegistrations.map (.raise result.value)⟩, ?_, hs,
    fun hi x hx => ?_⟩
  · rw [FView.applyOperation, happ]
    rfl
  obtain ⟨r, hr, rfl⟩ := List.mem_map.mp hx
  rcases hval hi with hval | ⟨hval, he⟩
  · rw [hval]
    rfl
  · rw [hval, ← he]
    exact hv.2 (he ▸ hi) r hr

end Views

section Children

variable [DecidableEq κ] {es es' : List (List κ × FNode κ β)} {n n' : FNode κ β}
  {op op' : FOperation κ β} {w : FWriteTreeRef κ β} {W : FCompoundWrite κ β} {view : FView κ β}
  {k : κ} {q : List κ} {cache : Option (FNode κ β)} {T : FSyncPointTree κ β}

omit [DecidableEq κ] in
theorem Sees.child (h : Sees F w W) :
    Sees F (w.childWriteTreeRef (.key k)) (writesAt F W [k]) := by
  have hk : keys (w.path ++ [.key k]) = keys w.path ++ [k] := List.filterMap_append
  have hp : w.path ++ [.key k] = (keys (w.path ++ [.key k])).map .key := by
    rw [hk, List.map_append, ← h.path]
    rfl
  refine ⟨hp, h.plain, ?_⟩
  rw [h.eq, ← writesAt_append h.plain]
  exact congrArg (writesAt F w.writeTree.visibleWrites) hk.symm

theorem informed_cons [F.Lawful] (hes : ∀ e ∈ es, e.2.Plain F.keyComparator) :
    Informed F (layer F es FImmutableTree.empty) n (k :: q) view ↔
      Informed F (layer F (seenFrom F k es) FImmutableTree.empty) (n.get F.keyComparator k) q
        view := by
  have hw : writesAt F (layer F es FImmutableTree.empty) (k :: q) =
      writesAt F (layer F (seenFrom F k es) FImmutableTree.empty) q := by
    rw [← writesAt_seenFrom hes, ← writesAt_append (plain_empty.layer hes)]
    rfl
  unfold Informed
  rw [hw, find_cons]

omit [DecidableEq κ] in
theorem Ready.child (h : Ready F op n (k :: q) view) (hp : op'.path = op.path.tail)
    (hk : op.path = [] ∨ op.path.head? = some (.key k))
    (hl : ∀ p, op' = .listenComplete p → op = .listenComplete op.path) :
    Ready F op' (n.get F.keyComparator k) q view := by
  intro p hop hpq
  have hl := hl _ hop
  rw [← find_cons]
  rw [hop] at hp
  rcases hk with hk | hk
  · rw [hk] at hl
    exact h [] hl List.nil_prefix
  · refine h (k :: p) ?_ (List.cons_prefix_cons.mpr ⟨rfl, hpq⟩)
    rw [hl]
    congr 1
    rw [List.map_cons, show p.map Piece.key = op.path.tail from hp]
    exact (List.cons_head?_tail hk).symm

omit [DecidableEq κ] in
theorem plain_resolveServerCache [DecidableEq β] {value : Option (FSyncPoint κ β)}
    (hcache : ∀ c ∈ cache, c.Plain F.keyComparator)
    (hv : ∀ syncPoint ∈ value, ∀ view ∈ syncPoint.view,
      view.viewCache.cachedServerSnap.node.Plain F.keyComparator) :
    ∀ c ∈ FSyncTree.resolveServerCache F.keyComparator cache value, c.Plain F.keyComparator := by
  intro c hc
  unfold FSyncTree.resolveServerCache at hc
  split at hc
  · obtain ⟨sp, hsp, hc⟩ := Option.bind_eq_some_iff.mp hc
    obtain ⟨view, hview, hc⟩ := Option.bind_eq_some_iff.mp hc
    obtain ⟨m, hm, rfl⟩ := Option.map_eq_some_iff.mp hc
    unfold FViewCache.completeServerSnap at hm
    split at hm
    · obtain rfl := Option.some.inj hm
      exact hv sp hsp view hview
    · cases hm
  · exact hcache c hc

omit [DecidableEq κ] in
theorem plain_childCache (hcache : ∀ c ∈ cache, c.Plain F.keyComparator) :
    ∀ c ∈ cache.map (·.getImmediateChild F.keyComparator (.key k)), c.Plain F.keyComparator := by
  intro c hc
  obtain ⟨m, hm, rfl⟩ := Option.map_eq_some_iff.mp hc
  exact (hcache m hm).get k

theorem AllViews.stay [F.Lawful] {P : List κ → FView κ β → Prop}
    (h : AllViews F (fun q => P (k :: q)) T) (hes : ∀ e ∈ es, e.2.Plain F.keyComparator)
    (hes' : ∀ e ∈ es', e.2.Plain F.keyComparator)
    (hP : ∀ q view, P q view → Informed F (layer F es FImmutableTree.empty) n q view)
    (hs : seenFrom F k es' = seenFrom F k es)
    (hn : n'.get F.keyComparator k = n.get F.keyComparator k) :
    AllViews F (fun q => Kept F P (layer F es' FImmutableTree.empty) n' (k :: q)) T := by
  refine h.mono fun q view hv => ⟨⟨view, hv⟩, ?_⟩
  rw [informed_cons hes', hs, hn, ← informed_cons hes]
  exact hP _ _ hv

end Children

section Trees

variable [DecidableEq κ] {es es' : List (List κ × FNode κ β)} {n n' : FNode κ β}
  {op op' : FOperation κ β} {w : FWriteTreeRef κ β} {k : κ} {cache : Option (FNode κ β)}
  {T : FSyncPointTree κ β} {P : List κ → FView κ β → Prop} {value : Option (FSyncPoint κ β)}

/-- What is assumed of the views of a tree before a turn. -/
structure Waiting (F : FUtilities κ) (es : List (List κ × FNode κ β)) (n : FNode κ β)
    (op : FOperation κ β) (P : List κ → FView κ β → Prop) : Prop where
  informed : ∀ q view, P q view → Informed F (layer F es FImmutableTree.empty) n q view
  ready : ∀ q view, P q view → Ready F op n q view

omit [DecidableEq κ] in
theorem Waiting.plain (h : Waiting F es n op P)
    (hv : ∀ syncPoint ∈ value, ∀ view ∈ syncPoint.view, P [] view) :
    ∀ syncPoint ∈ value, ∀ view ∈ syncPoint.view,
      view.viewCache.cachedServerSnap.node.Plain F.keyComparator :=
  fun sp hsp view hview => (h.informed _ _ (hv sp hsp view hview)).1.server

variable [F.Lawful]

theorem Waiting.child (h : Waiting F es n op P) (hes : ∀ e ∈ es, e.2.Plain F.keyComparator)
    (hp : op'.path = op.path.tail) (hk : op.path = [] ∨ op.path.head? = some (.key k))
    (hl : ∀ p, op' = .listenComplete p → op = .listenComplete op.path) :
    Waiting F (seenFrom F k es) (n.get F.keyComparator k) op' fun q => P (k :: q) :=
  ⟨fun _ _ hv => (informed_cons hes).mp (h.informed _ _ hv),
    fun _ _ hv => (h.ready _ _ hv).child hp hk hl⟩

theorem AllViews.of_child (hes' : ∀ e ∈ es', e.2.Plain F.keyComparator)
    (h : AllViews F (Kept F (fun q => P (k :: q)) (layer F (seenFrom F k es') FImmutableTree.empty)
      (n'.get F.keyComparator k)) T) :
    AllViews F (fun q => Kept F P (layer F es' FImmutableTree.empty) n' (k :: q)) T :=
  h.mono fun _ _ hv => ⟨hv.1, (informed_cons hes').mpr hv.2⟩

variable [DecidableEq β]

theorem mapM_applyOperation (h : Turns F es n op es' n')
    (hes : ∀ e ∈ es, e.2.Plain F.keyComparator) (hn : n.Plain F.keyComparator)
    (hub : Unblocked F es n) (hw : Sees F w (layer F es' FImmutableTree.empty))
    (hcache : ∀ c ∈ cache, c.Plain F.keyComparator) (hP : Waiting F es n op P)
    (hv : ∀ syncPoint ∈ value, ∀ view ∈ syncPoint.view, P [] view) :
    ∃ value', value.mapM (·.applyOperation F op w cache) = some value' ∧
      ∀ syncPoint ∈ value', ∀ view ∈ syncPoint.view,
        Kept F P (layer F es' FImmutableTree.empty) n' [] view := by
  cases value with
  | none => exact ⟨none, rfl, nofun⟩
  | some syncPoint =>
    obtain ⟨view?⟩ := syncPoint
    cases view? with
    | none =>
      refine ⟨some ⟨none⟩, rfl, fun sp hsp => ?_⟩
      obtain rfl := Option.some.inj hsp
      exact nofun
    | some view =>
      have hview := hv _ rfl view rfl
      obtain ⟨view', happ, hinf⟩ := view.applyOperation_informed h hes hn hub hw hcache
        (hP.informed _ _ hview) (hP.ready _ _ hview)
      refine ⟨some ⟨some view'⟩, ?_, fun sp hsp view₂ hv₂ => ?_⟩
      · simp [FSyncPoint.applyOperation, happ]
      · obtain rfl := Option.some.inj hsp
        obtain rfl := Option.some.inj hv₂
        exact ⟨⟨view, hview⟩, hinf⟩

omit [F.Lawful] [DecidableEq κ] [DecidableEq β] in
theorem AllViews.of_keys {Q : List κ → FView κ β → Prop}
    {l r : List (Piece κ × FSyncPointTree κ β)} (ho : Ordered F.stringComparator l)
    (hp : ∀ c ∈ l, c.1.isPriority = false) (hkeys : r.map Prod.fst = l.map Prod.fst)
    (hv : ∀ syncPoint ∈ value, ∀ view ∈ syncPoint.view, Q [] view)
    (hc : ∀ k c, (.key k, c) ∈ r → AllViews F (fun q => Q (k :: q)) c) :
    AllViews F Q ⟨value, r⟩ := by
  refine .mk ?_ (fun c hm => ?_) hv hc
  · have hpw : (l.map Prod.fst).Pairwise fun x y => F.stringComparator x y = .lt :=
      List.pairwise_map.mpr ho
    rw [← hkeys] at hpw
    exact List.pairwise_map.mp hpw
  · have hm : c.1 ∈ l.map Prod.fst := hkeys ▸ List.mem_map_of_mem hm
    obtain ⟨d, hd, hdc⟩ := List.mem_map.mp hm
    exact hdc ▸ hp d hd

omit [DecidableEq κ] [DecidableEq β] in
theorem AllViews.upsert {Q : List κ → FView κ β → Prop} {l : List (Piece κ × FSyncPointTree κ β)}
    (ho : Ordered F.stringComparator l) (hp : ∀ c ∈ l, c.1.isPriority = false)
    (hv : ∀ syncPoint ∈ value, ∀ view ∈ syncPoint.view, Q [] view)
    (hk : AllViews F (fun q => Q (k :: q)) T)
    (hc : ∀ i c, i ≠ k → (.key i, c) ∈ l → AllViews F (fun q => Q (i :: q)) c) :
    AllViews F Q ⟨value, Sorted.upsert F.stringComparator (.key k) T l⟩ := by
  refine .mk ho.upsert (fun c hm => ?_) hv fun i c hm => ?_
  · rcases (mem_upsert_iff ho).mp hm with ⟨hx, -⟩ | ⟨-, hm⟩
    · rw [hx]
      rfl
    · exact hp c hm
  · rcases (mem_upsert_iff ho).mp hm with ⟨hx, rfl⟩ | ⟨hx, hm⟩
    · obtain rfl := Piece.key.inj hx
      exact hk
    · exact hc i c (fun hi => hx (congrArg Piece.key hi)) hm

omit [F.Lawful] in
/-- Children are gone through in turn, each by itself. -/
theorem applyToChildren_eq {Q : κ → FSyncPointTree κ β → Prop}
    {l : List (Piece κ × FSyncPointTree κ β)} (hp : ∀ c ∈ l, c.1.isPriority = false)
    (hchild : ∀ k c, (.key k, c) ∈ l → ∃ c', Q k c' ∧ ∀ rest r,
      FSyncTree.applyOperationDescendantsHelper.applyToChildren F op cache w rest = some r →
      FSyncTree.applyOperationDescendantsHelper.applyToChildren F op cache w
        ((.key k, c) :: rest) = some ((.key k, c') :: r)) :
    ∃ r, FSyncTree.applyOperationDescendantsHelper.applyToChildren F op cache w l = some r ∧
      r.map Prod.fst = l.map Prod.fst ∧ ∀ k c, (.key k, c) ∈ r → Q k c := by
  induction l with
  | nil => exact ⟨[], rfl, rfl, nofun⟩
  | cons child rest ih =>
    obtain ⟨r, hr, hkeys, hall⟩ := ih (fun c hc => hp c (List.mem_cons_of_mem _ hc))
      fun k c hc => hchild k c (List.mem_cons_of_mem _ hc)
    obtain ⟨x, c⟩ := child
    cases x with
    | priority => exact absurd (hp _ List.mem_cons_self) (by simp [Piece.isPriority])
    | key k =>
      obtain ⟨c', hQ, hc'⟩ := hchild k c List.mem_cons_self
      refine ⟨(.key k, c') :: r, hc' rest r hr, congrArg (Piece.key k :: ·) hkeys,
        fun i d hd => ?_⟩
      rcases List.mem_cons.mp hd with hd | hd
      · obtain ⟨hik, rfl⟩ := Prod.mk.inj hd
        obtain rfl := Piece.key.inj hik
        exact hQ
      · exact hall i d hd

/-- An operation at the root is applied to all views of the tree. -/
theorem applyOperationDescendantsHelper_eq (hT : AllViews F P T) (h : Turns F es n op es' n')
    (hop : op.path = []) (hes : ∀ e ∈ es, e.2.Plain F.keyComparator)
    (hn : n.Plain F.keyComparator) (hub : Unblocked F es n)
    (hw : Sees F w (layer F es' FImmutableTree.empty))
    (hcache : ∀ c ∈ cache, c.Plain F.keyComparator) (hP : Waiting F es n op P) :
    ∃ T', FSyncTree.applyOperationDescendantsHelper F op cache w T = some T' ∧
      AllViews F (Kept F P (layer F es' FImmutableTree.empty) n') T' := by
  induction hT generalizing es es' n n' op w cache with
  | @mk P value l ho hp hv hc ih =>
    have hes' := (h.plain hes hn).1
    have hres := plain_resolveServerCache hcache (hP.plain hv)
    obtain ⟨resolved, hresolved⟩ : ∃ resolved, resolved =
      FSyncTree.resolveServerCache F.keyComparator cache value := ⟨_, rfl⟩
    rw [← hresolved] at hres
    obtain ⟨r, hr, hkeys, hall⟩ : ∃ r,
        FSyncTree.applyOperationDescendantsHelper.applyToChildren F op resolved w l = some r ∧
          r.map Prod.fst = l.map Prod.fst ∧ ∀ k c, (.key k, c) ∈ r →
            AllViews F (fun q => Kept F P (layer F es' FImmutableTree.empty) n' (k :: q)) c := by
      refine applyToChildren_eq (Q := fun k => AllViews F fun q =>
        Kept F P (layer F es' FImmutableTree.empty) n' (k :: q)) hp fun k c hm => ?_
      -- the child with its part of the turn
      cases h.child (k := k) hn (.inl hop) with
      | @passed op' hop' hpath ht hlc =>
        obtain ⟨c', hc', hac⟩ := ih k c hm ht (by rw [hpath, hop]; rfl)
          (plain_seenFrom hes) (hn.get k) hub.child (writesAt_seenFrom hes' ▸ hw.child)
          (plain_childCache (k := k) hres) (hP.child hes hpath (.inl hop) hlc)
        refine ⟨c', hac.of_child hes', fun rest r hr => ?_⟩
        simp [FSyncTree.applyOperationDescendantsHelper.applyToChildren, hop', hc', hr]
      | dropped hop' hs hg =>
        refine ⟨c, (hc k c hm).stay hes hes' hP.informed hs hg, fun rest r hr => ?_⟩
        simp [FSyncTree.applyOperationDescendantsHelper.applyToChildren, hop', hr]
    obtain ⟨value', hvalue, hinf⟩ := mapM_applyOperation h hes hn hub hw hres hP hv
    refine ⟨⟨value', r⟩, ?_, .of_keys ho hp hkeys hinf hall⟩
    simp [FSyncTree.applyOperationDescendantsHelper, ← hresolved, hr, hvalue]

/-- An operation is applied on its path and below. -/
theorem applyOperationHelper_eq (hT : AllViews F P T) (h : Turns F es n op es' n')
    (hes : ∀ e ∈ es, e.2.Plain F.keyComparator) (hn : n.Plain F.keyComparator)
    (hub : Unblocked F es n) (hw : Sees F w (layer F es' FImmutableTree.empty))
    (hcache : ∀ c ∈ cache, c.Plain F.keyComparator) (hP : Waiting F es n op P) {path : List κ}
    (hpath : op.path = path.map .key) :
    ∃ T', FSyncTree.applyOperationHelper F op.path op T cache w = some T' ∧
      AllViews F (Kept F P (layer F es' FImmutableTree.empty) n') T' := by
  induction path generalizing es es' n n' op w cache T P with
  | nil =>
    obtain ⟨T', hT', hall⟩ :=
      applyOperationDescendantsHelper_eq hT h hpath hes hn hub hw hcache hP
    refine ⟨T', ?_, hall⟩
    rw [hpath]
    exact hT'
  | cons k path ih =>
    have hes' := (h.plain hes hn).1
    have hk : op.path.head? = some (.key k) := by rw [hpath]; rfl
    cases hT with
    | @mk _ value l ho hp hv hc =>
      have hres := plain_resolveServerCache hcache (hP.plain hv)
      obtain ⟨resolved, hresolved⟩ : ∃ resolved, resolved =
        FSyncTree.resolveServerCache F.keyComparator cache value := ⟨_, rfl⟩
      rw [← hresolved] at hres
      obtain ⟨value', hvalue, hinf⟩ := mapM_applyOperation h hes hn hub hw hres hP hv
      have hoff : ∀ i c, i ≠ k → (Piece.key i, c) ∈ l → AllViews F
          (fun q => Kept F P (layer F es' FImmutableTree.empty) n' (i :: q)) c := by
        intro i c hi hm
        obtain ⟨hs, hg⟩ := h.off hn hk hi
        exact (hc i c hm).stay hes hes' hP.informed hs hg
      rw [hpath, List.map_cons, FSyncTree.applyOperationHelper]
      cases h.child (k := k) hn (.inr hk) with
      | @passed op' hop' hp' ht hlc =>
        have hpath' : op'.path = path.map .key := by rw [hp', hpath]; rfl
        cases hl : lookup F.stringComparator (.key k) l with
        | none =>
          refine ⟨⟨value', l⟩, by simp [← hresolved, hop', hvalue],
            .mk ho hp hinf fun i c hm => hoff i c (fun hi => ?_) hm⟩
          rw [mem_iff_lookup ho, hi, hl] at hm
          cases hm
        | some child =>
          have hm : (Piece.key k, child) ∈ l := (mem_iff_lookup ho).mpr hl
          obtain ⟨child', hr, hall⟩ := ih (hc k child hm) ht (plain_seenFrom hes) (hn.get k)
            hub.child (writesAt_seenFrom hes' ▸ hw.child) (plain_childCache (k := k) hres)
            (hP.child hes hp' (.inr hk) hlc) hpath'
          rw [hpath'] at hr
          exact ⟨⟨value', Sorted.upsert F.stringComparator (.key k) child' l⟩,
            by simp [← hresolved, hop', hr, hvalue], .upsert ho hp hinf (hall.of_child hes') hoff⟩
      | dropped hop' hs hg =>
        refine ⟨⟨value', l⟩, by simp [← hresolved, hop', hvalue],
          .mk ho hp hinf fun i c hm => ?_⟩
        by_cases hi : i = k
        · subst hi
          exact (hc i c hm).stay hes hes' hP.informed hs hg
        · exact hoff i c hi hm

end Trees

end Treena.Firebase
