import Treena.Firebase.Merged
import Treena.Firebase.Processor

/-! # What the server and the user write

A view that knows all that the server has told about its place shows that data with the
pending writes laid over it, and a view under a write shows the write. It does so after a write
of the server or of the user, and after a merge of either, which is applied child by child or
write by write.
-/

namespace Treena.Firebase

open Sorted FNode FCompoundWrite FChildChangeAccumulator FIndexedFilter

variable {κ β : Type} {F : FUtilities κ}

/-- What a view shows of the data of the server, under the writes that are seen from it. -/
structure Shows (F : FUtilities κ) (W : FCompoundWrite κ β) (n : FNode κ β)
    (view : FViewCache κ β) : Prop extends view.Plain F.keyComparator where
  complete : view.cachedServerSnap.isFullyInitialized →
    view.cachedServerSnap.node = n ∧ view.cachedEventSnap = ⟨lay F W n, true⟩
  shadowed : ∀ x, W.value = some x → view.cachedEventSnap = ⟨x, true⟩

namespace FViewProcessor

variable {W W' : FCompoundWrite κ β} {view view' : FViewCache κ β} {n n' m s v : FNode κ β}
  {k : κ} {p q : List κ}

theorem value_of_writesAt (hW : W.Plain F) (h : (writesAt F W p).value = none) :
    W.value = none := by
  by_contra hne
  obtain ⟨x, hx⟩ := Option.ne_none_iff_exists'.mp hne
  rw [writesAt_of_value hW hx] at h
  cases h

theorem Refreshed.server (h : Refreshed F W p view view') :
    view'.cachedServerSnap = view.cachedServerSnap := by
  cases h with
  | hidden => rfl
  | shown => rfl

theorem shows_of_incomplete (hp : view.Plain F.keyComparator)
    (hi : view.cachedServerSnap.isFullyInitialized = false)
    (hs : ∀ x, W.value = some x → view.cachedEventSnap = ⟨x, true⟩) : Shows F W n view :=
  ⟨hp, fun he => absurd he (Bool.eq_false_iff.mp hi), hs⟩

/-- A view that is refreshed shows what is laid, if the update at the path makes it so. -/
theorem Refreshed.shows (h : Refreshed F W p view view') (hW : W.Plain F)
    (hp : view.Plain F.keyComparator)
    (hs : ∀ x, W.value = some x → view.cachedEventSnap = ⟨x, true⟩)
    (hn : view.cachedServerSnap.isFullyInitialized → view.cachedServerSnap.node = n)
    (hx : ∀ x, (writesAt F W p).value = some x → view.cachedServerSnap.isFullyInitialized →
      view.cachedEventSnap = ⟨lay F W n, true⟩)
    (he : (writesAt F W p).value = none → view.cachedServerSnap.isFullyInitialized →
      (view.cachedEventSnap.isFullyInitialized ∨ p = []) ∧
        view.cachedEventSnap.node.put F.keyComparator p
          (lay F (writesAt F W p) (n.find F.keyComparator p)) = lay F W n) : Shows F W n view' := by
  cases h with
  | hidden hv => exact ⟨hp, fun hi => ⟨hn hi, hx _ hv hi⟩, hs⟩
  | @shown m hv hm hput =>
    have hnone := value_of_writesAt hW hv
    refine ⟨⟨hm, hp.server⟩, fun hi => ⟨hn hi, ?_⟩, fun x hx => ?_⟩
    · obtain ⟨hi', heq⟩ := he hv hi
      have hb : (view.cachedEventSnap.isFullyInitialized || p.isEmpty) = true := by
        rcases hi' with hi' | rfl
        · rw [hi', Bool.true_or]
        · exact Bool.or_true _
      change FCacheNode.mk m _ = _
      rw [hb, hput hi', hn hi, heq]
    · rw [hnone] at hx
      cases hx

variable [DecidableEq κ] [DecidableEq β] [F.Lawful] {w : FWriteTreeRef κ β}
  {f : κ → FNode κ β} {acc? : Option (FChildChangeAccumulator κ β)}
  {cache : Option (FNode κ β)}

section Server

theorem applyServerOverwriteTo_shows (h : Sees F w W) (hv : Shows F W n view)
    (hf : ∀ i, (f i).Plain F.keyComparator)
    (hc : Covers F.keyComparator f acc? view.cachedEventSnap.node) (hs : s.Plain F.keyComparator)
    (hcl : view.cachedServerSnap.isFullyInitialized →
      Clear F W n ∧ Clear F W (n.put F.keyComparator p s)) :
    Reaches F.keyComparator f acc? (applyServerOverwriteTo F view (p.map .key) s w acc?)
      fun view' => Shows F W (n.put F.keyComparator p s) view' ∧
        view'.cachedServerSnap.isFullyInitialized =
          (view.cachedServerSnap.isFullyInitialized || p.isEmpty) := by
  have hW := h.plain_writes
  refine (applyServerOverwriteTo_eq h hv.toPlain hf hc hs).mono fun view' hr => ?_
  rcases hr with ⟨rfl, hi, hne⟩ | hr
  · have hpe : p.isEmpty = false := by simpa using hne
    exact ⟨shows_of_incomplete hv.toPlain hi hv.shadowed, by rw [hi, hpe]; rfl⟩
  · refine ⟨?_, by rw [hr.server]; rfl⟩
    refine hr.shows hW ⟨hv.event, hv.server.put hs⟩ hv.shadowed ?_ ?_ ?_
    all_goals dsimp only [FViewCache.updateServerSnap]
    · intro hi
      by_cases hp : p = []
      · subst hp
        rfl
      · rw [(hv.complete (by simpa [hp] using hi)).1]
    · intro x hx hi
      by_cases hp : p = []
      · subst hp
        have hx : W.value = some x := hx
        rw [lay_of_value hx]
        exact hv.shadowed x hx
      · have hi : view.cachedServerSnap.isFullyInitialized := by simpa [hp] using hi
        obtain ⟨hn, he⟩ := hv.complete hi
        have hpn : n.Plain F.keyComparator := hn ▸ hv.server
        rw [lay_put_of_value hW hpn hs (hcl hi).1 (hcl hi).2 hx]
        exact he
    · intro hx hi
      by_cases hp : p = []
      · subst hp
        exact ⟨.inr rfl, rfl⟩
      · have hi : view.cachedServerSnap.isFullyInitialized := by simpa [hp] using hi
        obtain ⟨hn, he⟩ := hv.complete hi
        have hpn : n.Plain F.keyComparator := hn ▸ hv.server
        rw [he, lay_put hW hpn hs (hcl hi).1 (hcl hi).2 hx, find_put_self hpn hs]
        exact ⟨.inl rfl, rfl⟩

/-- A merge at the root of the view. -/
abbrev mergeOf (F : FUtilities κ) (p : List κ) (c : FCompoundWrite κ β) : FCompoundWrite κ β :=
  layer F ((leaves c).map (under p)) FImmutableTree.empty

variable {c A : FCompoundWrite κ β}

omit [DecidableEq κ] [DecidableEq β] in
theorem plain_mergeOf (hc : c.Plain F) : (mergeOf F p c).Plain F :=
  plain_empty.layer (plain_under hc.leaves)

omit [DecidableEq β] in
theorem mergeAtRoot_eq (hc : c.Plain F) :
    mergeAtRoot F (p.map .key) c = some (mergeOf F p c) := by
  unfold mergeAtRoot
  split
  next he =>
    obtain rfl : p = [] := by simpa using he
    rw [mergeOf, show (leaves c).map (under []) = leaves c from List.map_id _, layer_leaves hc]
  next => exact FWriteRecord.addCompoundWrite_eq plain_empty hc

omit [DecidableEq β] in
theorem value_mergeOf (hc : c.Plain F) (hv : c.value = none) : (mergeOf F p c).value = none := by
  cases p with
  | nil =>
    rw [mergeOf, show (leaves c).map (under []) = leaves c from List.map_id _, layer_leaves hc, hv]
  | cons k p =>
    refine value_layer_of_none rfl fun e he => ?_
    obtain ⟨e', -, rfl⟩ := List.mem_map.mp he
    exact List.cons_ne_nil k (p ++ e'.1)

omit [DecidableEq β] in
theorem lay_mergeOf (hc : c.Plain F) (hn : n.Plain F.keyComparator) : lay F (mergeOf F p c) n =
    n.put F.keyComparator p (lay F c (n.find F.keyComparator p)) := by
  rw [mergeOf, lay_under hc.leaves hn, layer_leaves hc]

structure Merging (F : FUtilities κ) (W A : FCompoundWrite κ β) (n : FNode κ β)
    (view : FViewCache κ β) (ks : List κ) (view' : FViewCache κ β) : Prop where
  same : view'.cachedServerSnap.isFullyInitialized = view.cachedServerSnap.isFullyInitialized
  patched : ∃ m, Shows F W m view' ∧
    (view.cachedServerSnap.isFullyInitialized → Patched F A n ks m)

theorem applyChildMerge_eq (h : Sees F w W) (hA : A.Plain F) (hv : Shows F W n view)
    (hf : ∀ i, (f i).Plain F.keyComparator) {ks : List κ}
    (hc : Covers F.keyComparator f acc? view'.cachedEventSnap.node)
    (hm : Merging F W A n view ks view') {child : Piece κ × FCompoundWrite κ β}
    (hchild : child ∈ A.children) (hk : child.1 = .key k) (hks : k ∉ ks)
    (hcl : view.cachedServerSnap.isFullyInitialized →
      ∀ ks m, Patched F A n ks m → Clear F W m) :
    Reaches F.keyComparator f acc? (applyChildMerge F view w (view', acc?) child)
      (Merging F W A n view (k :: ks)) := by
  obtain ⟨_, t⟩ := child
  obtain rfl : _ = Piece.key k := hk
  obtain ⟨hsame, m, hm, hp⟩ := hm
  have ht : t = A.sub F.stringComparator (.key k) :=
    (child_of_mem hA.pruned.ordered hchild).symm
  have hpt := hA.of_mem _ hchild
  have hs := hv.server.get k
  have hstep : view.cachedServerSnap.isFullyInitialized → m.put F.keyComparator [k]
      (lay F t (view.cachedServerSnap.node.get F.keyComparator k)) =
        m.set F.keyComparator k (lay F (A.sub F.stringComparator (.key k))
          (n.get F.keyComparator k)) := by
    intro hi
    rw [put_cons (hpt.lay hs), (hv.complete hi).1, ht]
    rfl
  have hpat : view.cachedServerSnap.isFullyInitialized → Patched F A n (k :: ks)
      (m.put F.keyComparator [k] (lay F t (view.cachedServerSnap.node.get F.keyComparator k))) := by
    intro hi
    rw [hstep hi]
    exact (hp hi).cons hA ((hv.complete hi).1 ▸ hv.server) hks
  unfold applyChildMerge
  dsimp only
  rw [applyToNode_eq hpt hs]
  have hr := applyServerOverwriteTo_shows (p := [k]) h hm hf hc (hpt.lay hs) fun hi =>
    ⟨hcl (hsame ▸ hi) _ _ (hp (hsame ▸ hi)), hcl (hsame ▸ hi) _ _ (hpat (hsame ▸ hi))⟩
  refine hr.mono fun view'' hv'' => ⟨?_, _, hv''.1, hpat⟩
  rw [hv''.2, hsame]
  exact Bool.or_false _

variable {M : List κ → FViewCache κ β → Prop}

/-- A child of a merge is applied once, and keeps what is known of those applied before. -/
def Merges (F : FUtilities κ) (f : κ → FNode κ β) (A : FCompoundWrite κ β)
    (w : FWriteTreeRef κ β) (view : FViewCache κ β) (M : List κ → FViewCache κ β → Prop) : Prop :=
  ∀ k ks view' acc? (child : Piece κ × FCompoundWrite κ β),
    Covers F.keyComparator f acc? view'.cachedEventSnap.node → M ks view' →
      child ∈ A.children → child.1 = .key k → k ∉ ks →
        Reaches F.keyComparator f acc? (applyChildMerge F view w (view', acc?) child) (M (k :: ks))

omit [F.Lawful] in
theorem foldlM_merge_eq (hA : A.Plain F) (hM : Merges F f A w view M)
    (b : Piece κ × FCompoundWrite κ β → Bool)
    {l : List (Piece κ × FCompoundWrite κ β)} (hl : ∀ child ∈ l, child ∈ A.children)
    (hnd : (l.map Prod.fst).Nodup) {ks : List κ}
    (hks : ∀ child ∈ l, b child → ∀ k, child.1 = .key k → k ∉ ks)
    (hc : Covers F.keyComparator f acc? view'.cachedEventSnap.node) (hm : M ks view') :
    Reaches F.keyComparator f acc? (l.foldlM (fun cur child =>
      if b child then applyChildMerge F view w cur child else some cur) (view', acc?))
      fun view'' => ∃ ks', M ks' view'' ∧
        ∀ k, k ∈ ks' ↔ k ∈ ks ∨ ∃ child ∈ l, b child ∧ child.1 = .key k := by
  induction l generalizing ks view' acc? with
  | nil => exact .stay hc ⟨ks, hm, fun k => by simp⟩
  | cons child l ih =>
    rw [List.forall_mem_cons] at hl hks
    rw [List.map_cons, List.nodup_cons] at hnd
    rw [List.foldlM_cons]
    by_cases hb : b child
    · rw [if_pos hb]
      obtain ⟨k, hk⟩ : ∃ k, child.1 = .key k := by
        have hp := hA.isPriority child hl.1
        cases hx : child.1 with
        | priority => rw [hx] at hp; cases hp
        | key k => exact ⟨k, rfl⟩
      refine (hM k ks view' acc? child hc hm hl.1 hk (hks.1 hb k hk)).bind ?_
      intro view'' acc?' hc' hm'
      have hks' : ∀ child' ∈ l, b child' → ∀ i, child'.1 = .key i → i ∉ k :: ks := by
        intro child' hm hb' i hi
        rw [List.mem_cons, not_or]
        refine ⟨?_, hks.2 child' hm hb' i hi⟩
        rintro rfl
        exact hnd.1 (List.mem_map.mpr ⟨child', hm, hi.trans hk.symm⟩)
      refine (ih hl.2 hnd.2 hks' hc' hm').mono fun view₃ ⟨ks', hm₃, hmem⟩ => ⟨ks', hm₃, fun i => ?_⟩
      rw [hmem, List.mem_cons, List.exists_mem_cons_iff, hk, Piece.key.injEq]
      constructor
      · rintro ((rfl | hi) | hi)
        · exact .inr (.inl ⟨hb, rfl⟩)
        · exact .inl hi
        · exact .inr (.inr hi)
      · rintro (hi | ⟨-, rfl⟩ | hi)
        · exact .inl (.inr hi)
        · exact .inl (.inl rfl)
        · exact .inr hi
    · rw [if_neg hb]
      refine (ih hl.2 hnd.2 hks.2 hc hm).mono fun view₃ ⟨ks', hm₃, hmem⟩ => ⟨ks', hm₃, fun i => ?_⟩
      rw [hmem, List.exists_mem_cons_iff]
      simp [hb]

omit [DecidableEq κ] [DecidableEq β] in
theorem nodup_children (hA : A.Plain F) : (A.children.map Prod.fst).Nodup := by
  refine List.Nodup.map_on (fun x hx y hy he => ?_) hA.pruned.ordered.nodup
  have hxc : A.sub F.stringComparator x.1 = x.2 := child_of_mem hA.pruned.ordered hx
  have hyc : A.sub F.stringComparator y.1 = y.2 := child_of_mem hA.pruned.ordered hy
  rw [he, hyc] at hxc
  exact Prod.ext he hxc.symm

/-- A merge is ignored by a view that knows nothing, and else all children that the view can
know of are applied: first those that the server has, then the others. -/
theorem applyServerMergeTo_eq (hpc : c.Plain F) (hM : Merges F f (mergeOf F p c) w view M)
    (hc : Covers F.keyComparator f acc? view.cachedEventSnap.node) (hstart : M [] view) :
    Reaches F.keyComparator f acc? (applyServerMergeTo F view (p.map .key) c w acc?)
      fun view' => view' = view ∧ view.cachedServerSnap.isFullyInitialized = false ∨
        ∃ ks, M ks view' ∧ (view.cachedServerSnap.isFullyInitialized → ∀ i,
          (mergeOf F p c).sub F.stringComparator (.key i) ≠ FImmutableTree.empty → i ∈ ks) := by
  have hA := plain_mergeOf (p := p) hpc
  unfold applyServerMergeTo
  dsimp only
  split
  next he =>
    rw [Bool.and_eq_true, Bool.not_eq_true'] at he
    exact .stay hc (.inl ⟨rfl, he.2⟩)
  next =>
    rw [mergeAtRoot_eq hpc]
    simp only [Option.bind_eq_bind, Option.bind_some]
    obtain ⟨b, hb⟩ : ∃ b, b = fun child : Piece κ × FCompoundWrite κ β =>
      view.cachedServerSnap.node.hasChild F.keyComparator child.1 := ⟨_, rfl⟩
    have hfirst := foldlM_merge_eq hA hM b (fun _ hm => hm) (nodup_children hA)
      (fun _ _ _ _ _ => List.not_mem_nil) hc hstart
    rw [hb] at hfirst
    refine hfirst.bind ?_
    rintro view' acc?' hc' ⟨ks, hm, hmem⟩
    have hsecond := foldlM_merge_eq hA hM (fun child =>
      !view.cachedServerSnap.node.hasChild F.keyComparator child.1 &&
        !(!view.cachedServerSnap.isCompleteForChild F.keyComparator child.1 &&
          child.2.value.isNone)) (fun _ hm => hm) (nodup_children hA) ?_ hc' hm
    · refine hsecond.mono ?_
      rintro view'' ⟨ks', hm', hmem'⟩
      refine .inr ⟨ks', hm', fun hi i hne => ?_⟩
      have hin : (.key i, (mergeOf F p c).sub F.stringComparator (.key i)) ∈
          (mergeOf F p c).children := by
        refine (mem_iff_child FImmutableTree.isEmpty_empty hA.pruned).mpr ⟨rfl, ?_⟩
        by_contra hemp
        exact hne (FImmutableTree.eq_empty (by simpa using hemp))
      rw [hmem', hmem]
      cases hh : view.cachedServerSnap.node.hasChild F.keyComparator (.key i) with
      | true => exact .inl (.inr ⟨_, hin, hh, rfl⟩)
      | false =>
        refine .inr ⟨_, hin, ?_, rfl⟩
        simp [hh, FCacheNode.isCompleteForChild, hi]
    · intro child hchild hbc k hk hmk
      obtain ⟨child', -, hh, hk'⟩ := (hmem k).mp hmk |>.resolve_left List.not_mem_nil
      rw [Bool.and_eq_true, Bool.not_eq_true', hk, ← hk'] at hbc
      exact absurd hh (Bool.eq_false_iff.mp hbc.1)

theorem applyServerMergeTo_shows (h : Sees F w W) (hv : Shows F W n view)
    (hf : ∀ i, (f i).Plain F.keyComparator)
    (hc : Covers F.keyComparator f acc? view.cachedEventSnap.node) (hpc : c.Plain F)
    (hcv : c.value = none) (hcl : view.cachedServerSnap.isFullyInitialized →
      ∀ ks m, Patched F (mergeOf F p c) n ks m → Clear F W m) :
    Reaches F.keyComparator f acc? (applyServerMergeTo F view (p.map .key) c w acc?)
      fun view' => Shows F W (n.put F.keyComparator p (lay F c (n.find F.keyComparator p))) view' ∧
        view'.cachedServerSnap.isFullyInitialized = view.cachedServerSnap.isFullyInitialized := by
  have hA := plain_mergeOf (p := p) hpc
  have hAv := value_mergeOf (p := p) hpc hcv
  have hM : Merges F f (mergeOf F p c) w view (Merging F W (mergeOf F p c) n view) :=
    fun _ _ _ _ _ hc hm hchild hk hks => applyChildMerge_eq h hA hv hf hc hm hchild hk hks hcl
  have hstart : Merging F W (mergeOf F p c) n view [] view :=
    ⟨rfl, n, hv, fun hi => patched_nil ((hv.complete hi).1 ▸ hv.server)⟩
  refine (applyServerMergeTo_eq hpc hM hc hstart).mono ?_
  rintro view' (⟨rfl, hi⟩ | ⟨ks, ⟨hsame, m, hms, hpat⟩, hall⟩)
  · exact ⟨shows_of_incomplete hv.toPlain hi hv.shadowed, rfl⟩
  · refine ⟨?_, hsame⟩
    cases hi : view.cachedServerSnap.isFullyInitialized with
    | false => exact shows_of_incomplete hms.toPlain (hsame.trans hi) hms.shadowed
    | true =>
      have hpn : n.Plain F.keyComparator := (hv.complete hi).1 ▸ hv.server
      rw [← lay_mergeOf hpc hpn, ← (hpat hi).eq hA hAv hpn fun i hne => hall hi i hne]
      exact hms

theorem listenCompleteOldCache_shows (h : Sees F w W) (hv : Shows F W n view)
    (hf : ∀ i, (f i).Plain F.keyComparator)
    (hc : Covers F.keyComparator f acc? view.cachedEventSnap.node)
    (hp : p = [] → view.cachedServerSnap.node = n) :
    Reaches F.keyComparator f acc? (listenCompleteOldCache F view (p.map .key) w acc?)
      (Shows F W n) := by
  have hW := h.plain_writes
  have hnode : (view.cachedServerSnap.isFullyInitialized || p.isEmpty) →
      view.cachedServerSnap.node = n := by
    intro hi
    rcases Bool.or_eq_true_iff.mp hi with hi | hi
    · exact (hv.complete hi).1
    · exact hp (List.isEmpty_iff.mp hi)
  have hplain : (view.updateServerSnap view.cachedServerSnap.node
      (view.cachedServerSnap.isFullyInitialized || p.isEmpty)).Plain F.keyComparator :=
    ⟨hv.event, hv.server⟩
  have hroot : p = [] → (view.cachedServerSnap.isFullyInitialized || p.isEmpty) := by
    rintro rfl
    exact Bool.or_true _
  unfold listenCompleteOldCache
  dsimp only
  rw [List.isEmpty_map]
  refine (generateEventCache_eq h hplain hf hc hroot).mono fun view' hr => ?_
  refine hr.shows hW hplain hv.shadowed hnode (fun x hx hi => ?_) fun hx hi => ?_
  all_goals dsimp only [FViewCache.updateServerSnap] at *
  · by_cases hpe : p = []
    · subst hpe
      have hx : W.value = some x := hx
      rw [lay_of_value hx]
      exact hv.shadowed x hx
    · exact (hv.complete (by simpa [hpe] using hi)).2
  · have hpn : n.Plain F.keyComparator := hnode hi ▸ hv.server
    by_cases hpe : p = []
    · subst hpe
      exact ⟨.inr rfl, rfl⟩
    · obtain ⟨-, he⟩ := hv.complete (by simpa [hpe] using hi)
      rw [he, ← find_lay hW hpn, put_find (hW.lay hpn)]
      exact ⟨.inl rfl, rfl⟩

end Server

section User

theorem applyUserOverwriteTo_shows (hW : W.Plain F) (h : Sees F w W')
    (hs : Shows F W n view) (hf : ∀ i, (f i).Plain F.keyComparator)
    (hc : Covers F.keyComparator f acc? view.cachedEventSnap.node)
    (hcache : ∀ c ∈ cache, c.Plain F.keyComparator) (hv : v.Plain F.keyComparator)
    (hfree : view.cachedServerSnap.isFullyInitialized → v.isEmpty → Free F.keyComparator n q) :
    Reaches F.keyComparator f acc? (applyUserOverwriteTo F view (q.map .key) v w cache acc?)
      (Shows F (add F v W q) n) := by
  refine (applyUserOverwriteTo_eq h hs.toPlain hf hc hcache hv).mono ?_
  rintro view' ⟨m, hm, rfl, hx⟩
  refine ⟨⟨hm, hs.server⟩, fun hi => ?_, fun x hxv => ?_⟩
  · obtain ⟨hn, he⟩ := hs.complete hi
    refine ⟨hn, ?_⟩
    change FCacheNode.mk m _ = _
    rw [he, Bool.true_or, hx (.inl (by rw [he])), he,
      lay_add hW (hn ▸ hs.server) hv (hfree hi)]
  · change FCacheNode.mk m _ = _
    cases q with
    | nil =>
      obtain rfl : v = x := Option.some.inj hxv
      rw [hx (.inr rfl), List.isEmpty_nil, Bool.or_true]
      rfl
    | cons k q =>
      cases hy : W.value with
      | none =>
        rw [add_cons_of_none hy] at hxv
        cases hxv
      | some y =>
        rw [add_cons_of_value hy] at hxv
        obtain rfl := Option.some.inj hxv
        rw [hs.shadowed y hy, Bool.true_or, hx (.inl (by rw [hs.shadowed y hy])),
          hs.shadowed y hy]

omit [DecidableEq κ] [DecidableEq β] in
theorem plain_layer_filter {es : List (List κ × FNode κ β)} (hW : W.Plain F)
    (hes : ∀ e ∈ es, e.2.Plain F.keyComparator) (b : List κ × FNode κ β → Bool) :
    (layer F (es.filter b) W).Plain F :=
  hW.layer fun e he => hes e (List.mem_filter.mp he).1

theorem foldlM_applyUserWrite_shows (h : Sees F w W') (hf : ∀ i, (f i).Plain F.keyComparator)
    (hcache : ∀ c ∈ cache, c.Plain F.keyComparator) (b : List κ × FNode κ β → Bool)
    {es : List (List κ × FNode κ β)} (hes : ∀ e ∈ es, e.2.Plain F.keyComparator)
    (hfree : ∀ e ∈ es, e.2.isEmpty → Free F.keyComparator n (p ++ e.1)) (hW : W.Plain F)
    (hs : Shows F W n view) (hc : Covers F.keyComparator f acc? view.cachedEventSnap.node) :
    Reaches F.keyComparator f acc? (es.foldlM (fun cur e => if b (under p e) then
        applyUserWrite F (p.map .key) w cache cur ([] ++ e.1.map .key, e.2) else some cur)
          (view, acc?))
      (Shows F (layer F ((es.map (under p)).filter b) W) n) := by
  induction es generalizing W view acc? with
  | nil => exact .stay hc hs
  | cons e es ih =>
    rw [List.forall_mem_cons] at hes hfree
    rw [List.foldlM_cons, List.map_cons]
    by_cases hb : b (under p e)
    · rw [if_pos hb, List.filter_cons_of_pos hb, layer_cons]
      have happ := applyUserOverwriteTo_shows (q := p ++ e.1) hW h hs hf hc hcache hes.1
        fun _ => hfree.1
      rw [List.map_append] at happ
      exact happ.bind fun view' acc?' hc' hs' => ih hes.2 hfree.2 (hW.add hes.1) hs' hc'
    · rw [if_neg hb, List.filter_cons_of_neg hb]
      exact ih hes.2 hfree.2 hW hs hc

/-- The writes of a merge are apart from each other, so that all of them are shown in
whatever order they are applied. -/
theorem applyUserMergeTo_shows {c : FCompoundWrite κ β} (hW : W.Plain F) (h : Sees F w W')
    (hs : Shows F W n view) (hf : ∀ i, (f i).Plain F.keyComparator)
    (hc : Covers F.keyComparator f acc? view.cachedEventSnap.node)
    (hcache : ∀ c ∈ cache, c.Plain F.keyComparator) (hpc : c.Plain F)
    (hfree : ∀ e ∈ leaves c, e.2.isEmpty → Free F.keyComparator n (q ++ e.1)) :
    Reaches F.keyComparator f acc? (applyUserMergeTo F view (q.map .key) c w cache acc?)
      (Shows F (layer F ((leaves c).map (under q)) W) n) := by
  obtain ⟨b, hb⟩ : ∃ b : List κ × FNode κ β → Bool,
    b = fun e => cacheHasChild F view (e.1.map .key) := ⟨_, rfl⟩
  have hpath : ∀ e : List κ × FNode κ β,
      cacheHasChild F view (q.map .key ++ ([] ++ e.1.map .key)) = b (under q e) := by
    intro e
    rw [hb, List.nil_append, ← List.map_append]
  have hes := plain_under (p := q) hpc.leaves
  have hapart : ((leaves c).map (under q)).Pairwise fun d e => Apart d.1 e.1 := by
    refine List.pairwise_map.mpr ((pairwise_leaves hpc).imp fun {d e} hde => ?_)
    exact ⟨fun hp => hde.1 ((List.prefix_append_right_inj _).mp hp),
      fun hp => hde.2 ((List.prefix_append_right_inj _).mp hp)⟩
  unfold applyUserMergeTo
  simp only [forEach_eq hpc, List.foldlM_map, hpath]
  rw [← layer_partition hW hes hapart b]
  refine (foldlM_applyUserWrite_shows h hf hcache b hpc.leaves hfree hW hs hc).bind ?_
  intro view' acc?' hc' hs'
  exact foldlM_applyUserWrite_shows h hf hcache (fun e => !b e) hpc.leaves hfree
    (plain_layer_filter hW hes b) hs' hc'

end User

end FViewProcessor

end Treena.Firebase
