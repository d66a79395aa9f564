import Treena.Firebase.Reference

/-! # The processor of views

What the processor makes of the caches of a view, case by case. It does not throw, and the
changes that it tracks account for the children that are shown.
-/

namespace Treena.Firebase

open Sorted FNode FCompoundWrite FChildChangeAccumulator FIndexedFilter

variable {κ β : Type} [DecidableEq κ]

/-- The changes, if they are tracked, account for the children of a node. -/
def Covers (cmp : Cmp κ) (f : κ → FNode κ β) (acc? : Option (FChildChangeAccumulator κ β))
    (n : FNode κ β) : Prop :=
  ∀ acc ∈ acc?, Accounts acc f (childrenOf cmp n)

def Tracks (cmp : Cmp κ) (f : κ → FNode κ β) (acc? : Option (FChildChangeAccumulator κ β))
    (r : Option (FNode κ β × Option (FChildChangeAccumulator κ β))) (m : FNode κ β) : Prop :=
  ∃ acc?', r = some (m, acc?') ∧ acc?'.isSome = acc?.isSome ∧ Covers cmp f acc?' m

/-- The processor comes to a view. -/
def Reaches (cmp : Cmp κ) (f : κ → FNode κ β) (acc? : Option (FChildChangeAccumulator κ β))
    (r : Option (FViewCache κ β × Option (FChildChangeAccumulator κ β)))
    (P : FViewCache κ β → Prop) : Prop :=
  ∃ view acc?', r = some (view, acc?') ∧ acc?'.isSome = acc?.isSome ∧
    Covers cmp f acc?' view.cachedEventSnap.node ∧ P view

structure FViewCache.Plain (cmp : Cmp κ) (view : FViewCache κ β) : Prop where
  event : view.cachedEventSnap.node.Plain cmp
  server : view.cachedServerSnap.node.Plain cmp

section

variable {cmp : Cmp κ} {f : κ → FNode κ β} {acc? acc?' : Option (FChildChangeAccumulator κ β)}
  {r : Option (FViewCache κ β × Option (FChildChangeAccumulator κ β))}
  {P Q : FViewCache κ β → Prop} {view : FViewCache κ β}

theorem Reaches.mono (h : Reaches cmp f acc? r P) (hPQ : ∀ view, P view → Q view) :
    Reaches cmp f acc? r Q := by
  obtain ⟨view, acc?', hr, hs, hc, hP⟩ := h
  exact ⟨view, acc?', hr, hs, hc, hPQ view hP⟩

theorem Reaches.bind
    {g : FViewCache κ β × Option (FChildChangeAccumulator κ β) →
      Option (FViewCache κ β × Option (FChildChangeAccumulator κ β))} (h : Reaches cmp f acc? r P)
    (hg : ∀ view acc?', Covers cmp f acc?' view.cachedEventSnap.node → P view →
      Reaches cmp f acc?' (g (view, acc?')) Q) : Reaches cmp f acc? (r.bind g) Q := by
  obtain ⟨view, acc?', rfl, hs, hc, hP⟩ := h
  obtain ⟨view', acc?'', hr, hs', hc', hQ⟩ := hg view acc?' hc hP
  exact ⟨view', acc?'', hr, hs'.trans hs, hc', hQ⟩

theorem Reaches.stay (hc : Covers cmp f acc? view.cachedEventSnap.node) (h : P view) :
    Reaches cmp f acc? (some (view, acc?)) P :=
  ⟨view, acc?, rfl, rfl, hc, h⟩

end

namespace FViewProcessor

variable [DecidableEq β] {F : FUtilities κ} [F.Lawful] {w : FWriteTreeRef κ β}
  {W : FCompoundWrite κ β} {view : FViewCache κ β} {n m s v : FNode κ β} {k : κ} {p q : List κ}
  {f : κ → FNode κ β} {acc? : Option (FChildChangeAccumulator κ β)}

section Filters

theorem tracks_updateFullNode (hn : n.Plain F.keyComparator) (hm : m.Plain F.keyComparator)
    (hf : ∀ i, (f i).Plain F.keyComparator) (hc : Covers F.keyComparator f acc? n) :
    Tracks F.keyComparator f acc? (updateFullNode F.keyComparator n m acc?) m :=
  updateFullNode_eq hn hm hf hc

theorem tracks_updateChildIn {c : FNode κ β} (hn : n.Plain F.keyComparator)
    (hc : c.Plain F.keyComparator) (hf : ∀ i, (f i).Plain F.keyComparator)
    (h : Covers F.keyComparator f acc? n) : ∃ m, m.Plain F.keyComparator ∧
      Tracks F.keyComparator f acc? (updateChildIn F.keyComparator n k c (p.map .key) acc?) m ∧
      (m = n.set F.keyComparator k c ∨ m = n ∧
        (n.get F.keyComparator k).find F.keyComparator p = c.find F.keyComparator p ∧
        (n.get F.keyComparator k).isEmpty = c.isEmpty) := by
  obtain ⟨m, acc?', hr, hs, ha, hm⟩ := updateChildIn_eq (p := p) (k := k) hn hc hf h
  refine ⟨m, ?_, ⟨acc?', hr, hs, ha⟩, hm⟩
  rcases hm with rfl | ⟨rfl, -⟩
  · exact hn.set hc
  · exact hn

theorem tracks_put (hn : n.Plain F.keyComparator) (hs : s.Plain F.keyComparator)
    (hf : ∀ i, (f i).Plain F.keyComparator) (h : Covers F.keyComparator f acc? n) :
    Tracks F.keyComparator f acc? (updateChildIn F.keyComparator n k
      ((n.get F.keyComparator k).put F.keyComparator p s) (p.map .key) acc?)
      (n.put F.keyComparator (k :: p) s) := by
  obtain ⟨m, -, ht, hm⟩ := tracks_updateChildIn (p := p) (k := k) hn ((hn.get k).put hs) hf h
  have he : m = n.put F.keyComparator (k :: p) s := by
    rw [put_cons hs]
    rcases hm with hm | ⟨hm, he, -⟩
    · exact hm
    · rw [find_put_self (hn.get k) hs] at he
      rw [← he, put_find (hn.get k), set_get hn, hm]
  exact he ▸ ht

end Filters

section ServerEvents

omit [DecidableEq β] in
theorem newEventChild_eq (h : Sees F w W) (hp : view.Plain F.keyComparator)
    (hv : (writesAt F W (k :: p)).value = none) : ∃ c?,
      newEventChild F view w k (p.map .key) = some c? ∧ (∀ c ∈ c?, c.Plain F.keyComparator) ∧
      (view.cachedEventSnap.isFullyInitialized →
        c? = some ((view.cachedEventSnap.node.get F.keyComparator k).put F.keyComparator p
          (lay F (writesAt F W (k :: p))
            (view.cachedServerSnap.node.find F.keyComparator (k :: p))))) := by
  have hu := h.afterServerOverwrite_eq hp.server hv
  rw [List.map_cons] at hu
  have hz := h.plain_writes.writesAt (p := k :: p) |>.lay (hp.server.find (p := k :: p))
  unfold newEventChild
  dsimp only
  split
  next =>
    rw [hu]
    refine ⟨_, rfl, fun c hc => ?_, fun _ => rfl⟩
    obtain rfl := Option.some.inj hc
    exact (hp.event.get k).put hz
  next hi =>
    rw [h.completeChild_eq hp.server]
    refine ⟨_, rfl, fun c hc => ?_, fun he =>
      absurd (by simp [FCacheNode.isCompleteForChild, he]) hi⟩
    rw [Option.mem_def] at hc
    split at hc
    next =>
      obtain rfl := Option.some.inj hc
      exact h.plain_writes.writesAt.lay (hp.server.get k)
    next => cases hc

theorem newEventCache_eq (h : Sees F w W) (hp : view.Plain F.keyComparator)
    (hf : ∀ i, (f i).Plain F.keyComparator)
    (hc : Covers F.keyComparator f acc? view.cachedEventSnap.node)
    (hs : p = [] → view.cachedServerSnap.isFullyInitialized)
    (hv : (writesAt F W p).value = none) : ∃ m, m.Plain F.keyComparator ∧
      Tracks F.keyComparator f acc? (newEventCache F view (p.map .key) w acc?) m ∧
      (view.cachedEventSnap.isFullyInitialized ∨ p = [] →
        m = view.cachedEventSnap.node.put F.keyComparator p
          (lay F (writesAt F W p) (view.cachedServerSnap.node.find F.keyComparator p))) := by
  cases p with
  | nil =>
    have hz := h.plain_writes.lay hp.server
    refine ⟨_, hz, ?_, fun _ => rfl⟩
    have hi := hs rfl
    have ht := tracks_updateFullNode hp.event hz hf hc
    rw [List.map_nil]
    simp only [newEventCache, FViewCache.completeServerSnap, hi, if_true,
      h.completeCache_eq hp.server, Option.bind_eq_bind, Option.bind_some]
    exact ht
  | cons k p =>
    obtain ⟨c?, hr, hpc, hx⟩ := newEventChild_eq h hp hv
    have hz := h.plain_writes.writesAt (p := k :: p) |>.lay (hp.server.find (p := k :: p))
    rw [List.map_cons]
    simp only [newEventCache, hr, Option.bind_eq_bind, Option.bind_some, reduceCtorEq, or_false]
    cases hi : view.cachedEventSnap.isFullyInitialized with
    | true =>
      obtain rfl := hx hi
      exact ⟨_, hp.event.put hz, tracks_put hp.event hz hf hc, fun _ => rfl⟩
    | false =>
      cases c? with
      | none => exact ⟨_, hp.event, ⟨acc?, rfl, rfl, hc⟩, nofun⟩
      | some c =>
        obtain ⟨m, hm, ht, -⟩ := tracks_updateChildIn (p := p) (k := k) hp.event (hpc c rfl) hf hc
        exact ⟨m, hm, ht, nofun⟩

/-- What becomes of a view when the server has written at a path: nothing under a write, else
the node that is shown is updated at the path. -/
inductive Refreshed (F : FUtilities κ) (W : FCompoundWrite κ β) (p : List κ)
    (view : FViewCache κ β) : FViewCache κ β → Prop
  | hidden {x : FNode κ β} : (writesAt F W p).value = some x → Refreshed F W p view view
  | shown {m : FNode κ β} : (writesAt F W p).value = none → m.Plain F.keyComparator →
      (view.cachedEventSnap.isFullyInitialized ∨ p = [] →
        m = view.cachedEventSnap.node.put F.keyComparator p
          (lay F (writesAt F W p) (view.cachedServerSnap.node.find F.keyComparator p))) →
      Refreshed F W p view
        (view.updateEventSnap m (view.cachedEventSnap.isFullyInitialized || p.isEmpty))

theorem generateEventCache_eq (h : Sees F w W) (hp : view.Plain F.keyComparator)
    (hf : ∀ i, (f i).Plain F.keyComparator)
    (hc : Covers F.keyComparator f acc? view.cachedEventSnap.node)
    (hs : p = [] → view.cachedServerSnap.isFullyInitialized) :
    Reaches F.keyComparator f acc?
      (generateEventCacheAfterServerEvent F view (p.map .key) w acc?) (Refreshed F W p view) := by
  unfold generateEventCacheAfterServerEvent
  rw [h.shadowingWriteAtPath_eq]
  cases hv : (writesAt F W p).value with
  | some x => exact .stay hc (.hidden hv)
  | none =>
    obtain ⟨m, hm, ⟨acc?', hr, hs', hc'⟩, hx⟩ := newEventCache_eq h hp hf hc hs hv
    simp only [Option.bind_eq_bind, Option.bind_some, hr, List.isEmpty_map]
    exact ⟨_, acc?', rfl, hs', hc', .shown hv hm hx⟩

/-- The cache of the server is updated at the path, unless it is far below what is known. -/
theorem newServerCache_eq {snap : FCacheNode κ β} (hn : snap.node.Plain F.keyComparator)
    (hs : s.Plain F.keyComparator) :
    newServerCache F snap (p.map .key) s = some (some (snap.node.put F.keyComparator p s)) ∨
      newServerCache F snap (p.map .key) s = some none ∧ snap.isFullyInitialized = false ∧
        p ≠ [] := by
  have hf : ∀ i, (childrenOf F.keyComparator snap.node i).Plain F.keyComparator := hn.get
  -- no changes are tracked here
  have hc : Covers F.keyComparator (childrenOf F.keyComparator snap.node) none snap.node := nofun
  cases p with
  | nil =>
    obtain ⟨acc?', hr, -⟩ := tracks_updateFullNode hn hs hf hc
    rw [List.map_nil, newServerCache, hr]
    exact .inl rfl
  | cons k p =>
    rw [List.map_cons, newServerCache]
    split
    next hi =>
      refine .inr ⟨rfl, ?_, List.cons_ne_nil k p⟩
      simp only [FCacheNode.isCompleteForPath, FCacheNode.isCompleteForChild, Bool.and_eq_true,
        Bool.not_eq_true', Bool.or_eq_false_iff] at hi
      exact hi.1.1
    next =>
      obtain ⟨acc?', hr, -⟩ := tracks_put (k := k) (p := p) hn hs hf hc
      dsimp only
      rw [hr]
      exact .inl rfl

/-- The view is left alone, or refreshed with the new cache of the server. -/
theorem applyServerOverwriteTo_eq (h : Sees F w W) (hp : view.Plain F.keyComparator)
    (hf : ∀ i, (f i).Plain F.keyComparator)
    (hc : Covers F.keyComparator f acc? view.cachedEventSnap.node) (hs : s.Plain F.keyComparator) :
    Reaches F.keyComparator f acc? (applyServerOverwriteTo F view (p.map .key) s w acc?)
      fun view' => view' = view ∧ view.cachedServerSnap.isFullyInitialized = false ∧ p ≠ [] ∨
        Refreshed F W p (view.updateServerSnap (view.cachedServerSnap.node.put F.keyComparator p s)
          (view.cachedServerSnap.isFullyInitialized || p.isEmpty)) view' := by
  unfold applyServerOverwriteTo
  rcases newServerCache_eq (p := p) hp.server hs with hr | ⟨hr, hi, hne⟩
  · rw [hr]
    simp only [Option.bind_eq_bind, Option.bind_some, List.isEmpty_map]
    have hp' : (view.updateServerSnap (view.cachedServerSnap.node.put F.keyComparator p s)
        (view.cachedServerSnap.isFullyInitialized || p.isEmpty)).Plain F.keyComparator :=
      ⟨hp.event, hp.server.put hs⟩
    have hi : p = [] → (view.cachedServerSnap.isFullyInitialized || p.isEmpty) := by
      rintro rfl
      exact Bool.or_true _
    exact (generateEventCache_eq h hp' hf hc hi).mono fun _ hv => .inr hv
  · rw [hr]
    exact .stay hc (.inl ⟨rfl, hi, hne⟩)

end ServerEvents

section UserEvents

omit [DecidableEq β] in
theorem completeChild_eq {cache : Option (FNode κ β)} (h : Sees F w W)
    (hp : view.Plain F.keyComparator) (hcache : ∀ c ∈ cache, c.Plain F.keyComparator) : ∃ c?,
      completeChild F w view cache k = some c? ∧ (∀ c ∈ c?, c.Plain F.keyComparator) ∧
      (view.cachedEventSnap.isFullyInitialized →
        c? = some (view.cachedEventSnap.node.get F.keyComparator k)) := by
  have hserver : ∀ snap : FCacheNode κ β, snap.node.Plain F.keyComparator → ∃ c?,
      w.calculateCompleteChild F (.key k) snap = some c? ∧
        ∀ c ∈ c?, c.Plain F.keyComparator := by
    intro snap hn
    refine ⟨_, h.completeChild_eq hn, fun c hc => ?_⟩
    rw [Option.mem_def] at hc
    split at hc
    next =>
      obtain rfl := Option.some.inj hc
      exact h.plain_writes.writesAt.lay (hn.get k)
    next => cases hc
  unfold completeChild
  dsimp only
  split
  next =>
    refine ⟨_, rfl, fun c hc => ?_, fun _ => rfl⟩
    obtain rfl := Option.some.inj hc
    exact hp.event.get k
  next hi =>
    have hne : ¬ view.cachedEventSnap.isFullyInitialized := fun he =>
      hi (by simp [FCacheNode.isCompleteForChild, he])
    cases cache with
    | some complete =>
      obtain ⟨c?, hr, hc⟩ := hserver ⟨complete, true⟩ (hcache complete rfl)
      exact ⟨c?, hr, hc, fun he => absurd he hne⟩
    | none =>
      obtain ⟨c?, hr, hc⟩ := hserver view.cachedServerSnap hp.server
      exact ⟨c?, hr, hc, fun he => absurd he hne⟩

omit [DecidableEq β] in
theorem newUserChild_eq {cache : Option (FNode κ β)} (h : Sees F w W)
    (hp : view.Plain F.keyComparator) (hcache : ∀ c ∈ cache, c.Plain F.keyComparator)
    (hv : v.Plain F.keyComparator) : ∃ c,
      newUserChild F view k (p.map .key) v w cache = some c ∧ c.Plain F.keyComparator ∧
      (view.cachedEventSnap.isFullyInitialized →
        c = (view.cachedEventSnap.node.get F.keyComparator k).put F.keyComparator p v) := by
  unfold newUserChild
  split
  next he =>
    obtain rfl : p = [] := by simpa using he
    exact ⟨v, rfl, hv, fun _ => rfl⟩
  next =>
    have hlast : (p.map Piece.key).getLast? ≠ some .priority := by
      intro hl
      obtain ⟨k', -, hk⟩ := List.mem_map.mp (List.mem_of_getLast? hl)
      cases hk
    obtain ⟨c?, hr, hc, hx⟩ := completeChild_eq (k := k) h hp hcache
    rw [hr, Option.map_some]
    refine ⟨_, rfl, ?_, fun hi => ?_⟩
    · cases c? with
      | none => exact .empty
      | some c =>
        dsimp only
        rw [if_neg fun hl => hlast hl.1]
        exact (hc c rfl).put hv
    · rw [hx hi]
      dsimp only
      rw [if_neg fun hl => hlast hl.1]

/-- The user has written at a path. -/
theorem applyUserOverwriteTo_eq {cache : Option (FNode κ β)} (h : Sees F w W)
    (hp : view.Plain F.keyComparator) (hf : ∀ i, (f i).Plain F.keyComparator)
    (hc : Covers F.keyComparator f acc? view.cachedEventSnap.node)
    (hcache : ∀ c ∈ cache, c.Plain F.keyComparator) (hv : v.Plain F.keyComparator) :
    Reaches F.keyComparator f acc? (applyUserOverwriteTo F view (p.map .key) v w cache acc?)
      fun view' => ∃ m, m.Plain F.keyComparator ∧
        view' = view.updateEventSnap m (view.cachedEventSnap.isFullyInitialized || p.isEmpty) ∧
        (view.cachedEventSnap.isFullyInitialized ∨ p = [] →
          m = view.cachedEventSnap.node.put F.keyComparator p v) := by
  cases p with
  | nil =>
    obtain ⟨acc?', hr, hs, hc'⟩ := tracks_updateFullNode hp.event hv hf hc
    refine ⟨_, acc?', ?_, hs, hc', v, hv, rfl, fun _ => rfl⟩
    rw [List.map_nil, applyUserOverwriteTo, hr, Option.map_some, List.isEmpty_nil, Bool.or_true]
  | cons k p =>
    obtain ⟨c, hr, hpc, hx⟩ := newUserChild_eq (k := k) (p := p) h hp hcache hv
    have hput : view.cachedEventSnap.isFullyInitialized ∨ k :: p = [] →
        view.cachedEventSnap.node.set F.keyComparator k c =
          view.cachedEventSnap.node.put F.keyComparator (k :: p) v := by
      intro hi
      rw [put_cons hv, hx (hi.resolve_right (List.cons_ne_nil k p))]
    rw [List.map_cons]
    simp only [applyUserOverwriteTo, hr, Option.bind_eq_bind, Option.bind_some,
      List.isEmpty_cons, Bool.or_false]
    split
    next he =>
      have he' := (isEqual_iff (hp.event.get k) hpc).mp he
      refine .stay hc ⟨_, hp.event, rfl, fun hi => ?_⟩
      rw [← hput hi, ← he', set_get hp.event]
    next he =>
      obtain ⟨m, hm, ⟨acc?', hr', hs', hc'⟩, hx'⟩ :=
        tracks_updateChildIn (k := k) (p := p) hp.event hpc hf hc
      rw [hr']
      refine ⟨_, acc?', rfl, hs', hc', m, hm, rfl, fun hi => ?_⟩
      rcases hx' with hm' | ⟨rfl, he', hem⟩
      · exact hm'.trans (hput hi)
      · rw [hx (hi.resolve_right (List.cons_ne_nil k p)), find_put_self (hp.event.get k) hv] at he'
        rw [put_cons hv, ← he', put_find (hp.event.get k), set_get hp.event]

end UserEvents

section Reverts

theorem revertedChild_eq (h : Sees F w W) (hp : view.Plain F.keyComparator)
    (hf : ∀ i, (f i).Plain F.keyComparator)
    (hc : Covers F.keyComparator f acc? view.cachedEventSnap.node) : ∃ m,
      m.Plain F.keyComparator ∧
      Tracks F.keyComparator f acc? (revertedChild F view k (p.map .key) w acc?) m ∧
      (view.cachedServerSnap.isFullyInitialized → ∃ c,
        c = lay F (writesAt F W [k]) (view.cachedServerSnap.node.get F.keyComparator k) ∧
        (m = view.cachedEventSnap.node.set F.keyComparator k c ∨ m = view.cachedEventSnap.node ∧
          (view.cachedEventSnap.node.get F.keyComparator k).find F.keyComparator p =
            c.find F.keyComparator p)) := by
  have hz := h.plain_writes.writesAt (p := [k]) |>.lay (hp.server.get k)
  unfold revertedChild
  dsimp only
  rw [h.completeChild_eq hp.server]
  simp only [Option.bind_eq_bind, Option.bind_some]
  cases hi : view.cachedServerSnap.isCompleteForChild F.keyComparator (.key k) with
  | true =>
    obtain ⟨m, hm, ht, hx⟩ := tracks_updateChildIn (k := k) (p := p) hp.event hz hf hc
    rw [Bool.or_true, if_pos rfl]
    exact ⟨m, hm, ht, fun _ => ⟨_, rfl, hx.imp_right fun hx => ⟨hx.1, hx.2.1⟩⟩⟩
  | false =>
    have hne : ¬ view.cachedServerSnap.isFullyInitialized := fun he => by
      simp [FCacheNode.isCompleteForChild, he] at hi
    rw [Bool.or_false]
    by_cases hs : (writesAt F W [k]).value.isSome
    · obtain ⟨m, hm, ht, -⟩ := tracks_updateChildIn (k := k) (p := p) hp.event hz hf hc
      rw [if_pos hs]
      exact ⟨m, hm, ht, fun he => absurd he hne⟩
    · rw [if_neg hs]
      dsimp only
      rw [if_neg Bool.false_ne_true]
      split
      next =>
        obtain ⟨m, hm, ht, -⟩ := tracks_updateChildIn (k := k) (p := p) hp.event .empty hf hc
        exact ⟨m, hm, ht, fun he => absurd he hne⟩
      next => exact ⟨_, hp.event, ⟨acc?, rfl, rfl, hc⟩, fun he => absurd he hne⟩

theorem restoredLeaf_eq (h : Sees F w W) (hp : view.Plain F.keyComparator)
    (hf : ∀ i, (f i).Plain F.keyComparator) (hm : m.Plain F.keyComparator)
    (hc : Covers F.keyComparator f acc? m) : ∃ m', m'.Plain F.keyComparator ∧
      Tracks F.keyComparator f acc? (restoredLeaf F view w m acc?) m' ∧
      (view.cachedServerSnap.isFullyInitialized →
        m' = if m.isEmpty && (lay F W view.cachedServerSnap.node).isLeafNode
          then lay F W view.cachedServerSnap.node else m) := by
  have hz := h.plain_writes.lay hp.server
  have hstay : Tracks F.keyComparator f acc? (some (m, acc?)) m := ⟨acc?, rfl, rfl, hc⟩
  unfold restoredLeaf
  cases hi : view.cachedServerSnap.isFullyInitialized with
  | false =>
    rw [Bool.and_false, if_neg Bool.false_ne_true]
    exact ⟨m, hm, hstay, nofun⟩
  | true =>
    rw [Bool.and_true]
    cases he : m.isEmpty with
    | false => exact ⟨m, hm, hstay, fun _ => rfl⟩
    | true =>
      simp only [FViewCache.completeServerSnap, hi, if_true, h.completeCache_eq hp.server,
        Option.bind_eq_bind, Option.bind_some, Bool.true_and]
      split
      next => exact ⟨_, hz, tracks_updateFullNode hm hz hf hc, fun _ => rfl⟩
      next => exact ⟨m, hm, hstay, fun _ => rfl⟩

omit [DecidableEq β] in
theorem revertedNode_eq (h : Sees F w W) (hp : view.Plain F.keyComparator) : ∃ m,
    revertedNode F view w = some m ∧ m.Plain F.keyComparator ∧
      (view.cachedServerSnap.isFullyInitialized → m = lay F W view.cachedServerSnap.node) := by
  unfold revertedNode
  cases hi : view.cachedServerSnap.isFullyInitialized with
  | true =>
    simp only [FViewCache.completeServerSnap, hi, if_true, h.completeCache_eq hp.server,
      Option.bind_eq_bind, Option.bind_some]
    exact ⟨_, rfl, h.plain_writes.lay hp.server, fun _ => rfl⟩
  | false =>
    obtain ⟨m, hr, hm⟩ := h.completeEventChildren_eq hp.server
    exact ⟨m, hr, hm, nofun⟩

end Reverts

end FViewProcessor

end Treena.Firebase
