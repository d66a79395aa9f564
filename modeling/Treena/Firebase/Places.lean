import Treena.Firebase.Synced

/-! # Views at places

A view is found by its path, put at a place and taken away. A new view starts from what the
views above and below know of the server, and from the writes that are pending.
-/

namespace Treena.Firebase

open Sorted FNode FCompoundWrite FViewProcessor

namespace FImmutableTree

variable {π ν : Type*} {cmp : Cmp π} {t c : FImmutableTree π ν} {v : ν} {k : π} {path : List π}

@[simp] theorem valueAtPath_empty :
    (empty : FImmutableTree π ν).valueAtPath cmp path = none := by
  cases path with
  | nil => rfl
  | cons front path => rfl

theorem valueAtPath_cons :
    t.valueAtPath cmp (k :: path) = (t.sub cmp k).valueAtPath cmp path := by
  simp only [valueAtPath, sub, child]
  cases lookup cmp k t.children with
  | none => exact valueAtPath_empty.symm
  | some c => rfl

theorem removeValueAtPath_nil : t.removeValueAtPath cmp [] = ⟨none, t.children⟩ := by
  rw [removeValueAtPath]
  split
  next h =>
    rw [List.isEmpty_iff.mp h]
    rfl
  next => rfl

theorem removeValueAtPath_cons (hl : lookup cmp k t.children = some c) :
    t.removeValueAtPath cmp (k :: path) =
      ⟨t.value, place cmp isEmpty k (c.removeValueAtPath cmp path) t.children⟩ := by
  rw [removeValueAtPath, hl]
  dsimp only
  split
  next h => exact (eq_empty (t := ⟨t.value, _⟩) h).symm
  next => rfl

theorem valueAtPath_of_valuesOnPath (h : t.valuesOnPath cmp path = []) :
    t.valueAtPath cmp path = none := by
  induction path generalizing t with
  | nil =>
    rw [valuesOnPath, List.map_eq_nil_iff] at h
    exact Option.toList_eq_nil_iff.mp h
  | cons k path ih =>
    rw [valuesOnPath, List.append_eq_nil_iff] at h
    rw [valueAtPath]
    cases hl : lookup cmp k t.children with
    | none => rfl
    | some c =>
      rw [hl] at h
      exact ih h.2

end FImmutableTree

variable {κ β : Type} {F : FUtilities κ}

section AllViews

variable {P Q : List κ → FView κ β → Prop} {T : FSyncPointTree κ β} {p q : List κ} {k : κ}
  {syncPoint : FSyncPoint κ β}

theorem allViews_empty : AllViews F P (FImmutableTree.empty : FSyncPointTree κ β) :=
  .mk ordered_nil (fun _ h => absurd h List.not_mem_nil) nofun
    fun _ _ h => absurd h List.not_mem_nil

theorem AllViews.root (h : AllViews F P T) : ∀ syncPoint ∈ T.value, ∀ view ∈ syncPoint.view,
    P [] view := by
  cases h with
  | mk _ _ hv _ => exact hv

theorem AllViews.ordered (h : AllViews F P T) : Ordered F.stringComparator T.children := by
  cases h with
  | mk ho _ _ _ => exact ho

theorem AllViews.of_mem (h : AllViews F P T) {c : Piece κ × FSyncPointTree κ β}
    (hm : c ∈ T.children) : ∃ k, c.1 = .key k ∧ AllViews F (fun q => P (k :: q)) c.2 := by
  cases h with
  | mk _ hp _ hc =>
    obtain ⟨piece, c⟩ := c
    cases piece with
    | priority => exact absurd (hp _ hm) (by simp [Piece.isPriority])
    | key k => exact ⟨k, rfl, hc k c hm⟩

variable [F.Lawful]

theorem AllViews.of_lookup (h : AllViews F P T) {c : FSyncPointTree κ β}
    (hl : lookup F.stringComparator (.key k) T.children = some c) :
    AllViews F (fun q => P (k :: q)) c := by
  cases h with
  | mk ho _ _ hc => exact hc k c ((mem_iff_lookup ho).mpr hl)

theorem AllViews.of_sub (h : AllViews F P T) :
    AllViews F (fun q => P (k :: q)) (T.sub F.stringComparator (.key k)) := by
  unfold FImmutableTree.sub child
  cases hl : lookup F.stringComparator (.key k) T.children with
  | none => exact allViews_empty
  | some c => exact h.of_lookup hl

theorem AllViews.of_valueAtPath (h : AllViews F P T)
    (hq : T.valueAtPath F.stringComparator (q.map .key) = some syncPoint) :
    ∀ view ∈ syncPoint.view, P q view := by
  induction q generalizing T P with
  | nil => exact h.root syncPoint hq
  | cons k q ih =>
    obtain ⟨c, hl, hq⟩ := Option.bind_eq_some_iff.mp hq
    exact ih (h.of_lookup hl) hq

theorem AllViews.and (h : AllViews F P T) (hQ : ∀ q syncPoint,
    T.valueAtPath F.stringComparator (q.map .key) = some syncPoint →
      ∀ view ∈ syncPoint.view, Q q view) :
    AllViews F (fun q view => P q view ∧ Q q view) T := by
  induction h generalizing Q with
  | mk ho hp hv _ ih =>
    refine .mk ho hp (fun sp hsp view hview => ⟨hv sp hsp view hview, hQ [] sp hsp view hview⟩)
      fun k c hc => ih k c hc fun q sp hq => hQ (k :: q) sp ?_
    exact Option.bind_eq_some_iff.mpr ⟨c, (mem_iff_lookup ho).mp hc, hq⟩

theorem AllViews.setValue (h : AllViews F P T) (hq : ∀ view ∈ syncPoint.view, P q view) :
    AllViews F P (T.setValue F.stringComparator syncPoint (q.map .key)) := by
  induction q generalizing T P with
  | nil =>
    cases h with
    | mk ho hp hv hc =>
      refine .mk ho hp (fun sp hsp => ?_) hc
      obtain rfl := Option.some.inj hsp
      exact hq
  | cons k q ih =>
    have hk := ih h.of_sub hq
    cases h with
    | mk ho hp hv hc =>
      exact .upsert ho hp hv hk fun i c _ hm => hc i c hm

theorem AllViews.removeValueAtPath (h : AllViews F P T) :
    AllViews F P (T.removeValueAtPath F.stringComparator (q.map .key)) := by
  induction q generalizing T P with
  | nil =>
    cases h with
    | mk ho hp hv hc =>
      rw [List.map_nil, FImmutableTree.removeValueAtPath_nil]
      exact .mk ho hp nofun hc
  | cons k q ih =>
    rw [List.map_cons]
    cases hl : lookup F.stringComparator (.key k) T.children with
    | none =>
      rw [FImmutableTree.removeValueAtPath, hl]
      exact h
    | some child =>
      rw [FImmutableTree.removeValueAtPath_cons hl]
      have hk := ih (h.of_lookup hl)
      cases h with
      | mk ho hp hv hc =>
        refine .mk ?_ (fun c hm => ?_) hv fun i c hm => ?_
        · unfold place
          split
          · exact ho.erase
          · exact ho.upsert
        · rcases mem_place hm with hm | ⟨hx, -, -⟩
          · exact hp c hm
          · rw [← Std.LawfulEqCmp.eq_of_compare hx]
            rfl
        · rcases mem_place hm with hm | ⟨hx, hcx, -⟩
          · exact hc i c hm
          · obtain rfl := Piece.key.inj (Std.LawfulEqCmp.eq_of_compare hx)
            rw [show c = _ from hcx]
            exact hk

theorem AllViews.of_valuesOnPath (h : AllViews F P T) {found : List (Piece κ) × FSyncPoint κ β}
    (hm : found ∈ T.valuesOnPath F.stringComparator (q.map .key)) :
    ∃ p s, q = p ++ s ∧ found.1 = s.map .key ∧ ∀ view ∈ found.2.view, P p view := by
  induction q generalizing T P with
  | nil =>
    obtain ⟨sp, hsp, rfl⟩ := List.mem_map.mp hm
    exact ⟨[], [], rfl, rfl, h.root sp (Option.mem_toList.mp hsp)⟩
  | cons k q ih =>
    rcases List.mem_append.mp hm with hm | hm
    · obtain ⟨sp, hsp, rfl⟩ := List.mem_map.mp hm
      exact ⟨[], k :: q, rfl, rfl, h.root sp (Option.mem_toList.mp hsp)⟩
    · cases hl : lookup F.stringComparator (.key k) T.children with
      | none =>
        rw [hl] at hm
        cases hm
      | some c =>
        rw [hl] at hm
        obtain ⟨p, s, rfl, hs, hP⟩ := ih (h.of_lookup hl) hm
        exact ⟨k :: p, s, rfl, hs, hP⟩

theorem AllViews.subtreeAtPath (h : AllViews F P T) :
    AllViews F (fun s => P (q ++ s)) (T.subtreeAtPath F.stringComparator (q.map .key)) := by
  induction q generalizing T P with
  | nil => exact h
  | cons k q ih =>
    rw [List.map_cons, FImmutableTree.subtreeAtPath]
    cases hl : lookup F.stringComparator (.key k) T.children with
    | none => exact allViews_empty
    | some c => exact ih (h.of_lookup hl)

end AllViews

section Known

variable {T : FSyncPointTree κ β} {t : FSyncTree κ β} {W : FCompoundWrite κ β} {n : FNode κ β}
  {q : List κ} {syncPoint : FSyncPoint κ β} {cache : FCacheNode κ β} {view : FView κ β}

theorem completeServerSnap_eq {viewCache : FViewCache κ β} (hs : Shows F W n viewCache) :
    ∀ s ∈ viewCache.completeServerSnap, s = n := by
  intro s h
  unfold FViewCache.completeServerSnap at h
  split at h
  next hi =>
    obtain rfl := Option.some.inj h
    exact (hs.complete hi).1
  next => cases h

/-- What a view knows at a path below it is the data of the server there. -/
theorem completeServerCacheAtPath_eq {p s : List κ}
    (hv : ∀ view ∈ syncPoint.view, Informed F W n p view) :
    ∀ m ∈ syncPoint.completeServerCacheAtPath F.keyComparator (s.map .key),
      m = n.find F.keyComparator (p ++ s) := by
  intro m hm
  obtain ⟨view, hview, hm⟩ := Option.bind_eq_some_iff.mp hm
  obtain ⟨x, hx, rfl⟩ := Option.map_eq_some_iff.mp hm
  rw [completeServerSnap_eq (hv view hview).1 x hx, find_append]

theorem Informed.addEventRegistration (h : Informed F W n q view) (handle : ℕ) :
    Informed F W n q (view.addEventRegistration handle) := by
  refine ⟨h.1, fun hi r hr => ?_⟩
  have hi : view.viewCache.cachedEventSnap.isFullyInitialized = true := hi
  rcases List.mem_append.mp hr with hr | hr
  · exact h.2 hi r hr
  · obtain rfl := List.mem_singleton.mp hr
    exact if_pos hi

theorem Informed.removeEventRegistration (h : Informed F W n q view) (handle : Option ℕ) :
    Informed F W n q (view.removeEventRegistration handle) :=
  ⟨h.1, fun hi r hr => h.2 hi r (List.mem_filter.mp hr).1⟩

theorem mem_removeEventRegistration {handle : Option ℕ}
    (h : view ∈ (syncPoint.removeEventRegistration handle).view) :
    ∃ old ∈ syncPoint.view, view = old.removeEventRegistration handle := by
  obtain ⟨hv, -⟩ := Option.mem_filter_iff.mp h
  obtain ⟨old, hold, rfl⟩ := Option.map_eq_some_iff.mp hv
  exact ⟨old, hold, rfl⟩

structure Starts (F : FUtilities κ) (n : FNode κ β) (q : List κ) (cache : FCacheNode κ β) :
    Prop where
  plain : cache.node.Plain F.keyComparator
  complete : cache.isFullyInitialized → cache.node = n.find F.keyComparator q

theorem serverCacheForQuery_starts [F.Lawful] (hn : n.Plain F.keyComparator)
    (hT : AllViews F (Informed F W n) t.syncPointTree) :
    Starts F n q (FSyncTree.serverCacheForQuery F t (q.map .key)) := by
  unfold FSyncTree.serverCacheForQuery
  split
  next m hm =>
    obtain ⟨found, hf, hx⟩ := List.exists_of_findSome?_eq_some hm
    obtain ⟨p, s, rfl, hs, hv⟩ := hT.of_valuesOnPath hf
    rw [hs] at hx
    have hm := completeServerCacheAtPath_eq hv m hx
    exact ⟨hm ▸ hn.find, fun _ => hm⟩
  next =>
    refine ⟨?_, nofun⟩
    dsimp only
    have hsub := hT.subtreeAtPath (q := q)
    -- the children that are known, one after the other
    refine List.foldlRecOn _ _ .empty fun m hm child hchild => ?_
    split
    next x hx =>
      obtain ⟨sp, hsp, hx⟩ := Option.bind_eq_some_iff.mp hx
      obtain ⟨k, hk, hc⟩ := hsub.of_mem hchild
      have hx := completeServerCacheAtPath_eq (s := []) (hc.root sp hsp) x hx
      rw [hk]
      exact hm.set (hx ▸ hn.find)
    next => exact hm

variable [DecidableEq κ]

theorem Sees.completeCache_none {w : FWriteTreeRef κ β} (h : Sees F w W) :
    w.calculateCompleteEventCacheWithCompleteServerCache F none = some W.value := by
  have hc := h.completeNodeAtPath_eq (p := [])
  have hm := h.childCompoundWriteAtPath_eq (p := [])
  have hr := FCompoundWrite.completeNodeAtPath_eq (p := []) h.plain_writes
  rw [List.map_nil] at hc hm hr
  rw [List.append_nil] at hc hm
  unfold FWriteTreeRef.calculateCompleteEventCacheWithCompleteServerCache
    FWriteTree.calculateCompleteEventCacheAtPath FCompoundWrite.hasCompleteWriteAtPath
  simp only [Option.isNone_none, Bool.not_false, Bool.and_self, if_true, hc, hm, writesAt,
    Option.bind_eq_bind, Option.bind_some]
  cases hv : W.value with
  | some x => rfl
  | none =>
    rw [writesAt, hv] at hr
    simp only [hr]
    split <;> rfl

variable [F.Lawful]

theorem getView_informed {w : FWriteTreeRef κ β} (hW : W.Plain F)
    (hw : Sees F w (writesAt F W q)) (hv : ∀ view ∈ syncPoint.view, Informed F W n q view)
    (hc : Starts F n q cache) :
    ∃ view, syncPoint.getView F w cache = some view ∧ Informed F W n q view := by
  unfold FSyncPoint.getView
  cases hview : syncPoint.view with
  | some view => exact ⟨view, rfl, hv view hview⟩
  | none =>
    dsimp only
    by_cases hi : cache.isFullyInitialized
    · rw [if_pos hi, hw.completeCache_eq hc.plain]
      refine ⟨_, rfl, ⟨⟨hW.writesAt.lay hc.plain, hc.plain⟩, fun _ => ⟨hc.complete hi, ?_⟩,
        fun x hx => ?_⟩, fun _ => nofun⟩
      · rw [hc.complete hi]
      · rw [lay_of_value hx]
    · have hi' : cache.isFullyInitialized = false := Bool.eq_false_iff.mpr hi
      rw [if_neg hi, hw.completeCache_none]
      cases hx : (writesAt F W q).value with
      | some x =>
        refine ⟨_, rfl, shows_of_incomplete
          ⟨hW.writesAt.of_value hx, hc.plain⟩ hi' fun y hy => ?_, fun _ => nofun⟩
        obtain rfl := Option.some.inj (hx.symm.trans hy)
        rfl
      | none =>
        obtain ⟨m, hm, hp⟩ := hw.completeEventChildren_eq hc.plain
        refine ⟨⟨⟨⟨m, false⟩, cache⟩, []⟩, by simp [hm],
          shows_of_incomplete ⟨hp, hc.plain⟩ hi' fun y hy => ?_, fun _ => nofun⟩
        rw [hx] at hy
        cases hy

theorem getView_unknown {w : FWriteTreeRef κ β} (hw : Sees F w W) (hs : syncPoint.view = none) :
    ∃ view, syncPoint.getView F w ⟨.empty, false⟩ = some view ∧
      view.viewCache.completeEventSnap = W.value := by
  unfold FSyncPoint.getView
  rw [hs]
  simp only [Bool.false_eq_true, if_false, hw.completeCache_none]
  cases hx : W.value with
  | some x => exact ⟨_, rfl, rfl⟩
  | none =>
    obtain ⟨m, hm, -⟩ := hw.completeEventChildren_eq (n := .empty) .empty
    exact ⟨⟨⟨⟨m, false⟩, ⟨.empty, false⟩⟩, []⟩, by simp [hm], rfl⟩

/-- A read is answered with all that a view at the place or above shows, or by the writes
that are pending there or above. -/
theorem getServerValue_eq {P : List κ → FView κ β → Prop} (hT : AllViews F P t.syncPointTree)
    (hw : Sees F ⟨q.map .key, t.pendingWriteTree⟩ W) :
    ∃ t' answer, t.getServerValue F (q.map .key) = some (t', answer) ∧
      t'.pendingWriteTree = t.pendingWriteTree ∧ AllViews F P t'.syncPointTree ∧
      ((∃ p s view, q = p ++ s ∧ P p view ∧ answer = view.viewCache.completeEventSnap) ∨
        answer = W.value) := by
  unfold FSyncTree.getServerValue
  dsimp only
  obtain ⟨visited, hvisited⟩ : ∃ visited, visited =
    t.syncPointTree.valuesOnPath F.stringComparator (q.map .key) := ⟨_, rfl⟩
  obtain ⟨found, hfound⟩ : ∃ found, found = visited.find? fun found =>
    (found.2.completeEventCacheAtPath F.keyComparator found.1).isSome := ⟨_, rfl⟩
  rw [← hvisited, ← hfound]
  cases htarget : found <|> visited.getLast? with
  | none =>
    have hnone : (⟨none⟩ : FSyncPoint κ β).view = none := rfl
    obtain ⟨view, hview, hsnap⟩ := getView_unknown hw hnone
    refine ⟨{ t with syncPointTree :=
      t.syncPointTree.setValue F.stringComparator ⟨none⟩ (q.map .key) }, _, ?_, rfl,
      hT.setValue fun _ h => absurd h (Option.not_mem_none _), .inr hsnap⟩
    rw [hview]
    rfl
  | some target =>
    have hmem : target ∈ visited := by
      cases found with
      | none => exact List.mem_of_getLast? htarget
      | some _ => exact List.mem_of_find?_eq_some (hfound.symm.trans htarget)
    obtain ⟨p, s, hq, -, hP⟩ := hT.of_valuesOnPath (hvisited ▸ hmem)
    obtain ⟨relativePath, syncPoint⟩ := target
    cases hview : syncPoint.view with
    | some view =>
      refine ⟨t, view.viewCache.completeEventSnap, ?_, rfl, hT,
        .inl ⟨p, s, view, hq, hP view hview, rfl⟩⟩
      simp [FSyncPoint.getView, hview]
    | none =>
      obtain ⟨view, hv, hsnap⟩ := getView_unknown hw hview
      refine ⟨t, view.viewCache.completeEventSnap, ?_, rfl, hT, .inr hsnap⟩
      simp [FSyncPoint.completeEventCacheAtPath, FSyncPoint.completeServerCacheAtPath, hview, hv]

end Known

end Treena.Firebase
