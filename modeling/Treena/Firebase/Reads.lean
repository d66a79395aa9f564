import Treena.Firebase.Listeners

/-! # Reads below a listener

A read stops at the first place on its path that knows its data, and is answered with the whole
of what the view there shows. So it is right at the place itself, and below only if nothing is
listened to above.
-/

namespace Treena.Firebase

open Sorted FNode FCompoundWrite FImmutableTree

variable {κ β : Type} {F : FUtilities κ}

section Trees

variable [DecidableEq κ] [DecidableEq β] [F.Lawful] {P : List κ → FView κ β → Prop}
  {T : FSyncPointTree κ β} {t : FSyncTree κ β} {p s : List κ} {view : FView κ β}
  {syncPoint : FSyncPoint κ β}

omit [DecidableEq κ] [DecidableEq β] [F.Lawful] in
theorem completeEventCacheAtPath_of_view {path : List (Piece κ)}
    (h : syncPoint.view = some view) (hc : view.viewCache.completeEventSnap.isSome) :
    (syncPoint.completeEventCacheAtPath F.keyComparator path).isSome := by
  rw [FSyncPoint.completeEventCacheAtPath, h, Option.bind_some, FView.completeEventCacheFor,
    Option.isSome_map]
  exact hc

omit [DecidableEq κ] [DecidableEq β] in
theorem find?_valuesOnPath (hT : AllViews F P T) (hP : ∀ r view, P r view → r <+: p → r = p)
    (hv : T.valueAtPath F.stringComparator (p.map .key) = some syncPoint)
    (hview : syncPoint.view = some view) (hc : view.viewCache.completeEventSnap.isSome) :
    (T.valuesOnPath F.stringComparator ((p ++ s).map .key)).find?
      (fun found => (found.2.completeEventCacheAtPath F.keyComparator found.1).isSome) =
        some (s.map .key, syncPoint) := by
  induction p generalizing T P with
  | nil =>
    have hvalue : T.value = some syncPoint := hv
    cases s with
    | nil =>
      rw [List.append_nil, List.map_nil, valuesOnPath, hvalue]
      exact List.find?_cons_of_pos (completeEventCacheAtPath_of_view hview hc)
    | cons k s =>
      rw [List.nil_append, List.map_cons, valuesOnPath, hvalue]
      exact List.find?_cons_of_pos (completeEventCacheAtPath_of_view hview hc)
  | cons k p ih =>
    -- a sync point at the root has no view
    have hroot : ∀ x ∈ T.value.toList.map fun value =>
        (Piece.key k :: (p ++ s).map Piece.key, value),
        ¬ (x.2.completeEventCacheAtPath F.keyComparator x.1).isSome := by
      intro x hx
      obtain ⟨sp, hsp, rfl⟩ := List.mem_map.mp hx
      have hnone : sp.view = none := Option.eq_none_iff_forall_ne_some.mpr fun view hview => by
        have hr := hP _ _ (hT.root sp (Option.mem_toList.mp hsp) view hview) List.nil_prefix
        cases hr
      simp [FSyncPoint.completeEventCacheAtPath, hnone]
    rw [List.map_cons, FImmutableTree.valueAtPath] at hv
    obtain ⟨c, hl, hv⟩ := Option.bind_eq_some_iff.mp hv
    rw [List.cons_append, List.map_cons, valuesOnPath, List.find?_append,
      List.find?_eq_none.mpr hroot, Option.none_or, hl]
    refine ih (hT.of_lookup hl) (fun r view hr hrp => ?_) hv
    exact (List.cons.inj (hP (k :: r) view hr (List.cons_prefix_cons.mpr ⟨rfl, hrp⟩))).2

omit [DecidableEq β] in
/-- The answer is what the view shows, and nothing changes. -/
theorem getServerValue_of_stands (hT : AllViews F P t.syncPointTree)
    (hP : ∀ r view, P r view → r <+: p → r = p) (hv : Stands F t.syncPointTree p view)
    (hc : view.viewCache.completeEventSnap.isSome) :
    t.getServerValue F ((p ++ s).map .key) = some (t, view.viewCache.completeEventSnap) := by
  obtain ⟨syncPoint, hsp, hview⟩ := Option.bind_eq_some_iff.mp hv
  unfold FSyncTree.getServerValue
  dsimp only
  rw [find?_valuesOnPath hT hP hsp hview hc]
  simp [FSyncPoint.getView, hview]

end Trees

namespace FRepo

open FWriteTree Run

variable [DecidableEq κ] [DecidableEq β] [F.Lawful] {as bs : List (Op κ β)} {p : List κ}
  {handle : ℕ}

end FRepo

end Treena.Firebase
