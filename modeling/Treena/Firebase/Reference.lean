import Treena.Firebase.Answers
import Treena.Firebase.Below
import Treena.Firebase.View

/-! # Pending writes seen from a path

What is computed for a view from the pending writes is computed by the writes that are seen
from its path, and nothing is thrown.
-/

namespace Treena.Firebase

open Sorted FNode FCompoundWrite

variable {κ β : Type} [DecidableEq κ] {F : FUtilities κ}

structure Sees (F : FUtilities κ) (w : FWriteTreeRef κ β) (W : FCompoundWrite κ β) : Prop where
  path : w.path = (keys w.path).map .key
  plain : w.writeTree.visibleWrites.Plain F
  eq : W = writesAt F w.writeTree.visibleWrites (keys w.path)

namespace Sees

variable {w : FWriteTreeRef κ β} {W : FCompoundWrite κ β} {n : FNode κ β} {k : κ} {p : List κ}

omit [DecidableEq κ] in
theorem plain_writes (h : Sees F w W) : W.Plain F := h.eq ▸ h.plain.writesAt

theorem completeNodeAtPath_eq (h : Sees F w W) :
    w.writeTree.visibleWrites.completeNodeAtPath F (w.path ++ p.map .key) =
      some (writesAt F W p).value := by
  rw [h.path, ← List.map_append, FCompoundWrite.completeNodeAtPath_eq h.plain,
    writesAt_append h.plain, ← h.eq]

theorem childCompoundWriteAtPath_eq (h : Sees F w W) :
    w.writeTree.visibleWrites.childCompoundWriteAtPath F (w.path ++ p.map .key) =
      some (writesAt F W p) := by
  rw [h.path, ← List.map_append, FCompoundWrite.childCompoundWriteAtPath_eq h.plain,
    writesAt_append h.plain, ← h.eq]

theorem shadowingWriteAtPath_eq (h : Sees F w W) :
    w.shadowingWriteAtPath F (p.map .key) = some (writesAt F W p).value :=
  h.completeNodeAtPath_eq

variable [F.Lawful]

theorem completeCache_eq (h : Sees F w W) (hn : n.Plain F.keyComparator) :
    w.calculateCompleteEventCacheWithCompleteServerCache F (some n) = some (some (lay F W n)) := by
  have hW := h.plain_writes
  have hc := h.completeNodeAtPath_eq (p := [])
  have hm := h.childCompoundWriteAtPath_eq (p := [])
  have hr := FCompoundWrite.completeNodeAtPath_eq (p := []) hW
  rw [List.map_nil] at hc hm hr
  rw [List.append_nil] at hc hm
  unfold FWriteTreeRef.calculateCompleteEventCacheWithCompleteServerCache
    FWriteTree.calculateCompleteEventCacheAtPath FCompoundWrite.hasCompleteWriteAtPath
  simp only [Option.isNone_none, Bool.not_false, Bool.and_self, if_true, hc, hm, writesAt,
    Option.bind_eq_bind, Option.bind_some]
  cases hv : W.value with
  | some x =>
    rw [lay_of_value hv]
    rfl
  | none =>
    simp only [hr, applyToNode_eq hW hn, Option.getD_some]
    split
    next he =>
      rw [FImmutableTree.eq_empty he]
      rfl
    next => rfl

/-- What is shown at a path that is not under a write, after the server has written there. -/
theorem afterServerOverwrite_eq (h : Sees F w W) (hn : n.Plain F.keyComparator)
    (hv : (writesAt F W p).value = none) :
    w.calculateEventCacheAfterServerOverwriteWithChildPath F (p.map .key) n =
      some (some (lay F (writesAt F W p) (n.find F.keyComparator p))) := by
  unfold FWriteTreeRef.calculateEventCacheAfterServerOverwriteWithChildPath
    FWriteTree.calculateEventCacheAfterServerOverwriteAtPath FCompoundWrite.hasCompleteWriteAtPath
  simp only [h.completeNodeAtPath_eq, h.childCompoundWriteAtPath_eq, hv, Option.map_some,
    Option.bind_eq_bind, Option.bind_some, Option.isSome_none, Bool.false_eq_true, if_false]
  split
  next he =>
    rw [FImmutableTree.eq_empty he]
    rfl
  next =>
    rw [applyToNode_eq h.plain_writes.writesAt hn.find]
    rfl

theorem completeChild_eq (h : Sees F w W) {cache : FCacheNode κ β}
    (hn : cache.node.Plain F.keyComparator) : w.calculateCompleteChild F (.key k) cache =
      some (if (writesAt F W [k]).value.isSome || cache.isCompleteForChild F.keyComparator (.key k)
        then some (lay F (writesAt F W [k]) (cache.node.get F.keyComparator k)) else none) := by
  have hc := h.completeNodeAtPath_eq (p := [k])
  have hm := h.childCompoundWriteAtPath_eq (p := [k])
  rw [List.map_singleton] at hc hm
  unfold FWriteTreeRef.calculateCompleteChild FWriteTree.calculateCompleteChildAtPath
  simp only [hc, hm, Option.bind_eq_bind, Option.bind_some]
  cases hv : (writesAt F W [k]).value with
  | some x =>
    rw [lay_of_value hv]
    rfl
  | none =>
    simp only [Option.isSome_none, Bool.false_or]
    split
    next =>
      rw [applyToNode_eq h.plain_writes.writesAt (hn.get k)]
      rfl
    next => rfl

omit [DecidableEq κ] in
theorem plain_foldl {l : List (Piece κ × FNode κ β)} (hn : n.Plain F.keyComparator)
    (hl : ∀ c ∈ l, c.1.isPriority = false ∧ c.2.Plain F.keyComparator) :
    (l.foldl (fun n c => n.updateImmediateChild F.keyComparator c.1 c.2) n).Plain
      F.keyComparator := by
  induction l generalizing n with
  | nil => exact hn
  | cons c l ih =>
    rw [List.forall_mem_cons] at hl
    refine ih ?_ hl.2
    obtain ⟨piece, m⟩ := c
    cases piece with
    | priority => exact absurd hl.1.1 (by simp [Piece.isPriority])
    | key k => exact hn.set hl.1.2

omit [F.Lawful] [DecidableEq κ] in
theorem plain_completeChildren (hW : W.Plain F) :
    ∀ c ∈ W.completeChildren, c.1.isPriority = false ∧ c.2.Plain F.keyComparator := by
  intro c hc
  unfold completeChildren at hc
  split at hc
  next x hx =>
    obtain ⟨e, he, rfl⟩ := List.mem_map.mp hc
    exact ⟨rfl, (hW.of_value hx).of_mem e he⟩
  next hx =>
    obtain ⟨e, he, hce⟩ := List.mem_filterMap.mp hc
    obtain ⟨x, hx, rfl⟩ := Option.map_eq_some_iff.mp hce
    exact ⟨hW.isPriority e he, (hW.of_mem e he).of_value hx⟩

theorem completeEventChildren_eq (h : Sees F w W) (hn : n.Plain F.keyComparator) :
    ∃ m, w.calculateCompleteEventChildrenWithCompleteServerChildren F n = some m ∧
      m.Plain F.keyComparator := by
  have hW := h.plain_writes
  have hc := h.completeNodeAtPath_eq (p := [])
  have hm := h.childCompoundWriteAtPath_eq (p := [])
  rw [List.map_nil, List.append_nil] at hc hm
  unfold FWriteTreeRef.calculateCompleteEventChildrenWithCompleteServerChildren
    FWriteTree.calculateCompleteEventChildrenAtPath
  simp only [hc, hm, writesAt, Option.bind_eq_bind, Option.bind_some]
  cases hv : W.value with
  | some x =>
    refine ⟨_, rfl, ?_⟩
    have hf := plain_foldl (F := F) (.empty : (FNode.empty : FNode κ β).Plain F.keyComparator)
      (l := x.entries.map fun e => (.key e.1, e.2)) fun c hc => ?_
    · rwa [List.foldl_map] at hf
    · obtain ⟨e, he, rfl⟩ := List.mem_map.mp hc
      exact ⟨rfl, (hW.of_value hv).of_mem e he⟩
  | none =>
    -- the children of the server come first, each with the writes below it
    have hfold : ∀ (l : List (κ × FNode κ β)) (m : FNode κ β),
        (∀ e ∈ l, e.2.Plain F.keyComparator) → m.Plain F.keyComparator → ∃ m',
        l.foldlM (fun m e => (W.childCompoundWriteAtPath F [.key e.1]).map fun childMerge =>
          m.updateImmediateChild F.keyComparator (.key e.1) (childMerge.applyToNode F e.2)) m =
          some m' ∧ m'.Plain F.keyComparator := by
      intro l
      induction l with
      | nil => exact fun m _ hm => ⟨m, rfl, hm⟩
      | cons e l ih =>
        intro m hl hm
        rw [List.forall_mem_cons] at hl
        have he := FCompoundWrite.childCompoundWriteAtPath_eq (p := [e.1]) hW
        rw [List.map_singleton] at he
        rw [List.foldlM_cons, he, Option.map_some, applyToNode_eq hW.writesAt hl.1]
        exact ih _ hl.2 (hm.set (hW.writesAt.lay hl.1))
    obtain ⟨m, hm, hp⟩ := hfold n.entries .empty hn.of_mem .empty
    refine ⟨W.completeChildren.foldl (fun completeChildren child =>
      completeChildren.updateImmediateChild F.keyComparator child.1 child.2) m, ?_, ?_⟩
    · simp only [hm, Option.bind_some]
      rfl
    · exact plain_foldl hp (plain_completeChildren hW)

end Sees

end Treena.Firebase
