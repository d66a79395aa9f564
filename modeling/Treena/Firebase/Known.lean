import Treena.Firebase.View

/-! # Complete data of the server

Whether a view knows all that the server has at its place depends on nothing but the operations:
it does once the server has written at the place or above, or has told all, and no operation
makes it forget.
-/

namespace Treena.Firebase

open Sorted FIndexedFilter

variable {κ β : Type}

def FOperation.completes : FOperation κ β → Bool
  | .serverOverwrite path _ => path.isEmpty
  | .listenComplete path => path.isEmpty
  | _ => false

namespace FViewProcessor

variable [DecidableEq κ] [DecidableEq β] {F : FUtilities κ} {w : FWriteTreeRef κ β}
  {view : FViewCache κ β} {s v : FNode κ β} {path : List (Piece κ)} {cache : Option (FNode κ β)}
  {acc? : Option (FChildChangeAccumulator κ β)} {op : FOperation κ β}
  {r : FViewCache κ β × Option (FChildChangeAccumulator κ β)} {c : FCompoundWrite κ β}
  {result : FViewProcessorResult κ β}

theorem server_generateEventCache
    (h : generateEventCacheAfterServerEvent F view path w acc? = some r) :
    r.1.cachedServerSnap = view.cachedServerSnap := by
  obtain ⟨shadowing, -, h⟩ := Option.bind_eq_some_iff.mp h
  cases shadowing with
  | some _ =>
    obtain rfl := Option.some.inj h
    rfl
  | none =>
    obtain ⟨updated, -, h⟩ := Option.bind_eq_some_iff.mp h
    obtain rfl := Option.some.inj h
    rfl

theorem complete_applyServerOverwriteTo
    (h : applyServerOverwriteTo F view path s w acc? = some r) :
    r.1.cachedServerSnap.isFullyInitialized =
      (view.cachedServerSnap.isFullyInitialized || path.isEmpty) := by
  obtain ⟨serverSnap, hs, h⟩ := Option.bind_eq_some_iff.mp h
  cases serverSnap with
  | some serverSnap => rw [server_generateEventCache h, FViewCache.updateServerSnap]
  | none =>
    obtain rfl := Option.some.inj h
    cases path with
    | nil =>
      rw [newServerCache] at hs
      obtain ⟨_, -, hs⟩ := Option.map_eq_some_iff.mp hs
      cases hs
    | cons front path => exact (Bool.or_false _).symm

theorem server_applyUserOverwriteTo
    (h : applyUserOverwriteTo F view path v w cache acc? = some r) :
    r.1.cachedServerSnap = view.cachedServerSnap := by
  unfold applyUserOverwriteTo at h
  dsimp only at h
  split at h
  next =>
    obtain ⟨updated, -, rfl⟩ := Option.map_eq_some_iff.mp h
    rfl
  next =>
    obtain rfl := Option.some.inj h
    rfl
  next =>
    obtain ⟨newChild, -, h⟩ := Option.bind_eq_some_iff.mp h
    split at h
    · obtain rfl := Option.some.inj h
      rfl
    · obtain ⟨updated, -, h⟩ := Option.bind_eq_some_iff.mp h
      obtain rfl := Option.some.inj h
      rfl

theorem server_foldlM {l : List (List (Piece κ) × FNode κ β)}
    {b : List (Piece κ) × FNode κ β → Bool}
    {cur : FViewCache κ β × Option (FChildChangeAccumulator κ β)}
    (h : l.foldlM (fun cur write => if b write then applyUserWrite F path w cache cur write
      else some cur) cur = some r) : r.1.cachedServerSnap = cur.1.cachedServerSnap := by
  induction l generalizing cur with
  | nil =>
    obtain rfl := Option.some.inj h
    rfl
  | cons write l ih =>
    rw [List.foldlM_cons] at h
    obtain ⟨cur', hc, h⟩ := Option.bind_eq_some_iff.mp h
    rw [ih h]
    split at hc
    · exact server_applyUserOverwriteTo hc
    · obtain rfl := Option.some.inj hc
      rfl

theorem server_applyUserMergeTo (h : applyUserMergeTo F view path c w cache acc? = some r) :
    r.1.cachedServerSnap = view.cachedServerSnap := by
  obtain ⟨cur, hc, h⟩ := Option.bind_eq_some_iff.mp h
  exact (server_foldlM h).trans (server_foldlM hc)

theorem complete_foldlM {l : List (Piece κ × FCompoundWrite κ β)}
    {b : Piece κ × FCompoundWrite κ β → Bool}
    {cur : FViewCache κ β × Option (FChildChangeAccumulator κ β)}
    (h : l.foldlM (fun cur child => if b child then applyChildMerge F view w cur child
      else some cur) cur = some r) :
    r.1.cachedServerSnap.isFullyInitialized = cur.1.cachedServerSnap.isFullyInitialized := by
  induction l generalizing cur with
  | nil =>
    obtain rfl := Option.some.inj h
    rfl
  | cons child l ih =>
    rw [List.foldlM_cons] at h
    obtain ⟨cur', hc, h⟩ := Option.bind_eq_some_iff.mp h
    rw [ih h]
    split at hc
    · exact (complete_applyServerOverwriteTo hc).trans (Bool.or_false _)
    · obtain rfl := Option.some.inj hc
      rfl

theorem complete_applyServerMergeTo (h : applyServerMergeTo F view path c w acc? = some r) :
    r.1.cachedServerSnap.isFullyInitialized = view.cachedServerSnap.isFullyInitialized := by
  unfold applyServerMergeTo at h
  dsimp only at h
  split at h
  · obtain rfl := Option.some.inj h
    rfl
  · obtain ⟨merge, -, h⟩ := Option.bind_eq_some_iff.mp h
    obtain ⟨cur, hc, h⟩ := Option.bind_eq_some_iff.mp h
    exact (complete_foldlM h).trans (complete_foldlM hc)

theorem complete_ackUserWriteOn {affectedTree : FImmutableTree (Piece κ) Unit}
    (h : ackUserWriteOn F view path affectedTree w acc? = some r) :
    r.1.cachedServerSnap.isFullyInitialized = view.cachedServerSnap.isFullyInitialized := by
  obtain ⟨shadowing, -, h⟩ := Option.bind_eq_some_iff.mp h
  cases shadowing with
  | some _ =>
    obtain rfl := Option.some.inj h
    rfl
  | none =>
    dsimp only at h
    split at h
    next =>
      split at h
      next hc =>
        rw [complete_applyServerOverwriteTo h]
        cases path with
        | nil =>
          rw [show view.cachedServerSnap.isFullyInitialized = true from hc]
          rfl
        | cons front path => exact Bool.or_false _
      next =>
        split at h
        · obtain ⟨changedChildren, -, h⟩ := Option.bind_eq_some_iff.mp h
          exact complete_applyServerMergeTo h
        · obtain rfl := Option.some.inj h
          rfl
    next =>
      obtain ⟨changedChildren, -, h⟩ := Option.bind_eq_some_iff.mp h
      exact complete_applyServerMergeTo h

theorem server_revertUserWriteOn (h : revertUserWriteOn F view path w acc? = some r) :
    r.1.cachedServerSnap = view.cachedServerSnap := by
  obtain ⟨shadowing, -, h⟩ := Option.bind_eq_some_iff.mp h
  cases shadowing with
  | some _ =>
    obtain rfl := Option.some.inj h
    rfl
  | none =>
    obtain ⟨updated, -, h⟩ := Option.bind_eq_some_iff.mp h
    obtain ⟨root, -, h⟩ := Option.bind_eq_some_iff.mp h
    obtain rfl := Option.some.inj h
    rfl

/-- The data of the server becomes complete at the root, and stays so. -/
theorem complete_applyOperationOn (h : applyOperationOn F view op w cache = some result) :
    result.viewCache.cachedServerSnap.isFullyInitialized =
      (view.cachedServerSnap.isFullyInitialized || op.completes) := by
  obtain ⟨applied, ha, hr⟩ := Option.bind_eq_some_iff.mp h
  obtain rfl := Option.some.inj hr
  dsimp only
  cases op with
  | userOverwrite path snap =>
    rw [server_applyUserOverwriteTo ha]
    exact (Bool.or_false _).symm
  | serverOverwrite path snap => exact complete_applyServerOverwriteTo ha
  | serverMerge path c =>
    rw [complete_applyServerMergeTo ha]
    exact (Bool.or_false _).symm
  | userMerge path c =>
    rw [server_applyUserMergeTo ha]
    exact (Bool.or_false _).symm
  | ackUserWrite path affectedTree revert =>
    cases revert with
    | true =>
      rw [server_revertUserWriteOn ha]
      exact (Bool.or_false _).symm
    | false =>
      rw [complete_ackUserWriteOn ha]
      exact (Bool.or_false _).symm
  | listenComplete path =>
    rw [server_generateEventCache ha]
    rfl

end FViewProcessor

end Treena.Firebase
