import Treena.Firebase.Acked
import Treena.Firebase.Names

/-! # What a view shows

Whatever operation is applied, a view that knows all that the server has told about its place
shows that data with the pending writes laid over it, and a view under a write shows the
write. What has changed is told, child by child.
-/

namespace Treena.Firebase

open Sorted FNode FCompoundWrite FChildChangeAccumulator FIndexedFilter

variable {κ β : Type} {F : FUtilities κ}

namespace FViewProcessor

variable [DecidableEq κ] [DecidableEq β] [F.Lawful] {w : FWriteTreeRef κ β}
  {W W' : FCompoundWrite κ β} {view view' : FViewCache κ β} {n n' : FNode κ β}
  {f : κ → FNode κ β} {acc? : Option (FChildChangeAccumulator κ β)}
  {cache : Option (FNode κ β)}

section Operations

/-- What an operation does to the writes that are seen from a view, and to the data that the
server has told about its place. A write of nothing is never under a leaf of that data, and
the server does not say that it has told all before the view has it. -/
inductive Moves (F : FUtilities κ) (known : Prop) (W : FCompoundWrite κ β) (n : FNode κ β) :
    FOperation κ β → FCompoundWrite κ β → FNode κ β → Prop
  | userOverwrite {q : List κ} {v : FNode κ β} : v.Plain F.keyComparator →
      (v.isEmpty → Free F.keyComparator n q) →
      Moves F known W n (.userOverwrite (q.map .key) v) (add F v W q) n
  | userMerge {q : List κ} {c : FCompoundWrite κ β} : c.Plain F →
      (∀ e ∈ leaves c, e.2.isEmpty → Free F.keyComparator n (q ++ e.1)) →
      Moves F known W n (.userMerge (q.map .key) c) (layer F ((leaves c).map (under q)) W) n
  | serverOverwrite {p : List κ} {s : FNode κ β} : s.Plain F.keyComparator → Clear F W n →
      Clear F W (n.put F.keyComparator p s) →
      Moves F known W n (.serverOverwrite (p.map .key) s) W (n.put F.keyComparator p s)
  | serverMerge {p : List κ} {c : FCompoundWrite κ β} : c.Plain F → c.value = none →
      (∀ ks m, Patched F (mergeOf F p c) n ks m → Clear F W m) →
      Moves F known W n (.serverMerge (p.map .key) c) W
        (n.put F.keyComparator p (lay F c (n.find F.keyComparator p)))
  | ackUserWrite {q : List κ} {A : FImmutableTree (Piece κ) Unit} {W' : FCompoundWrite κ β} :
      A.value.isSome → Unshadowed F q W W' → Free F.keyComparator n q →
      Moves F known W n (.ackUserWrite (q.map .key) A false) W' n
  | ackUserMerge {q : List κ} {A : FImmutableTree (Piece κ) Unit} {ps : List (List κ)}
      {W' : FCompoundWrite κ β} : A.value = none →
      A.forEach [] = ps.map (fun p => (p.map .key, ())) → (∀ p ∈ ps, p ≠ []) →
      Dropped F q ps W W' → (∀ p ∈ ps, Free F.keyComparator n (q ++ p)) →
      Moves F known W n (.ackUserWrite (q.map .key) A false) W' n
  | revertUserWrite {q : List κ} {A : FImmutableTree (Piece κ) Unit} {W' : FCompoundWrite κ β} :
      Unshadowed F q W W' → Moves F known W n (.ackUserWrite (q.map .key) A true) W' n
  | listenComplete {p : List κ} : (p = [] → known) →
      Moves F known W n (.listenComplete (p.map .key)) W n

variable {op : FOperation κ β}

/-- Whatever the operation, the view shows the data of the server under the writes. -/
theorem applyOperation_shows (hW : W.Plain F) (hs : Shows F W n view)
    (hm : Moves F (view.cachedServerSnap.node = n) W n op W' n') (h : Sees F w W')
    (hcache : ∀ c ∈ cache, c.Plain F.keyComparator) (hf : ∀ i, (f i).Plain F.keyComparator)
    (hc : Covers F.keyComparator f acc? view.cachedEventSnap.node) :
    Reaches F.keyComparator f acc? (applyOperation F view op w cache acc?) (Shows F W' n') := by
  cases hm with
  | userOverwrite hv hfree =>
    exact applyUserOverwriteTo_shows hW h hs hf hc hcache hv fun _ => hfree
  | userMerge hpc hfree => exact applyUserMergeTo_shows hW h hs hf hc hcache hpc hfree
  | serverOverwrite hps hcl hcl' =>
    exact (applyServerOverwriteTo_shows h hs hf hc hps fun _ => ⟨hcl, hcl'⟩).mono fun _ h => h.1
  | serverMerge hpc hcv hcl =>
    exact (applyServerMergeTo_shows h hs hf hc hpc hcv fun _ => hcl).mono fun _ h => h.1
  | ackUserWrite hA hu hfree => exact ackUserWriteOn_shows hA hW h hs hu hf hc fun _ => hfree
  | ackUserMerge hA hps hne hd hfree =>
    exact ackUserWriteOn_merged hA hps hne hW h hs hd hf hc hfree
  | revertUserWrite hu => exact revertUserWriteOn_shows hW h hs hu hf hc
  | listenComplete hp => exact listenCompleteOldCache_shows h hs hf hc hp

/-- If no value is raised, what is shown has not changed. -/
theorem maybeAddValue_eq {changes : FChildChangeAccumulator κ β}
    (hp : view.Plain F.keyComparator) (hp' : view'.Plain F.keyComparator)
    (ha : Accounts changes (childrenOf F.keyComparator view.cachedEventSnap.node)
      (childrenOf F.keyComparator view'.cachedEventSnap.node))
    (hi : view'.cachedEventSnap.isFullyInitialized) :
    maybeAddValueFromOldViewCache F.keyComparator view view' changes =
        some view'.cachedEventSnap.node ∨
      maybeAddValueFromOldViewCache F.keyComparator view view' changes = none ∧
        view.cachedEventSnap = view'.cachedEventSnap := by
  unfold maybeAddValueFromOldViewCache
  dsimp only
  split
  next => exact .inl rfl
  next hne =>
    refine .inr ⟨rfl, ?_⟩
    simp only [hi, Bool.true_and, Bool.or_eq_true, not_or, Bool.not_eq_true', Bool.not_eq_false,
      Bool.and_eq_true, not_and] at hne
    obtain ⟨⟨⟨hch, hold⟩, hleaf⟩, -⟩ := hne
    have hget : ∀ k, view.cachedEventSnap.node.get F.keyComparator k =
        view'.cachedEventSnap.node.get F.keyComparator k := by
      intro k
      have hk := ha k
      rw [List.isEmpty_iff.mp hch] at hk
      exact hk
    have hnode : view.cachedEventSnap.node = view'.cachedEventSnap.node := by
      by_cases hl : view'.cachedEventSnap.node.isLeafNode ∨ view'.cachedEventSnap.node.isEmpty
      · exact ((isEqual_iff hp'.event hp.event).mp (hleaf hl)).symm
      · -- a node with children is what they are
        rw [not_or] at hl
        refine hp.event.ext hp'.event ?_ hget
        obtain ⟨e, he⟩ := List.exists_mem_of_ne_nil view'.cachedEventSnap.node.entries fun hnil =>
          hl.2 (by rw [isEmpty_of_not_leaf hl.1, hnil]; rfl)
        obtain ⟨hge, hemp⟩ := get_of_mem hp'.event he
        have hk : view'.cachedEventSnap.node.get F.keyComparator e.1 ≠ .empty := by
          intro h
          rw [← hge, h] at hemp
          cases hemp
        have h₁ : view'.cachedEventSnap.node.value? = none := by
          by_contra hv
          exact hk (get_of_value?_ne hp'.event hv)
        have h₂ : view.cachedEventSnap.node.value? = none := by
          by_contra hv
          exact hk ((hget e.1).symm.trans (get_of_value?_ne hp.event hv))
        rw [h₁, h₂]
    exact FCacheNode.ext hnode (hold.trans hi.symm)

/-- The processor does not throw. The view shows the data of the server under the writes, the
changes are those of the children shown, and the value is raised if it is another. -/
theorem applyOperationOn_shows (hW : W.Plain F) (hs : Shows F W n view)
    (hm : Moves F (view.cachedServerSnap.node = n) W n op W' n') (h : Sees F w W')
    (hcache : ∀ c ∈ cache, c.Plain F.keyComparator) :
    ∃ result, applyOperationOn F view op w cache = some result ∧
      Shows F W' n' result.viewCache ∧
      Accounts result.changes (childrenOf F.keyComparator view.cachedEventSnap.node)
        (childrenOf F.keyComparator result.viewCache.cachedEventSnap.node) ∧
      (result.viewCache.cachedEventSnap.isFullyInitialized →
        result.value = some result.viewCache.cachedEventSnap.node ∨
          result.value = none ∧ view.cachedEventSnap = result.viewCache.cachedEventSnap) := by
  have hstart : Covers F.keyComparator (childrenOf F.keyComparator view.cachedEventSnap.node)
      (some []) view.cachedEventSnap.node := by
    intro acc ha
    obtain rfl := Option.some.inj ha
    exact fun _ => rfl
  obtain ⟨view', acc?, hr, hsome, hc, hs'⟩ := applyOperation_shows hW hs hm h hcache
    (fun i => hs.event.get i) hstart
  obtain ⟨changes, rfl⟩ := Option.isSome_iff_exists.mp hsome
  have ha := hc changes rfl
  refine ⟨_, by rw [applyOperationOn, hr]; rfl, hs', ha, fun hi => ?_⟩
  exact maybeAddValue_eq hs.toPlain hs'.toPlain ha hi

/-- A write of the user in a view of nothing. -/
theorem applyOperationOn_shows_set : ∃ result,
    applyOperationOn FUtilities.ofNames (⟨⟨.empty, true⟩, ⟨.empty, true⟩⟩ : FViewCache Name ℕ)
      (.userOverwrite [.key .a] (.leaf 1 .empty))
      ⟨[], ⟨⟨none, [(.key .a, ⟨some (.leaf 1 .empty), []⟩)]⟩, [], 0⟩⟩ none = some result ∧
    Shows FUtilities.ofNames ⟨none, [(.key .a, ⟨some (.leaf 1 .empty), []⟩)]⟩ .empty
      result.viewCache ∧
    Accounts result.changes (childrenOf FUtilities.ofNames.keyComparator .empty)
      (childrenOf FUtilities.ofNames.keyComparator result.viewCache.cachedEventSnap.node) ∧
    (result.viewCache.cachedEventSnap.isFullyInitialized →
      result.value = some result.viewCache.cachedEventSnap.node ∨
        result.value = none ∧ ⟨.empty, true⟩ = result.viewCache.cachedEventSnap) := by
  refine applyOperationOn_shows (W := FImmutableTree.empty) plain_empty ?_
    (.userOverwrite (q := [Name.a]) (.leaf 1) nofun) ⟨rfl, ?_, rfl⟩ nofun
  · exact ⟨⟨.empty, .empty⟩, fun _ => ⟨rfl, rfl⟩, nofun⟩
  · exact plain_empty.add (p := [Name.a]) (.leaf 1)

end Operations

end FViewProcessor

end Treena.Firebase
