import Mathlib.Data.List.Perm.Subperm
import Treena.Firebase.Node

/-! # Filters and changes

A filter moves a cached node to a new one, and tells which children have come, gone or
changed. Changes of one child are put together, and account for what the node was before the
first of them.
-/

namespace Treena.Firebase

open Sorted FNode

namespace FNode

variable {κ β : Type*}

def hasChild (cmp : Cmp κ) (n : FNode κ β) (childName : Piece κ) : Bool :=
  !(n.getImmediateChild cmp childName).isEmpty

/-- `isEqual:`, where each child of this node is compared with that of the other. -/
def isEqual [DecidableEq β] (cmp : Cmp κ) : FNode κ β → FNode κ β → Bool
  | .empty, other => other.isEmpty
  | .leaf value priorityNode, .leaf value' priorityNode' =>
    decide (value' = value) && isEqual cmp priorityNode priorityNode'
  | .leaf _ _, _ => false
  | .children priorityNode l, other =>
    if other.isLeafNode then false
    else if l.isEmpty && other.isEmpty then true
    else isEqual cmp priorityNode other.getPriority && l.length == other.entries.length &&
      isEqualChildren l other
where
  isEqualChildren : List (κ × FNode κ β) → FNode κ β → Bool
    | [], _ => true
    | (key, node) :: rest, other =>
      isEqual cmp node (other.getImmediateChild cmp (.key key)) && isEqualChildren rest other

end FNode

inductive FChange (κ β : Type*)
  | childAdded (node : FNode κ β)
  | childRemoved (node : FNode κ β)
  | childChanged (node oldNode : FNode κ β)

/-- The `changeMap`: changes under the keys of children. -/
abbrev FChildChangeAccumulator (κ β : Type*) := List (κ × FChange κ β)

namespace FChildChangeAccumulator

variable {κ β : Type*} [DecidableEq κ]

def removeObjectForKey (changeMap : FChildChangeAccumulator κ β) (childKey : κ) :
    FChildChangeAccumulator κ β :=
  changeMap.filter (·.1 ≠ childKey)

def setObject (changeMap : FChildChangeAccumulator κ β) (change : FChange κ β) (childKey : κ) :
    FChildChangeAccumulator κ β :=
  (childKey, change) :: removeObjectForKey changeMap childKey

/-- It throws if one change cannot follow the other. -/
def trackChildChange (changeMap : FChildChangeAccumulator κ β) (childKey : κ)
    (change : FChange κ β) : Option (FChildChangeAccumulator κ β) :=
  match changeMap.lookup childKey with
  | some oldChange =>
    match change, oldChange with
    | .childAdded node, .childRemoved oldNode =>
      some (setObject changeMap (.childChanged node oldNode) childKey)
    | .childRemoved _, .childAdded _ => some (removeObjectForKey changeMap childKey)
    | .childRemoved _, .childChanged _ oldNode =>
      some (setObject changeMap (.childRemoved oldNode) childKey)
    | .childChanged node _, .childAdded _ =>
      some (setObject changeMap (.childAdded node) childKey)
    | .childChanged node _, .childChanged _ oldNode =>
      some (setObject changeMap (.childChanged node oldNode) childKey)
    | _, _ => none
  | none => some (setObject changeMap change childKey)

end FChildChangeAccumulator

/-! The filter of queries without a range or a limit. Without an accumulator, nothing is
tracked. -/

namespace FIndexedFilter

variable {κ β : Type*} [DecidableEq κ] [DecidableEq β]

open FChildChangeAccumulator

def trackUpdate (cmp : Cmp κ) (node : FNode κ β) (childKey : κ) (newChildSnap : FNode κ β)
    (accumulator : FChildChangeAccumulator κ β) : Option (FChildChangeAccumulator κ β) :=
  let oldChildSnap := node.getImmediateChild cmp (.key childKey)
  if newChildSnap.isEmpty then
    if node.hasChild cmp (.key childKey) then
      trackChildChange accumulator childKey (.childRemoved oldChildSnap)
    else if node.isLeafNode then some accumulator
    else none
  else if oldChildSnap.isEmpty then
    trackChildChange accumulator childKey (.childAdded newChildSnap)
  else trackChildChange accumulator childKey (.childChanged newChildSnap oldChildSnap)

def updateChildIn (cmp : Cmp κ) (node : FNode κ β) (childKey : κ) (newChildSnap : FNode κ β)
    (affectedPath : List (Piece κ)) (accumulator : Option (FChildChangeAccumulator κ β)) :
    Option (FNode κ β × Option (FChildChangeAccumulator κ β)) :=
  let oldChildSnap := node.getImmediateChild cmp (.key childKey)
  if (oldChildSnap.getChild cmp affectedPath).isEqual cmp
        (newChildSnap.getChild cmp affectedPath) &&
      oldChildSnap.isEmpty == newChildSnap.isEmpty then some (node, accumulator)
  else (accumulator.mapM (trackUpdate cmp node childKey newChildSnap)).map fun accumulator =>
    (if node.isLeafNode && newChildSnap.isEmpty then node
      else node.updateImmediateChild cmp (.key childKey) newChildSnap, accumulator)

def trackRemoved (cmp : Cmp κ) (newSnap : FNode κ β) (accumulator : FChildChangeAccumulator κ β)
    (child : κ × FNode κ β) : Option (FChildChangeAccumulator κ β) :=
  if newSnap.hasChild cmp (.key child.1) then some accumulator
  else trackChildChange accumulator child.1 (.childRemoved child.2)

def trackPresent (cmp : Cmp κ) (oldSnap : FNode κ β) (accumulator : FChildChangeAccumulator κ β)
    (child : κ × FNode κ β) : Option (FChildChangeAccumulator κ β) :=
  if oldSnap.hasChild cmp (.key child.1) then
    let oldChildSnap := oldSnap.getImmediateChild cmp (.key child.1)
    if oldChildSnap.isEqual cmp child.2 then some accumulator
    else trackChildChange accumulator child.1 (.childChanged child.2 oldChildSnap)
  else trackChildChange accumulator child.1 (.childAdded child.2)

def updateFullNode (cmp : Cmp κ) (oldSnap newSnap : FNode κ β)
    (accumulator : Option (FChildChangeAccumulator κ β)) :
    Option (FNode κ β × Option (FChildChangeAccumulator κ β)) :=
  (accumulator.mapM fun accumulator => do
    let accumulator ← oldSnap.entries.foldlM (trackRemoved cmp newSnap) accumulator
    newSnap.entries.foldlM (trackPresent cmp oldSnap) accumulator).map fun accumulator =>
      (newSnap, accumulator)

def updatePriority (oldSnap priority : FNode κ β) : FNode κ β :=
  if oldSnap.isEmpty then oldSnap else oldSnap.updatePriority priority

end FIndexedFilter

section Equal

namespace FNode

variable {κ β : Type*} [DecidableEq β] {cmp : Cmp κ} {a b : FNode κ β} {l : List (κ × FNode κ β)}

theorem isEqualChildren_iff : isEqual.isEqualChildren cmp l b ↔
    ∀ p ∈ l, p.2.isEqual cmp (b.get cmp p.1) := by
  induction l with
  | nil => simp [isEqual.isEqualChildren]
  | cons p l ih =>
    rw [List.forall_mem_cons, ← ih]
    exact Bool.and_eq_true_iff

theorem isEqual_iff [Std.TransCmp cmp] [Std.LawfulEqCmp cmp] (ha : Plain cmp a)
    (hb : Plain cmp b) : a.isEqual cmp b ↔ a = b := by
  induction ha generalizing b with
  | empty =>
    constructor
    · exact fun h => (hb.eq_empty h).symm
    · rintro rfl
      rfl
  | leaf value =>
    cases hb with
    | empty => exact iff_of_false Bool.false_ne_true nofun
    | leaf value' => simp [isEqual, eq_comm]
    | children => exact iff_of_false Bool.false_ne_true nofun
  | @children l hne hp hl ih =>
    cases hb with
    | empty => simp [isEqual, isLeafNode, hne, entries]
    | leaf value => simp [isEqual, isLeafNode]
    | @children l' hne' hp' hl' =>
      have hpl : Plain cmp (.children .empty l) := .children hne hp hl
      have hpl' : Plain cmp (.children .empty l') := .children hne' hp' hl'
      have hdef : (FNode.children .empty l).isEqual cmp (.children .empty l') ↔
          l.length = l'.length ∧ isEqual.isEqualChildren cmp l (.children .empty l') := by
        simp [isEqual, isLeafNode, hne, entries, getPriority, isEmpty]
      rw [hdef, isEqualChildren_iff]
      constructor
      · rintro ⟨hlen, h⟩
        have hsub : l ⊆ l' := by
          intro p hpm
          refine (mem_iff_child isEmpty_empty hp').mpr ⟨?_, hp.stored p hpm⟩
          exact ((ih p hpm (hpl'.get p.1)).mp (h p hpm)).symm
        have hperm :=
          (List.Nodup.subperm hp.ordered.nodup hsub).perm_of_length_le (Nat.le_of_eq hlen.symm)
        rw [hp.ordered.eq_of_perm hp'.ordered hperm]
      · intro he
        obtain rfl : l = l' := by injection he
        refine ⟨rfl, fun p hpm => (ih p hpm (hpl.get p.1)).mpr ?_⟩
        exact (child_of_mem hp.ordered hpm).symm

end FNode

end Equal

section Accounts

namespace FChange

variable {κ β : Type*}

/-- What a change, or none, says of a child before and after. -/
def Explains (a b : FNode κ β) : Option (FChange κ β) → Prop
  | none => a = b
  | some (.childAdded node) => a.isEmpty ∧ b = node ∧ b.isEmpty = false
  | some (.childRemoved node) => a = node ∧ a.isEmpty = false ∧ b.isEmpty
  | some (.childChanged node oldNode) =>
    a = oldNode ∧ a.isEmpty = false ∧ b = node ∧ b.isEmpty = false

end FChange

namespace FChildChangeAccumulator

open FChange

variable {κ β : Type*} [DecidableEq κ] {acc : FChildChangeAccumulator κ β} {change : FChange κ β}
  {k k' : κ} {a b c : FNode κ β} {f g : κ → FNode κ β}

theorem lookup_removeObjectForKey : (removeObjectForKey acc k).lookup k' =
    if k' = k then none else acc.lookup k' := by
  unfold removeObjectForKey
  induction acc with
  | nil => simp
  | cons p acc ih =>
    obtain ⟨i, change⟩ := p
    by_cases hi : i = k
    · subst hi
      rw [List.filter_cons_of_neg (by simp), ih]
      by_cases hk : k' = i
      · rw [if_pos hk, if_pos hk]
      · rw [if_neg hk, if_neg hk, List.lookup_cons, beq_eq_false_iff_ne.mpr hk]
    · rw [List.filter_cons_of_pos (by simpa using hi), List.lookup_cons, List.lookup_cons, ih]
      by_cases hk : k' = i
      · simp [hk, hi]
      · rw [beq_eq_false_iff_ne.mpr hk]

theorem lookup_setObject : (setObject acc change k).lookup k' =
    if k' = k then some change else acc.lookup k' := by
  rw [setObject, List.lookup_cons, lookup_removeObjectForKey]
  by_cases hk : k' = k
  · simp [hk]
  · rw [beq_eq_false_iff_ne.mpr hk, if_neg hk, if_neg hk]

/-- A change that follows from where the changes so far have left the child is put together
with them. -/
theorem trackChildChange_eq (he : a.isEmpty → c.isEmpty → a = c)
    (h : Explains a b (acc.lookup k)) (hc : Explains b c (some change)) :
    ∃ acc', trackChildChange acc k change = some acc' ∧ Explains a c (acc'.lookup k) ∧
      ∀ i ≠ k, acc'.lookup i = acc.lookup i := by
  have hset : ∀ x, Explains a c (some x) →
      trackChildChange acc k change = some (setObject acc x k) →
      ∃ acc', trackChildChange acc k change = some acc' ∧ Explains a c (acc'.lookup k) ∧
        ∀ i ≠ k, acc'.lookup i = acc.lookup i := by
    intro x hx ht
    refine ⟨_, ht, ?_, fun i hi => by rw [lookup_setObject, if_neg hi]⟩
    rw [lookup_setObject, if_pos rfl]
    exact hx
  unfold trackChildChange at hset ⊢
  cases hl : acc.lookup k with
  | none =>
    rw [hl] at h hset
    obtain rfl : a = b := h
    exact hset change hc rfl
  | some oldChange =>
    rw [hl] at h hset
    cases oldChange with
    | childAdded oldNode =>
      obtain ⟨ha, rfl, hb⟩ := h
      cases change with
      | childAdded node => exact absurd hc.1 (by rw [hb]; exact Bool.false_ne_true)
      | childRemoved node =>
        refine ⟨_, rfl, ?_, fun i hi => by rw [lookup_removeObjectForKey, if_neg hi]⟩
        rw [lookup_removeObjectForKey, if_pos rfl]
        exact he ha hc.2.2
      | childChanged node _ => exact hset (.childAdded node) ⟨ha, hc.2.2⟩ rfl
    | childRemoved oldNode =>
      obtain ⟨rfl, ha, hb⟩ := h
      cases change with
      | childAdded node => exact hset (.childChanged node a) ⟨rfl, ha, hc.2⟩ rfl
      | childRemoved node => exact absurd hb (by rw [hc.2.1]; exact Bool.false_ne_true)
      | childChanged node _ => exact absurd hb (by rw [hc.2.1]; exact Bool.false_ne_true)
    | childChanged oldNode oldNode' =>
      obtain ⟨rfl, ha, rfl, hb⟩ := h
      cases change with
      | childAdded node => exact absurd hc.1 (by rw [hb]; exact Bool.false_ne_true)
      | childRemoved node => exact hset (.childRemoved a) ⟨rfl, ha, hc.2.2⟩ rfl
      | childChanged node _ => exact hset (.childChanged node a) ⟨rfl, ha, hc.2.2⟩ rfl

/-- The changes account for the children of one node becoming those of another. -/
def Accounts (acc : FChildChangeAccumulator κ β) (f g : κ → FNode κ β) : Prop :=
  ∀ k, Explains (f k) (g k) (acc.lookup k)

theorem Accounts.track (h : Accounts acc f g) (he : (f k).isEmpty → c.isEmpty → f k = c)
    (hc : Explains (g k) c (some change)) : ∃ acc', trackChildChange acc k change = some acc' ∧
      Accounts acc' f (Function.update g k c) := by
  obtain ⟨acc', ht, hk, hne⟩ := trackChildChange_eq he (h k) hc
  refine ⟨acc', ht, fun i => ?_⟩
  by_cases hi : i = k
  · subst hi
    rwa [Function.update_self]
  · rw [Function.update_of_ne hi, hne i hi]
    exact h i

theorem Accounts.foldlM {step : FChildChangeAccumulator κ β → κ × FNode κ β →
      Option (FChildChangeAccumulator κ β)} {h : κ → FNode κ β} {l : List (κ × FNode κ β)}
    (hl : (l.map Prod.fst).Nodup) (hstep : ∀ p ∈ l, ∀ acc g', Accounts acc f g' → g' p.1 = g p.1 →
      ∃ acc', step acc p = some acc' ∧ Accounts acc' f (Function.update g' p.1 (h p.1)))
    (hacc : Accounts acc f g) : ∃ acc', l.foldlM step acc = some acc' ∧
      Accounts acc' f fun k => if k ∈ l.map Prod.fst then h k else g k := by
  have haux : ∀ g' acc, (∀ p ∈ l, g' p.1 = g p.1) → Accounts acc f g' →
      ∃ acc', l.foldlM step acc = some acc' ∧
        Accounts acc' f fun k => if k ∈ l.map Prod.fst then h k else g' k := by
    clear hacc
    induction l with
    | nil => exact fun g' acc _ ha => ⟨acc, rfl, by simpa using ha⟩
    | cons p l ih =>
      intro g' acc hg ha
      rw [List.forall_mem_cons] at hstep hg
      rw [List.map_cons, List.nodup_cons] at hl
      obtain ⟨acc₁, h₁, ha₁⟩ := hstep.1 acc g' ha hg.1
      have hg' : ∀ q ∈ l, Function.update g' p.1 (h p.1) q.1 = g q.1 := by
        intro q hq
        have hne : q.1 ≠ p.1 := fun he => hl.1 (he ▸ List.mem_map_of_mem hq)
        exact (Function.update_of_ne hne ..).trans (hg.2 q hq)
      obtain ⟨acc', h', ha'⟩ := ih hl.2 hstep.2 _ acc₁ hg' ha₁
      refine ⟨acc', by rw [List.foldlM_cons, h₁]; exact h', fun k => ?_⟩
      have hk := ha' k
      dsimp only at hk ⊢
      by_cases hkp : k = p.1
      · subst hkp
        rw [if_neg hl.1, Function.update_self] at hk
        simpa using hk
      · have hm : k ∈ (p :: l).map Prod.fst ↔ k ∈ l.map Prod.fst :=
          List.mem_cons.trans (or_iff_right hkp)
        rw [Function.update_of_ne hkp] at hk
        simpa only [hm] using hk
  exact haux g acc (fun _ _ => rfl) hacc

end FChildChangeAccumulator

namespace FIndexedFilter

open FChange FChildChangeAccumulator

variable {κ β : Type*} [DecidableEq κ] [DecidableEq β] {cmp : Cmp κ} [Std.TransCmp cmp]
  [Std.LawfulEqCmp cmp] {n m c : FNode κ β} {k : κ} {p : List κ} {f g : κ → FNode κ β}
  {acc : FChildChangeAccumulator κ β} {acc? : Option (FChildChangeAccumulator κ β)}

abbrev childrenOf (cmp : Cmp κ) (n : FNode κ β) : κ → FNode κ β := fun k => n.get cmp k

omit [DecidableEq β] in
theorem update_childrenOf (hn : Plain cmp n) (hc : Plain cmp c) :
    Function.update (childrenOf cmp n) k c = childrenOf cmp (n.set cmp k c) := by
  funext i
  by_cases hi : i = k
  · subst hi
    rw [Function.update_self, childrenOf, get_set_self hn hc]
  · rw [Function.update_of_ne hi, childrenOf, childrenOf,
      get_set_of_ne hn hc fun he => hi (Std.LawfulEqCmp.eq_of_compare he)]

omit [DecidableEq κ] [DecidableEq β] [Std.TransCmp cmp] [Std.LawfulEqCmp cmp] in
theorem eq_of_isEmpty (hn : Plain cmp n) (hm : Plain cmp m) (he : n.isEmpty) (he' : m.isEmpty) :
    n = m := by
  rw [hn.eq_empty he, hm.eq_empty he']

omit [DecidableEq β] in
theorem trackUpdate_eq (hn : Plain cmp n) (hc : Plain cmp c) (hf : ∀ i, Plain cmp (f i))
    (h : Accounts acc f (childrenOf cmp n)) (hne : ¬((n.get cmp k).isEmpty ∧ c.isEmpty)) :
    ∃ acc', trackUpdate cmp n k c acc = some acc' ∧
      Accounts acc' f (childrenOf cmp (n.set cmp k c)) := by
  have htrack : ∀ change, Explains (n.get cmp k) c (some change) →
      ∃ acc', trackChildChange acc k change = some acc' ∧
        Accounts acc' f (childrenOf cmp (n.set cmp k c)) := by
    intro change hx
    rw [← update_childrenOf hn hc]
    exact h.track (eq_of_isEmpty (hf k) hc) hx
  unfold trackUpdate
  dsimp only
  by_cases he : c.isEmpty
  · have ho : (n.get cmp k).isEmpty = false := by simpa [he] using hne
    have hh : n.hasChild cmp (.key k) := by simp [hasChild, ho]
    rw [if_pos he, if_pos hh]
    exact htrack _ ⟨rfl, ho, he⟩
  · have he' : c.isEmpty = false := by simpa using he
    rw [if_neg he]
    by_cases ho : (n.get cmp k).isEmpty
    · rw [if_pos ho]
      exact htrack _ ⟨ho, rfl, he'⟩
    · rw [if_neg ho]
      exact htrack _ ⟨rfl, by simpa using ho, rfl, he'⟩

/-- A child is updated, unless it is the same at the path and as empty as it was. -/
theorem updateChildIn_eq (hn : Plain cmp n) (hc : Plain cmp c) (hf : ∀ i, Plain cmp (f i))
    (h : ∀ acc ∈ acc?, Accounts acc f (childrenOf cmp n)) :
    ∃ n' acc?', updateChildIn cmp n k c (p.map .key) acc? = some (n', acc?') ∧
      acc?'.isSome = acc?.isSome ∧ (∀ acc ∈ acc?', Accounts acc f (childrenOf cmp n')) ∧
      (n' = n.set cmp k c ∨ n' = n ∧ (n.get cmp k).find cmp p = c.find cmp p ∧
        (n.get cmp k).isEmpty = c.isEmpty) := by
  have hset : (if n.isLeafNode && c.isEmpty then n
      else n.updateImmediateChild cmp (.key k) c) = n.set cmp k c := by
    split
    next hl =>
      rw [Bool.and_eq_true] at hl
      cases hn with
      | empty => cases hl.1
      | leaf value => exact ((set_leaf hc).trans (if_pos hl.2)).symm
      | children => cases hl.1
    next => rfl
  have heq := isEqual_iff ((hn.get k).find (p := p)) (hc.find (p := p))
  unfold updateChildIn
  dsimp only
  rw [hset]
  split
  next hs =>
    rw [Bool.and_eq_true, beq_iff_eq, heq] at hs
    exact ⟨n, acc?, rfl, rfl, h, .inr ⟨rfl, hs⟩⟩
  next hs =>
    have hne : ¬((n.get cmp k).isEmpty ∧ c.isEmpty) := by
      rintro ⟨ho, he⟩
      refine hs ?_
      rw [Bool.and_eq_true, beq_iff_eq, heq, ho, he, (hn.get k).eq_empty ho, hc.eq_empty he]
      exact ⟨rfl, rfl⟩
    cases acc? with
    | none => exact ⟨_, none, rfl, rfl, nofun, .inl rfl⟩
    | some acc =>
      obtain ⟨acc', ht, ha⟩ := trackUpdate_eq hn hc hf (h acc rfl) hne
      refine ⟨_, some acc', ?_, rfl, fun a hm => Option.some.inj hm ▸ ha, .inl rfl⟩
      simp [ht]

omit [DecidableEq κ] [DecidableEq β] [Std.TransCmp cmp] in
theorem mem_keys_iff (hn : Plain cmp n) :
    k ∈ n.entries.map Prod.fst ↔ (n.get cmp k).isEmpty = false := by
  constructor
  · intro h
    obtain ⟨p, hp, rfl⟩ := List.mem_map.mp h
    rw [FNode.get, getImmediateChild, child_of_mem hn.pruned.ordered hp]
    exact hn.pruned.stored p hp
  · intro h
    exact List.mem_map.mpr ⟨(k, n.get cmp k), (mem_iff_child isEmpty_empty hn.pruned).mpr ⟨rfl, h⟩,
      rfl⟩

omit [DecidableEq κ] [DecidableEq β] in
theorem nodup_keys (hn : Plain cmp n) : (n.entries.map Prod.fst).Nodup := by
  refine List.Nodup.map_on (fun p hp q hq he => ?_) hn.pruned.ordered.nodup
  have hq' : child cmp .empty q.1 n.entries = q.2 := child_of_mem hn.pruned.ordered hq
  rw [← he, child_of_mem hn.pruned.ordered hp] at hq'
  exact Prod.ext he hq'

omit [DecidableEq κ] [DecidableEq β] [Std.TransCmp cmp] in
theorem get_of_mem {q : κ × FNode κ β} (hn : Plain cmp n) (hq : q ∈ n.entries) :
    n.get cmp q.1 = q.2 ∧ q.2.isEmpty = false :=
  ⟨child_of_mem hn.pruned.ordered hq, hn.pruned.stored q hq⟩

def kept (cmp : Cmp κ) (n m : FNode κ β) (k : κ) : FNode κ β :=
  if m.hasChild cmp (.key k) then n.get cmp k else .empty

omit [DecidableEq β] in
theorem foldlM_trackRemoved (hn : Plain cmp n) (hf : ∀ i, Plain cmp (f i))
    (h : Accounts acc f (childrenOf cmp n)) : ∃ acc',
      n.entries.foldlM (trackRemoved cmp m) acc = some acc' ∧ Accounts acc' f (kept cmp n m) := by
  have hstep : ∀ p ∈ n.entries, ∀ acc g', Accounts acc f g' → g' p.1 = childrenOf cmp n p.1 →
      ∃ acc', trackRemoved cmp m acc p = some acc' ∧
        Accounts acc' f (Function.update g' p.1 (kept cmp n m p.1)) := by
    intro p hp acc g' ha hg
    obtain ⟨hget, he⟩ := get_of_mem hn hp
    unfold trackRemoved kept
    split
    next hc =>
      refine ⟨acc, rfl, ?_⟩
      rwa [show n.get cmp p.1 = g' p.1 from hg.symm, Function.update_eq_self]
    next hc =>
      have hg' : g' p.1 = p.2 := hg.trans hget
      refine ha.track (fun hfe _ => (hf p.1).eq_empty hfe) ⟨hg', ?_, rfl⟩
      rw [hg', he]
  obtain ⟨acc', h₁, ha⟩ := h.foldlM (nodup_keys hn) hstep
  refine ⟨acc', h₁, ?_⟩
  convert ha using 1
  funext k
  split
  next => rfl
  next hk =>
    rw [mem_keys_iff hn, Bool.not_eq_false] at hk
    rw [kept, childrenOf, (hn.get k).eq_empty hk, ite_self]

theorem foldlM_trackPresent (hn : Plain cmp n) (hm : Plain cmp m) (hf : ∀ i, Plain cmp (f i))
    (h : Accounts acc f (kept cmp n m)) : ∃ acc',
      m.entries.foldlM (trackPresent cmp n) acc = some acc' ∧
        Accounts acc' f (childrenOf cmp m) := by
  have hstep : ∀ p ∈ m.entries, ∀ acc g', Accounts acc f g' → g' p.1 = kept cmp n m p.1 →
      ∃ acc', trackPresent cmp n acc p = some acc' ∧
        Accounts acc' f (Function.update g' p.1 (childrenOf cmp m p.1)) := by
    intro p hp acc g' ha hg
    obtain ⟨hget, he⟩ := get_of_mem hm hp
    have hh : m.hasChild cmp (.key p.1) := by
      change (!(m.get cmp p.1).isEmpty) = true
      rw [hget, he]
      rfl
    rw [kept, if_pos hh] at hg
    have hpe := eq_of_isEmpty (hf p.1) (hm.of_mem p hp)
    rw [childrenOf, hget]
    unfold trackPresent
    split
    next hc =>
      have hc' : (n.get cmp p.1).isEmpty = false := by simpa [hasChild] using hc
      dsimp only
      split
      next hq =>
        rw [isEqual_iff (hn.get p.1) (hm.of_mem p hp)] at hq
        exact ⟨acc, rfl, by rwa [← hq, ← hg, Function.update_eq_self]⟩
      next => exact ha.track hpe ⟨hg, hg ▸ hc', rfl, he⟩
    next hc =>
      have hc' : (n.get cmp p.1).isEmpty = true := by simpa [hasChild] using hc
      exact ha.track hpe ⟨hg ▸ hc', rfl, he⟩
  obtain ⟨acc', h₁, ha⟩ := h.foldlM (nodup_keys hm) hstep
  refine ⟨acc', h₁, ?_⟩
  convert ha using 1
  funext k
  split
  next => rfl
  next hk =>
    rw [mem_keys_iff hm, Bool.not_eq_false] at hk
    rw [kept, if_neg (by simp [hasChild, hk])]
    exact (hm.get k).eq_empty hk

/-- A node is exchanged for another. -/
theorem updateFullNode_eq (hn : Plain cmp n) (hm : Plain cmp m) (hf : ∀ i, Plain cmp (f i))
    (h : ∀ acc ∈ acc?, Accounts acc f (childrenOf cmp n)) :
    ∃ acc?', updateFullNode cmp n m acc? = some (m, acc?') ∧ acc?'.isSome = acc?.isSome ∧
      ∀ acc ∈ acc?', Accounts acc f (childrenOf cmp m) := by
  unfold updateFullNode
  cases acc? with
  | none => exact ⟨none, rfl, rfl, nofun⟩
  | some acc =>
    obtain ⟨acc₁, h₁, ha₁⟩ := foldlM_trackRemoved (m := m) hn hf (h acc rfl)
    obtain ⟨acc₂, h₂, ha₂⟩ := foldlM_trackPresent hn hm hf ha₁
    refine ⟨some acc₂, ?_, rfl, fun a ha => Option.some.inj ha ▸ ha₂⟩
    simp [h₁, h₂]

end FIndexedFilter

end Accounts

end Treena.Firebase
