import Treena.Sorted.Builder
import Treena.Sorted.Removal

/-! # The tree behind a sorted dictionary

A dictionary is known by its root: balanced, black, and ordered by the comparator.
-/

namespace Treena.Sorted.FTreeSortedDictionary

open FLLRBNode hiding min

variable {α β : Type*}

def insertKey (cmp : Cmp α) (aKey : α) (aValue : β) (root : FLLRBNode α β) : FLLRBNode α β :=
  (root.insertKey cmp aKey aValue).withColor .black

def get (cmp : Cmp α) (key : α) : FLLRBNode α β → Option β
  | empty => none
  | value k v _ l r =>
    match cmp key k with
    | .eq => some v
    | .lt => get cmp key l
    | .gt => get cmp key r

def contains (cmp : Cmp α) (key : α) (root : FLLRBNode α β) : Bool := (get cmp key root).isSome

def removeKey (cmp : Cmp α) (aKey : α) (root : FLLRBNode α β) : FLLRBNode α β :=
  if !contains cmp aKey root then root else (root.remove cmp aKey).withColor .black

/-- The loop of `getPredecessorKey`, which throws when it finds no node with the key. -/
def getPredecessorKey (cmp : Cmp α) (key : α) (rightParent : Option α) :
    FLLRBNode α β → Option (Option α)
  | empty => none
  | value k _ _ l r =>
    match cmp key k with
    | .eq => some (if l.isEmpty then rightParent else l.maxKey)
    | .lt => getPredecessorKey cmp key rightParent l
    | .gt => getPredecessorKey cmp key (some k) r

/-- The stack of `FTreeSortedDictionaryEnumerator` when it is made, its last object first.
Without a start key the comparison counts as 1, before it is flipped. -/
def startStack (cmp : Cmp α) (startKey : Option α) (isReverse : Bool) :
    FLLRBNode α β → List (FLLRBNode α β) → List (FLLRBNode α β)
  | empty, stack => stack
  | value k v c l r, stack =>
    let o := match startKey with
      | some start => cmp k start
      | none => .gt
    match if isReverse then o.swap else o with
    | .lt =>
      if isReverse then startStack cmp startKey isReverse l stack
      else startStack cmp startKey isReverse r stack
    | .eq => value k v c l r :: stack
    | .gt =>
      if isReverse then startStack cmp startKey isReverse r (value k v c l r :: stack)
      else startStack cmp startKey isReverse l (value k v c l r :: stack)

/-- The loops of `nextObject`. -/
def pushDown (isReverse : Bool) :
    FLLRBNode α β → List (FLLRBNode α β) → List (FLLRBNode α β)
  | empty, stack => stack
  | value k v c l r, stack =>
    if isReverse then pushDown isReverse r (value k v c l r :: stack)
    else pushDown isReverse l (value k v c l r :: stack)

def nextObject (isReverse : Bool) :
    List (FLLRBNode α β) → Option (α × List (FLLRBNode α β))
  | [] => none
  | empty :: _ => none
  | value k _ _ l r :: stack => some (k, pushDown isReverse (if isReverse then l else r) stack)

def objects (isReverse : Bool) : ℕ → List (FLLRBNode α β) → List α
  | 0, _ => []
  | n + 1, stack =>
    match nextObject isReverse stack with
    | none => []
    | some (k, stack) => k :: objects isReverse n stack

def sortedKeyList (cmp : Cmp α) (dictionary : List (α × β)) : List (α × β) :=
  dictionary.mergeSort fun p q => cmp p.1 q.1 != .gt

/-- The check of neighbouring keys, which throws when it fails. -/
def ascending (cmp : Cmp α) : List (α × β) → Bool
  | p :: q :: l => cmp p.1 q.1 == .lt && ascending cmp (q :: l)
  | _ => true

/-- From the keys and objects of an `NSDictionary` in the order of their enumeration. -/
def fromDictionary (cmp : Cmp α) (dictionary : List (α × β)) : Option (FLLRBNode α β) :=
  if ascending cmp (sortedKeyList cmp dictionary) then
    rootFromKeys (sortedKeyList cmp dictionary)
  else none

structure WF (cmp : Cmp α) (root : FLLRBNode α β) : Prop where
  balanced : ∃ h, Balanced root .black h
  ordered : Ordered cmp root.entries

/-- The self checks of the tree pass. -/
theorem WF.checks {cmp : Cmp α} {root : FLLRBNode α β} (h : WF cmp root) :
    root.check.isSome ∧ (root.isEmpty = false → root.checkMaxDepth = some true) ∧
      root.isRed = false := by
  obtain ⟨d, hd⟩ := h.balanced
  refine ⟨?_, hd.checkMaxDepth, hd.isRed_eq⟩
  rw [check_eq_some_iff.mpr ⟨_, hd⟩]
  rfl

section Operations

variable {cmp : Cmp α} [Std.TransCmp cmp] {k : α} {v : β} {root : FLLRBNode α β}
  {l : List (α × β)}

theorem WF.insertKey (h : WF cmp root) : WF cmp (insertKey cmp k v root) ∧
    (FTreeSortedDictionary.insertKey cmp k v root).entries = upsert cmp k v root.entries := by
  obtain ⟨d, hd⟩ := h.balanced
  have he : (FTreeSortedDictionary.insertKey cmp k v root).entries =
      upsert cmp k v root.entries := by
    rw [FTreeSortedDictionary.insertKey, entries_withColor, entries_insertKey h.ordered]
  exact ⟨⟨hd.insertKey.withColor_black, he ▸ h.ordered.upsert⟩, he⟩

theorem get_eq (h : Ordered cmp root.entries) : get cmp k root = lookup cmp k root.entries := by
  induction root with
  | empty => rfl
  | value k' v' c l r ihl ihr =>
    obtain ⟨hl, hr, hlk, hkr⟩ := ordered_middle.mp h
    rw [get, entries_value, lookup_append, lookup_cons]
    split
    next hk =>
      have habs : Absent cmp k l.entries := absent_of_gt (gt_of_before hlk (by simp [hk]))
      rw [lookup_eq_none_iff.mpr habs, if_pos hk, Option.none_or]
    next hk =>
      have habs : Absent cmp k r.entries := absent_of_lt (lt_of_after hkr (by simp [hk]))
      rw [if_neg (by simp [hk]), lookup_eq_none_iff.mpr habs, Option.or_none, ihl hl]
    next hk =>
      have habs : Absent cmp k l.entries := absent_of_gt (gt_of_before hlk (by simp [hk]))
      rw [if_neg (by simp [hk]), lookup_eq_none_iff.mpr habs, Option.none_or, ihr hr]

theorem WF.removeKey (h : WF cmp root) : WF cmp (removeKey cmp k root) ∧
    (FTreeSortedDictionary.removeKey cmp k root).entries = erase cmp k root.entries := by
  unfold FTreeSortedDictionary.removeKey
  split
  next hc =>
    have habs : Absent cmp k root.entries := by
      rw [contains, get_eq h.ordered] at hc
      exact lookup_eq_none_iff.mp (by simpa using hc)
    exact ⟨h, habs.erase_eq.symm⟩
  next =>
    obtain ⟨d, hd⟩ := h.balanced
    obtain ⟨he, hb⟩ := hd.remove cmp k h.ordered
    exact ⟨⟨hb, he ▸ h.ordered.erase⟩, he⟩

theorem getPredecessorKey_eq (h : Ordered cmp root.entries) (rightParent : Option α) :
    getPredecessorKey cmp k rightParent root = (lookup cmp k root.entries).map fun _ =>
      ((before cmp k root.entries).getLast?.map (·.1)).or rightParent := by
  unfold before
  induction root generalizing rightParent with
  | empty => rfl
  | value k' v' c l r ihl ihr =>
    obtain ⟨hl, hr, hlk, hkr⟩ := ordered_middle.mp h
    rw [getPredecessorKey, ← get_eq h, get, entries_value, select_append]
    cases hk : cmp k k' with
    | eq =>
      have hk' : cmp k' k = .eq := Std.OrientedCmp.eq_symm hk
      have hr₀ := select_eq_nil (f := Ordering.isLT)
        (gt_of_after (k := k) hkr (by simp [hk'])) rfl
      dsimp only
      rw [select_eq_self (lt_of_before hlk (by simp [hk'])) rfl,
        select_cons_neg (by simp [hk']), hr₀, List.append_nil, Option.map_some]
      by_cases hle : l = .empty
      · subst hle
        rfl
      · rw [if_neg (isEmpty_iff.not.mpr hle), maxKey_eq]
        obtain ⟨p, hp⟩ : ∃ p, l.entries.getLast? = some p :=
          Option.ne_none_iff_exists'.mp (by simpa using hle)
        rw [hp]
        rfl
    | lt =>
      have hk' : cmp k' k = .gt := Std.OrientedCmp.gt_of_lt hk
      have hr₀ := select_eq_nil (f := Ordering.isLT)
        (gt_of_after (k := k) hkr (by simp [hk'])) rfl
      dsimp only
      rw [select_cons_neg (by simp [hk']), hr₀, List.append_nil, ihl hl, get_eq hl]
    | gt =>
      have hk' : cmp k' k = .lt := Std.OrientedCmp.lt_of_gt hk
      dsimp only
      rw [select_eq_self (lt_of_before hlk (by simp [hk'])) rfl, select_cons_pos (by simp [hk']),
        ihr hr, get_eq hr]
      congr 1
      funext _
      rw [List.getLast?_append, List.getLast?_cons]
      cases (select Ordering.isLT cmp k r.entries).getLast? <;> simp

end Operations

section Enumerator

variable {cmp : Cmp α} {k : α} {n root : FLLRBNode α β} {stack : List (FLLRBNode α β)}
  {isReverse : Bool}

def keysOf (isReverse : Bool) (l : List (α × β)) : List α :=
  (if isReverse then l.reverse else l).map (·.1)

/-- What a node on the stack still stands for. -/
def pending (isReverse : Bool) : FLLRBNode α β → List α
  | empty => []
  | value k _ _ l r => k :: keysOf isReverse (if isReverse then l else r).entries

def remaining (isReverse : Bool) (stack : List (FLLRBNode α β)) : List α :=
  stack.flatMap (pending isReverse)

theorem remaining_pushDown : remaining isReverse (pushDown isReverse n stack) =
    keysOf isReverse n.entries ++ remaining isReverse stack := by
  induction n generalizing stack with
  | empty => cases isReverse <;> rfl
  | value k v c l r ihl ihr =>
    cases isReverse with
    | false =>
      rw [pushDown, if_neg (by decide), ihl]
      simp [remaining, pending, keysOf]
    | true =>
      rw [pushDown, if_pos rfl, ihr]
      simp [remaining, pending, keysOf]

theorem not_empty_pushDown (h : .empty ∉ stack) : .empty ∉ pushDown isReverse n stack := by
  induction n generalizing stack with
  | empty => exact h
  | value k v c l r ihl ihr =>
    have h' : .empty ∉ value k v c l r :: stack := by simpa using h
    rw [pushDown]
    split
    · exact ihr h'
    · exact ihl h'

/-- The enumerator hands out what its stack stands for, one object at a time. -/
theorem objects_eq (h : .empty ∉ stack) (m : ℕ) :
    objects isReverse m stack = (remaining isReverse stack).take m := by
  induction m generalizing stack with
  | zero => rfl
  | succ m ih =>
    obtain _ | ⟨_ | ⟨k, v, c, l, r⟩, stack⟩ := stack
    · rfl
    · exact absurd List.mem_cons_self h
    · rw [objects, nextObject]
      dsimp only
      rw [ih (not_empty_pushDown fun hm => h (List.mem_cons_of_mem _ hm)), remaining_pushDown]
      rfl

@[simp] theorem remaining_cons_value {k' : α} {v : β} {c : Color} {l r : FLLRBNode α β} :
    remaining isReverse (value k' v c l r :: stack) =
      k' :: keysOf isReverse (if isReverse then l else r).entries ++ remaining isReverse stack :=
  rfl

theorem remaining_startStack [Std.TransCmp cmp] (stack : List (FLLRBNode α β))
    (h : Ordered cmp n.entries) :
    remaining false (startStack cmp (some k) false n stack) =
      keysOf false (onward cmp k n.entries) ++ remaining false stack := by
  unfold onward
  induction n generalizing stack with
  | empty => rfl
  | value k' v c l r ihl ihr =>
    obtain ⟨hl, hr, hlk, hkr⟩ := ordered_middle.mp h
    rw [startStack, entries_value, select_append]
    cases hk : cmp k' k with
    | lt =>
      have hl₀ := select_eq_nil (f := Ordering.isGE)
        (lt_of_before (k := k) hlk (by simp [hk])) rfl
      rw [hl₀, select_cons_neg (by simp [hk])]
      exact ihr stack hr
    | eq =>
      have hl₀ := select_eq_nil (f := Ordering.isGE)
        (lt_of_before (k := k) hlk (by simp [hk])) rfl
      have hr₁ := select_eq_self (f := Ordering.isGE)
        (gt_of_after (k := k) hkr (by simp [hk])) rfl
      rw [hl₀, select_cons_pos (by simp [hk]), hr₁]
      rfl
    | gt =>
      have hr₁ := select_eq_self (f := Ordering.isGE)
        (gt_of_after (k := k) hkr (by simp [hk])) rfl
      rw [select_cons_pos (by simp [hk]), hr₁]
      refine (ihl (value k' v c l r :: stack) hl).trans ?_
      simp [keysOf]

theorem remaining_startStack_reverse [Std.TransCmp cmp] (stack : List (FLLRBNode α β))
    (h : Ordered cmp n.entries) :
    remaining true (startStack cmp (some k) true n stack) =
      keysOf true (upTo cmp k n.entries) ++ remaining true stack := by
  unfold upTo
  induction n generalizing stack with
  | empty => rfl
  | value k' v c l r ihl ihr =>
    obtain ⟨hl, hr, hlk, hkr⟩ := ordered_middle.mp h
    rw [startStack, entries_value, select_append]
    cases hk : cmp k' k with
    | lt =>
      have hl₁ := select_eq_self (f := Ordering.isLE)
        (lt_of_before (k := k) hlk (by simp [hk])) rfl
      rw [hl₁, select_cons_pos (by simp [hk])]
      refine (ihr (value k' v c l r :: stack) hr).trans ?_
      simp [keysOf]
    | eq =>
      have hl₁ := select_eq_self (f := Ordering.isLE)
        (lt_of_before (k := k) hlk (by simp [hk])) rfl
      have hr₀ := select_eq_nil (f := Ordering.isLE)
        (gt_of_after (k := k) hkr (by simp [hk])) rfl
      rw [hl₁, select_cons_pos (by simp [hk]), hr₀]
      simp [keysOf]
    | gt =>
      have hr₀ := select_eq_nil (f := Ordering.isLE)
        (gt_of_after (k := k) hkr (by simp [hk])) rfl
      rw [select_cons_neg (by simp [hk]), hr₀, List.append_nil]
      exact ihl stack hl

theorem not_empty_startStack {startKey : Option α} (h : .empty ∉ stack) :
    .empty ∉ startStack cmp startKey isReverse n stack := by
  induction n generalizing stack with
  | empty => exact h
  | value k v c l r ihl ihr =>
    have h' : .empty ∉ value k v c l r :: stack := by simpa using h
    unfold startStack
    extract_lets o
    cases isReverse <;> cases o
    · exact ihr h
    · exact h'
    · exact ihl h'
    · exact ihr h'
    · exact h'
    · exact ihl h

theorem remaining_startStack_none (stack : List (FLLRBNode α β)) :
    remaining isReverse (startStack cmp none isReverse n stack) =
      (if isReverse then [] else n.entries.map (·.1)) ++ remaining isReverse stack := by
  induction n generalizing stack with
  | empty => cases isReverse <;> rfl
  | value k v c l r ihl ihr =>
    cases isReverse with
    | false =>
      refine (ihl (value k v c l r :: stack)).trans ?_
      simp [keysOf]
    | true => exact ihl stack

end Enumerator

section Builder

variable {cmp : Cmp α} [Std.TransCmp cmp] {l dictionary : List (α × β)} {root : FLLRBNode α β}

theorem ascending_iff : ascending cmp l ↔ Ordered cmp l := by
  induction l with
  | nil => simp [ascending]
  | cons p l ih =>
    cases l with
    | nil => simp [ascending, ordered_cons]
    | cons q l =>
      rw [ascending, Bool.and_eq_true, ih, beq_iff_eq, ordered_cons (p := p)]
      constructor
      · rintro ⟨hpq, hl⟩
        refine ⟨fun a ha => ?_, hl⟩
        rcases List.mem_cons.mp ha with rfl | ha
        · exact hpq
        · exact Std.TransCmp.lt_trans hpq ((ordered_cons.mp hl).1 a ha)
      · exact fun h => ⟨h.1 q List.mem_cons_self, h.2⟩

omit [Std.TransCmp cmp] in
theorem perm_sortedKeyList (cmp : Cmp α) (dictionary : List (α × β)) :
    (sortedKeyList cmp dictionary).Perm dictionary :=
  List.mergeSort_perm ..

theorem pairwise_sortedKeyList :
    (sortedKeyList cmp dictionary).Pairwise fun p q => cmp p.1 q.1 ≠ .gt := by
  refine (List.pairwise_mergeSort (fun a b c hab hbc => ?_) (fun a b => ?_) dictionary).imp
    fun hpq => by simpa using hpq
  · simp only [bne_iff_ne, ne_eq, ← Ordering.isLE_iff_ne_gt] at *
    exact Std.TransCmp.isLE_trans hab hbc
  · have hswap : cmp b.1 a.1 = (cmp a.1 b.1).swap := Std.OrientedCmp.eq_swap
    rw [hswap]
    cases cmp a.1 b.1 <;> decide

/-- The keys of a dictionary can be ordered unless two of them compare as the same. -/
theorem ordered_sortedKeyList_iff :
    Ordered cmp (sortedKeyList cmp dictionary) ↔
      dictionary.Pairwise fun p q => cmp p.1 q.1 ≠ .eq := by
  have hsymm : ∀ p q : α × β, cmp p.1 q.1 ≠ .eq → cmp q.1 p.1 ≠ .eq :=
    fun p q h hqp => h (Std.OrientedCmp.eq_symm hqp)
  rw [← List.Perm.pairwise_iff (fun {p q} => hsymm p q) (perm_sortedKeyList cmp dictionary)]
  constructor
  · exact fun h => h.imp fun hpq => by simp [hpq]
  · intro h
    refine (pairwise_sortedKeyList.and h).imp fun hpq => ?_
    rename_i p q
    cases hc : cmp p.1 q.1 with
    | lt => rfl
    | eq => exact absurd hc hpq.2
    | gt => exact absurd hc hpq.1

theorem fromDictionary_eq_some (h : dictionary.Pairwise fun p q => cmp p.1 q.1 ≠ .eq) :
    ∃ root, fromDictionary cmp dictionary = some root ∧
      Balanced root .black (dictionary.length + 1).log2 ∧
      root.entries = sortedKeyList cmp dictionary ∧ WF cmp root := by
  have ho := ordered_sortedKeyList_iff.mpr h
  obtain ⟨root, hr, hb, he⟩ := rootFromKeys_eq (sortedKeyList cmp dictionary)
  rw [(perm_sortedKeyList cmp dictionary).length_eq] at hb
  exact ⟨root, by rw [fromDictionary, if_pos (ascending_iff.mpr ho), hr], hb, he, ⟨_, hb⟩, he ▸ ho⟩

theorem fromDictionary_eq_none_iff : fromDictionary cmp dictionary = none ↔
    ¬ dictionary.Pairwise fun p q => cmp p.1 q.1 ≠ .eq := by
  constructor
  · intro hn h
    obtain ⟨root, hr, -⟩ := fromDictionary_eq_some h
    rw [hn] at hr
    cases hr
  · intro h
    rw [fromDictionary, if_neg (ascending_iff.not.mpr (ordered_sortedKeyList_iff.not.mpr h))]

end Builder

end Treena.Sorted.FTreeSortedDictionary
