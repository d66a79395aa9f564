import Mathlib.Data.List.InsertIdx
import Treena.Run.Basic
import Treena.Sorted.Tree

/-! # The sorted dictionary

Two sorted arrays up to 25 entries, a tree above. Whatever it is stored in, a dictionary
answers as the ordered list of its entries does.
-/

namespace Treena.Sorted

open FLLRBNode (empty)

variable {α β : Type*}

/-- `SORTED_DICTIONARY_ARRAY_TO_RB_TREE_SIZE_THRESHOLD` -/
def arrayToRBTreeSizeThreshold : ℕ := 25

structure FArraySortedDictionary (α β : Type*) where
  keys : List α
  values : List β
  deriving DecidableEq

/-- The concrete classes of `FImmutableSortedDictionary`. -/
inductive FImmutableSortedDictionary (α β : Type*)
  | array (d : FArraySortedDictionary α β)
  | tree (root : FLLRBNode α β)
  deriving DecidableEq

namespace FArraySortedDictionary

def entries (d : FArraySortedDictionary α β) : List (α × β) := d.keys.zip d.values

def findInsertPositionForKey (cmp : Cmp α) (key : α) : List α → ℕ
  | [] => 0
  | k :: ks =>
    match cmp k key with
    | .lt => findInsertPositionForKey cmp key ks + 1
    | _ => 0

def findKey (cmp : Cmp α) (key : α) : List α → Option ℕ
  | [] => none
  | k :: ks =>
    match cmp key k with
    | .eq => some 0
    | .lt => none
    | .gt => (findKey cmp key ks).map (· + 1)

/-- Nothing where the sorted keys fail the check of `fromDictionary`. -/
def fromDictionary (cmp : Cmp α) (dictionary : List (α × β)) :
    Option (FArraySortedDictionary α β) :=
  let sorted := FTreeSortedDictionary.sortedKeyList cmp dictionary
  if FTreeSortedDictionary.ascending cmp sorted then
    some ⟨sorted.map (·.1), sorted.map (·.2)⟩
  else none

def insertKey (cmp : Cmp α) (key : α) (v : β) (d : FArraySortedDictionary α β) :
    Option (FImmutableSortedDictionary α β) :=
  match findKey cmp key d.keys with
  | none =>
    if arrayToRBTreeSizeThreshold ≤ d.keys.length then
      (FTreeSortedDictionary.fromDictionary cmp (d.entries ++ [(key, v)])).map .tree
    else
      let newPos := findInsertPositionForKey cmp key d.keys
      some (.array ⟨d.keys.insertIdx newPos key, d.values.insertIdx newPos v⟩)
  | some pos => some (.array ⟨d.keys.set pos key, d.values.set pos v⟩)

def removeKey (cmp : Cmp α) (key : α) (d : FArraySortedDictionary α β) :
    FArraySortedDictionary α β :=
  match findKey cmp key d.keys with
  | none => d
  | some pos => ⟨d.keys.eraseIdx pos, d.values.eraseIdx pos⟩

def get (cmp : Cmp α) (key : α) (d : FArraySortedDictionary α β) : Option β :=
  (findKey cmp key d.keys).bind fun pos => d.values[pos]?

def contains (cmp : Cmp α) (key : α) (d : FArraySortedDictionary α β) : Bool :=
  (findKey cmp key d.keys).isSome

def getPredecessorKey (cmp : Cmp α) (key : α) (d : FArraySortedDictionary α β) :
    Option (Option α) :=
  match findKey cmp key d.keys with
  | none => none
  | some 0 => some none
  | some (pos + 1) => some d.keys[pos]?

def keyEnumeratorFrom (cmp : Cmp α) (startKey : α) (d : FArraySortedDictionary α β) : List α :=
  d.keys.drop (findInsertPositionForKey cmp startKey d.keys)

/-- The objects from the position before the insert position down, or from the position of
the key itself. -/
def reverseKeyEnumeratorFrom (cmp : Cmp α) (startKey : α) (d : FArraySortedDictionary α β) :
    List α :=
  let startPos := findInsertPositionForKey cmp startKey d.keys
  match d.keys[startPos]? with
  | some k =>
    if cmp k startKey = .eq then (d.keys.take (startPos + 1)).reverse
    else (d.keys.take startPos).reverse
  | none => (d.keys.take startPos).reverse

structure WF (cmp : Cmp α) (d : FArraySortedDictionary α β) : Prop where
  length_eq : d.keys.length = d.values.length
  ordered : Ordered cmp d.entries

section Operations

variable {cmp : Cmp α} {k : α} {v : β} {d : FArraySortedDictionary α β}
  {keys : List α} {values : List β} {l : List (α × β)}

theorem exists_entries (h : d.keys.length = d.values.length) :
    d = ⟨d.entries.map (·.1), d.entries.map (·.2)⟩ := by
  obtain ⟨keys, values⟩ := d
  have hk : (keys.zip values).map Prod.fst = keys := List.map_fst_zip (Nat.le_of_eq h)
  have hv : (keys.zip values).map Prod.snd = values := List.map_snd_zip (Nat.le_of_eq h.symm)
  simp only [entries]
  exact congrArg₂ _ hk.symm hv.symm

theorem entries_mk : (⟨l.map (·.1), l.map (·.2)⟩ : FArraySortedDictionary α β).entries = l := by
  simp [entries, List.zip_map']

theorem findKey_eq_none [Std.TransCmp cmp] (ho : Ordered cmp l) :
    findKey cmp k (l.map (·.1)) = none ↔ Absent cmp k l := by
  induction l with
  | nil => simp [findKey]
  | cons p l ih =>
    rw [ordered_cons] at ho
    rw [List.map_cons, findKey, absent_cons]
    cases hk : cmp k p.1 with
    | eq => simp
    | lt => simpa using absent_of_lt (lt_of_after ho.1 (by simp [hk]))
    | gt => simpa using ih ho.2

theorem findKey_eq_some [Std.TransCmp cmp] (ho : Ordered cmp l) {pos : ℕ}
    (h : findKey cmp k (l.map (·.1)) = some pos) :
    ∃ l₁ p l₂, l = l₁ ++ p :: l₂ ∧ l₁.length = pos ∧ cmp k p.1 = .eq := by
  induction l generalizing pos with
  | nil => cases h
  | cons p l ih =>
    rw [ordered_cons] at ho
    rw [List.map_cons, findKey] at h
    cases hk : cmp k p.1 with
    | eq =>
      rw [hk] at h
      obtain rfl := Option.some.inj h
      exact ⟨[], p, l, rfl, rfl, hk⟩
    | lt => simp [hk] at h
    | gt =>
      simp only [hk, Option.map_eq_some_iff] at h
      obtain ⟨pos', hpos, rfl⟩ := h
      obtain ⟨l₁, q, l₂, rfl, rfl, hq⟩ := ih ho.2 hpos
      exact ⟨p :: l₁, q, l₂, rfl, rfl, hq⟩

theorem findInsertPositionForKey_eq [Std.TransCmp cmp] (ho : Ordered cmp l) :
    findInsertPositionForKey cmp k (l.map (·.1)) = (before cmp k l).length := by
  unfold before
  induction l with
  | nil => rfl
  | cons p l ih =>
    rw [ordered_cons] at ho
    rw [List.map_cons, findInsertPositionForKey]
    by_cases hp : cmp p.1 k = .lt
    · rw [select_cons_pos (by simp [hp]), List.length_cons, ← ih ho.2, hp]
    · have hlt : (cmp p.1 k).isLT = false := by cases hk : cmp p.1 k <;> simp_all
      rw [select_cons_neg hlt, select_eq_nil (gt_of_after ho.1 hp) rfl]
      split
      next hp' => exact absurd hp' hp
      next => rfl

theorem insertIdx_append_length {γ : Type*} (a b : List γ) (x : γ) :
    (a ++ b).insertIdx a.length x = a ++ x :: b := by
  induction a with
  | nil => rfl
  | cons y a ih => exact congrArg (y :: ·) ih

variable [Std.TransCmp cmp]

abbrev ofEntries (l : List (α × β)) : FArraySortedDictionary α β := ⟨l.map (·.1), l.map (·.2)⟩

omit [Std.TransCmp cmp] in
theorem wf_ofEntries (ho : Ordered cmp l) : WF cmp (ofEntries l) :=
  ⟨by simp, by rwa [entries_mk]⟩

theorem get_ofEntries (ho : Ordered cmp l) : get cmp k (ofEntries l) = lookup cmp k l := by
  unfold get
  cases hf : findKey cmp k (l.map (·.1)) with
  | none => exact (lookup_eq_none_iff.mpr ((findKey_eq_none ho).mp hf)).symm
  | some pos =>
    obtain ⟨a, p, b, rfl, rfl, hk⟩ := findKey_eq_some ho hf
    rw [(split_of_eq (v := p.2) ho hk).2.2.1]
    simp

theorem contains_ofEntries (ho : Ordered cmp l) :
    contains cmp k (ofEntries l) = (lookup cmp k l).isSome := by
  unfold contains
  cases hf : findKey cmp k (l.map (·.1)) with
  | none => rw [lookup_eq_none_iff.mpr ((findKey_eq_none ho).mp hf)]; rfl
  | some pos =>
    obtain ⟨a, p, b, rfl, rfl, hk⟩ := findKey_eq_some ho hf
    rw [(split_of_eq (v := p.2) ho hk).2.2.1]
    rfl

theorem removeKey_ofEntries (ho : Ordered cmp l) :
    removeKey cmp k (ofEntries l) = ofEntries (erase cmp k l) := by
  unfold removeKey
  cases hf : findKey cmp k (l.map (·.1)) with
  | none => rw [((findKey_eq_none ho).mp hf).erase_eq]
  | some pos =>
    obtain ⟨a, p, b, rfl, rfl, hk⟩ := findKey_eq_some ho hf
    rw [(split_of_eq (v := p.2) ho hk).2.1]
    simp [ofEntries, List.eraseIdx_append_of_length_le]

theorem getPredecessorKey_ofEntries (ho : Ordered cmp l) :
    getPredecessorKey cmp k (ofEntries l) = predecessor cmp k l := by
  unfold getPredecessorKey predecessor
  cases hf : findKey cmp k (l.map (·.1)) with
  | none => rw [lookup_eq_none_iff.mpr ((findKey_eq_none ho).mp hf)]; rfl
  | some pos =>
    obtain ⟨a, p, b, rfl, rfl, hk⟩ := findKey_eq_some ho hf
    obtain ⟨-, -, hlk, hb, -⟩ := split_of_eq (v := p.2) ho hk
    rw [hlk, hb]
    obtain rfl | ⟨a, q, rfl⟩ := a.eq_nil_or_concat
    · rfl
    · simp

theorem map_eq_append (ho : Ordered cmp l) :
    l.map (·.1) = (before cmp k l).map (·.1) ++ (onward cmp k l).map (·.1) := by
  rw [← List.map_append, before_append_onward ho]

theorem keyEnumeratorFrom_ofEntries (ho : Ordered cmp l) :
    keyEnumeratorFrom cmp k (ofEntries l) = (onward cmp k l).map (·.1) := by
  rw [keyEnumeratorFrom, findInsertPositionForKey_eq ho]
  change (l.map (·.1)).drop _ = _
  rw [map_eq_append ho (k := k)]
  exact List.drop_left' (List.length_map ..)

theorem reverseKeyEnumeratorFrom_ofEntries (ho : Ordered cmp l) :
    reverseKeyEnumeratorFrom cmp k (ofEntries l) = ((upTo cmp k l).map (·.1)).reverse := by
  have hc := before_append_onward (k := k) ho
  have hlt : ∀ q ∈ before cmp k l, cmp q.1 k = .lt := fun q hq => by
    simpa using (List.mem_filter.mp hq).2
  unfold reverseKeyEnumeratorFrom
  rw [findInsertPositionForKey_eq ho]
  cases hr : onward cmp k l with
  | nil =>
    rw [hr, List.append_nil] at hc
    have hu : upTo cmp k l = l := select_eq_self (fun q hq => hlt q (by rwa [hc])) rfl
    simp [hu, hc, List.take_of_length_le]
  | cons p r =>
    rw [hr] at hc
    generalize before cmp k l = a at *
    subst hc
    have hget : ((a ++ p :: r).map (·.1))[a.length]? = some p.1 := by simp
    have htake : ((a ++ p :: r).map (·.1)).take a.length = a.map (·.1) := by simp
    have htake' : ((a ++ p :: r).map (·.1)).take (a.length + 1) = (a ++ [p]).map (·.1) := by
      simp [List.take_append, List.take_of_length_le]
    dsimp only
    rw [hget]
    dsimp only
    split
    next hk =>
      have hu := (split_of_eq (k := k) (v := p.2) ho (Std.OrientedCmp.eq_symm hk)).2.2.2.2
      rw [htake', hu]
    next hk =>
      have hge : (cmp p.1 k).isGE := by
        have hp : p ∈ onward cmp k (a ++ p :: r) := by rw [hr]; exact List.mem_cons_self
        exact (List.mem_filter.mp hp).2
      have hgt : cmp p.1 k = .gt := by cases h : cmp p.1 k <;> simp_all
      have hr' := gt_of_after (k := k) (ordered_middle.mp ho).2.2.2 (by simp [hgt])
      have hu : upTo cmp k (a ++ p :: r) = a := by
        unfold upTo
        rw [select_append, select_eq_self hlt rfl, select_cons_neg (by simp [hgt]),
          select_eq_nil hr' rfl, List.append_nil]
      rw [htake, hu]

/-- An insertion keeps the arrays up to the threshold and builds a tree above it. The arrays
take the new one of two keys that compare as the same. -/
theorem insertKey_ofEntries (ho : Ordered cmp l) :
    (∃ r, insertKey cmp k v (ofEntries l) = some (.array (ofEntries r)) ∧
        Ties cmp r (upsert cmp k v l)) ∨
      ∃ root, insertKey cmp k v (ofEntries l) = some (.tree root) ∧
        FTreeSortedDictionary.WF cmp root ∧ root.entries = upsert cmp k v l := by
  unfold insertKey
  cases hf : findKey cmp k (l.map (·.1)) with
  | some pos =>
    obtain ⟨a, p, b, rfl, rfl, hk⟩ := findKey_eq_some ho hf
    refine Or.inl ⟨a ++ (k, v) :: b, by simp [ofEntries], ?_⟩
    rw [(split_of_eq (v := v) ho hk).1]
    exact List.rel_append (Ties.refl a) (.cons ⟨hk, rfl⟩ (Ties.refl b))
  | none =>
    have habs := (findKey_eq_none ho).mp hf
    have hup := habs.upsert_eq (v := v) ho
    dsimp only
    split
    next hn =>
      right
      have hpair : (l ++ [(k, v)]).Pairwise fun p q => cmp p.1 q.1 ≠ .eq := by
        refine List.pairwise_append.mpr
          ⟨ho.imp fun h => by simp [h], List.pairwise_singleton .., ?_⟩
        intro p hp q hq
        obtain rfl := List.mem_singleton.mp hq
        exact fun h => habs p hp (Std.OrientedCmp.eq_symm h)
      obtain ⟨root, hr, -, he, hwf⟩ := FTreeSortedDictionary.fromDictionary_eq_some hpair
      refine ⟨root, by rw [entries_mk, hr]; rfl, hwf, ?_⟩
      refine hwf.ordered.eq_of_perm ho.upsert ?_
      rw [he, hup]
      refine (FTreeSortedDictionary.perm_sortedKeyList ..).trans ?_
      refine List.perm_append_singleton .. |>.trans ?_
      conv_lhs => rw [← before_append_onward (k := k) ho]
      exact List.perm_middle.symm
    next hn =>
      refine Or.inl ⟨upsert cmp k v l, ?_, .refl _⟩
      rw [findInsertPositionForKey_eq ho, hup]
      have hins : l.insertIdx (before cmp k l).length (k, v) =
          before cmp k l ++ (k, v) :: onward cmp k l :=
        calc l.insertIdx (before cmp k l).length (k, v)
            = (before cmp k l ++ onward cmp k l).insertIdx (before cmp k l).length (k, v) := by
              rw [before_append_onward ho]
          _ = _ := insertIdx_append_length ..
      rw [← hins]
      simp [ofEntries, List.map_insertIdx]

end Operations

end FArraySortedDictionary

namespace FImmutableSortedDictionary

open FTreeSortedDictionary (keysOf objects startStack)

def dictionaryWithComparator : FImmutableSortedDictionary α β := .array ⟨[], []⟩

def fromDictionary (cmp : Cmp α) (dictionary : List (α × β)) :
    Option (FImmutableSortedDictionary α β) :=
  if dictionary.length ≤ arrayToRBTreeSizeThreshold then
    (FArraySortedDictionary.fromDictionary cmp dictionary).map .array
  else (FTreeSortedDictionary.fromDictionary cmp dictionary).map .tree

def insertKey (cmp : Cmp α) (key : α) (v : β) :
    FImmutableSortedDictionary α β → Option (FImmutableSortedDictionary α β)
  | .array d => d.insertKey cmp key v
  | .tree root => some (.tree (FTreeSortedDictionary.insertKey cmp key v root))

def removeKey (cmp : Cmp α) (key : α) :
    FImmutableSortedDictionary α β → FImmutableSortedDictionary α β
  | .array d => .array (d.removeKey cmp key)
  | .tree root => .tree (FTreeSortedDictionary.removeKey cmp key root)

def get (cmp : Cmp α) (key : α) : FImmutableSortedDictionary α β → Option β
  | .array d => d.get cmp key
  | .tree root => FTreeSortedDictionary.get cmp key root

def contains (cmp : Cmp α) (key : α) : FImmutableSortedDictionary α β → Bool
  | .array d => d.contains cmp key
  | .tree root => FTreeSortedDictionary.contains cmp key root

def getPredecessorKey (cmp : Cmp α) (key : α) :
    FImmutableSortedDictionary α β → Option (Option α)
  | .array d => d.getPredecessorKey cmp key
  | .tree root => FTreeSortedDictionary.getPredecessorKey cmp key none root

def isEmpty : FImmutableSortedDictionary α β → Bool
  | .array d => d.keys.length == 0
  | .tree root => root.isEmpty

def count : FImmutableSortedDictionary α β → ℕ
  | .array d => d.keys.length
  | .tree root => root.count

def minKey : FImmutableSortedDictionary α β → Option α
  | .array d => d.keys.head?
  | .tree root => root.minKey

def maxKey : FImmutableSortedDictionary α β → Option α
  | .array d => d.keys.getLast?
  | .tree root => root.maxKey

/-- `enumerateKeysAndObjectsReverse:usingBlock:`, with the state its block captures. -/
def enumerateKeysAndObjects {σ : Type*} (reverse : Bool) (block : α → β → σ → Bool × σ)
    (s : σ) : FImmutableSortedDictionary α β → σ
  | .array d => (FLLRBNode.visit block (if reverse then d.entries.reverse else d.entries) s).2
  | .tree root =>
    if reverse then (root.reverseTraversal block s).2 else (root.inorderTraversal block s).2

/-- The first `n` objects of an enumerator made for a dictionary. -/
def keyEnumerator (cmp : Cmp α) (n : ℕ) : FImmutableSortedDictionary α β → List α
  | .array d => d.keys.take n
  | .tree root => objects false n (startStack cmp none false root [])

def keyEnumeratorFrom (cmp : Cmp α) (startKey : α) (n : ℕ) :
    FImmutableSortedDictionary α β → List α
  | .array d => (d.keyEnumeratorFrom cmp startKey).take n
  | .tree root => objects false n (startStack cmp (some startKey) false root [])

def reverseKeyEnumerator (cmp : Cmp α) (n : ℕ) : FImmutableSortedDictionary α β → List α
  | .array d => d.keys.reverse.take n
  | .tree root => objects true n (startStack cmp none true root [])

def reverseKeyEnumeratorFrom (cmp : Cmp α) (startKey : α) (n : ℕ) :
    FImmutableSortedDictionary α β → List α
  | .array d => (d.reverseKeyEnumeratorFrom cmp startKey).take n
  | .tree root => objects true n (startStack cmp (some startKey) true root [])

def entries : FImmutableSortedDictionary α β → List (α × β)
  | .array d => d.entries
  | .tree root => root.entries

def WF (cmp : Cmp α) : FImmutableSortedDictionary α β → Prop
  | .array d => d.WF cmp
  | .tree root => FTreeSortedDictionary.WF cmp root

/-- Every question about a dictionary is answered as by a list of entries, the enumeration
of all keys in reverse apart. -/
structure Represents (cmp : Cmp α) (d : FImmutableSortedDictionary α β)
    (l : List (α × β)) : Prop where
  get : ∀ k, d.get cmp k = lookup cmp k l
  contains : ∀ k, d.contains cmp k = (lookup cmp k l).isSome
  predecessor : ∀ k, d.getPredecessorKey cmp k = predecessor cmp k l
  isEmpty : d.isEmpty = l.isEmpty
  count : d.count = l.length
  minKey : d.minKey = l.head?.map (·.1)
  maxKey : d.maxKey = l.getLast?.map (·.1)
  enumerate : ∀ {σ : Type} (reverse : Bool) (block : α → β → σ → Bool × σ) (s : σ),
    d.enumerateKeysAndObjects reverse block s =
      (FLLRBNode.visit block (if reverse then l.reverse else l) s).2
  keys : ∀ n, d.keyEnumerator cmp n = (l.map (·.1)).take n
  keysFrom : ∀ k n, d.keyEnumeratorFrom cmp k n = ((onward cmp k l).map (·.1)).take n
  keysBackFrom : ∀ k n,
    d.reverseKeyEnumeratorFrom cmp k n = ((upTo cmp k l).map (·.1)).reverse.take n

section Represents

variable {cmp : Cmp α} [Std.TransCmp cmp] {k : α} {v : β} {l : List (α × β)}
  {d : FImmutableSortedDictionary α β} {root : FLLRBNode α β}

theorem represents_array (ho : Ordered cmp l) :
    Represents cmp (.array (FArraySortedDictionary.ofEntries l)) l where
  get _ := FArraySortedDictionary.get_ofEntries ho
  contains _ := FArraySortedDictionary.contains_ofEntries ho
  predecessor _ := FArraySortedDictionary.getPredecessorKey_ofEntries ho
  isEmpty := by cases l <;> rfl
  count := List.length_map ..
  minKey := List.head?_map ..
  maxKey := List.getLast?_map ..
  enumerate reverse block s := by
    rw [enumerateKeysAndObjects, FArraySortedDictionary.entries_mk]
  keys _ := rfl
  keysFrom k n := by rw [keyEnumeratorFrom, FArraySortedDictionary.keyEnumeratorFrom_ofEntries ho]
  keysBackFrom k n := by
    rw [reverseKeyEnumeratorFrom, FArraySortedDictionary.reverseKeyEnumeratorFrom_ofEntries ho]

theorem represents_tree (h : FTreeSortedDictionary.WF cmp root) :
    Represents cmp (.tree root) root.entries where
  get _ := FTreeSortedDictionary.get_eq h.ordered
  contains k := congrArg Option.isSome (FTreeSortedDictionary.get_eq h.ordered)
  predecessor k := by
    rw [getPredecessorKey, FTreeSortedDictionary.getPredecessorKey_eq h.ordered]
    simp [Sorted.predecessor]
  isEmpty := by cases root <;> simp [isEmpty, FLLRBNode.isEmpty]
  count := FLLRBNode.count_eq
  minKey := FLLRBNode.minKey_eq
  maxKey := FLLRBNode.maxKey_eq
  enumerate reverse block s := by
    rw [enumerateKeysAndObjects, FLLRBNode.reverseTraversal_eq, FLLRBNode.inorderTraversal_eq]
    split <;> rfl
  keys n := by
    rw [keyEnumerator, FTreeSortedDictionary.objects_eq
      (FTreeSortedDictionary.not_empty_startStack List.not_mem_nil),
      FTreeSortedDictionary.remaining_startStack_none]
    simp [FTreeSortedDictionary.remaining]
  keysFrom k n := by
    rw [keyEnumeratorFrom, FTreeSortedDictionary.objects_eq
      (FTreeSortedDictionary.not_empty_startStack List.not_mem_nil),
      FTreeSortedDictionary.remaining_startStack _ h.ordered]
    simp [FTreeSortedDictionary.remaining, keysOf]
  keysBackFrom k n := by
    rw [reverseKeyEnumeratorFrom, FTreeSortedDictionary.objects_eq
      (FTreeSortedDictionary.not_empty_startStack List.not_mem_nil),
      FTreeSortedDictionary.remaining_startStack_reverse _ h.ordered]
    simp [FTreeSortedDictionary.remaining, keysOf]

omit [Std.TransCmp cmp] in
theorem WF.ordered (h : WF cmp d) : Ordered cmp d.entries := by
  cases d with
  | array d => exact FArraySortedDictionary.WF.ordered h
  | tree root => exact FTreeSortedDictionary.WF.ordered h

theorem WF.represents (h : WF cmp d) : Represents cmp d d.entries := by
  cases d with
  | array d =>
    have he := FArraySortedDictionary.exists_entries (FArraySortedDictionary.WF.length_eq h)
    have hr := represents_array (FArraySortedDictionary.WF.ordered h)
    rw [FArraySortedDictionary.ofEntries, ← he] at hr
    exact hr
  | tree root => exact represents_tree h

omit [Std.TransCmp cmp] in
/-- Enumerating all keys in reverse works for arrays only. -/
theorem reverseKeyEnumerator_iff (h : WF cmp d) :
    (∀ n, d.reverseKeyEnumerator cmp n = (d.entries.map (·.1)).reverse.take n) ↔
      (∃ a, d = .array a) ∨ d.entries = [] := by
  cases d with
  | array d =>
    have he := FArraySortedDictionary.exists_entries (FArraySortedDictionary.WF.length_eq h)
    refine ⟨fun _ => .inl ⟨d, rfl⟩, fun _ n => ?_⟩
    rw [reverseKeyEnumerator, entries]
    exact congrArg (fun d => d.keys.reverse.take n) he
  | tree root =>
    have hnil : ∀ n, reverseKeyEnumerator cmp n (.tree root) = [] := by
      intro n
      rw [reverseKeyEnumerator, FTreeSortedDictionary.objects_eq
        (FTreeSortedDictionary.not_empty_startStack List.not_mem_nil),
        FTreeSortedDictionary.remaining_startStack_none]
      simp [FTreeSortedDictionary.remaining]
    simp only [hnil]
    constructor
    · intro hall
      right
      have hl := hall root.entries.length
      rw [List.take_of_length_le (by simp [entries])] at hl
      simpa [entries] using hl.symm
    · rintro (⟨a, ha⟩ | he)
      · cases ha
      · simp [he]

theorem reverseKeyEnumerator_iff_leaf :
    (∀ n, reverseKeyEnumerator compare n (.tree (.value 1 'a' .black .empty .empty)) =
        [1].reverse.take n) ↔
      (∃ a, (.tree (.value 1 'a' .black .empty .empty) : FImmutableSortedDictionary ℕ Char) =
        .array a) ∨ [(1, 'a')] = [] :=
  reverseKeyEnumerator_iff (d := .tree (.value 1 'a' .black .empty .empty))
    ⟨⟨_, .black .empty .empty⟩, List.pairwise_singleton ..⟩

theorem WF.insertKey (h : WF cmp d) :
    ∃ d', insertKey cmp k v d = some d' ∧ WF cmp d' ∧
      Ties cmp d'.entries (upsert cmp k v d.entries) := by
  cases d with
  | array d =>
    have ho := FArraySortedDictionary.WF.ordered h
    have he := FArraySortedDictionary.exists_entries (FArraySortedDictionary.WF.length_eq h)
    rw [FImmutableSortedDictionary.insertKey, entries]
    rcases FArraySortedDictionary.insertKey_ofEntries (k := k) (v := v) ho with ⟨r, hi, hr⟩ | hi
    · rw [show FArraySortedDictionary.ofEntries d.entries = d from he.symm] at hi
      refine ⟨_, hi, FArraySortedDictionary.wf_ofEntries (hr.ordered ho.upsert), ?_⟩
      rw [entries, FArraySortedDictionary.ofEntries, FArraySortedDictionary.entries_mk]
      exact hr
    · rw [FArraySortedDictionary.ofEntries, ← he] at hi
      obtain ⟨root, hr, hwf, hroot⟩ := hi
      exact ⟨_, hr, hwf, hroot ▸ .refl _⟩
  | tree root =>
    obtain ⟨hwf, he⟩ := FTreeSortedDictionary.WF.insertKey (k := k) (v := v) h
    exact ⟨_, rfl, hwf, he ▸ .refl _⟩

theorem WF.removeKey (h : WF cmp d) :
    WF cmp (removeKey cmp k d) ∧ (d.removeKey cmp k).entries = erase cmp k d.entries := by
  cases d with
  | array d =>
    have ho := FArraySortedDictionary.WF.ordered h
    have he := FArraySortedDictionary.exists_entries (FArraySortedDictionary.WF.length_eq h)
    have hr := FArraySortedDictionary.removeKey_ofEntries (k := k) ho
    rw [FArraySortedDictionary.ofEntries, ← he] at hr
    rw [FImmutableSortedDictionary.removeKey, hr]
    exact ⟨FArraySortedDictionary.wf_ofEntries ho.erase, FArraySortedDictionary.entries_mk⟩
  | tree root => exact FTreeSortedDictionary.WF.removeKey h

end Represents

end FImmutableSortedDictionary

end Treena.Sorted
