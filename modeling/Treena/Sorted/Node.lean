import Mathlib.Algebra.Group.Nat.Defs
import Treena.Sorted.Entries

/-! # Nodes of the left-leaning red-black tree

The nodes behind the sorted dictionary of the database client. A message to the empty node
answers as `FLLRBEmptyNode` does, and `copyWith` keeps the fields it is not given.
-/

namespace Treena.Sorted

/-- `FLLRBColor`, a boxed boolean. -/
inductive Color
  | red
  | black
  deriving DecidableEq

def Color.flip : Color → Color
  | .red => .black
  | .black => .red

@[simp] theorem Color.flip_red : Color.red.flip = .black := rfl

@[simp] theorem Color.flip_black : Color.black.flip = .red := rfl

@[simp] theorem Color.flip_flip (c : Color) : c.flip.flip = c := by cases c <;> rfl

inductive FLLRBNode (α β : Type*)
  | empty
  | value (key : α) (value : β) (color : Color) (left right : FLLRBNode α β)
  deriving DecidableEq

namespace FLLRBNode

variable {α β : Type*}

def isEmpty : FLLRBNode α β → Bool
  | empty => true
  | value .. => false

def isRed : FLLRBNode α β → Bool
  | value _ _ .red _ _ => true
  | _ => false

def left : FLLRBNode α β → FLLRBNode α β
  | empty => empty
  | value _ _ _ l _ => l

def right : FLLRBNode α β → FLLRBNode α β
  | empty => empty
  | value _ _ _ _ r => r

def withColor (c : Color) : FLLRBNode α β → FLLRBNode α β
  | empty => empty
  | value k v _ l r => value k v c l r

def withLeft : FLLRBNode α β → FLLRBNode α β → FLLRBNode α β
  | empty, _ => empty
  | value k v c _ r, l => value k v c l r

def withRight : FLLRBNode α β → FLLRBNode α β → FLLRBNode α β
  | empty, _ => empty
  | value k v c l _, r => value k v c l r

/-- `copyWith` given the key and the value of another node. -/
def withEntryOf : FLLRBNode α β → FLLRBNode α β → FLLRBNode α β
  | value _ _ c l r, value k v _ _ _ => value k v c l r
  | n, _ => n

def count : FLLRBNode α β → ℕ
  | empty => 0
  | value _ _ _ l r => l.count + 1 + r.count

def min : FLLRBNode α β → FLLRBNode α β
  | empty => empty
  | value k v c l r => if l.isEmpty then value k v c l r else l.min

def minKey (n : FLLRBNode α β) : Option α :=
  match n.min with
  | empty => none
  | value k _ _ _ _ => some k

def maxKey : FLLRBNode α β → Option α
  | empty => none
  | value k _ _ _ r => if r.isEmpty then some k else r.maxKey

/-- The action may stop the traversal; it carries the state its block captures. -/
def inorderTraversal {σ : Type*} (action : α → β → σ → Bool × σ) :
    FLLRBNode α β → σ → Bool × σ
  | empty, s => (false, s)
  | value k v _ l r, s =>
    match l.inorderTraversal action s with
    | (true, s) => (true, s)
    | (false, s) =>
      match action k v s with
      | (true, s) => (true, s)
      | (false, s) => r.inorderTraversal action s

def reverseTraversal {σ : Type*} (action : α → β → σ → Bool × σ) :
    FLLRBNode α β → σ → Bool × σ
  | empty, s => (false, s)
  | value k v _ l r, s =>
    match r.reverseTraversal action s with
    | (true, s) => (true, s)
    | (false, s) =>
      match action k v s with
      | (true, s) => (true, s)
      | (false, s) => l.reverseTraversal action s

/-- The black depth, unless `check` throws. -/
def check : FLLRBNode α β → Option ℕ
  | empty => some 0
  | value _ _ c l r =>
    if c = .red ∧ l.isRed then none
    else if r.isRed then none
    else do
      let blackDepth ← l.check
      let other ← r.check
      if blackDepth ≠ other then none
      else some (blackDepth + if c = .red then 0 else 1)

/-- The empty node has no such method. -/
def checkMaxDepth : FLLRBNode α β → Option Bool
  | empty => none
  | value k v c l r => do
    let blackDepth ← (value k v c l r).check
    return decide (2 ^ blackDepth ≤ (value k v c l r).count + 1)

def rotateLeft : FLLRBNode α β → FLLRBNode α β
  | empty => empty
  | value k v c l r => (r.withColor c).withLeft (value k v .red l r.left)

def rotateRight : FLLRBNode α β → FLLRBNode α β
  | empty => empty
  | value k v c l r => (l.withColor c).withRight (value k v .red l.right r)

def flipped : FLLRBNode α β → FLLRBNode α β
  | empty => empty
  | value k v c l r => value k v c.flip l r

def colorFlip : FLLRBNode α β → FLLRBNode α β
  | empty => empty
  | value k v c l r => value k v c.flip l.flipped r.flipped

def fixUp (n : FLLRBNode α β) : FLLRBNode α β :=
  let n := if n.right.isRed && !n.left.isRed then n.rotateLeft else n
  let n := if n.left.isRed && n.left.left.isRed then n.rotateRight else n
  if n.left.isRed && n.right.isRed then n.colorFlip else n

def moveRedLeft (n : FLLRBNode α β) : FLLRBNode α β :=
  let n := n.colorFlip
  if n.right.left.isRed then
    ((n.withRight n.right.rotateRight).rotateLeft).colorFlip
  else n

def moveRedRight (n : FLLRBNode α β) : FLLRBNode α β :=
  let n := n.colorFlip
  if n.left.left.isRed then n.rotateRight.colorFlip else n

def insertKey (cmp : Cmp α) (aKey : α) (aValue : β) : FLLRBNode α β → FLLRBNode α β
  | empty => value aKey aValue .red empty empty
  | value k v c l r =>
    match cmp aKey k with
    | .lt => (value k v c (insertKey cmp aKey aValue l) r).fixUp
    | .eq => (value k aValue c l r).fixUp
    | .gt => (value k v c l (insertKey cmp aKey aValue r)).fixUp

/-- What `removeMin` and `remove` do to a node before they go down its left side. -/
def readyLeft (n : FLLRBNode α β) : FLLRBNode α β :=
  if !n.left.isEmpty && !n.left.isRed && !n.left.left.isRed then n.moveRedLeft else n

/-- What `remove` does to a node before it goes down its right side. -/
def readyRight (n : FLLRBNode α β) : FLLRBNode α β :=
  let n := if n.left.isRed then n.rotateRight else n
  if !n.right.isEmpty && !n.right.isRed && !n.right.left.isRed then n.moveRedRight else n

section Entries

def entries : FLLRBNode α β → List (α × β)
  | empty => []
  | value k v _ l r => l.entries ++ (k, v) :: r.entries

variable {k : α} {v : β} {c : Color} {l r n : FLLRBNode α β}

@[simp] theorem entries_empty : (empty : FLLRBNode α β).entries = [] := rfl

@[simp] theorem entries_value :
    (value k v c l r).entries = l.entries ++ (k, v) :: r.entries := rfl

@[simp] theorem isEmpty_iff : n.isEmpty ↔ n = empty := by cases n <;> simp [isEmpty]

@[simp] theorem entries_eq_nil : n.entries = [] ↔ n = empty := by cases n <;> simp

theorem count_eq : n.count = n.entries.length := by
  induction n with
  | empty => rfl
  | value k v c l r ihl ihr => simp [count, ihl, ihr]; omega

/-- A traversal with an action that may stop visits the entries in order. -/
def visit {σ : Type*} (action : α → β → σ → Bool × σ) : List (α × β) → σ → Bool × σ
  | [], s => (false, s)
  | p :: l, s =>
    match action p.1 p.2 s with
    | (true, s) => (true, s)
    | (false, s) => visit action l s

theorem visit_append {σ : Type*} {action : α → β → σ → Bool × σ} {l l' : List (α × β)} {s : σ} :
    visit action (l ++ l') s =
      match visit action l s with
      | (true, s) => (true, s)
      | (false, s) => visit action l' s := by
  induction l generalizing s with
  | nil => rfl
  | cons p l ih =>
    rw [List.cons_append, visit, visit]
    rcases action p.1 p.2 s with ⟨_ | _, s'⟩
    · exact ih
    · rfl

theorem inorderTraversal_eq {σ : Type*} (action : α → β → σ → Bool × σ) (s : σ) :
    n.inorderTraversal action s = visit action n.entries s := by
  induction n generalizing s with
  | empty => rfl
  | value k v c l r ihl ihr =>
    rw [inorderTraversal, entries_value, visit_append, ihl]
    rcases visit action l.entries s with ⟨_ | _, s'⟩
    · simp only [visit]
      rcases action k v s' with ⟨_ | _, s''⟩
      · exact ihr s''
      · rfl
    · rfl

theorem reverseTraversal_eq {σ : Type*} (action : α → β → σ → Bool × σ) (s : σ) :
    n.reverseTraversal action s = visit action n.entries.reverse s := by
  induction n generalizing s with
  | empty => rfl
  | value k v c l r ihl ihr =>
    rw [reverseTraversal, entries_value, List.reverse_append, List.reverse_cons,
      List.append_assoc, List.singleton_append, visit_append, ihr]
    rcases visit action r.entries.reverse s with ⟨_ | _, s'⟩
    · simp only [visit]
      rcases action k v s' with ⟨_ | _, s''⟩
      · exact ihl s''
      · rfl
    · rfl

theorem minKey_eq : n.minKey = n.entries.head?.map (·.1) := by
  unfold minKey
  induction n with
  | empty => rfl
  | value k v c l r ihl _ =>
    by_cases hl : l = empty
    · subst hl
      rfl
    · rw [min, if_neg (isEmpty_iff.not.mpr hl), ihl, entries_value,
        List.head?_append_of_ne_nil _ (entries_eq_nil.not.mpr hl)]

theorem maxKey_eq : n.maxKey = n.entries.getLast?.map (·.1) := by
  induction n with
  | empty => rfl
  | value k v c l r _ ihr =>
    rw [maxKey, entries_value, List.getLast?_append, List.getLast?_cons]
    by_cases hr : r = empty
    · subst hr
      rfl
    · rw [if_neg (isEmpty_iff.not.mpr hr), ihr]
      obtain ⟨p, hp⟩ : ∃ p, r.entries.getLast? = some p :=
        Option.ne_none_iff_exists'.mp (by simpa using hr)
      simp [hp]

@[simp] theorem entries_withColor : (n.withColor c).entries = n.entries := by cases n <;> rfl

@[simp] theorem entries_flipped : n.flipped.entries = n.entries := by cases n <;> rfl

@[simp] theorem entries_colorFlip : n.colorFlip.entries = n.entries := by
  cases n <;> simp [colorFlip]

theorem entries_rotateLeft (h : n.right ≠ empty) : n.rotateLeft.entries = n.entries := by
  cases n with
  | empty => rfl
  | value k v c l r =>
    cases r with
    | empty => exact absurd rfl h
    | value => simp [rotateLeft, withColor, withLeft, left]

theorem entries_rotateRight (h : n.left ≠ empty) : n.rotateRight.entries = n.entries := by
  cases n with
  | empty => rfl
  | value k v c l r =>
    cases l with
    | empty => exact absurd rfl h
    | value => simp [rotateRight, withColor, withRight, right]

theorem ne_empty_of_isRed (h : n.isRed) : n ≠ empty := by
  rintro rfl
  cases h

theorem entries_rotateLeft_of_isRed (h : n.right.isRed) : n.rotateLeft.entries = n.entries :=
  entries_rotateLeft (ne_empty_of_isRed h)

theorem entries_rotateRight_of_isRed (h : n.left.isRed) : n.rotateRight.entries = n.entries :=
  entries_rotateRight (ne_empty_of_isRed h)

@[simp] theorem entries_fixUp : n.fixUp.entries = n.entries := by
  unfold fixUp
  extract_lets m o
  have hm : m.entries = n.entries := by
    unfold m
    split
    next h => exact entries_rotateLeft_of_isRed (Bool.and_eq_true _ _ ▸ h).1
    next => rfl
  have ho : o.entries = m.entries := by
    unfold o
    split
    next h => exact entries_rotateRight_of_isRed (Bool.and_eq_true _ _ ▸ h).1
    next => rfl
  split
  · rw [entries_colorFlip, ho, hm]
  · rw [ho, hm]

@[simp] theorem entries_moveRedLeft : n.moveRedLeft.entries = n.entries := by
  rw [← entries_colorFlip (n := n)]
  unfold moveRedLeft
  dsimp only
  generalize n.colorFlip = m
  split
  next h =>
    cases m with
    | empty => cases h
    | value k v c l r =>
      cases r with
      | empty => cases h
      | value k' v' c' rl rr =>
        cases rl with
        | empty => cases h
        | value => simp [rotateRight, rotateLeft, withRight, withLeft, withColor, left, right]
  next => rfl

@[simp] theorem entries_moveRedRight : n.moveRedRight.entries = n.entries := by
  rw [← entries_colorFlip (n := n)]
  unfold moveRedRight
  dsimp only
  generalize n.colorFlip = m
  split
  next h =>
    rw [entries_colorFlip]
    apply entries_rotateRight
    intro hl
    rw [hl] at h
    cases h
  next => rfl

@[simp] theorem entries_readyLeft : n.readyLeft.entries = n.entries := by
  unfold readyLeft
  split
  · exact entries_moveRedLeft
  · rfl

@[simp] theorem entries_readyRight : n.readyRight.entries = n.entries := by
  unfold readyRight
  extract_lets m
  have hm : m.entries = n.entries := by
    unfold m
    split
    next h => exact entries_rotateRight_of_isRed h
    next => rfl
  split
  · rw [entries_moveRedRight, hm]
  · exact hm

theorem count_left_lt (h : n ≠ empty) : n.left.count < n.count := by
  cases n with
  | empty => exact absurd rfl h
  | value => simp only [left, count]; omega

theorem count_right_lt (h : n ≠ empty) : n.right.count < n.count := by
  cases n with
  | empty => exact absurd rfl h
  | value => simp only [right, count]; omega

theorem count_readyLeft : n.readyLeft.count = n.count := by
  simp only [count_eq, entries_readyLeft]

theorem count_readyRight : n.readyRight.count = n.count := by
  simp only [count_eq, entries_readyRight]

theorem readyLeft_ne_empty (h : n ≠ empty) : n.readyLeft ≠ empty := by
  intro hn
  apply h
  rw [← entries_eq_nil, ← entries_readyLeft, hn, entries_empty]

theorem readyRight_ne_empty (h : n ≠ empty) : n.readyRight ≠ empty := by
  intro hn
  apply h
  rw [← entries_eq_nil, ← entries_readyRight, hn, entries_empty]

end Entries

/-- An empty left side ends the removal, with what is to the right of it. -/
def removeMin (n : FLLRBNode α β) : FLLRBNode α β :=
  if n.left.isEmpty then empty
  else (n.readyLeft.withLeft n.readyLeft.left.removeMin).fixUp
termination_by n.count
decreasing_by
  rename_i h
  have hn : n ≠ empty := by
    rintro rfl
    exact h rfl
  have := count_left_lt (readyLeft_ne_empty hn)
  rwa [count_readyLeft] at this

@[simp] theorem count_withLeft_le {l n : FLLRBNode α β} (h : l.count ≤ n.left.count) :
    (n.withLeft l).count ≤ n.count := by
  cases n with
  | empty => exact Nat.le_refl _
  | value => simp only [withLeft, left, count] at *; omega

theorem count_removeMin_le (n : FLLRBNode α β) : n.removeMin.count ≤ n.count := by
  induction n using removeMin.induct with
  | case1 n h => rw [removeMin, if_pos h]; exact Nat.zero_le _
  | case2 n h ih =>
    rw [removeMin, if_neg h, count_eq, entries_fixUp, ← count_eq, ← count_readyLeft (n := n)]
    exact count_withLeft_le ih

/-- The key is looked for on the right once more after its entry has been overwritten. -/
def remove (cmp : Cmp α) (aKey : α) : FLLRBNode α β → FLLRBNode α β
  | empty => empty
  | value k v c l r =>
    if cmp aKey k = .lt then
      let n := (value k v c l r).readyLeft
      (n.withLeft (remove cmp aKey n.left)).fixUp
    else
      match _hn : (value k v c l r).readyRight with
      | empty => empty
      | value k' v' c' l' r' =>
        if cmp aKey k' = .eq then
          if r'.isEmpty then empty
          else
            let n := ((value k' v' c' l' r').withEntryOf r'.min).withRight r'.removeMin
            (n.withRight (remove cmp aKey r'.removeMin)).fixUp
        else (value k' v' c' l' (remove cmp aKey r')).fixUp
termination_by n => n.count
decreasing_by
  · have := count_left_lt (readyLeft_ne_empty (n := value k v c l r) nofun)
    rwa [count_readyLeft] at this
  · have hr := count_right_lt (n := value k' v' c' l' r') nofun
    rw [← _hn, count_readyRight, _hn] at hr
    exact Nat.lt_of_le_of_lt (count_removeMin_le r') hr
  · have hr := count_right_lt (n := value k' v' c' l' r') nofun
    rwa [← _hn, count_readyRight, _hn] at hr

end FLLRBNode

end Treena.Sorted
