import Treena.Sorted.Node

/-! # Balance

The invariant that `check` tests: no red node has a red child, no right child is red, and
every path meets the same number of black nodes. Insertion keeps it up to one red node at
the root with a red left child, which blackening the root repairs.
-/

namespace Treena.Sorted.FLLRBNode

variable {α β : Type*}

inductive Balanced : FLLRBNode α β → Color → ℕ → Prop
  | empty : Balanced empty .black 0
  | red {k v l r h} : Balanced l .black h → Balanced r .black h →
      Balanced (value k v .red l r) .red h
  | black {k v c l r h} : Balanced l c h → Balanced r .black h →
      Balanced (value k v .black l r) .black (h + 1)

/-- A red node with a red left child: balanced once blackened. -/
inductive Loose : FLLRBNode α β → ℕ → Prop
  | mk {k v l r h} : Balanced l .red h → Balanced r .black h → Loose (value k v .red l r) h

variable {k k' : α} {v v' : β} {c c' : Color} {l r a b n : FLLRBNode α β} {h h' : ℕ}

@[simp] theorem isRed_empty : (empty : FLLRBNode α β).isRed = false := rfl

@[simp] theorem isRed_value : (value k v c l r).isRed = decide (c = .red) := by cases c <;> rfl

@[simp] theorem left_value : (value k v c l r).left = l := rfl

@[simp] theorem right_value : (value k v c l r).right = r := rfl

@[simp] theorem left_empty : (empty : FLLRBNode α β).left = empty := rfl

@[simp] theorem right_empty : (empty : FLLRBNode α β).right = empty := rfl

@[simp] theorem flipped_value : (value k v c l r).flipped = value k v c.flip l r := rfl

@[simp] theorem flipped_flipped : n.flipped.flipped = n := by cases n <;> simp [flipped]

theorem Balanced.isRed_eq (hn : Balanced n c h) : n.isRed = decide (c = .red) := by
  cases hn <;> simp

theorem Balanced.isRed (hn : Balanced n .red h) : n.isRed := hn.isRed_eq

theorem Balanced.left_black (hn : Balanced n .red h) : n.left.isRed = false := by
  cases hn with | red hl => exact hl.isRed_eq

/-- `check` accepts exactly the balanced nodes and answers their black depth. -/
theorem check_eq_some_iff : n.check = some h ↔ ∃ c, Balanced n c h := by
  constructor
  · intro hc
    induction n generalizing h with
    | empty => obtain rfl := Option.some.inj hc; exact ⟨_, .empty⟩
    | value k v c l r ihl ihr =>
      rw [check] at hc
      split at hc
      · cases hc
      next hred =>
        split at hc
        · cases hc
        next hr =>
          simp only [Option.bind_eq_bind, Option.bind_eq_some_iff] at hc
          obtain ⟨d, hd, d', hd', hc⟩ := hc
          split at hc
          · cases hc
          next hdd =>
            obtain rfl : d = d' := not_not.mp hdd
            obtain ⟨cl, hbl⟩ := ihl hd
            obtain ⟨cr, hbr⟩ := ihr hd'
            obtain rfl := Option.some.inj hc
            cases cr with
            | red => simp [hbr.isRed_eq] at hr
            | black =>
              cases c with
              | black => exact ⟨_, .black hbl hbr⟩
              | red =>
                cases cl with
                | red => simp [hbl.isRed_eq] at hred
                | black => exact ⟨_, .red hbl hbr⟩
  · rintro ⟨c, hn⟩
    induction hn with
    | empty => rfl
    | red hl hr ihl ihr => simp [check, hl.isRed_eq, hr.isRed_eq, ihl, ihr]
    | black hl hr ihl ihr => simp [check, hr.isRed_eq, ihl, ihr]

/-- A balanced node is as full as its black depth demands. -/
theorem Balanced.two_pow_le (hn : Balanced n c h) : 2 ^ h ≤ n.count + 1 := by
  induction hn with
  | empty => exact Nat.le_refl _
  | red _ _ ihl ihr => simp only [count]; omega
  | black _ _ ihl ihr => simp only [count, Nat.pow_succ]; omega

theorem Balanced.checkMaxDepth (hn : Balanced n c h) (he : n.isEmpty = false) :
    n.checkMaxDepth = some true := by
  cases n with
  | empty => cases he
  | value => simp [FLLRBNode.checkMaxDepth, check_eq_some_iff.mpr ⟨c, hn⟩, hn.two_pow_le]

def depth : FLLRBNode α β → ℕ
  | empty => 0
  | value _ _ _ l r => max l.depth r.depth + 1

theorem Balanced.depth_le (hn : Balanced n c h) :
    n.depth ≤ 2 * h + if c = .red then 1 else 0 := by
  induction hn with
  | empty => exact Nat.le_refl _
  | red _ _ ihl ihr => simp only [depth] at *; simp at *; omega
  | @black _ _ c _ _ _ _ _ ihl ihr =>
    simp only [depth]
    have : (if c = .red then 1 else 0) ≤ 1 := by split <;> omega
    simp at *
    omega

section FixUp

theorem fixUp_eq (hr : r.isRed = false) (hl : l.isRed = false ∨ l.left.isRed = false) :
    (value k v c l r).fixUp = value k v c l r := by
  rcases hl with hl | hl <;> simp [fixUp, hr, hl]

theorem fixUp_rotateLeft (hl : l.isRed = false) (hb : b.isRed = false) :
    (value k v c l (value k' v' .red a b)).fixUp = value k' v' c (value k v .red l a) b := by
  simp [fixUp, hl, hb, rotateLeft, withColor, withLeft]

theorem fixUp_colorFlip (hl : l.isRed) (hll : l.left.isRed = false) (hr : r.isRed) :
    (value k v c l r).fixUp = value k v c.flip l.flipped r.flipped := by
  simp [fixUp, hl, hll, hr, colorFlip]

theorem fixUp_rotateRight (ha : a.isRed) (hr : r.isRed = false) :
    (value k v c (value k' v' .red a b) r).fixUp =
      value k' v' c.flip a.flipped (value k v .black b r) := by
  simp [fixUp, ha, hr, rotateRight, withColor, withRight, colorFlip]

end FixUp

theorem Balanced.flipped (hn : Balanced n .red h) : Balanced n.flipped .black (h + 1) := by
  cases hn with | red hl hr => exact .black hl hr

theorem Balanced.withColor_black (hn : Balanced n c h) :
    ∃ h', Balanced (n.withColor .black) .black h' := by
  cases hn with
  | empty => exact ⟨_, .empty⟩
  | red hl hr => exact ⟨_, .black hl hr⟩
  | black hl hr => exact ⟨_, .black hl hr⟩

theorem Loose.withColor_black (hn : Loose n h) :
    Balanced (n.withColor .black) .black (h + 1) := by
  cases hn with | mk hl hr => exact .black hl hr

theorem Balanced.isRed_or (hn : Balanced n c h) : n.isRed = false ∨ n.left.isRed = false := by
  cases c with
  | black => exact .inl hn.isRed_eq
  | red => exact .inr hn.left_black

theorem fixUp_black_right (hl : Balanced l c h) (hr : Balanced r c' h) :
    ∃ d, Balanced (value k v .black l r).fixUp d (h + 1) := by
  cases hr with
  | empty => rw [fixUp_eq rfl hl.isRed_or]; exact ⟨_, .black hl .empty⟩
  | black ha hb =>
    rw [fixUp_eq (by simp) hl.isRed_or]
    exact ⟨_, .black hl (.black ha hb)⟩
  | red ha hb =>
    cases c with
    | black =>
      rw [fixUp_rotateLeft hl.isRed_eq hb.isRed_eq]
      exact ⟨_, .black (.red hl ha) hb⟩
    | red =>
      rw [fixUp_colorFlip hl.isRed hl.left_black rfl]
      exact ⟨_, .red hl.flipped (.black ha hb)⟩

section Insert

variable {cmp : Cmp α} {aKey : α} {aValue : β}

/-- What an insertion below a node of the given colour leaves behind. -/
inductive Inserted : FLLRBNode α β → Color → ℕ → Prop
  | balanced {n : FLLRBNode α β} {c c' : Color} {h : ℕ} :
      Balanced n c' h → (c = .red → c' = .red) → Inserted n c h
  | loose {n : FLLRBNode α β} {h : ℕ} : Loose n h → Inserted n .red h

theorem Inserted.of_black (hn : Inserted n .black h) : ∃ c, Balanced n c h := by
  cases hn with | balanced hn _ => exact ⟨_, hn⟩

theorem Inserted.withColor_black (hn : Inserted n c h) :
    ∃ h', Balanced (n.withColor .black) .black h' := by
  cases hn with
  | balanced hn _ => exact hn.withColor_black
  | loose hn => exact ⟨_, hn.withColor_black⟩

theorem inserted_red_left (hl : Balanced l c h) (hr : Balanced r .black h) :
    Inserted (value k v .red l r).fixUp .red h := by
  rw [fixUp_eq hr.isRed_eq hl.isRed_or]
  cases c with
  | red => exact .loose ⟨hl, hr⟩
  | black => exact .balanced (.red hl hr) fun _ => rfl

theorem inserted_red_right (hl : Balanced l .black h) (hr : Balanced r c h) :
    Inserted (value k v .red l r).fixUp .red h := by
  cases hr with
  | empty =>
    rw [fixUp_eq rfl hl.isRed_or]
    exact .balanced (.red hl .empty) fun _ => rfl
  | black ha hb =>
    rw [fixUp_eq (by simp) hl.isRed_or]
    exact .balanced (.red hl (.black ha hb)) fun _ => rfl
  | red ha hb =>
    rw [fixUp_rotateLeft hl.isRed_eq hb.isRed_eq]
    exact .loose ⟨.red hl ha, hb⟩

theorem inserted_black_left (hl : Inserted l c h) (hr : Balanced r .black h) :
    ∃ d, Balanced (value k v .black l r).fixUp d (h + 1) := by
  cases hl with
  | balanced hl _ =>
    rw [fixUp_eq hr.isRed_eq hl.isRed_or]
    exact ⟨_, .black hl hr⟩
  | loose hl =>
    obtain ⟨ha, hb⟩ := hl
    rw [fixUp_rotateRight ha.isRed hr.isRed_eq]
    exact ⟨_, .red ha.flipped (.black hb hr)⟩

theorem Balanced.insertKey (hn : Balanced n c h) :
    Inserted (n.insertKey cmp aKey aValue) c h := by
  induction hn with
  | empty => exact .balanced (.red .empty .empty) fun _ => rfl
  | red hl hr ihl ihr =>
    rw [FLLRBNode.insertKey]
    split
    · obtain ⟨c', hl'⟩ := ihl.of_black
      exact inserted_red_left hl' hr
    · exact inserted_red_left hl hr
    · obtain ⟨c', hr'⟩ := ihr.of_black
      exact inserted_red_right hl hr'
  | black hl hr ihl ihr =>
    rw [FLLRBNode.insertKey]
    split
    · obtain ⟨d, hd⟩ := inserted_black_left ihl hr
      exact .balanced hd nofun
    · obtain ⟨d, hd⟩ := fixUp_black_right hl hr
      exact .balanced hd nofun
    · obtain ⟨c', hr'⟩ := ihr.of_black
      obtain ⟨d, hd⟩ := fixUp_black_right hl hr'
      exact .balanced hd nofun

theorem entries_insertKey [Std.TransCmp cmp] (hn : Ordered cmp n.entries) :
    (n.insertKey cmp aKey aValue).entries = upsert cmp aKey aValue n.entries := by
  induction n with
  | empty => rfl
  | value k v c l r ihl ihr =>
    obtain ⟨hl, hr, hlk, hkr⟩ := ordered_middle.mp hn
    rw [FLLRBNode.insertKey, entries_value]
    split
    next h =>
      rw [entries_fixUp, entries_value, ihl hl, upsert_append_of_lt h]
    next h =>
      rw [entries_fixUp, entries_value, upsert_append_of_gt (gt_of_before hlk (by simp [h])),
        upsert_cons_eq h]
    next h =>
      rw [entries_fixUp, entries_value, ihr hr,
        upsert_append_of_gt (gt_of_before hlk (by simp [h])), upsert_cons_gt h]

end Insert

end Treena.Sorted.FLLRBNode
