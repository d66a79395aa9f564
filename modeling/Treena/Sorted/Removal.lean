import Treena.Sorted.Balance

/-! # Removal

A removal goes down through nodes that can spare a black node: red ones, black ones with a
red left child and, after a rotation, black ones with a red right child. The search for a
key that is gone goes through any balanced node and leaves its colour.
-/

namespace Treena.Sorted

/-- The black depth of a node of this colour above children of black depth `h`. -/
def Color.over : Color → ℕ → ℕ
  | .red, h => h
  | .black, h => h + 1

namespace FLLRBNode

variable {α β : Type*} {cmp : Cmp α} {aKey : α} {A : Prop}
  {k k' : α} {v v' : β} {c c' d : Color} {l r a b n m : FLLRBNode α β} {h h' : ℕ}

/-- The nodes that `removeMin` is sent down to. -/
inductive Ready : FLLRBNode α β → Color → ℕ → Prop
  | empty : Ready empty .black 0
  | red {n : FLLRBNode α β} {h : ℕ} : Balanced n .red h → Ready n .red h
  | redLeft {k : α} {v : β} {l r : FLLRBNode α β} {h : ℕ} :
      Balanced l .red h → Balanced r .black h → Ready (value k v .black l r) .black (h + 1)

theorem Ready.balanced (hn : Ready n c h) : Balanced n c h := by
  cases hn with
  | empty => exact .empty
  | red hn => exact hn
  | redLeft hl hr => exact .black hl hr

theorem balanced_over (hl : Balanced l .black h) (hr : Balanced r .black h) :
    Balanced (value k v c l r) c (c.over h) := by
  cases c with
  | red => exact .red hl hr
  | black => exact .black hl hr

/-- What `readyLeft` makes of a node of colour `c` over children of black depth `h`. The
node may give up its own black only if nothing is removed below it. -/
inductive LeftShape (A : Prop) : FLLRBNode α β → Color → ℕ → Prop
  | ready {k : α} {v : β} {c : Color} {l r : FLLRBNode α β} {h : ℕ} :
      Ready l .black h → Balanced r .black h → LeftShape A (value k v c l r) c h
  | bothRed {k : α} {v : β} {c : Color} {l r : FLLRBNode α β} {h : ℕ} : (c = .black → A) →
      Balanced l .red h → Balanced r .red h → LeftShape A (value k v c.flip l r) c (h + 1)
  | redLeft {k : α} {v : β} {l r : FLLRBNode α β} {h : ℕ} :
      Balanced l .red h → Balanced r .black h → LeftShape A (value k v .black l r) .black h

section Ready

variable {ka kb kz : α} {va vb vz : β} {e f : FLLRBNode α β}

theorem readyLeft_eq (h : l.isRed ∨ l.left.isRed) :
    (value k v c l r).readyLeft = value k v c l r := by
  rcases h with h | h <;> simp [readyLeft, h]

theorem readyLeft_flip (ha : a.isRed = false) (he : e.isRed = false) :
    (value k v c (value ka va .black a b) (value kb vb .black e f)).readyLeft =
      value k v c.flip (value ka va .red a b) (value kb vb .red e f) := by
  simp [readyLeft, moveRedLeft, colorFlip, isEmpty, ha, he]

theorem readyLeft_rotate (ha : a.isRed = false) :
    (value k v c (value ka va .black a b)
      (value kb vb .black (value kz vz .red e f) m)).readyLeft =
      value kz vz c (value k v .black (value ka va .red a b) e) (value kb vb .black f m) := by
  simp [readyLeft, moveRedLeft, colorFlip, isEmpty, ha, rotateRight, rotateLeft,
    withColor, withRight, withLeft]

theorem readyRight_red :
    (value k v c (value ka va .red a b) r).readyRight =
      value ka va c a (value k v .red b r) := by
  simp [readyRight, rotateRight, withColor, withRight]

theorem readyRight_eq (hl : l.isRed = false) (h : r.isRed ∨ r.left.isRed) :
    (value k v c l r).readyRight = value k v c l r := by
  rcases h with h | h <;> simp [readyRight, hl, h]

theorem readyRight_empty (hl : l.isRed = false) :
    (value k v c l empty).readyRight = value k v c l empty := by
  simp [readyRight, hl, isEmpty]

theorem readyRight_flip (ha : a.isRed = false) (he : e.isRed = false) :
    (value k v c (value ka va .black a b) (value kb vb .black e f)).readyRight =
      value k v c.flip (value ka va .red a b) (value kb vb .red e f) := by
  simp [readyRight, moveRedRight, colorFlip, isEmpty, ha, he]

theorem readyRight_rotate (he : e.isRed = false) :
    (value k v c (value ka va .black (value kz vz .red a b) m)
      (value kb vb .black e f)).readyRight =
      value ka va c (value kz vz .black a b) (value k v .black m (value kb vb .red e f)) := by
  simp [readyRight, moveRedRight, colorFlip, isEmpty, he, rotateRight, withColor,
    withRight]

end Ready

theorem leftShape (hA : c = .black → A) (hl : Balanced l .black h) (hr : Balanced r .black h) :
    LeftShape A (value k v c l r).readyLeft c h := by
  cases hl with
  | empty => exact .ready .empty hr
  | @black kl vl ca la lb h ha hb =>
    cases ca with
    | red =>
      have hred : (value kl vl .black la lb).left.isRed := ha.isRed
      rw [readyLeft_eq (.inr hred)]
      exact .ready (.redLeft ha hb) hr
    | black =>
      obtain _ | _ | @⟨kr, vr, cc, rc, rd, _, hc, hd⟩ := hr
      cases hc with
      | red he hf =>
        rw [readyLeft_rotate ha.isRed_eq]
        exact .ready (.redLeft (.red ha hb) he) (.black hf hd)
      | empty =>
        rw [readyLeft_flip ha.isRed_eq rfl]
        exact .bothRed hA (.red ha hb) (.red .empty hd)
      | black he hf =>
        rw [readyLeft_flip ha.isRed_eq rfl]
        exact .bothRed hA (.red ha hb) (.red (.black he hf) hd)

theorem Ready.leftShape (hn : Ready n c h) (hne : n ≠ .empty) :
    ∃ h', c.over h' = h ∧ LeftShape A n.readyLeft c h' := by
  cases hn with
  | empty => exact absurd rfl hne
  | red hn =>
    cases hn with
    | red hl hr => exact ⟨_, rfl, FLLRBNode.leftShape nofun hl hr⟩
  | redLeft hl hr =>
    rw [readyLeft_eq (.inl hl.isRed)]
    exact ⟨_, rfl, .redLeft hl hr⟩

/-- What comes back from below: a black node comes back black, and every node comes back
in its colour if nothing was removed. -/
def Back (A : Prop) (n : FLLRBNode α β) (c : Color) (h : ℕ) : Prop :=
  ∃ c', Balanced n c' h ∧ (c = .black → c' = .black) ∧ (A → c' = c)

theorem Balanced.back (hn : Balanced n c h) : Back A n c h := ⟨c, hn, id, fun _ => rfl⟩

theorem Back.balanced (hn : Back A n .black h) : Balanced n .black h := by
  obtain ⟨c, hn, hc, -⟩ := hn
  obtain rfl := hc rfl
  exact hn

theorem LeftShape.fixUp (hn : LeftShape A n c h) :
    ∃ d m, Ready n.left d m ∧ ∀ l, Back A l d m → Back A (n.withLeft l).fixUp c (c.over h) := by
  cases hn with
  | ready hl hr =>
    refine ⟨_, _, hl, fun l hl' => ?_⟩
    rw [withLeft, fixUp_eq hr.isRed_eq hl'.balanced.isRed_or]
    exact (balanced_over hl'.balanced hr).back
  | bothRed hA hl hr =>
    refine ⟨_, _, .red hl, fun l hl' => ?_⟩
    obtain ⟨d, hl', -, hd⟩ := hl'
    cases d with
    | red =>
      rw [withLeft, fixUp_colorFlip hl'.isRed hl'.left_black hr.isRed, Color.flip_flip]
      exact (balanced_over hl'.flipped hr.flipped).back
    | black =>
      cases c with
      | black => cases hd (hA rfl)
      | red =>
        cases hr with
        | red ha hb =>
          rw [withLeft, fixUp_rotateLeft hl'.isRed_eq hb.isRed_eq]
          exact ⟨_, .black (.red hl' ha) hb, fun _ => rfl, fun hA => by cases hd hA⟩
  | redLeft hl hr =>
    refine ⟨_, _, .red hl, fun l hl' => ?_⟩
    obtain ⟨d, hl', -, -⟩ := hl'
    rw [withLeft, fixUp_eq hr.isRed_eq hl'.isRed_or]
    exact (Balanced.black hl' hr).back

theorem Back.mono {B : Prop} (hAB : B → A) (hn : Back A n c h) : Back B n c h := by
  obtain ⟨c', hn, hc, hA⟩ := hn
  exact ⟨c', hn, hc, fun hB => hA (hAB hB)⟩

theorem Ready.removeMin (hn : Ready n c h) : Back False n.removeMin c h := by
  induction n using FLLRBNode.removeMin.induct generalizing c h with
  | case1 n hl =>
    rw [FLLRBNode.removeMin, if_pos hl]
    cases hn with
    | empty => exact Balanced.empty.back
    | red hn =>
      cases hn with
      | red hl' _ =>
        obtain rfl := isEmpty_iff.mp hl
        cases hl'
        exact ⟨_, .empty, fun _ => rfl, False.elim⟩
    | redLeft hl' _ =>
      obtain rfl := isEmpty_iff.mp hl
      cases hl'
  | case2 n hl ih =>
    have hne : n ≠ .empty := by
      rintro rfl
      exact hl rfl
    obtain ⟨h', rfl, hs⟩ := hn.leftShape (A := False) hne
    obtain ⟨d, m, hd, hback⟩ := hs.fixUp
    rw [FLLRBNode.removeMin, if_neg hl]
    exact hback _ (ih hd)

theorem readyLeft_left_ne_empty (hn : n.left ≠ empty) : n.readyLeft.left ≠ empty := by
  obtain _ | ⟨k, v, c, _ | ⟨ka, va, ca, a, b⟩, r⟩ := n
  · exact hn
  · exact absurd rfl hn
  · unfold readyLeft
    split
    · unfold moveRedLeft
      dsimp only
      split
      next h =>
        obtain _ | ⟨kr, vr, cr, _ | ⟨kz, vz, cz, e, f⟩, m⟩ := r
        · cases h
        · cases h
        · exact nofun
      next => exact nofun
    · exact nofun

theorem entries_withLeft (hn : n ≠ empty) (hl : l.entries = n.left.entries.tail)
    (hne : n.left ≠ empty) : (n.withLeft l).entries = n.entries.tail := by
  cases n with
  | empty => exact absurd rfl hn
  | value k v c a b =>
    have ha : a.entries ≠ [] := entries_eq_nil.not.mpr hne
    rw [withLeft, entries_value, entries_value, List.tail_append_of_ne_nil ha]
    exact congrArg (· ++ _) hl

theorem entries_removeMin (hn : Ready n c h) : n.removeMin.entries = n.entries.tail := by
  induction n using FLLRBNode.removeMin.induct generalizing c h with
  | case1 n hl =>
    rw [FLLRBNode.removeMin, if_pos hl]
    cases hn with
    | empty => rfl
    | red hn =>
      cases hn with
      | red hl' hr =>
        obtain rfl := isEmpty_iff.mp hl
        cases hl'
        cases hr
        rfl
    | redLeft hl' _ =>
      obtain rfl := isEmpty_iff.mp hl
      cases hl'
  | case2 n hl ih =>
    have hl' : n.left ≠ .empty := fun h => hl (isEmpty_iff.mpr h)
    have hne : n ≠ .empty := by
      rintro rfl
      exact hl' rfl
    obtain ⟨h', rfl, hs⟩ := hn.leftShape (A := False) hne
    obtain ⟨d, m, hd, -⟩ := hs.fixUp
    rw [FLLRBNode.removeMin, if_neg hl, entries_fixUp,
      entries_withLeft (readyLeft_ne_empty hne) (ih hd) (readyLeft_left_ne_empty hl'),
      entries_readyLeft]

theorem min_eq (hn : n ≠ empty) :
    ∃ k v c l r, n.min = value k v c l r ∧ n.entries.head? = some (k, v) := by
  induction n with
  | empty => exact absurd rfl hn
  | value k v c l r ihl _ =>
    by_cases hl : l = empty
    · subst hl
      exact ⟨k, v, c, empty, r, rfl, rfl⟩
    · obtain ⟨k', v', c', l', r', hm, he⟩ := ihl hl
      refine ⟨k', v', c', l', r', ?_, ?_⟩
      · rw [FLLRBNode.min, if_neg (isEmpty_iff.not.mpr hl), hm]
      · rw [entries_value, List.head?_append, he]
        rfl

section Remove

/-- The nodes that `remove` is sent down to. -/
inductive Down (cmp : Cmp α) (aKey : α) : FLLRBNode α β → Color → ℕ → Prop
  | ready {n : FLLRBNode α β} {c : Color} {h : ℕ} : Ready n c h → Down cmp aKey n c h
  | redRight {k : α} {v : β} {l r : FLLRBNode α β} {h : ℕ} : cmp aKey k ≠ .lt →
      Balanced l .black h → Balanced r .red h →
      Down cmp aKey (value k v .black l r) .black (h + 1)
  | absent {n : FLLRBNode α β} {c : Color} {h : ℕ} : Absent cmp aKey n.entries →
      Balanced n c h → Down cmp aKey n c h

theorem Down.balanced_or (hn : Down cmp aKey n c h) :
    Balanced n c h ∨ ∃ k v l r h', n = value k v .black l r ∧ c = .black ∧ h = h' + 1 ∧
      cmp aKey k ≠ .lt ∧ Balanced l .black h' ∧ Balanced r .red h' := by
  cases hn with
  | ready hn => exact .inl hn.balanced
  | redRight hk hl hr => exact .inr ⟨_, _, _, _, _, rfl, rfl, rfl, hk, hl, hr⟩
  | absent _ hn => exact .inl hn

/-- What `readyRight` makes of a node of colour `c` over children of black depth `h`. -/
inductive RightShape (cmp : Cmp α) (aKey : α) (A : Prop) : FLLRBNode α β → Color → ℕ → Prop
  | ready {k : α} {v : β} {c : Color} {l r : FLLRBNode α β} {h : ℕ} : (c = .black → A) →
      Balanced l .black h → Ready r .black h → RightShape cmp aKey A (value k v c l r) c h
  | bothRed {k : α} {v : β} {c : Color} {l r : FLLRBNode α β} {h : ℕ} : (c = .black → A) →
      Balanced l .red h → Balanced r .red h →
      RightShape cmp aKey A (value k v c.flip l r) c (h + 1)
  | redRight {k : α} {v : β} {l r : FLLRBNode α β} {h : ℕ} :
      Balanced l .black h → Balanced r .red h →
      RightShape cmp aKey A (value k v .black l r) .black h
  | rotated {k k' : α} {v v' : β} {c : Color} {l a b : FLLRBNode α β} {h : ℕ} :
      cmp aKey k = .gt → cmp aKey k' ≠ .lt → Balanced l .black (h + 1) →
      Balanced a .black h → Balanced b .red h →
      RightShape cmp aKey A (value k v c l (value k' v' .black a b)) c (h + 1)

theorem rightShape (hA : c = .black → A) (hk : cmp aKey k ≠ .lt)
    (hlk : ∀ q ∈ l.entries, cmp aKey q.1 = .gt)
    (hl : Balanced l .black h) (hr : Balanced r .black h) :
    RightShape cmp aKey A (value k v c l r).readyRight c h := by
  cases hr with
  | empty =>
    rw [readyRight_empty hl.isRed_eq]
    exact .ready hA hl .empty
  | @black kr vr cr ra rb h ha hb =>
    cases cr with
    | red =>
      have hred : (value kr vr .black ra rb).left.isRed := ha.isRed
      rw [readyRight_eq hl.isRed_eq (.inr hred)]
      exact .ready hA hl (.redLeft ha hb)
    | black =>
      obtain _ | _ | @⟨kl, vl, cc, lc, ld, _, hc, hd⟩ := hl
      cases hc with
      | red he hf =>
        rw [readyRight_rotate ha.isRed_eq]
        exact .rotated (hlk (kl, vl) (by simp)) hk (.black he hf) hd (.red ha hb)
      | empty =>
        rw [readyRight_flip rfl ha.isRed_eq]
        exact .bothRed hA (.red .empty hd) (.red ha hb)
      | black he hf =>
        rw [readyRight_flip rfl ha.isRed_eq]
        exact .bothRed hA (.red (.black he hf) hd) (.red ha hb)

/-- Going right from a node, and coming back to it, or to what has overwritten its entry. -/
theorem RightShape.fixUp (hn : RightShape cmp aKey A (value k v c' l r) c h) :
    ∃ d m, Down cmp aKey r d m ∧ (cmp aKey k = .eq → Ready r d m) ∧
      ∀ k v r', Back A r' d m → Back A (value k v c' l r').fixUp c (c.over h) := by
  cases hn with
  | ready _ hl hr =>
    refine ⟨_, _, .ready hr, fun _ => hr, fun _ _ r' hr' => ?_⟩
    rw [fixUp_eq hr'.balanced.isRed_eq (.inl hl.isRed_eq)]
    exact (balanced_over hl hr'.balanced).back
  | bothRed hA hl hr =>
    refine ⟨_, _, .ready (.red hr), fun _ => .red hr, fun _ _ r' hr' => ?_⟩
    obtain ⟨d, hr', -, hd⟩ := hr'
    cases d with
    | red =>
      rw [fixUp_colorFlip hl.isRed hl.left_black hr'.isRed, Color.flip_flip]
      exact (balanced_over hl.flipped hr'.flipped).back
    | black =>
      cases c with
      | black => cases hd (hA rfl)
      | red =>
        rw [fixUp_eq hr'.isRed_eq (.inr hl.left_black)]
        exact ⟨_, .black hl hr', fun _ => rfl, fun hA => nomatch hd hA⟩
  | redRight hl hr =>
    refine ⟨_, _, .ready (.red hr), fun _ => .red hr, fun _ _ r' hr' => ?_⟩
    obtain ⟨d, hr', -, -⟩ := hr'
    cases hr' with
    | empty =>
      rw [fixUp_eq rfl (.inl hl.isRed_eq)]
      exact (Balanced.black hl .empty).back
    | black ha hb =>
      rw [fixUp_eq (by simp) (.inl hl.isRed_eq)]
      exact (Balanced.black hl (.black ha hb)).back
    | red ha hb =>
      rw [fixUp_rotateLeft hl.isRed_eq hb.isRed_eq]
      exact (Balanced.black (.red hl ha) hb).back
  | rotated hk hk' hl ha hb =>
    refine ⟨_, _, .redRight hk' ha hb, fun h => ?_, fun _ _ r' hr' => ?_⟩
    · rw [hk] at h
      cases h
    · rw [fixUp_eq hr'.balanced.isRed_eq (.inl hl.isRed_eq)]
      exact (balanced_over hl hr'.balanced).back

theorem mem_of_readyLeft (hn : (value k v c l r).readyLeft = value k' v' c' a b) :
    (k', v') ∈ (k, v) :: r.entries := by
  unfold readyLeft at hn
  split at hn
  · unfold moveRedLeft at hn
    dsimp only at hn
    split at hn
    next h =>
      obtain _ | ⟨kr, vr, cr, _ | ⟨kz, vz, cz, e, f⟩, m⟩ := r
      · cases h
      · cases h
      · simp only [colorFlip, flipped_value, right_value, rotateRight, withColor, withRight,
          rotateLeft, withLeft, value.injEq] at hn
        simp [hn.1, hn.2.1]
    next => obtain ⟨rfl, rfl, -⟩ := value.inj hn; exact List.mem_cons_self
  · obtain ⟨rfl, rfl, -⟩ := value.inj hn
    exact List.mem_cons_self

theorem mem_of_moveRedRight (hn : (value k v c l r).moveRedRight = value k' v' c' a b) :
    (k', v') = (k, v) ∨ (k', v') ∈ l.entries := by
  unfold moveRedRight at hn
  dsimp only at hn
  split at hn
  next h =>
    obtain _ | ⟨kl, vl, cl, la, lb⟩ := l
    · cases h
    · simp only [colorFlip, flipped_value, rotateRight, withColor, withRight,
        value.injEq] at hn
      simp [hn.1, hn.2.1]
  next => obtain ⟨rfl, rfl, -⟩ := value.inj hn; exact .inl rfl

theorem mem_of_readyRight (hn : (value k v c l r).readyRight = value k' v' c' a b) :
    (k', v') = (k, v) ∨ (k', v') ∈ l.entries := by
  by_cases hl : l.isRed
  · obtain _ | ⟨kl, vl, _ | _, la, lb⟩ := l
    · cases hl
    · rw [readyRight_red] at hn
      obtain ⟨rfl, rfl, -⟩ := value.inj hn
      exact .inr (by simp)
    · cases hl
  · simp only [readyRight, left_value, hl, Bool.false_eq_true, if_false] at hn
    split at hn
    · exact mem_of_moveRedRight hn
    · obtain ⟨rfl, rfl, -⟩ := value.inj hn
      exact .inl rfl

theorem exists_eq_value (hn : n ≠ empty) : ∃ k v c l r, n = value k v c l r := by
  cases n with
  | empty => exact absurd rfl hn
  | value k v c l r => exact ⟨k, v, c, l, r, rfl⟩

theorem withRight_withRight : (n.withRight a).withRight b = n.withRight b := by
  cases n <;> rfl

theorem remove_of_lt (hk : cmp aKey k = .lt) :
    (value k v c l r).remove cmp aKey =
      ((value k v c l r).readyLeft.withLeft
        ((value k v c l r).readyLeft.left.remove cmp aKey)).fixUp := by
  rw [remove, if_pos hk]

theorem remove_of_ge (hk : cmp aKey k ≠ .lt)
    (hn : (value k v c l r).readyRight = value k' v' c' a b) :
    (value k v c l r).remove cmp aKey =
      if cmp aKey k' = .eq then
        if b.isEmpty then empty
        else
          (((value k' v' c' a b).withEntryOf b.min).withRight
            (b.removeMin.remove cmp aKey)).fixUp
      else (value k' v' c' a (b.remove cmp aKey)).fixUp := by
  rw [remove, if_neg hk]
  split
  next hn' => rw [hn] at hn'; cases hn'
  next hn' =>
    rw [hn] at hn'
    obtain ⟨rfl, rfl, rfl, rfl, rfl⟩ := value.inj hn'
    simp only [withRight_withRight]

theorem Down.leftShape (hn : Down cmp aKey (value k v c' l r) c h) (hk : cmp aKey k = .lt)
    (hA : Absent cmp aKey (value k v c' l r).entries → A) :
    ∃ h', c.over h' = h ∧ LeftShape A (value k v c' l r).readyLeft c h' := by
  cases hn with
  | ready hn => exact hn.leftShape nofun
  | redRight hk' hl hr => exact absurd hk hk'
  | absent hA' hn =>
    cases hn with
    | red hl hr => exact ⟨_, rfl, FLLRBNode.leftShape nofun hl hr⟩
    | @black _ _ cl _ _ _ hl hr =>
      cases cl with
      | red =>
        rw [readyLeft_eq (.inl hl.isRed)]
        exact ⟨_, rfl, .redLeft hl hr⟩
      | black => exact ⟨_, rfl, FLLRBNode.leftShape (fun _ => hA hA') hl hr⟩

theorem rightShape_of_redLeft (hl : Balanced l .red h)
    (hr : Balanced r .black h) :
    RightShape cmp aKey A (value k v .black l r).readyRight .black h := by
  cases hl with
  | red ha hb =>
    rw [readyRight_red]
    exact .redRight ha (.red hb hr)

theorem Down.rightShape (hn : Down cmp aKey (value k v c' l r) c h) (hk : cmp aKey k ≠ .lt)
    (hlk : ∀ q ∈ l.entries, cmp aKey q.1 = .gt)
    (hA : Absent cmp aKey (value k v c' l r).entries → A) :
    ∃ h', c.over h' = h ∧ RightShape cmp aKey A (value k v c' l r).readyRight c h' := by
  cases hn with
  | ready hn =>
    cases hn with
    | red hn =>
      cases hn with
      | red hl hr => exact ⟨_, rfl, FLLRBNode.rightShape nofun hk hlk hl hr⟩
    | redLeft hl hr => exact ⟨_, rfl, rightShape_of_redLeft hl hr⟩
  | redRight _ hl hr =>
    rw [readyRight_eq hl.isRed_eq (.inl hr.isRed)]
    exact ⟨_, rfl, .redRight hl hr⟩
  | absent hA' hn =>
    cases hn with
    | red hl hr => exact ⟨_, rfl, FLLRBNode.rightShape nofun hk hlk hl hr⟩
    | @black _ _ cl _ _ _ hl hr =>
      cases cl with
      | red => exact ⟨_, rfl, rightShape_of_redLeft hl hr⟩
      | black => exact ⟨_, rfl, FLLRBNode.rightShape (fun _ => hA hA') hk hlk hl hr⟩

theorem RightShape.remove_leaf (hs : RightShape cmp aKey A (value k v c' l .empty) c h)
    (hA : ¬ A) : l = .empty ∧ Back A (.empty : FLLRBNode α β) c (c.over h) := by
  cases hs with
  | ready hcA hl hr =>
    cases hr with
    | empty =>
      cases hl
      cases c with
      | red => exact ⟨rfl, _, .empty, fun _ => rfl, fun h => absurd h hA⟩
      | black => exact absurd (hcA rfl) hA
  | bothRed _ _ hr => cases hr
  | redRight _ hr => cases hr

structure Removed (cmp : Cmp α) (aKey : α) (n n' : FLLRBNode α β) (c : Color) (h : ℕ) :
    Prop where
  entries : n'.entries = erase cmp aKey n.entries
  back : Back (Absent cmp aKey n.entries) n' c h

variable [Std.TransCmp cmp]

theorem Down.remove_left (hn : Down cmp aKey (value k v c' l r) c h)
    (ho : Ordered cmp (value k v c' l r).entries) (hk : cmp aKey k = .lt)
    (ih : ∀ {d m}, Down cmp aKey (value k v c' l r).readyLeft.left d m →
      Ordered cmp (value k v c' l r).readyLeft.left.entries →
      Removed cmp aKey (value k v c' l r).readyLeft.left
        ((value k v c' l r).readyLeft.left.remove cmp aKey) d m) :
    Removed cmp aKey (value k v c' l r) ((value k v c' l r).remove cmp aKey) c h := by
  obtain ⟨h', rfl, hs⟩ := hn.leftShape hk id
  obtain ⟨d, m, hd, hback⟩ := hs.fixUp
  have he := entries_readyLeft (n := value k v c' l r)
  have hkr := (ordered_middle.mp ho).2.2.2
  obtain ⟨k', v', c'', a, b, hn'⟩ :=
    exists_eq_value (readyLeft_ne_empty (n := value k v c' l r) nofun)
  rw [remove_of_lt hk]
  rw [hn'] at hd hback he ih ⊢
  rw [← he] at ho hback
  obtain ⟨hoa, hob, hak, hkb⟩ := ordered_middle.mp ho
  obtain ⟨hre, hrb⟩ := ih (.ready hd) hoa
  have hk' : cmp aKey k' = .lt := by
    rcases List.mem_cons.mp (mem_of_readyLeft hn') with heq | hr
    · rw [(Prod.mk.inj heq).1, hk]
    · exact Std.TransCmp.lt_trans hk (hkr _ hr)
  constructor
  · have habs : Absent cmp aKey ((k', v') :: b.entries) :=
      absent_cons.mpr ⟨by simp [hk'], absent_of_lt (lt_of_after hkb (by simp [hk']))⟩
    rw [entries_fixUp, withLeft, entries_value, ← he, entries_value, erase_append,
      habs.erase_eq]
    exact congrArg (· ++ _) hre
  · rw [← he]
    exact hback _ (hrb.mono fun hA => (absent_append.mp hA).1)

/-- The overwritten entry is searched for once more in what is left to its right. -/
theorem RightShape.remove_root (hs : RightShape cmp aKey A (value k v c' l r) c h)
    (ho : Ordered cmp (value k v c' l r).entries) (hk : cmp aKey k = .eq) (hA : ¬ A)
    (ih : ∀ {d m}, Down cmp aKey r.removeMin d m → Ordered cmp r.removeMin.entries →
      Removed cmp aKey r.removeMin (r.removeMin.remove cmp aKey) d m)
    (hr : r ≠ .empty) :
    let n := (((value k v c' l r).withEntryOf r.min).withRight (r.removeMin.remove cmp aKey)).fixUp
    n.entries = erase cmp aKey (value k v c' l r).entries ∧ Back A n c (c.over h) := by
  intro n
  obtain ⟨d, m, -, hready, hback⟩ := hs.fixUp
  have hd := hready hk
  obtain ⟨km, vm, cm, lm, rm, hmin, hhead⟩ := min_eq hr
  have hcons : r.entries = (km, vm) :: r.removeMin.entries := by
    rw [entries_removeMin hd]
    exact (List.cons_head?_tail hhead).symm
  obtain ⟨hol, hor, hlk, hkr⟩ := ordered_middle.mp ho
  have habs : Absent cmp aKey r.entries := absent_of_lt (lt_of_after hkr (by simp [hk]))
  have habs' : Absent cmp aKey r.removeMin.entries := by
    rw [hcons] at habs
    exact (absent_cons.mp habs).2
  obtain ⟨d', hmd, hdd, -⟩ := hd.removeMin
  rw [hcons] at hor
  obtain ⟨hre, d'', hrb, -, hdd'⟩ := ih (.absent habs' hmd) (ordered_cons.mp hor).2
  have hn : n = (value km vm c' l (r.removeMin.remove cmp aKey)).fixUp := by
    simp only [n, hmin, withEntryOf, withRight]
  constructor
  · have hl : Absent cmp aKey l.entries := absent_of_gt (gt_of_before hlk (by simp [hk]))
    rw [hn, entries_fixUp, entries_value, hre, entries_value, erase_append, hl.erase_eq,
      erase_cons, if_pos hk, habs.erase_eq, habs'.erase_eq, hcons]
  · rw [hn]
    exact hback _ _ _ ⟨d'', hrb, fun hd => by rw [hdd' habs', hdd hd], fun h => absurd h hA⟩

theorem readyRight_ge (ho : Ordered cmp (value k v c l r).entries) (hk : cmp aKey k ≠ .lt)
    (hn' : (value k v c l r).readyRight = value k' v' d a b) : cmp aKey k' ≠ .lt := by
  have hlk := gt_of_before (ordered_middle.mp ho).2.2.1 hk
  rcases mem_of_readyRight hn' with heq | hl
  · rwa [(Prod.mk.inj heq).1]
  · simp [hlk _ hl]

theorem Down.remove_right (hn : Down cmp aKey (value k v c' l r) c h)
    (ho : Ordered cmp (value k v c' l r).entries) (hk : cmp aKey k ≠ .lt)
    (hn' : (value k v c' l r).readyRight = value k' v' d a b)
    (ihMin : ∀ {d m}, Down cmp aKey b.removeMin d m → Ordered cmp b.removeMin.entries →
      Removed cmp aKey b.removeMin (b.removeMin.remove cmp aKey) d m)
    (ih : ∀ {d m}, Down cmp aKey b d m → Ordered cmp b.entries →
      Removed cmp aKey b (b.remove cmp aKey) d m) :
    Removed cmp aKey (value k v c' l r) ((value k v c' l r).remove cmp aKey) c h := by
  have hk' := readyRight_ge ho hk hn'
  have he := entries_readyRight (n := value k v c' l r)
  obtain ⟨h', rfl, hs⟩ := hn.rightShape hk (gt_of_before (ordered_middle.mp ho).2.2.1 hk) id
  rw [remove_of_ge hk hn']
  rw [hn'] at hs he
  rw [← he] at ho hs
  obtain ⟨hoa, hob, hak, hkb⟩ := ordered_middle.mp ho
  have hl : Absent cmp aKey a.entries := absent_of_gt (gt_of_before hak hk')
  by_cases heq : cmp aKey k' = .eq
  · have hA : ¬ Absent cmp aKey (value k' v' d a b).entries :=
      fun hA => (absent_append.mp hA).2 (k', v') List.mem_cons_self heq
    rw [if_pos heq]
    by_cases hb : b = .empty
    · subst hb
      obtain ⟨rfl, hback⟩ := hs.remove_leaf hA
      refine ⟨?_, he ▸ hback⟩
      rw [← he, entries_value, entries_empty, List.nil_append, erase_cons, if_pos heq]
      rfl
    · rw [if_neg (isEmpty_iff.not.mpr hb)]
      obtain ⟨hre, hrb⟩ := hs.remove_root ho heq hA ihMin hb
      exact ⟨hre.trans (by rw [he]), he ▸ hrb⟩
  · rw [if_neg heq]
    obtain ⟨m, h₁, hd, -, hback⟩ := hs.fixUp
    obtain ⟨hre, hrb⟩ := ih hd hob
    constructor
    · rw [entries_fixUp, entries_value, ← he, entries_value, erase_append, hl.erase_eq,
        erase_cons, if_neg heq, hre]
    · rw [← he]
      exact hback _ _ _ (hrb.mono fun hA => (absent_cons.mp (absent_append.mp hA).2).2)

theorem Down.remove (hn : Down cmp aKey n c h) (ho : Ordered cmp n.entries) :
    Removed cmp aKey n (n.remove cmp aKey) c h := by
  induction hm : n.count using Nat.strongRecOn generalizing n c h with
  | _ m ih =>
  subst hm
  obtain _ | ⟨k, v, c', l, r⟩ := n
  · rw [FLLRBNode.remove]
    obtain hn | ⟨k, v, l, r, h', he, -⟩ := hn.balanced_or
    · exact ⟨rfl, hn.back⟩
    · cases he
  · by_cases hk : cmp aKey k = .lt
    · refine hn.remove_left ho hk fun hd hod => ih _ ?_ hd hod rfl
      have := count_left_lt (readyLeft_ne_empty (n := value k v c' l r) (by simp))
      rwa [count_readyLeft] at this
    · obtain ⟨k', v', d, a, b, hn'⟩ :=
        exists_eq_value (readyRight_ne_empty (n := value k v c' l r) (by simp))
      have hlt : b.count < (value k v c' l r).count := by
        rw [← count_readyRight (n := value k v c' l r), hn']
        exact count_right_lt (n := value k' v' d a b) (by simp)
      refine hn.remove_right ho hk hn' (fun hd hod => ih _ ?_ hd hod rfl)
        fun hd hod => ih _ hlt hd hod rfl
      exact Nat.lt_of_le_of_lt (count_removeMin_le b) hlt

end Remove

section Root

def SameBut (n n' : FLLRBNode α β) : Prop := n.withColor .black = n'.withColor .black

theorem sameBut_iff : SameBut n m ↔ n = empty ∧ m = empty ∨
    ∃ k v c c' l r, n = value k v c l r ∧ m = value k v c' l r := by
  constructor
  · intro h
    cases n <;> cases m <;> simp_all [SameBut, withColor]
  · rintro (⟨rfl, rfl⟩ | ⟨k, v, c, c', l, r, rfl, rfl⟩) <;> rfl

theorem SameBut.left (hn : SameBut n m) : n.left = m.left := by
  obtain ⟨rfl, rfl⟩ | ⟨k, v, c, c', l, r, rfl, rfl⟩ := sameBut_iff.mp hn <;> rfl

theorem SameBut.right (hn : SameBut n m) : n.right = m.right := by
  obtain ⟨rfl, rfl⟩ | ⟨k, v, c, c', l, r, rfl, rfl⟩ := sameBut_iff.mp hn <;> rfl

theorem SameBut.withLeft (hn : SameBut n m) : SameBut (n.withLeft a) (m.withLeft a) := by
  obtain ⟨rfl, rfl⟩ | ⟨k, v, c, c', l, r, rfl, rfl⟩ := sameBut_iff.mp hn <;> rfl

theorem SameBut.withRight (hn : SameBut n m) : SameBut (n.withRight a) (m.withRight a) := by
  obtain ⟨rfl, rfl⟩ | ⟨k, v, c, c', l, r, rfl, rfl⟩ := sameBut_iff.mp hn <;> rfl

theorem SameBut.withEntryOf (hn : SameBut n m) : SameBut (n.withEntryOf a) (m.withEntryOf a) := by
  obtain ⟨rfl, rfl⟩ | ⟨k, v, c, c', l, r, rfl, rfl⟩ := sameBut_iff.mp hn <;> cases a <;> rfl

theorem SameBut.colorFlip (hn : SameBut n m) : SameBut n.colorFlip m.colorFlip := by
  obtain ⟨rfl, rfl⟩ | ⟨k, v, c, c', l, r, rfl, rfl⟩ := sameBut_iff.mp hn <;> rfl

theorem SameBut.rotateLeft (hn : SameBut n m) : SameBut n.rotateLeft m.rotateLeft := by
  obtain ⟨rfl, rfl⟩ | ⟨k, v, c, c', l, r, rfl, rfl⟩ := sameBut_iff.mp hn
  · rfl
  · cases r <;> rfl

theorem SameBut.rotateRight (hn : SameBut n m) : SameBut n.rotateRight m.rotateRight := by
  obtain ⟨rfl, rfl⟩ | ⟨k, v, c, c', l, r, rfl, rfl⟩ := sameBut_iff.mp hn
  · rfl
  · cases l <;> rfl

theorem SameBut.ite {p : Bool} (ha : SameBut a b) (hn : SameBut n m) :
    SameBut (if p then a else n) (if p then b else m) := by
  cases p
  · exact hn
  · exact ha

theorem SameBut.fixUp (hn : SameBut n m) : SameBut n.fixUp m.fixUp := by
  unfold FLLRBNode.fixUp
  have h₁ : SameBut (if n.right.isRed && !n.left.isRed then n.rotateLeft else n)
      (if m.right.isRed && !m.left.isRed then m.rotateLeft else m) := by
    rw [hn.left, hn.right]
    exact hn.rotateLeft.ite hn
  extract_lets n₁ n₂ m₁ m₂
  have h₂ : SameBut n₂ m₂ := by
    unfold n₂ m₂
    rw [h₁.left]
    exact h₁.rotateRight.ite h₁
  rw [h₂.left, h₂.right]
  exact h₂.colorFlip.ite h₂

theorem SameBut.moveRedLeft (hn : SameBut n m) : SameBut n.moveRedLeft m.moveRedLeft := by
  have h := hn.colorFlip
  unfold FLLRBNode.moveRedLeft
  dsimp only
  rw [h.right]
  exact h.withRight.rotateLeft.colorFlip.ite h

theorem SameBut.moveRedRight (hn : SameBut n m) : SameBut n.moveRedRight m.moveRedRight := by
  have h := hn.colorFlip
  unfold FLLRBNode.moveRedRight
  dsimp only
  rw [h.left]
  exact h.rotateRight.colorFlip.ite h

theorem SameBut.readyLeft (hn : SameBut n m) : SameBut n.readyLeft m.readyLeft := by
  unfold FLLRBNode.readyLeft
  rw [hn.left]
  exact hn.moveRedLeft.ite hn

theorem SameBut.readyRight (hn : SameBut n m) : SameBut n.readyRight m.readyRight := by
  unfold FLLRBNode.readyRight
  have h : SameBut (if n.left.isRed then n.rotateRight else n)
      (if m.left.isRed then m.rotateRight else m) := by
    rw [hn.left]
    exact hn.rotateRight.ite hn
  extract_lets n₁ m₁
  rw [h.right]
  exact h.moveRedRight.ite h

theorem SameBut.remove {cmp : Cmp α} {aKey : α} (hn : SameBut n m) :
    SameBut (n.remove cmp aKey) (m.remove cmp aKey) := by
  obtain ⟨rfl, rfl⟩ | ⟨k, v, c, c', l, r, rfl, rfl⟩ := sameBut_iff.mp hn
  · rfl
  · by_cases hk : cmp aKey k = .lt
    · have h := hn.readyLeft
      rw [remove_of_lt hk, remove_of_lt hk, h.left]
      exact h.withLeft.fixUp
    · obtain ⟨h, -⟩ | ⟨k', v', d, d', a, b, h, h'⟩ := sameBut_iff.mp hn.readyRight
      · exact absurd h (readyRight_ne_empty nofun)
      · have hs : SameBut (value k' v' d a b) (value k' v' d' a b) := rfl
        rw [remove_of_ge hk h, remove_of_ge hk h']
        split
        · split
          · rfl
          · exact hs.withEntryOf.withRight.fixUp
        · exact SameBut.fixUp rfl

theorem Balanced.remove (cmp : Cmp α) [Std.TransCmp cmp] (aKey : α) (hn : Balanced n c h)
    (ho : Ordered cmp n.entries) :
    ((n.remove cmp aKey).withColor .black).entries = erase cmp aKey n.entries ∧
      ∃ h', Balanced ((n.remove cmp aKey).withColor .black) .black h' := by
  have key : ∀ {n : FLLRBNode α β} {c h}, Ready n c h → Ordered cmp n.entries →
      ((n.remove cmp aKey).withColor .black).entries = erase cmp aKey n.entries ∧
        ∃ h', Balanced ((n.remove cmp aKey).withColor .black) .black h' := by
    intro n c h hn ho
    have hd : Down cmp aKey n c h := .ready hn
    obtain ⟨he, c', hb, -⟩ := hd.remove ho
    exact ⟨by rw [entries_withColor, he], hb.withColor_black⟩
  cases hn with
  | empty => exact key .empty ho
  | red hl hr => exact key (.red (.red hl hr)) ho
  | @black k v cl l r h hl hr =>
    cases cl with
    | red => exact key (.redLeft hl hr) ho
    | black =>
      have hs : SameBut (value k v .black l r) (value k v .red l r) := rfl
      have hs' : ((value k v .black l r).remove cmp aKey).withColor .black =
          ((value k v .red l r).remove cmp aKey).withColor .black := hs.remove
      rw [hs']
      exact key (.red (.red hl hr)) ho

end Root

end FLLRBNode

end Treena.Sorted
