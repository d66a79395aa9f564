import Mathlib.Tactic.IntervalCases
import Treena.Sorted.Entries

/-! # Keys of the database

The children of a node are ordered by `compareKey`: keys that read as 32-bit integers come
first, by their value and then by their length, and other keys follow, unit by unit.
-/

namespace Treena.Firebase

open Sorted

def utf16 (c : Char) : List ℕ :=
  if c.toNat < 0x10000 then [c.toNat]
  else [0xD800 + (c.toNat - 0x10000) / 0x400, 0xDC00 + (c.toNat - 0x10000) % 0x400]

def unichars (s : List Char) : List ℕ := s.flatMap utf16

/-- A key, or one of the two names that are told apart by their address. -/
inductive FKey
  | minName
  | name (s : List Char)
  | maxName
  deriving DecidableEq

/-- The loop of `tryParseStringToInt` over the digits. -/
def digitsLoop (value : ℕ) : List ℕ → Option ℕ
  | [] => some value
  | c :: cs => if c < 48 ∨ 57 < c then none else digitsLoop (value * 10 + (c - 48)) cs

def int32 (value : ℤ) : Option ℤ :=
  if value < -2147483648 ∨ value > 2147483647 then none else some value

/-- `tryParseStringToInt` on the units of a string. -/
def parseUnits (u : List ℕ) : Option ℤ :=
  if u.length > 11 ∨ u.length = 0 then none
  else
    match u with
    | 45 :: [] => none
    | 45 :: cs => (digitsLoop 0 cs).bind fun value => int32 (-value)
    | cs => (digitsLoop 0 cs).bind fun value => int32 value

def tryParseStringToInt (s : List Char) : Option ℤ := parseUnits (unichars s)

def compareKey (a b : FKey) : Ordering :=
  if a = b then .eq
  else if a = .minName ∨ b = .maxName then .lt
  else if b = .minName ∨ a = .maxName then .gt
  else
    match a, b with
    | .name a, .name b =>
      match tryParseStringToInt a, tryParseStringToInt b with
      | some aAsInt, some bAsInt =>
        if aAsInt > bAsInt then .gt
        else if aAsInt < bAsInt then .lt
        else if (unichars a).length > (unichars b).length then .gt
        else if (unichars a).length < (unichars b).length then .lt
        else .eq
      | some _, none => .lt
      | none, some _ => .gt
      | none, none => compare (unichars a) (unichars b)
    | _, _ => .eq

section Order

attribute [local instance] lexOrd

/-- What `compareKey` compares, in this order. -/
def FKey.rank : FKey → ℕ × ℤ × ℕ × List ℕ
  | .minName => (0, 0, 0, [])
  | .name s =>
    match tryParseStringToInt s with
    | some v => (1, v, (unichars s).length, [])
    | none => (2, 0, 0, unichars s)
  | .maxName => (3, 0, 0, [])

theorem compare_int (v w : ℤ) (n m : ℕ) :
    compare ((1, v, n, []) : ℕ × ℤ × ℕ × List ℕ) (1, w, m, []) =
      if v > w then .gt else if v < w then .lt
      else if n > m then .gt else if n < m then .lt else .eq := by
  have h : compare ((1, v, n, []) : ℕ × ℤ × ℕ × List ℕ) (1, w, m, []) =
      (compare v w).then ((compare n m).then .eq) := rfl
  rw [h]
  rcases lt_trichotomy v w with hv | rfl | hv
  · rw [compare_lt_iff_lt.mpr hv, if_neg hv.asymm, if_pos hv]
    rfl
  · rcases lt_trichotomy n m with hn | rfl | hn
    · simp [compare_lt_iff_lt.mpr hn, hn, hn.asymm]
    · simp
    · simp [compare_gt_iff_gt.mpr hn, hn]
  · rw [compare_gt_iff_gt.mpr hv, if_pos hv]
    rfl

theorem compareKey_eq_compareOn : compareKey = compareOn FKey.rank := by
  funext a b
  by_cases hab : a = b
  · subst hab
    have hself : compareOn FKey.rank a a = .eq := Std.ReflCmp.compare_self
    simp [compareKey, hself]
  unfold compareKey
  rw [if_neg hab]
  rcases a with _ | a | _ <;> rcases b with _ | b | _
  · exact absurd rfl hab
  · cases hb : tryParseStringToInt b <;> simp [compareOn, FKey.rank, hb] <;> rfl
  · rfl
  · cases ha : tryParseStringToInt a <;> simp [compareOn, FKey.rank, ha] <;> rfl
  · simp only [compareOn, FKey.rank, reduceCtorEq, or_self, if_false]
    cases ha : tryParseStringToInt a with
    | none =>
      cases hb : tryParseStringToInt b with
      | none => rfl
      | some w => rfl
    | some v =>
      cases hb : tryParseStringToInt b with
      | none => rfl
      | some w => exact (compare_int ..).symm
  · cases ha : tryParseStringToInt a <;> simp [compareOn, FKey.rank, ha] <;> rfl
  · rfl
  · cases hb : tryParseStringToInt b <;> simp [compareOn, FKey.rank, hb] <;> rfl
  · exact absurd rfl hab

instance : Std.TransCmp compareKey := by
  rw [compareKey_eq_compareOn]
  infer_instance

theorem compareKey_eq_iff_rank {a b : FKey} : compareKey a b = .eq ↔ a.rank = b.rank := by
  rw [compareKey_eq_compareOn]
  exact Std.compare_eq_iff_eq

end Order

section Units

theorem utf16_append_inj {c d : Char} {s t : List ℕ} (h : utf16 c ++ s = utf16 d ++ t) :
    c = d ∧ s = t := by
  have hc := c.valid
  have hd := d.valid
  simp only [UInt32.isValidChar, Nat.isValidChar] at hc hd
  have hcn : c.toNat = c.val.toNat := rfl
  have hdn : d.toNat = d.val.toNat := rfl
  have hchar : c.toNat = d.toNat → c = d := fun h => Char.toNat_inj.mp h
  unfold utf16 at h
  split at h <;> split at h <;> simp only [List.cons_append, List.nil_append, List.cons.injEq] at h
  · exact ⟨hchar h.1, h.2⟩
  · omega
  · omega
  · exact ⟨hchar (by omega), h.2.2⟩

theorem utf16_ne_nil (c : Char) : utf16 c ≠ [] := by
  unfold utf16
  split <;> exact List.cons_ne_nil _ _

theorem unichars_injective : Function.Injective unichars := by
  intro s t h
  induction s generalizing t with
  | nil =>
    cases t with
    | nil => rfl
    | cons d t => exact absurd h.symm (by simp [unichars, utf16_ne_nil])
  | cons c s ih =>
    cases t with
    | nil => exact absurd h (by simp [unichars, utf16_ne_nil])
    | cons d t =>
      obtain ⟨rfl, hst⟩ := utf16_append_inj (by simpa only [unichars, List.flatMap_cons] using h)
      rw [ih hst]

end Units

section Ties

variable {u cs cs' : List ℕ} {acc acc' n m : ℕ} {v : ℤ}

theorem digitsLoop_inj (hl : cs.length = cs'.length) (h : digitsLoop acc cs = some n)
    (h' : digitsLoop acc' cs' = some n) : acc = acc' ∧ cs = cs' := by
  induction cs generalizing cs' acc acc' with
  | nil =>
    obtain rfl := List.eq_nil_of_length_eq_zero hl.symm
    exact ⟨Option.some.inj (h.trans h'.symm), rfl⟩
  | cons c cs ih =>
    obtain _ | ⟨c', cs'⟩ := cs'
    · cases hl
    · simp only [digitsLoop] at h h'
      split at h
      · cases h
      · split at h'
        · cases h'
        · obtain ⟨hacc, rfl⟩ := ih (Nat.succ.inj hl) h h'
          obtain ⟨rfl, rfl⟩ : acc = acc' ∧ c = c' := by omega
          exact ⟨rfl, rfl⟩

theorem digitsLoop_zeros (n : ℕ) : digitsLoop 0 (List.replicate n 48) = some 0 := by
  induction n with
  | zero => rfl
  | succ n ih => exact ih

theorem eq_zeros_of_digitsLoop (h : digitsLoop 0 cs = some 0) :
    cs = List.replicate cs.length 48 :=
  (digitsLoop_inj (by simp) h (digitsLoop_zeros cs.length)).2

theorem parseUnits_cases (h : parseUnits u = some v) : u.length ≤ 11 ∧
    ((∃ cs n, u = 45 :: cs ∧ cs ≠ [] ∧ digitsLoop 0 cs = some n ∧ v = -(n : ℤ)) ∨
      ∃ n, u ≠ [] ∧ digitsLoop 0 u = some n ∧ v = n) := by
  have hint : ∀ {x : ℤ}, int32 x = some v → v = x := by
    intro x hx
    unfold int32 at hx
    split at hx
    · cases hx
    · exact (Option.some.inj hx).symm
  unfold parseUnits at h
  split at h
  · cases h
  next hl =>
    refine ⟨by omega, ?_⟩
    have hne : u ≠ [] := by
      rintro rfl
      exact hl (.inr rfl)
    split at h
    · cases h
    next cs hcs =>
      obtain ⟨n, hn, hv⟩ := Option.bind_eq_some_iff.mp h
      exact .inl ⟨cs, n, rfl, hcs, hn, hint hv⟩
    next =>
      obtain ⟨n, hn, hv⟩ := Option.bind_eq_some_iff.mp h
      exact .inr ⟨n, hne, hn, hint hv⟩

theorem zeros_of_signs {u : List ℕ} (hl : u.length = cs.length + 1) (hcs : cs ≠ [])
    (h : digitsLoop 0 cs = some n) (h' : digitsLoop 0 u = some m) (hv : -(n : ℤ) = m) :
    ∃ j, cs = List.replicate (j + 1) 48 ∧ u = List.replicate (j + 2) 48 := by
  obtain rfl : n = 0 := by omega
  obtain rfl : m = 0 := by omega
  obtain ⟨j, hj⟩ := Nat.exists_eq_succ_of_ne_zero (List.length_pos_iff.mpr hcs).ne'
  have hc := eq_zeros_of_digitsLoop h
  have hu := eq_zeros_of_digitsLoop h'
  rw [hl] at hu
  rw [hj] at hc hu
  exact ⟨j, hc, hu⟩

theorem parseUnits_tie {u u' : List ℕ} (h : parseUnits u = some v) (h' : parseUnits u' = some v)
    (hl : u.length = u'.length) : u = u' ∨ ∃ j ≤ 9,
      u = 45 :: List.replicate (j + 1) 48 ∧ u' = List.replicate (j + 2) 48 ∨
      u = List.replicate (j + 2) 48 ∧ u' = 45 :: List.replicate (j + 1) 48 := by
  obtain ⟨hu, h⟩ := parseUnits_cases h
  obtain ⟨-, h'⟩ := parseUnits_cases h'
  rcases h with ⟨cs, n, rfl, hcs, hn, rfl⟩ | ⟨n, -, hn, rfl⟩ <;>
    rcases h' with ⟨cs', m, rfl, hcs', hm, hv⟩ | ⟨m, -, hm, hv⟩
  · obtain rfl : n = m := by omega
    exact .inl (by rw [(digitsLoop_inj (Nat.succ.inj hl) hn hm).2])
  · obtain ⟨j, rfl, rfl⟩ := zeros_of_signs hl.symm hcs hn hm hv
    refine .inr ⟨j, ?_, .inl ⟨rfl, rfl⟩⟩
    simp only [List.length_cons, List.length_replicate] at hu
    omega
  · obtain ⟨j, rfl, rfl⟩ := zeros_of_signs hl hcs' hm hn hv.symm
    refine .inr ⟨j, ?_, .inr ⟨rfl, rfl⟩⟩
    simp only [List.length_replicate] at hu
    omega
  · obtain rfl : n = m := by omega
    exact .inl (digitsLoop_inj hl hn hm).2

def zeros (n : ℕ) : List Char := List.replicate n '0'

theorem unichars_zeros (n : ℕ) : unichars (zeros n) = List.replicate n 48 := by
  induction n with
  | zero => rfl
  | succ n ih =>
    have h : unichars (zeros (n + 1)) = 48 :: unichars (zeros n) := rfl
    rw [h, ih, List.replicate_succ]

theorem unichars_minus_zeros (n : ℕ) : unichars ('-' :: zeros n) = 45 :: List.replicate n 48 := by
  have h : unichars ('-' :: zeros n) = 45 :: unichars (zeros n) := rfl
  rw [h, unichars_zeros]

theorem parseUnits_zeros (hn : n ≤ 9) : parseUnits (List.replicate (n + 2) 48) = some 0 ∧
    parseUnits (45 :: List.replicate (n + 1) 48) = some 0 := by
  interval_cases n <;> exact ⟨rfl, rfl⟩

/-- Two keys compare as the same only if they are the same, or zero with and without a
minus sign, filled to the same length. -/
theorem compareKey_eq_iff (a b : FKey) : compareKey a b = .eq ↔ a = b ∨ ∃ n ≤ 9,
    a = .name ('-' :: zeros (n + 1)) ∧ b = .name (zeros (n + 2)) ∨
    a = .name (zeros (n + 2)) ∧ b = .name ('-' :: zeros (n + 1)) := by
  rw [compareKey_eq_iff_rank]
  constructor
  · intro h
    rcases a with _ | a | _ <;> rcases b with _ | b | _
    · exact .inl rfl
    · cases hb : tryParseStringToInt b <;> simp [FKey.rank, hb] at h
    · simp [FKey.rank] at h
    · cases ha : tryParseStringToInt a <;> simp [FKey.rank, ha] at h
    · cases ha : tryParseStringToInt a with
      | none =>
        cases hb : tryParseStringToInt b with
        | none =>
          simp only [FKey.rank, ha, hb, Prod.mk.injEq, true_and] at h
          exact .inl (by rw [unichars_injective h])
        | some w => simp [FKey.rank, ha, hb] at h
      | some v =>
        cases hb : tryParseStringToInt b with
        | none => simp [FKey.rank, ha, hb] at h
        | some w =>
          simp only [FKey.rank, ha, hb, Prod.mk.injEq, true_and, and_true] at h
          obtain ⟨rfl, hl⟩ := h
          rcases parseUnits_tie ha hb hl with he | ⟨n, hn, ⟨ha, hb⟩ | ⟨ha, hb⟩⟩
          · exact .inl (by rw [unichars_injective he])
          · rw [← unichars_minus_zeros] at ha
            rw [← unichars_zeros] at hb
            exact .inr ⟨n, hn, .inl ⟨by rw [unichars_injective ha], by rw [unichars_injective hb]⟩⟩
          · rw [← unichars_zeros] at ha
            rw [← unichars_minus_zeros] at hb
            exact .inr ⟨n, hn, .inr ⟨by rw [unichars_injective ha], by rw [unichars_injective hb]⟩⟩
    · cases ha : tryParseStringToInt a <;> simp [FKey.rank, ha] at h
    · simp [FKey.rank] at h
    · cases hb : tryParseStringToInt b <;> simp [FKey.rank, hb] at h
    · exact .inl rfl
  · rintro (rfl | ⟨n, hn, ⟨rfl, rfl⟩ | ⟨rfl, rfl⟩⟩)
    · rfl
    · simp [FKey.rank, tryParseStringToInt, unichars_zeros, unichars_minus_zeros,
        parseUnits_zeros hn]
    · simp [FKey.rank, tryParseStringToInt, unichars_zeros, unichars_minus_zeros,
        parseUnits_zeros hn]

end Ties

end Treena.Firebase
