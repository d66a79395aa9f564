import Mathlib.Data.List.Sort
import Treena.Sorted.Balance

/-! # Building a tree from a sorted array

A tree is built from the digits of its size in base {1,2}, most significant digit first:
each digit adds one or two pennants, a node with a perfect tree to its right, to the left
edge of the tree.
-/

namespace Treena.Sorted.FTreeSortedDictionary

open FLLRBNode hiding min

variable {α β : Type*}

/-- Nothing where the array is read out of its bounds. -/
def buildBalancedTree (keys : List (α × β)) (startIndex length : ℕ) :
    Option (FLLRBNode α β) :=
  if min (keys.length - startIndex) length = 0 then some empty
  else if min (keys.length - startIndex) length = 1 then do
    let (key, v) ← keys[startIndex]?
    return value key v .black empty empty
  else do
    let middle := min (keys.length - startIndex) length / 2
    let left ← buildBalancedTree keys startIndex middle
    let right ← buildBalancedTree keys (startIndex + middle + 1) middle
    let (key, v) ← keys[startIndex + middle]?
    return value key v .black left right
termination_by length
decreasing_by all_goals omega

/-- A pennant of the chunk that ends at `index`, with the rest of the tree to its left. -/
def buildPennant (keyList : List (α × β)) (color : Color) (chunkSize index : ℕ)
    (rest : FLLRBNode α β) : Option (FLLRBNode α β) := do
  let (key, v) ← keyList[index - chunkSize]?
  let childTree ← buildBalancedTree keyList (index - chunkSize + 1) (chunkSize - 1)
  return value key v color rest childTree

/-- The loop of `rootFrom12List` over the digits that are left, with the array up to
`index` still to be placed. A binary digit 0 stands for 1 and a digit 1 for 2. -/
def rootFrom12List (keyList : List (α × β)) (bits : ℕ) : ℕ → ℕ → Option (FLLRBNode α β)
  | 0, _ => some empty
  | current + 1, index =>
    let chunkSize := 2 ^ current
    if bits.testBit current then do
      let rest ← rootFrom12List keyList bits current (index - chunkSize - chunkSize)
      let node ← buildPennant keyList .red chunkSize (index - chunkSize) rest
      buildPennant keyList .black chunkSize index node
    else do
      let rest ← rootFrom12List keyList bits current (index - chunkSize)
      buildPennant keyList .black chunkSize index rest

/-- The digits of `base1_2List_new`: their number, and a mask of the bits. -/
def rootFromKeys (keyList : List (α × β)) : Option (FLLRBNode α β) :=
  let count := (keyList.length + 1).log2
  rootFrom12List keyList ((keyList.length + 1) % 2 ^ count) count keyList.length

theorem take_drop_middle {l : List (α × β)} {s m : ℕ} {p : α × β} (hp : l[s + m]? = some p) :
    (l.drop s).take (m + (m + 1)) =
      (l.drop s).take m ++ p :: (l.drop (s + m + 1)).take m := by
  obtain ⟨hlt, hget⟩ := List.getElem?_eq_some_iff.mp hp
  rw [List.take_add, List.drop_drop, List.drop_eq_getElem_cons hlt, hget, List.take_succ_cons]

theorem buildBalancedTree_eq (keys : List (α × β)) (m startIndex : ℕ)
    (hlen : startIndex + (2 ^ m - 1) ≤ keys.length) :
    ∃ n, buildBalancedTree keys startIndex (2 ^ m - 1) = some n ∧ Balanced n .black m ∧
      n.entries = (keys.drop startIndex).take (2 ^ m - 1) := by
  induction m generalizing startIndex with
  | zero =>
    refine ⟨.empty, ?_, .empty, by simp⟩
    rw [buildBalancedTree, if_pos (by simp)]
  | succ m ih =>
    have hpos : 0 < 2 ^ m := Nat.two_pow_pos m
    have hpow : 2 ^ (m + 1) = 2 ^ m + 2 ^ m := by rw [Nat.pow_succ]; omega
    rw [hpow] at hlen ⊢
    have hmin : min (keys.length - startIndex) (2 ^ m + 2 ^ m - 1) = 2 ^ m + 2 ^ m - 1 := by
      omega
    have hmid : (2 ^ m + 2 ^ m - 1) / 2 = 2 ^ m - 1 := by omega
    obtain ⟨l, hl, hbl, hel⟩ := ih startIndex (by omega)
    obtain ⟨r, hr, hbr, her⟩ := ih (startIndex + (2 ^ m - 1) + 1) (by omega)
    obtain ⟨p, hp⟩ : ∃ p, keys[startIndex + (2 ^ m - 1)]? = some p :=
      ⟨_, List.getElem?_eq_getElem (by omega)⟩
    have hmiddle := take_drop_middle hp
    have hsum : 2 ^ m + 2 ^ m - 1 = 2 ^ m - 1 + (2 ^ m - 1 + 1) := by omega
    rw [buildBalancedTree, hmin]
    by_cases h1 : 2 ^ m + 2 ^ m - 1 = 1
    · obtain rfl : m = 0 := by
        by_contra hm
        have := Nat.pow_le_pow_right (n := 2) (by decide) (Nat.pos_of_ne_zero hm)
        omega
      refine ⟨value p.1 p.2 .black .empty .empty, ?_, .black .empty .empty, ?_⟩
      · simp only [Nat.pow_zero, Nat.add_zero, Nat.sub_self] at hp
        simp [hp]
      · rw [hsum, hmiddle]
        simp
    · refine ⟨value p.1 p.2 .black l r, ?_, .black hbl hbr, ?_⟩
      · rw [if_neg (by omega), if_neg h1]
        simp only [hmid, hl, hr, hp]
        rfl
      · rw [hsum, hmiddle, entries_value, hel, her]

theorem buildPennant_eq {keyList : List (α × β)} {rest : FLLRBNode α β} (color : Color) (m : ℕ)
    {index : ℕ} (hlt : 2 ^ m ≤ index) (hle : index ≤ keyList.length)
    (hrest : rest.entries = keyList.take (index - 2 ^ m)) :
    ∃ k v r, buildPennant keyList color (2 ^ m) index rest = some (value k v color rest r) ∧
      Balanced r .black m ∧ (value k v color rest r).entries = keyList.take index := by
  have hpos : 0 < 2 ^ m := Nat.two_pow_pos m
  obtain ⟨r, hr, hbr, her⟩ :=
    buildBalancedTree_eq keyList m (index - 2 ^ m + 1) (by omega)
  obtain ⟨p, hp⟩ : ∃ p, keyList[index - 2 ^ m]? = some p :=
    ⟨_, List.getElem?_eq_getElem (by omega)⟩
  refine ⟨p.1, p.2, r, ?_, hbr, ?_⟩
  · simp only [buildPennant, hp, hr]
    rfl
  · obtain ⟨hlt', hget⟩ := List.getElem?_eq_some_iff.mp hp
    have hsum : index = index - 2 ^ m + (2 ^ m - 1 + 1) := by omega
    rw [entries_value, hrest, her]
    conv_rhs => rw [hsum, List.take_add, List.drop_eq_getElem_cons hlt', hget, List.take_succ_cons]

theorem rootFrom12List_eq (keyList : List (α × β)) (bits current index : ℕ)
    (hi : index = 2 ^ current - 1 + bits % 2 ^ current) (hle : index ≤ keyList.length) :
    ∃ n, rootFrom12List keyList bits current index = some n ∧
      Balanced n .black current ∧ n.entries = keyList.take index := by
  induction current generalizing index with
  | zero =>
    obtain rfl : index = 0 := by simpa [Nat.mod_one] using hi
    exact ⟨.empty, rfl, .empty, by simp⟩
  | succ m ih =>
    have hpos : 0 < 2 ^ m := Nat.two_pow_pos m
    have hbit : bits % 2 ^ (m + 1) = bits % 2 ^ m + 2 ^ m * (bits.testBit m).toNat := by
      rw [Nat.pow_succ, Nat.mod_mul, Nat.toNat_testBit]
    rw [hbit, Nat.pow_succ] at hi
    rw [rootFrom12List]
    cases hb : bits.testBit m with
    | true =>
      rw [hb, Bool.toNat_true, Nat.mul_one] at hi
      obtain ⟨n, hn, hbn, hen⟩ := ih (index - 2 ^ m - 2 ^ m) (by omega) (by omega)
      obtain ⟨k, v, r, hp, hbr, her⟩ := buildPennant_eq .red m (by omega) (by omega) hen
      obtain ⟨k', v', r', hp', hbr', her'⟩ := buildPennant_eq .black m (by omega) hle her
      refine ⟨_, ?_, .black (.red hbn hbr) hbr', her'⟩
      simp only [if_true, hn, Option.bind_eq_bind, Option.bind_some, hp, hp']
    | false =>
      rw [hb, Bool.toNat_false, Nat.mul_zero] at hi
      obtain ⟨n, hn, hbn, hen⟩ := ih (index - 2 ^ m) (by omega) (by omega)
      obtain ⟨k, v, r, hp, hbr, her⟩ := buildPennant_eq .black m (by omega) hle hen
      refine ⟨_, ?_, .black hbn hbr, her⟩
      simp only [Bool.false_eq_true, if_false, hn, Option.bind_eq_bind, Option.bind_some, hp]

/-- The built tree is balanced, as high as its number of digits, and holds the array. -/
theorem rootFromKeys_eq (keyList : List (α × β)) :
    ∃ n, rootFromKeys keyList = some n ∧ Balanced n .black (keyList.length + 1).log2 ∧
      n.entries = keyList := by
  have hlo : 2 ^ (keyList.length + 1).log2 ≤ keyList.length + 1 := Nat.log2_self_le (by simp)
  have hhi : keyList.length + 1 < 2 ^ ((keyList.length + 1).log2 + 1) := Nat.lt_log2_self
  have hmod : (keyList.length + 1) % 2 ^ (keyList.length + 1).log2 =
      keyList.length + 1 - 2 ^ (keyList.length + 1).log2 := by
    rw [Nat.pow_succ] at hhi
    rw [Nat.mod_eq_sub_mod hlo, Nat.mod_eq_of_lt (by omega)]
  obtain ⟨n, hn, hb, he⟩ := rootFrom12List_eq keyList
    ((keyList.length + 1) % 2 ^ (keyList.length + 1).log2) (keyList.length + 1).log2 keyList.length
    (by rw [Nat.mod_mod, hmod]; omega) (Nat.le_refl _)
  exact ⟨n, hn, hb, by rw [he, List.take_length]⟩

end Treena.Sorted.FTreeSortedDictionary
