import Treena.Firebase.Compound
import Treena.Firebase.Key

/-! # Names in paths

The keys of the paths considered are of ASCII characters, where `compare:` is the order of the
units, and no zeros with a minus sign, which the order of keys does not tell from others.
-/

namespace Treena.Firebase

def isMinusZero : List Char → Bool
  | '-' :: c :: cs => (c :: cs).all (· == '0')
  | _ => false

structure Name where
  text : List Char
  ascii : text.all (·.toNat < 128)
  signed : isMinusZero text = false
  child : text ≠ ".priority".toList
  deriving DecidableEq

def Name.a : Name := ⟨['a'], rfl, rfl, by decide⟩

def Piece.text : Piece Name → List Char
  | .priority => ".priority".toList
  | .key k => k.text

namespace FUtilities

/-- `stringComparator` and `keyComparator` on names. -/
def ofNames : FUtilities Name where
  stringComparator a b := compare (unichars a.text) (unichars b.text)
  keyComparator a b := compareKey (.name a.text) (.name b.text)

theorem isMinusZero_zeros (n : ℕ) : isMinusZero ('-' :: zeros (n + 1)) = true := by
  simp [isMinusZero, zeros, List.replicate_succ]

theorem piece_text_injective : Function.Injective Piece.text := by
  intro a b h
  rcases a with _ | ⟨s, _, _, hs⟩ <;> rcases b with _ | ⟨t, _, _, ht⟩
  · rfl
  · exact absurd h.symm ht
  · exact absurd h hs
  · obtain rfl : s = t := h
    rfl

/-- Of two keys that tie, one is zero with a minus sign. -/
theorem eq_of_compareKey {a b : Name} (h : compareKey (.name a.text) (.name b.text) = .eq) :
    a = b := by
  rcases a with ⟨s, _, hs, _⟩
  rcases b with ⟨t, _, ht, _⟩
  rcases (compareKey_eq_iff _ _).mp h with h | ⟨n, -, ⟨h, -⟩ | ⟨-, h⟩⟩
  · obtain rfl : s = t := FKey.name.inj h
    rfl
  · obtain rfl := FKey.name.inj h
    exact absurd hs (by simp [isMinusZero_zeros])
  · obtain rfl := FKey.name.inj h
    exact absurd ht (by simp [isMinusZero_zeros])

instance : ofNames.Lawful where
  string_trans := inferInstanceAs
    (Std.TransCmp (compareOn fun a : Piece Name => unichars a.text))
  string_eq :=
    { toReflCmp := inferInstanceAs (Std.ReflCmp (compareOn fun a : Piece Name => unichars a.text))
      eq_of_compare := fun h =>
        piece_text_injective (unichars_injective (Std.compare_eq_iff_eq.mp h)) }
  key_trans :=
    { eq_swap := (inferInstance : Std.OrientedCmp compareKey).eq_swap
      isLE_trans := (inferInstance : Std.TransCmp compareKey).isLE_trans }
  key_eq :=
    { compare_self := (inferInstance : Std.ReflCmp compareKey).compare_self
      eq_of_compare := eq_of_compareKey }

end FUtilities

end Treena.Firebase
