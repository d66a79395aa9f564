import Mathlib.Data.List.Basic

/-! # Edited texts and where their characters come from

A program that moves characters about can be read over plain characters or over
characters that carry their origin. A marking says how new characters are made; the
program is written once for every marking, and forgetting the origins is a map between
two of them.
-/

namespace Treena.Text

variable {γ δ κ : Type*}

/-- Replace `n` characters from position `i` on. -/
def splice (t : List γ) (i n : ℕ) (ins : List γ) : List γ := t.take i ++ ins ++ t.drop (i + n)

theorem mem_of_mem_splice {t ins : List γ} {i n : ℕ} {c : γ} (h : c ∈ splice t i n ins) :
    c ∈ t ∨ c ∈ ins := by
  rcases List.mem_append.mp h with h | h
  · rcases List.mem_append.mp h with h | h
    · exact Or.inl (List.mem_of_mem_take h)
    · exact Or.inr h
  · exact Or.inl (List.mem_of_mem_drop h)

theorem mem_splice {t ins : List γ} {i n : ℕ} {c : γ} :
    c ∈ splice t i n ins ↔ c ∈ splice t i n [] ∨ c ∈ ins := by
  simp only [splice, List.mem_append, List.not_mem_nil, or_false]
  tauto

theorem map_splice (f : γ → δ) (t : List γ) (i n : ℕ) (ins : List γ) :
    (splice t i n ins).map f = splice (t.map f) i n (ins.map f) := by
  simp [splice, List.map_take, List.map_drop]

/-- Where a character on the screen comes from: the program's own prompt, the user since
the current record was opened, the user before that, or a read of a record. -/
inductive Origin (κ : Type*)
  | prompt
  | typed
  | earlier
  | read (key : κ)
  deriving DecidableEq

/-- What becomes of an origin when another record is opened. -/
def Origin.age : Origin κ → Origin κ
  | .typed => .earlier
  | o => o

/-- How the characters of a text are made and how they age. -/
structure Marking (κ γ : Type*) where
  mark : Origin κ → Char → γ
  age : γ → γ

def plain : Marking κ Char := ⟨fun _ c => c, id⟩

def traced : Marking κ (Char × Origin κ) := ⟨fun o c => (c, o), fun p => (p.1, p.2.age)⟩

/-- A map of characters that respects how they are made and how they age. -/
structure Marking.Hom (M : Marking κ γ) (N : Marking κ δ) (f : γ → δ) : Prop where
  mark : ∀ o c, f (M.mark o c) = N.mark o c
  age : ∀ x, f (M.age x) = N.age (f x)

theorem erase_hom : (traced : Marking κ (Char × Origin κ)).Hom plain Prod.fst :=
  ⟨fun _ _ => rfl, fun _ => rfl⟩

theorem Marking.Hom.map_mark {M : Marking κ γ} {N : Marking κ δ} {f : γ → δ} (h : M.Hom N f)
    (o : Origin κ) (t : List Char) : (t.map (M.mark o)).map f = t.map (N.mark o) := by
  simp [h.mark]

variable {o : Origin κ} {t : List Char} {p : Char × Origin κ}

theorem origin_of_mem_mark (h : p ∈ t.map (traced.mark o)) : p.2 = o := by
  obtain ⟨c, -, rfl⟩ := List.mem_map.mp h; rfl

@[simp] theorem map_fst_mark : (t.map (traced.mark o)).map Prod.fst = t := by
  simp [traced, Function.comp_def]

theorem Origin.age_eq_prompt : o.age = .prompt ↔ o = .prompt := by cases o <;> simp [Origin.age]

end Treena.Text
