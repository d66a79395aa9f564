import Treena.Sorted.Pruned

/-! # Trees of values at paths

A tree has values at some of its paths, and a sorted dictionary of children at each node.
-/

namespace Treena.Firebase

open Sorted

/-- `relativePathFrom:to:` on the components of two paths; it throws if the first does not
contain the second. -/
def relativePathFrom {π : Type*} [DecidableEq π] : List π → List π → Option (List π)
  | [], inner => some inner
  | outerFront :: outer, inner =>
    if some outerFront = inner.head? then relativePathFrom outer inner.tail else none

/-- A value, if there is one, and the entries of the dictionary of children. -/
structure FImmutableTree (π ν : Type*) where
  value : Option ν
  children : List (π × FImmutableTree π ν)

namespace FImmutableTree

variable {π ν : Type*}

def initWithValue (aValue : Option ν) : FImmutableTree π ν := ⟨aValue, []⟩

def empty : FImmutableTree π ν := initWithValue none

def isEmpty (t : FImmutableTree π ν) : Bool := t.value.isNone && t.children.isEmpty

/-- The shortest part of a path at which there is a value, and the value. -/
def findRootMostValueAndPath (cmp : Cmp π) : FImmutableTree π ν → List π → Option (List π × ν)
  | t, [] => t.value.map fun value => ([], value)
  | t, front :: path =>
    match t.value with
    | some value => some ([], value)
    | none => (lookup cmp front t.children).bind fun child =>
      (findRootMostValueAndPath cmp child path).map fun found => (front :: found.1, found.2)

def subtreeAtPath (cmp : Cmp π) : FImmutableTree π ν → List π → FImmutableTree π ν
  | t, [] => t
  | t, front :: path =>
    match lookup cmp front t.children with
    | some childTree => subtreeAtPath cmp childTree path
    | none => empty

def setValue (cmp : Cmp π) (newValue : ν) : FImmutableTree π ν → List π → FImmutableTree π ν
  | t, [] => ⟨some newValue, t.children⟩
  | t, front :: path =>
    let child := (lookup cmp front t.children).getD empty
    ⟨t.value, upsert cmp front (setValue cmp newValue child path) t.children⟩

def setTree (cmp : Cmp π) :
    FImmutableTree π ν → List π → FImmutableTree π ν → FImmutableTree π ν
  | _, [], newTree => newTree
  | t, front :: path, newTree =>
    let child := (lookup cmp front t.children).getD empty
    ⟨t.value, place cmp isEmpty front (setTree cmp child path newTree) t.children⟩

/-- The paths and values in the order of `forEach:`, which comes to a node after its
children. -/
def forEach (pathSoFar : List π) : FImmutableTree π ν → List (List π × ν)
  | ⟨value, children⟩ => forEachChild pathSoFar children ++
      value.toList.map fun value => (pathSoFar, value)
where
  forEachChild (pathSoFar : List π) : List (π × FImmutableTree π ν) → List (List π × ν)
    | [] => []
    | (childKey, childTree) :: rest =>
      forEach (pathSoFar ++ [childKey]) childTree ++ forEachChild pathSoFar rest

abbrev sub (cmp : Cmp π) (t : FImmutableTree π ν) (k : π) : FImmutableTree π ν :=
  child cmp empty k t.children

theorem eq_empty {t : FImmutableTree π ν} (h : t.isEmpty) : t = empty := by
  obtain ⟨value, l⟩ := t
  simp only [isEmpty, Bool.and_eq_true, Option.isNone_iff_eq_none, List.isEmpty_iff] at h
  rw [h.1, h.2]
  rfl

@[simp] theorem isEmpty_empty : (empty : FImmutableTree π ν).isEmpty = true := rfl

section

variable {cmp : Cmp π} {t : FImmutableTree π ν} {k : π} {path : List π}

@[simp] theorem subtreeAtPath_empty :
    (empty : FImmutableTree π ν).subtreeAtPath cmp path = empty := by
  cases path with
  | nil => rfl
  | cons front path => rfl

theorem subtreeAtPath_cons :
    t.subtreeAtPath cmp (k :: path) = (t.sub cmp k).subtreeAtPath cmp path := by
  simp only [subtreeAtPath, sub, child]
  cases lookup cmp k t.children with
  | none => exact subtreeAtPath_empty.symm
  | some childTree => rfl

@[simp] theorem findRootMostValueAndPath_empty :
    (empty : FImmutableTree π ν).findRootMostValueAndPath cmp path = none := by
  cases path with
  | nil => rfl
  | cons front path => rfl

theorem findRootMostValueAndPath_cons (h : t.value = none) :
    t.findRootMostValueAndPath cmp (k :: path) =
      ((t.sub cmp k).findRootMostValueAndPath cmp path).map fun found =>
        (k :: found.1, found.2) := by
  simp only [findRootMostValueAndPath, h, sub, child]
  cases lookup cmp k t.children with
  | none => simp
  | some childTree => rfl

theorem findRootMostValueAndPath_of_value {value : ν} (h : t.value = some value) :
    t.findRootMostValueAndPath cmp path = some ([], value) := by
  cases path with
  | nil => simp [findRootMostValueAndPath, h]
  | cons front path => simp [findRootMostValueAndPath, h]

end

end FImmutableTree

@[simp] theorem relativePathFrom_append {π : Type*} [DecidableEq π] (p s : List π) :
    relativePathFrom p (p ++ s) = some s := by
  induction p with
  | nil => cases s <;> rfl
  | cons k p ih => simpa [relativePathFrom] using ih

end Treena.Firebase
