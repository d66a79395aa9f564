import Treena.Firebase.Node
import Treena.Firebase.Tree

/-! # Compound writes

Writes at several paths, of which none is below another: a later write at a path takes the
place of the writes below it, and goes into the value of a write above it.
-/

namespace Treena.Firebase

open Sorted

/-- The comparators of dictionaries of trees and of nodes. -/
structure FUtilities (κ : Type*) where
  stringComparator : Cmp (Piece κ)
  keyComparator : Cmp κ

/-- The comparators order the names and the keys, and tell different ones apart. Those of the
library do so on the names of `ofNames` and not in full: `stringComparator` takes canonically
equivalent names for the same, and `keyComparator` zeros with a minus sign. -/
class FUtilities.Lawful {κ : Type*} (F : FUtilities κ) : Prop where
  string_trans : Std.TransCmp F.stringComparator
  string_eq : Std.LawfulEqCmp F.stringComparator
  key_trans : Std.TransCmp F.keyComparator
  key_eq : Std.LawfulEqCmp F.keyComparator

attribute [instance] FUtilities.Lawful.string_trans FUtilities.Lawful.string_eq
  FUtilities.Lawful.key_trans FUtilities.Lawful.key_eq

abbrev FCompoundWrite (κ β : Type*) := FImmutableTree (Piece κ) (FNode κ β)

namespace FCompoundWrite

open FImmutableTree

variable {κ β : Type*} [DecidableEq κ]

def emptyWrite : FCompoundWrite κ β := FImmutableTree.empty

def addWrite (F : FUtilities κ) (w : FCompoundWrite κ β) (node : FNode κ β)
    (path : List (Piece κ)) : Option (FCompoundWrite κ β) :=
  if path.isEmpty then some (initWithValue (some node))
  else
    match w.findRootMostValueAndPath F.stringComparator path with
    | some (rootMost, value) =>
      (relativePathFrom rootMost path).map fun relativePath =>
        w.setValue F.stringComparator (value.updateChild F.keyComparator relativePath node) rootMost
    | none => some (w.setTree F.stringComparator path (initWithValue (some node)))

def addCompoundWrite (F : FUtilities κ) (w compoundWrite : FCompoundWrite κ β)
    (path : List (Piece κ)) : Option (FCompoundWrite κ β) :=
  (compoundWrite.forEach []).foldlM
    (fun newWrite write => newWrite.addWrite F write.2 (path ++ write.1)) w

def removeWriteAtPath (F : FUtilities κ) (w : FCompoundWrite κ β) (path : List (Piece κ)) :
    FCompoundWrite κ β :=
  if path.isEmpty then emptyWrite else w.setTree F.stringComparator path FImmutableTree.empty

/-- The node that the writes leave at a path, if one of them is at the path or above. -/
def completeNodeAtPath (F : FUtilities κ) (w : FCompoundWrite κ β) (path : List (Piece κ)) :
    Option (Option (FNode κ β)) :=
  match w.findRootMostValueAndPath F.stringComparator path with
  | some (rootMost, value) =>
    (relativePathFrom rootMost path).map fun relativePath =>
      some (value.getChild F.keyComparator relativePath)
  | none => some none

def hasCompleteWriteAtPath (F : FUtilities κ) (w : FCompoundWrite κ β) (path : List (Piece κ)) :
    Option Bool :=
  (w.completeNodeAtPath F path).map Option.isSome

def childCompoundWriteAtPath (F : FUtilities κ) (w : FCompoundWrite κ β)
    (path : List (Piece κ)) : Option (FCompoundWrite κ β) :=
  if path.isEmpty then some w
  else (w.completeNodeAtPath F path).map fun shadowingNode =>
    match shadowingNode with
    | some node => initWithValue (some node)
    | none => w.subtreeAtPath F.stringComparator path

def completeChildren (w : FCompoundWrite κ β) : List (Piece κ × FNode κ β) :=
  match w.value with
  | some node => node.entries.map fun child => (.key child.1, child.2)
  | none => w.children.filterMap fun child => child.2.value.map fun node => (child.1, node)

/-- A priority is written at the end, if the node is not empty then. -/
def applySubtreeWrite (F : FUtilities κ) (relativePath : List (Piece κ)) :
    FCompoundWrite κ β → FNode κ β → FNode κ β
  | ⟨some value, _⟩, node => node.updateChild F.keyComparator relativePath value
  | ⟨none, children⟩, node =>
    let written := applyChildren relativePath children (node, none)
    match written.2 with
    | some priorityWrite =>
      if (written.1.getChild F.keyComparator relativePath).isEmpty then written.1
      else written.1.updateChild F.keyComparator (relativePath ++ [.priority]) priorityWrite
    | none => written.1
where
  applyChildren (relativePath : List (Piece κ)) : List (Piece κ × FCompoundWrite κ β) →
      FNode κ β × Option (FNode κ β) → FNode κ β × Option (FNode κ β)
    | [], written => written
    | (.priority, childTree) :: rest, written =>
      applyChildren relativePath rest (written.1, childTree.value)
    | (.key k, childTree) :: rest, written =>
      applyChildren relativePath rest
        (applySubtreeWrite F (relativePath ++ [.key k]) childTree written.1, written.2)

def applyToNode (F : FUtilities κ) (w : FCompoundWrite κ β) (node : FNode κ β) : FNode κ β :=
  applySubtreeWrite F [] w node

end FCompoundWrite

end Treena.Firebase
