import Mathlib.Data.Int.Notation
import Treena.Firebase.Compound

/-! # Pending writes

The writes that the server has not answered yet, and the compound write of those that are
visible. A write is removed when it is answered, and the compound write is corrected: it is
left alone, built anew, or loses the paths of the write.
-/

namespace Treena.Firebase

open Sorted

inductive FWriteRecord.Kind (κ β : Type)
  | overwrite (newData : FNode κ β)
  | merge (changedChildren : FCompoundWrite κ β)

structure FWriteRecord (κ β : Type) where
  path : List (Piece κ)
  kind : FWriteRecord.Kind κ β
  writeId : ℤ
  visible : Bool

namespace FWriteRecord

variable {κ β : Type}

def entries (record : FWriteRecord κ β) : List (List (Piece κ) × FNode κ β) :=
  match record.kind with
  | .overwrite newData => [(record.path, newData)]
  | .merge changedChildren =>
    (changedChildren.forEach []).map fun write => (record.path ++ write.1, write.2)

def containsPath [DecidableEq κ] (record : FWriteRecord κ β) (path : List (Piece κ)) : Bool :=
  match record.kind with
  | .overwrite _ => record.path.isPrefixOf path
  | .merge changedChildren =>
    (changedChildren.forEach []).any fun write => (record.path ++ write.1).isPrefixOf path

end FWriteRecord

structure FWriteTree (κ β : Type) where
  visibleWrites : FCompoundWrite κ β
  allWrites : List (FWriteRecord κ β)
  lastWriteId : ℤ

namespace FWriteTree

variable {κ β : Type}

def init : FWriteTree κ β := ⟨FCompoundWrite.emptyWrite, [], -1⟩

variable [DecidableEq κ]

/-- An older write is not stacked on a newer one. -/
def addOverwriteAtPath (F : FUtilities κ) (t : FWriteTree κ β) (path : List (Piece κ))
    (newData : FNode κ β) (writeId : ℤ) (visible : Bool) : Option (FWriteTree κ β) :=
  if writeId > t.lastWriteId then
    (if visible then t.visibleWrites.addWrite F newData path else some t.visibleWrites).map
      fun visibleWrites =>
        ⟨visibleWrites, t.allWrites ++ [⟨path, .overwrite newData, writeId, visible⟩], writeId⟩
  else none

def addMergeAtPath (F : FUtilities κ) (t : FWriteTree κ β) (path : List (Piece κ))
    (changedChildren : FCompoundWrite κ β) (writeId : ℤ) : Option (FWriteTree κ β) :=
  if writeId > t.lastWriteId then
    (t.visibleWrites.addCompoundWrite F changedChildren path).map fun visibleWrites =>
      ⟨visibleWrites, t.allWrites ++ [⟨path, .merge changedChildren, writeId, true⟩], writeId⟩
  else none

/-- One record of `layerTreeFromWrites:filter:treeRoot:`. -/
def layerRecord (F : FUtilities κ) (treeRoot : List (Piece κ)) (compoundWrite : FCompoundWrite κ β)
    (record : FWriteRecord κ β) : Option (FCompoundWrite κ β) :=
  match record.kind with
  | .overwrite newData =>
    if treeRoot.isPrefixOf record.path then do
      let relativePath ← relativePathFrom treeRoot record.path
      compoundWrite.addWrite F newData relativePath
    else if record.path.isPrefixOf treeRoot then do
      let relativePath ← relativePathFrom record.path treeRoot
      compoundWrite.addWrite F (newData.getChild F.keyComparator relativePath) []
    else some compoundWrite
  | .merge changedChildren =>
    if treeRoot.isPrefixOf record.path then do
      let relativePath ← relativePathFrom treeRoot record.path
      compoundWrite.addCompoundWrite F changedChildren relativePath
    else if record.path.isPrefixOf treeRoot then do
      let relativePath ← relativePathFrom record.path treeRoot
      if relativePath.isEmpty then compoundWrite.addCompoundWrite F changedChildren []
      else
        match ← changedChildren.completeNodeAtPath F relativePath with
        | some child =>
          -- the child is at the root already, and is followed once more
          compoundWrite.addWrite F (child.getChild F.keyComparator relativePath.tail) []
        | none => some compoundWrite
    else some compoundWrite

def layerTreeFromWrites (F : FUtilities κ) (writes : List (FWriteRecord κ β))
    (filter : FWriteRecord κ β → Bool) (treeRoot : List (Piece κ)) :
    Option (FCompoundWrite κ β) :=
  writes.foldlM (fun compoundWrite record =>
    if filter record then layerRecord F treeRoot compoundWrite record
    else some compoundWrite) FCompoundWrite.emptyWrite

/-- The filter keeps what is not visible, too. -/
def defaultFilter (_ : FWriteRecord κ β) : Bool := true

def resetTree (F : FUtilities κ) (t : FWriteTree κ β) : Option (FWriteTree κ β) := do
  let visibleWrites ← layerTreeFromWrites F t.allWrites defaultFilter []
  return ⟨visibleWrites, t.allWrites,
    match t.allWrites.getLast? with
    | some lastRecord => lastRecord.writeId
    | none => -1⟩

/-- What the loop of `removeWriteId:` finds from the `i`th remaining write down: whether the
write removed was visible until then, and whether it overlaps with others. -/
def removeLoop (index : ℕ) (writeToRemove : FWriteRecord κ β)
    (allWrites : List (FWriteRecord κ β)) : ℕ → Bool → Bool × Bool
  | 0, overlaps => (true, overlaps)
  | i + 1, overlaps =>
    match allWrites[i]? with
    | some currentWrite =>
      if currentWrite.visible then
        if i ≥ index ∧ currentWrite.containsPath writeToRemove.path then (false, overlaps)
        else if writeToRemove.path.isPrefixOf currentWrite.path then
          removeLoop index writeToRemove allWrites i true
        else removeLoop index writeToRemove allWrites i overlaps
      else removeLoop index writeToRemove allWrites i overlaps
    | none => removeLoop index writeToRemove allWrites i overlaps

def removeRecord (F : FUtilities κ) (w : FCompoundWrite κ β) (record : FWriteRecord κ β) :
    FCompoundWrite κ β :=
  match record.kind with
  | .overwrite _ => w.removeWriteAtPath F record.path
  | .merge merge => (merge.forEach []).foldl
      (fun w write => w.removeWriteAtPath F (record.path ++ write.1)) w

/-- The writes without the one that is answered, and whether it may have been visible. -/
def removeWriteId (F : FUtilities κ) (t : FWriteTree κ β) (writeId : ℤ) :
    Option (FWriteTree κ β × Bool) := do
  let index ← t.allWrites.findIdx? (·.writeId = writeId)
  let writeToRemove ← t.allWrites[index]?
  let allWrites := t.allWrites.eraseIdx index
  let found :=
    if writeToRemove.visible then removeLoop index writeToRemove allWrites allWrites.length false
    else (false, false)
  if !found.1 then return ({ t with allWrites := allWrites }, false)
  else if found.2 then return (← resetTree F { t with allWrites := allWrites }, true)
  else
    return (⟨removeRecord F t.visibleWrites writeToRemove, allWrites, t.lastWriteId⟩, true)

/-- The data at a path with the writes laid over it, as far as it is known. -/
def calculateCompleteEventCacheAtPath (F : FUtilities κ) (t : FWriteTree κ β)
    (treePath : List (Piece κ)) (completeServerCache : Option (FNode κ β))
    (excludeWriteIds : Option (List ℤ)) (includeHiddenWrites : Bool) :
    Option (Option (FNode κ β)) := do
  if excludeWriteIds.isNone && !includeHiddenWrites then
    match ← t.visibleWrites.completeNodeAtPath F treePath with
    | some shadowingNode => return some shadowingNode
    | none =>
      let subMerge ← t.visibleWrites.childCompoundWriteAtPath F treePath
      if subMerge.isEmpty then return completeServerCache
      else
        let complete ← subMerge.hasCompleteWriteAtPath F []
        if completeServerCache.isNone && !complete then return none
        else return some (subMerge.applyToNode F (completeServerCache.getD .empty))
  else
    let merge ← t.visibleWrites.childCompoundWriteAtPath F treePath
    if !includeHiddenWrites && merge.isEmpty then return completeServerCache
    else
      let complete ← merge.hasCompleteWriteAtPath F []
      if !includeHiddenWrites && completeServerCache.isNone && !complete then return none
      else
        let filter := fun record : FWriteRecord κ β =>
          (record.visible || includeHiddenWrites) &&
            (excludeWriteIds.all fun ids => !ids.contains record.writeId) &&
            (record.path.isPrefixOf treePath || treePath.isPrefixOf record.path)
        let mergeAtPath ← layerTreeFromWrites F t.allWrites filter treePath
        return some (mergeAtPath.applyToNode F (completeServerCache.getD .empty))

end FWriteTree

end Treena.Firebase
