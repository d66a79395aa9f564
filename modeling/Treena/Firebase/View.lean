import Treena.Firebase.Filter
import Treena.Firebase.Writes

/-! # Views

A view caches what the server has told about a place, and what is shown there: the data of
the server with the pending writes. The processor moves both caches from one operation to the
next, without making the second anew from the first. The queries considered have no range and
no limit, so that no cache is filtered.
-/

namespace Treena.Firebase

open Sorted FNode

@[ext] structure FCacheNode (κ β : Type) where
  node : FNode κ β
  isFullyInitialized : Bool

namespace FCacheNode

variable {κ β : Type}

def isCompleteForChild (cmp : Cmp κ) (cache : FCacheNode κ β) (childKey : Piece κ) : Bool :=
  cache.isFullyInitialized || cache.node.hasChild cmp childKey

def isCompleteForPath (cmp : Cmp κ) (cache : FCacheNode κ β) : List (Piece κ) → Bool
  | [] => cache.isFullyInitialized
  | childKey :: _ => cache.isCompleteForChild cmp childKey

end FCacheNode

structure FViewCache (κ β : Type) where
  cachedEventSnap : FCacheNode κ β
  cachedServerSnap : FCacheNode κ β

namespace FViewCache

variable {κ β : Type}

def updateEventSnap (viewCache : FViewCache κ β) (eventSnap : FNode κ β) (complete : Bool) :
    FViewCache κ β :=
  { viewCache with cachedEventSnap := ⟨eventSnap, complete⟩ }

def updateServerSnap (viewCache : FViewCache κ β) (serverSnap : FNode κ β) (complete : Bool) :
    FViewCache κ β :=
  { viewCache with cachedServerSnap := ⟨serverSnap, complete⟩ }

def completeEventSnap (viewCache : FViewCache κ β) : Option (FNode κ β) :=
  if viewCache.cachedEventSnap.isFullyInitialized then some viewCache.cachedEventSnap.node else none

def completeServerSnap (viewCache : FViewCache κ β) : Option (FNode κ β) :=
  if viewCache.cachedServerSnap.isFullyInitialized then some viewCache.cachedServerSnap.node
  else none

end FViewCache

namespace FWriteTree

variable {κ β : Type} [DecidableEq κ]

def shadowingWriteAtPath (F : FUtilities κ) (t : FWriteTree κ β) (path : List (Piece κ)) :
    Option (Option (FNode κ β)) :=
  t.visibleWrites.completeNodeAtPath F path

def calculateCompleteEventChildrenAtPath (F : FUtilities κ) (t : FWriteTree κ β)
    (treePath : List (Piece κ)) (completeServerChildren : FNode κ β) : Option (FNode κ β) := do
  match ← t.visibleWrites.completeNodeAtPath F treePath with
  | some topLevelSet =>
    return topLevelSet.entries.foldl (fun completeChildren child =>
      completeChildren.updateImmediateChild F.keyComparator (.key child.1) child.2) .empty
  | none =>
    let merge ← t.visibleWrites.childCompoundWriteAtPath F treePath
    let completeChildren ← completeServerChildren.entries.foldlM (fun completeChildren child =>
      (merge.childCompoundWriteAtPath F [.key child.1]).map fun childMerge =>
        completeChildren.updateImmediateChild F.keyComparator (.key child.1)
          (childMerge.applyToNode F child.2)) .empty
    return merge.completeChildren.foldl (fun completeChildren child =>
      completeChildren.updateImmediateChild F.keyComparator child.1 child.2) completeChildren

/-- What is shown at a path after the server has written there, unless a write hides it. -/
def calculateEventCacheAfterServerOverwriteAtPath (F : FUtilities κ) (t : FWriteTree κ β)
    (treePath childPath : List (Piece κ)) (existingServerSnap : FNode κ β) :
    Option (Option (FNode κ β)) := do
  let complete ← t.visibleWrites.hasCompleteWriteAtPath F (treePath ++ childPath)
  if complete then return none
  else
    let childMerge ← t.visibleWrites.childCompoundWriteAtPath F (treePath ++ childPath)
    if childMerge.isEmpty then return some (existingServerSnap.getChild F.keyComparator childPath)
    else
      return some (childMerge.applyToNode F (existingServerSnap.getChild F.keyComparator childPath))

/-- A child with the pending writes, if it is known as a whole. -/
def calculateCompleteChildAtPath (F : FUtilities κ) (t : FWriteTree κ β)
    (treePath : List (Piece κ)) (childKey : Piece κ) (existingServerCache : FCacheNode κ β) :
    Option (Option (FNode κ β)) := do
  match ← t.visibleWrites.completeNodeAtPath F (treePath ++ [childKey]) with
  | some shadowingNode => return some shadowingNode
  | none =>
    if existingServerCache.isCompleteForChild F.keyComparator childKey then
      let childMerge ← t.visibleWrites.childCompoundWriteAtPath F (treePath ++ [childKey])
      return some (childMerge.applyToNode F
        (existingServerCache.node.getImmediateChild F.keyComparator childKey))
    else return none

end FWriteTree

structure FWriteTreeRef (κ β : Type) where
  path : List (Piece κ)
  writeTree : FWriteTree κ β

namespace FWriteTreeRef

variable {κ β : Type} [DecidableEq κ]

def calculateCompleteEventCacheWithCompleteServerCache (F : FUtilities κ) (w : FWriteTreeRef κ β)
    (completeServerCache : Option (FNode κ β)) : Option (Option (FNode κ β)) :=
  w.writeTree.calculateCompleteEventCacheAtPath F w.path completeServerCache none false

def calculateCompleteEventChildrenWithCompleteServerChildren (F : FUtilities κ)
    (w : FWriteTreeRef κ β) (completeServerChildren : FNode κ β) : Option (FNode κ β) :=
  w.writeTree.calculateCompleteEventChildrenAtPath F w.path completeServerChildren

def calculateEventCacheAfterServerOverwriteWithChildPath (F : FUtilities κ)
    (w : FWriteTreeRef κ β) (childPath : List (Piece κ)) (existingServerSnap : FNode κ β) :
    Option (Option (FNode κ β)) :=
  w.writeTree.calculateEventCacheAfterServerOverwriteAtPath F w.path childPath existingServerSnap

def shadowingWriteAtPath (F : FUtilities κ) (w : FWriteTreeRef κ β) (path : List (Piece κ)) :
    Option (Option (FNode κ β)) :=
  w.writeTree.shadowingWriteAtPath F (w.path ++ path)

def calculateCompleteChild (F : FUtilities κ) (w : FWriteTreeRef κ β) (childKey : Piece κ)
    (existingServerCache : FCacheNode κ β) : Option (Option (FNode κ β)) :=
  w.writeTree.calculateCompleteChildAtPath F w.path childKey existingServerCache

def childWriteTreeRef (w : FWriteTreeRef κ β) (childKey : Piece κ) : FWriteTreeRef κ β :=
  ⟨w.path ++ [childKey], w.writeTree⟩

end FWriteTreeRef

/-- An operation on a view, at a path below it. The answer to a write comes with the paths at
which it has written. -/
inductive FOperation (κ β : Type)
  | userOverwrite (path : List (Piece κ)) (snap : FNode κ β)
  | userMerge (path : List (Piece κ)) (children : FCompoundWrite κ β)
  | serverOverwrite (path : List (Piece κ)) (snap : FNode κ β)
  | serverMerge (path : List (Piece κ)) (children : FCompoundWrite κ β)
  | ackUserWrite (path : List (Piece κ)) (affectedTree : FImmutableTree (Piece κ) Unit)
      (revert : Bool)
  | listenComplete (path : List (Piece κ))

structure FViewProcessorResult (κ β : Type) where
  viewCache : FViewCache κ β
  changes : FChildChangeAccumulator κ β
  value : Option (FNode κ β)

namespace FViewProcessor

open FIndexedFilter

variable {κ β : Type} [DecidableEq κ] [DecidableEq β]

/-- A child that is shown after the server has written at a path, if it is known. -/
def newEventChild (F : FUtilities κ) (viewCache : FViewCache κ β) (writesCache : FWriteTreeRef κ β)
    (childKey : κ) (childChangePath : List (Piece κ)) : Option (Option (FNode κ β)) :=
  let oldEventSnap := viewCache.cachedEventSnap
  let oldEventChild := oldEventSnap.node.getImmediateChild F.keyComparator (.key childKey)
  if oldEventSnap.isCompleteForChild F.keyComparator (.key childKey) then
    (writesCache.calculateEventCacheAfterServerOverwriteWithChildPath F
        (.key childKey :: childChangePath) viewCache.cachedServerSnap.node).map
      fun eventChildUpdate =>
        match eventChildUpdate with
        | some update => some (oldEventChild.updateChild F.keyComparator childChangePath update)
        | none => some oldEventChild
  else writesCache.calculateCompleteChild F (.key childKey) viewCache.cachedServerSnap

/-- The `newEventCache` of `generateEventCacheAfterServerEvent`, where no write hides it. -/
def newEventCache (F : FUtilities κ) (viewCache : FViewCache κ β) (changePath : List (Piece κ))
    (writesCache : FWriteTreeRef κ β) (accumulator : Option (FChildChangeAccumulator κ β)) :
    Option (FNode κ β × Option (FChildChangeAccumulator κ β)) :=
  let oldEventNode := viewCache.cachedEventSnap.node
  match changePath with
  | [] =>
    if viewCache.cachedServerSnap.isFullyInitialized then do
      match ← writesCache.calculateCompleteEventCacheWithCompleteServerCache F
        viewCache.completeServerSnap with
      | some nodeWithLocalWrites =>
        updateFullNode F.keyComparator oldEventNode nodeWithLocalWrites accumulator
      | none => none
    else none
  | .priority :: rest =>
    if rest.isEmpty then
      (writesCache.calculateEventCacheAfterServerOverwriteWithChildPath F changePath
          viewCache.cachedServerSnap.node).map fun updatedPriority =>
        match updatedPriority with
        | some priority => (FIndexedFilter.updatePriority oldEventNode priority, accumulator)
        | none => (oldEventNode, accumulator)
    else none
  | .key childKey :: childChangePath => do
    match ← newEventChild F viewCache writesCache childKey childChangePath with
    | some newChild =>
      updateChildIn F.keyComparator oldEventNode childKey newChild childChangePath accumulator
    | none => some (oldEventNode, accumulator)

def generateEventCacheAfterServerEvent (F : FUtilities κ) (viewCache : FViewCache κ β)
    (changePath : List (Piece κ)) (writesCache : FWriteTreeRef κ β)
    (accumulator : Option (FChildChangeAccumulator κ β)) :
    Option (FViewCache κ β × Option (FChildChangeAccumulator κ β)) := do
  match ← writesCache.shadowingWriteAtPath F changePath with
  | some _ => return (viewCache, accumulator)
  | none =>
    let updated ← newEventCache F viewCache changePath writesCache accumulator
    return (viewCache.updateEventSnap updated.1
      (viewCache.cachedEventSnap.isFullyInitialized || changePath.isEmpty), updated.2)

/-- The cache of the server after it has written at a path. A node that is not complete is not
updated deep below, where the update is for other listeners. -/
def newServerCache (F : FUtilities κ) (oldServerSnap : FCacheNode κ β)
    (changePath : List (Piece κ)) (changedSnap : FNode κ β) : Option (Option (FNode κ β)) :=
  match changePath with
  | [] => (updateFullNode F.keyComparator oldServerSnap.node changedSnap none).map (some ·.1)
  | childKey :: childChangePath =>
    if !oldServerSnap.isCompleteForPath F.keyComparator changePath && changePath.length > 1 then
      some none
    else
      let newChildNode :=
        (oldServerSnap.node.getImmediateChild F.keyComparator childKey).updateChild
          F.keyComparator childChangePath changedSnap
      match childKey with
      | .priority => some (some (FIndexedFilter.updatePriority oldServerSnap.node newChildNode))
      | .key childKey =>
        (updateChildIn F.keyComparator oldServerSnap.node childKey newChildNode childChangePath
          none).map (some ·.1)

def applyServerOverwriteTo (F : FUtilities κ) (oldViewCache : FViewCache κ β)
    (changePath : List (Piece κ)) (changedSnap : FNode κ β) (writesCache : FWriteTreeRef κ β)
    (accumulator : Option (FChildChangeAccumulator κ β)) :
    Option (FViewCache κ β × Option (FChildChangeAccumulator κ β)) := do
  match ← newServerCache F oldViewCache.cachedServerSnap changePath changedSnap with
  | some serverSnap =>
    let newViewCache := oldViewCache.updateServerSnap serverSnap
      (oldViewCache.cachedServerSnap.isFullyInitialized || changePath.isEmpty)
    generateEventCacheAfterServerEvent F newViewCache changePath writesCache accumulator
  | none => return (oldViewCache, accumulator)

def completeChild (F : FUtilities κ) (writes : FWriteTreeRef κ β) (viewCache : FViewCache κ β)
    (optCompleteServerCache : Option (FNode κ β)) (childKey : κ) : Option (Option (FNode κ β)) :=
  let node := viewCache.cachedEventSnap
  if node.isCompleteForChild F.keyComparator (.key childKey) then
    some (some (node.node.getImmediateChild F.keyComparator (.key childKey)))
  else
    let serverNode := match optCompleteServerCache with
      | some complete => ⟨complete, true⟩
      | none => viewCache.cachedServerSnap
    writes.calculateCompleteChild F (.key childKey) serverNode

/-- The child that is shown after the user has written at a path below. A priority is not
written on an empty node. -/
def newUserChild (F : FUtilities κ) (oldViewCache : FViewCache κ β) (childKey : κ)
    (childChangePath : List (Piece κ)) (changedSnap : FNode κ β) (writesCache : FWriteTreeRef κ β)
    (optCompleteCache : Option (FNode κ β)) : Option (FNode κ β) :=
  if childChangePath.isEmpty then some changedSnap
  else
    (completeChild F writesCache oldViewCache optCompleteCache childKey).map fun childNode =>
      match childNode with
      | some childNode =>
        if childChangePath.getLast? = some .priority ∧
            (childNode.getChild F.keyComparator childChangePath.dropLast).isEmpty then childNode
        else childNode.updateChild F.keyComparator childChangePath changedSnap
      | none => .empty

def applyUserOverwriteTo (F : FUtilities κ) (oldViewCache : FViewCache κ β)
    (changePath : List (Piece κ)) (changedSnap : FNode κ β) (writesCache : FWriteTreeRef κ β)
    (optCompleteCache : Option (FNode κ β))
    (accumulator : Option (FChildChangeAccumulator κ β)) :
    Option (FViewCache κ β × Option (FChildChangeAccumulator κ β)) :=
  let oldEventSnap := oldViewCache.cachedEventSnap
  match changePath with
  | [] =>
    (updateFullNode F.keyComparator oldEventSnap.node changedSnap accumulator).map fun updated =>
      (oldViewCache.updateEventSnap updated.1 true, updated.2)
  | .priority :: _ =>
    some (oldViewCache.updateEventSnap (FIndexedFilter.updatePriority oldEventSnap.node changedSnap)
      oldEventSnap.isFullyInitialized, accumulator)
  | .key childKey :: childChangePath => do
    let newChild ← newUserChild F oldViewCache childKey childChangePath changedSnap writesCache
      optCompleteCache
    if (oldEventSnap.node.getImmediateChild F.keyComparator (.key childKey)).isEqual
        F.keyComparator newChild then return (oldViewCache, accumulator)
    else
      let updated ← updateChildIn F.keyComparator oldEventSnap.node childKey newChild
        childChangePath accumulator
      return (oldViewCache.updateEventSnap updated.1 oldEventSnap.isFullyInitialized, updated.2)

/-- `cache:hasChild:` for the front of a path. -/
def cacheHasChild (F : FUtilities κ) (viewCache : FViewCache κ β) (path : List (Piece κ)) : Bool :=
  viewCache.cachedEventSnap.isCompleteForPath F.keyComparator path

def applyUserWrite (F : FUtilities κ) (path : List (Piece κ)) (writesCache : FWriteTreeRef κ β)
    (serverCache : Option (FNode κ β))
    (cur : FViewCache κ β × Option (FChildChangeAccumulator κ β))
    (write : List (Piece κ) × FNode κ β) :
    Option (FViewCache κ β × Option (FChildChangeAccumulator κ β)) :=
  applyUserOverwriteTo F cur.1 (path ++ write.1) write.2 writesCache serverCache cur.2

/-- Children that the view has come first. -/
def applyUserMergeTo (F : FUtilities κ) (viewCache : FViewCache κ β) (path : List (Piece κ))
    (changedChildren : FCompoundWrite κ β) (writesCache : FWriteTreeRef κ β)
    (serverCache : Option (FNode κ β)) (accumulator : Option (FChildChangeAccumulator κ β)) :
    Option (FViewCache κ β × Option (FChildChangeAccumulator κ β)) := do
  let cur ← (changedChildren.forEach []).foldlM (fun cur write =>
    if cacheHasChild F viewCache (path ++ write.1) then
      applyUserWrite F path writesCache serverCache cur write
    else some cur) (viewCache, accumulator)
  (changedChildren.forEach []).foldlM (fun cur write =>
    if !cacheHasChild F viewCache (path ++ write.1) then
      applyUserWrite F path writesCache serverCache cur write
    else some cur) cur

/-- One child of a merge, which is written over the child that the server had before. -/
def applyChildMerge (F : FUtilities κ) (viewCache : FViewCache κ β)
    (writesCache : FWriteTreeRef κ β)
    (cur : FViewCache κ β × Option (FChildChangeAccumulator κ β))
    (child : Piece κ × FCompoundWrite κ β) :
    Option (FViewCache κ β × Option (FChildChangeAccumulator κ β)) :=
  let serverChild := viewCache.cachedServerSnap.node.getImmediateChild F.keyComparator child.1
  applyServerOverwriteTo F cur.1 [child.1] (child.2.applyToNode F serverChild) writesCache cur.2

/-- The `actualMerge`, which is at the root of the view. -/
def mergeAtRoot (F : FUtilities κ) (path : List (Piece κ)) (changedChildren : FCompoundWrite κ β) :
    Option (FCompoundWrite κ β) :=
  if path.isEmpty then some changedChildren
  else FCompoundWrite.emptyWrite.addCompoundWrite F changedChildren path

/-- Children that the server has come first. -/
def applyServerMergeTo (F : FUtilities κ) (viewCache : FViewCache κ β) (path : List (Piece κ))
    (changedChildren : FCompoundWrite κ β) (writesCache : FWriteTreeRef κ β)
    (accumulator : Option (FChildChangeAccumulator κ β)) :
    Option (FViewCache κ β × Option (FChildChangeAccumulator κ β)) :=
  let serverSnap := viewCache.cachedServerSnap
  if serverSnap.node.isEmpty && !serverSnap.isFullyInitialized then some (viewCache, accumulator)
  else do
    let actualMerge ← mergeAtRoot F path changedChildren
    let cur ← actualMerge.children.foldlM (fun cur child =>
      if serverSnap.node.hasChild F.keyComparator child.1 then
        applyChildMerge F viewCache writesCache cur child
      else some cur) (viewCache, accumulator)
    actualMerge.children.foldlM (fun cur child =>
      let isUnknownDeepMerge :=
        !serverSnap.isCompleteForChild F.keyComparator child.1 && child.2.value.isNone
      if !serverSnap.node.hasChild F.keyComparator child.1 && !isUnknownDeepMerge then
        applyChildMerge F viewCache writesCache cur child
      else some cur) cur

/-- What the server is known to have at the paths of a merge. -/
def ackedChildren (F : FUtilities κ) (serverCache : FCacheNode κ β) (ackPath : List (Piece κ))
    (affectedTree : FImmutableTree (Piece κ) Unit) : Option (FCompoundWrite κ β) :=
  (affectedTree.forEach []).foldlM (fun changedChildren merged =>
    if serverCache.isCompleteForPath F.keyComparator (ackPath ++ merged.1) then
      changedChildren.addWrite F (serverCache.node.getChild F.keyComparator (ackPath ++ merged.1))
        merged.1
    else some changedChildren) FCompoundWrite.emptyWrite

/-- What the server has at the paths is applied again, now that it is not hidden. -/
def ackUserWriteOn (F : FUtilities κ) (viewCache : FViewCache κ β) (ackPath : List (Piece κ))
    (affectedTree : FImmutableTree (Piece κ) Unit) (writesCache : FWriteTreeRef κ β)
    (accumulator : Option (FChildChangeAccumulator κ β)) :
    Option (FViewCache κ β × Option (FChildChangeAccumulator κ β)) := do
  let serverCache := viewCache.cachedServerSnap
  match ← writesCache.shadowingWriteAtPath F ackPath with
  | some _ => return (viewCache, accumulator)
  | none =>
    if affectedTree.value.isSome then
      if serverCache.isCompleteForPath F.keyComparator ackPath then
        applyServerOverwriteTo F viewCache ackPath
          (serverCache.node.getChild F.keyComparator ackPath) writesCache accumulator
      else if ackPath.isEmpty then
        let changedChildren ← serverCache.node.entries.foldlM (fun changedChildren child =>
          changedChildren.addWrite F child.2 [.key child.1]) FCompoundWrite.emptyWrite
        applyServerMergeTo F viewCache ackPath changedChildren writesCache accumulator
      else return (viewCache, accumulator)
    else
      let changedChildren ← ackedChildren F serverCache ackPath affectedTree
      applyServerMergeTo F viewCache ackPath changedChildren writesCache accumulator

def revertedChild (F : FUtilities κ) (viewCache : FViewCache κ β) (childKey : κ)
    (affectedPath : List (Piece κ)) (writesCache : FWriteTreeRef κ β)
    (accumulator : Option (FChildChangeAccumulator κ β)) :
    Option (FNode κ β × Option (FChildChangeAccumulator κ β)) := do
  let oldEventCache := viewCache.cachedEventSnap.node
  match ← writesCache.calculateCompleteChild F (.key childKey) viewCache.cachedServerSnap with
  | some newChild =>
    updateChildIn F.keyComparator oldEventCache childKey newChild affectedPath accumulator
  | none =>
    if viewCache.cachedServerSnap.isCompleteForChild F.keyComparator (.key childKey) then
      updateChildIn F.keyComparator oldEventCache childKey
        (oldEventCache.getImmediateChild F.keyComparator (.key childKey)) affectedPath accumulator
    else if oldEventCache.hasChild F.keyComparator (.key childKey) then
      updateChildIn F.keyComparator oldEventCache childKey .empty affectedPath accumulator
    else return (oldEventCache, accumulator)

def restoredLeaf (F : FUtilities κ) (viewCache : FViewCache κ β) (writesCache : FWriteTreeRef κ β)
    (newEventCache : FNode κ β) (accumulator : Option (FChildChangeAccumulator κ β)) :
    Option (FNode κ β × Option (FChildChangeAccumulator κ β)) :=
  if newEventCache.isEmpty && viewCache.cachedServerSnap.isFullyInitialized then do
    match ← writesCache.calculateCompleteEventCacheWithCompleteServerCache F
      viewCache.completeServerSnap with
    | some complete =>
      if complete.isLeafNode then
        updateFullNode F.keyComparator newEventCache complete accumulator
      else some (newEventCache, accumulator)
    | none => some (newEventCache, accumulator)
  else some (newEventCache, accumulator)

def revertedNode (F : FUtilities κ) (viewCache : FViewCache κ β) (writesCache : FWriteTreeRef κ β) :
    Option (FNode κ β) :=
  if viewCache.cachedServerSnap.isFullyInitialized then do
    (← writesCache.calculateCompleteEventCacheWithCompleteServerCache F
      viewCache.completeServerSnap)
  else
    writesCache.calculateCompleteEventChildrenWithCompleteServerChildren F
      viewCache.cachedServerSnap.node

def revertedEventCache (F : FUtilities κ) (viewCache : FViewCache κ β) (path : List (Piece κ))
    (writesCache : FWriteTreeRef κ β) (accumulator : Option (FChildChangeAccumulator κ β)) :
    Option (FNode κ β × Option (FChildChangeAccumulator κ β)) :=
  match path with
  | .key childKey :: affectedPath => do
    let updated ← revertedChild F viewCache childKey affectedPath writesCache accumulator
    restoredLeaf F viewCache writesCache updated.1 updated.2
  | _ => do
    let newNode ← revertedNode F viewCache writesCache
    updateFullNode F.keyComparator viewCache.cachedEventSnap.node newNode accumulator

def revertUserWriteOn (F : FUtilities κ) (viewCache : FViewCache κ β) (path : List (Piece κ))
    (writesCache : FWriteTreeRef κ β) (accumulator : Option (FChildChangeAccumulator κ β)) :
    Option (FViewCache κ β × Option (FChildChangeAccumulator κ β)) := do
  match ← writesCache.shadowingWriteAtPath F path with
  | some _ => return (viewCache, accumulator)
  | none =>
    let updated ← revertedEventCache F viewCache path writesCache accumulator
    let shadowing ← writesCache.shadowingWriteAtPath F []
    return (viewCache.updateEventSnap updated.1
      (viewCache.cachedServerSnap.isFullyInitialized || shadowing.isSome), updated.2)

def listenCompleteOldCache (F : FUtilities κ) (viewCache : FViewCache κ β)
    (path : List (Piece κ)) (writesCache : FWriteTreeRef κ β)
    (accumulator : Option (FChildChangeAccumulator κ β)) :
    Option (FViewCache κ β × Option (FChildChangeAccumulator κ β)) :=
  let oldServerNode := viewCache.cachedServerSnap
  generateEventCacheAfterServerEvent F (viewCache.updateServerSnap oldServerNode.node
    (oldServerNode.isFullyInitialized || path.isEmpty)) path writesCache accumulator

/-- The value that is raised, if there is a change, or the value is known for the first time. -/
def maybeAddValueFromOldViewCache (cmp : Cmp κ) (oldViewCache newViewCache : FViewCache κ β)
    (changes : FChildChangeAccumulator κ β) : Option (FNode κ β) :=
  let eventSnap := newViewCache.cachedEventSnap
  let oldEventSnap := oldViewCache.cachedEventSnap
  let isLeafOrEmpty := eventSnap.node.isLeafNode || eventSnap.node.isEmpty
  if eventSnap.isFullyInitialized && (!changes.isEmpty || !oldEventSnap.isFullyInitialized ||
      (isLeafOrEmpty && !eventSnap.node.isEqual cmp oldEventSnap.node) ||
      !eventSnap.node.getPriority.isEqual cmp oldEventSnap.node.getPriority) then
    some eventSnap.node
  else none

def applyOperation (F : FUtilities κ) (oldViewCache : FViewCache κ β)
    (operation : FOperation κ β) (writesCache : FWriteTreeRef κ β)
    (optCompleteCache : Option (FNode κ β))
    (accumulator : Option (FChildChangeAccumulator κ β)) :
    Option (FViewCache κ β × Option (FChildChangeAccumulator κ β)) :=
  match operation with
  | .userOverwrite path snap =>
    applyUserOverwriteTo F oldViewCache path snap writesCache optCompleteCache accumulator
  | .userMerge path changedChildren =>
    applyUserMergeTo F oldViewCache path changedChildren writesCache optCompleteCache accumulator
  | .serverOverwrite path snap =>
    applyServerOverwriteTo F oldViewCache path snap writesCache accumulator
  | .serverMerge path changedChildren =>
    applyServerMergeTo F oldViewCache path changedChildren writesCache accumulator
  | .ackUserWrite path affectedTree revert =>
    if !revert then ackUserWriteOn F oldViewCache path affectedTree writesCache accumulator
    else revertUserWriteOn F oldViewCache path writesCache accumulator
  | .listenComplete path => listenCompleteOldCache F oldViewCache path writesCache accumulator

def applyOperationOn (F : FUtilities κ) (oldViewCache : FViewCache κ β)
    (operation : FOperation κ β) (writesCache : FWriteTreeRef κ β)
    (optCompleteCache : Option (FNode κ β)) : Option (FViewProcessorResult κ β) := do
  let applied ← applyOperation F oldViewCache operation writesCache optCompleteCache (some [])
  let changes := applied.2.getD []
  return ⟨applied.1, changes, maybeAddValueFromOldViewCache F.keyComparator oldViewCache applied.1
    changes⟩

end FViewProcessor

end Treena.Firebase
