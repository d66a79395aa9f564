import Treena.Firebase.View

/-! # The sync tree

Views stand at the places that are listened to. An operation goes to all views on its path and
below, each of which sees it from its own place. The queries considered are the default ones,
so that there is one view at a place, and nothing is kept on disk.
-/

namespace Treena.Firebase

open Sorted

namespace FImmutableTree

variable {π ν : Type*}

def valueAtPath (cmp : Cmp π) : FImmutableTree π ν → List π → Option ν
  | t, [] => t.value
  | t, front :: path => (lookup cmp front t.children).bind fun child => valueAtPath cmp child path

def removeValueAtPath (cmp : Cmp π) : FImmutableTree π ν → List π → FImmutableTree π ν
  | t, [] => if t.children.isEmpty then empty else ⟨none, t.children⟩
  | t, front :: path =>
    match lookup cmp front t.children with
    | some child =>
      let newChildren := place cmp isEmpty front (removeValueAtPath cmp child path) t.children
      if t.value.isNone && newChildren.isEmpty then empty else ⟨t.value, newChildren⟩
    | none => t

/-- The values that `forEachOnPath:` comes to, with the rest of the path. -/
def valuesOnPath (cmp : Cmp π) : FImmutableTree π ν → List π → List (List π × ν)
  | t, [] => t.value.toList.map fun value => ([], value)
  | t, front :: path => (t.value.toList.map fun value => (front :: path, value)) ++
    match lookup cmp front t.children with
    | some child => valuesOnPath cmp child path
    | none => []

end FImmutableTree

/-- The operation as a child sees it, if it does. It throws for a child that is not on the
path of a merge or of an answer, and for an answer to writes below each other. -/
def FOperation.operationForChild {κ β : Type} [DecidableEq κ] (F : FUtilities κ)
    (operation : FOperation κ β) (childKey : Piece κ) : Option (Option (FOperation κ β)) :=
  match operation with
  | .userOverwrite [] snap =>
    some (some (.userOverwrite [] (snap.getImmediateChild F.keyComparator childKey)))
  | .userOverwrite (_ :: path) snap => some (some (.userOverwrite path snap))
  | .userMerge [] children =>
    (children.childCompoundWriteAtPath F [childKey]).map fun childTree =>
      if childTree.isEmpty then none
      else match childTree.value with
        | some rootWrite => some (.userOverwrite [] rootWrite)
        | none => some (.userMerge [] childTree)
  | .userMerge (front :: path) children =>
    if front = childKey then some (some (.userMerge path children)) else none
  | .serverOverwrite [] snap =>
    some (some (.serverOverwrite [] (snap.getImmediateChild F.keyComparator childKey)))
  | .serverOverwrite (_ :: path) snap => some (some (.serverOverwrite path snap))
  | .serverMerge [] children =>
    (children.childCompoundWriteAtPath F [childKey]).map fun childTree =>
      if childTree.isEmpty then none
      else match childTree.value with
        | some rootWrite => some (.serverOverwrite [] rootWrite)
        | none => some (.serverMerge [] childTree)
  | .serverMerge (front :: path) children =>
    if front = childKey then some (some (.serverMerge path children)) else none
  | .ackUserWrite [] affectedTree revert =>
    if affectedTree.value.isSome then
      if affectedTree.children.isEmpty then some (some (.ackUserWrite [] affectedTree revert))
      else none
    else some (some (.ackUserWrite []
      (affectedTree.subtreeAtPath F.stringComparator [childKey]) revert))
  | .ackUserWrite (front :: path) affectedTree revert =>
    if front = childKey then some (some (.ackUserWrite path affectedTree revert)) else none
  | .listenComplete [] => some (some (.listenComplete []))
  | .listenComplete (_ :: path) => some (some (.listenComplete path))

def FOperation.path {κ β : Type} : FOperation κ β → List (Piece κ)
  | .userOverwrite path _ => path
  | .userMerge path _ => path
  | .serverOverwrite path _ => path
  | .serverMerge path _ => path
  | .ackUserWrite path _ _ => path
  | .listenComplete path => path

/-- A registration, and the value that was last raised to it. -/
structure FEventRegistration (κ β : Type) where
  handle : ℕ
  raised : Option (FNode κ β)

/-- The value that an operation raises, if it does. -/
def FEventRegistration.raise {κ β : Type} (value : Option (FNode κ β))
    (registration : FEventRegistration κ β) : FEventRegistration κ β :=
  { registration with raised := value <|> registration.raised }

structure FView (κ β : Type) where
  viewCache : FViewCache κ β
  eventRegistrations : List (FEventRegistration κ β)

namespace FView

variable {κ β : Type} [DecidableEq κ] [DecidableEq β]

def isEmpty (view : FView κ β) : Bool := view.eventRegistrations.isEmpty

def completeServerCacheFor (cmp : Cmp κ) (view : FView κ β) (path : List (Piece κ)) :
    Option (FNode κ β) :=
  view.viewCache.completeServerSnap.map (·.getChild cmp path)

def completeEventCacheFor (cmp : Cmp κ) (view : FView κ β) (path : List (Piece κ)) :
    Option (FNode κ β) :=
  view.viewCache.completeEventSnap.map (·.getChild cmp path)

/-- A registration is told the value at once, if it is known. -/
def addEventRegistration (handle : ℕ) (view : FView κ β) : FView κ β :=
  { view with
    eventRegistrations :=
      view.eventRegistrations ++ [⟨handle, view.viewCache.completeEventSnap⟩] }

/-- Every registration matches when there is no handle. -/
def removeEventRegistration (handle : Option ℕ) (view : FView κ β) : FView κ β :=
  { view with
    eventRegistrations := view.eventRegistrations.filter fun existing =>
      handle.any (· != existing.handle) }

def applyOperation (F : FUtilities κ) (view : FView κ β) (operation : FOperation κ β)
    (writesCache : FWriteTreeRef κ β) (optCompleteServerCache : Option (FNode κ β)) :
    Option (FView κ β) :=
  (FViewProcessor.applyOperationOn F view.viewCache operation writesCache
    optCompleteServerCache).map fun result =>
      ⟨result.viewCache, view.eventRegistrations.map (.raise result.value)⟩

end FView

/-- A place in the tree. It may be left without a view. -/
structure FSyncPoint (κ β : Type) where
  view : Option (FView κ β)

namespace FSyncPoint

variable {κ β : Type} [DecidableEq κ] [DecidableEq β]

def applyOperation (F : FUtilities κ) (syncPoint : FSyncPoint κ β) (operation : FOperation κ β)
    (writesCache : FWriteTreeRef κ β) (optCompleteServerCache : Option (FNode κ β)) :
    Option (FSyncPoint κ β) :=
  (syncPoint.view.mapM fun view : FView κ β =>
    view.applyOperation F operation writesCache optCompleteServerCache).map fun view => ⟨view⟩

def completeServerCacheAtPath (cmp : Cmp κ) (syncPoint : FSyncPoint κ β) (path : List (Piece κ)) :
    Option (FNode κ β) :=
  syncPoint.view.bind (·.completeServerCacheFor cmp path)

def completeEventCacheAtPath (cmp : Cmp κ) (syncPoint : FSyncPoint κ β) (path : List (Piece κ)) :
    Option (FNode κ β) :=
  syncPoint.view.bind (·.completeEventCacheFor cmp path)

def getView (F : FUtilities κ) (syncPoint : FSyncPoint κ β) (writesCache : FWriteTreeRef κ β)
    (serverCache : FCacheNode κ β) : Option (FView κ β) :=
  match syncPoint.view with
  | some view => some view
  | none => do
    match ← writesCache.calculateCompleteEventCacheWithCompleteServerCache F
      (if serverCache.isFullyInitialized then some serverCache.node else none) with
    | some eventCache => return ⟨⟨⟨eventCache, true⟩, serverCache⟩, []⟩
    | none =>
      let eventCache ← writesCache.calculateCompleteEventChildrenWithCompleteServerChildren F
        serverCache.node
      return ⟨⟨⟨eventCache, false⟩, serverCache⟩, []⟩

/-- A view without registrations goes. -/
def removeEventRegistration (handle : Option ℕ) (syncPoint : FSyncPoint κ β) : FSyncPoint κ β :=
  ⟨(syncPoint.view.map (·.removeEventRegistration handle)).filter (!·.isEmpty)⟩

end FSyncPoint

abbrev FSyncPointTree (κ β : Type) := FImmutableTree (Piece κ) (FSyncPoint κ β)

structure FSyncTree (κ β : Type) where
  syncPointTree : FSyncPointTree κ β
  pendingWriteTree : FWriteTree κ β

namespace FSyncTree

variable {κ β : Type} [DecidableEq κ] [DecidableEq β]

def init : FSyncTree κ β := ⟨FImmutableTree.empty, FWriteTree.init⟩

def resolveServerCache (cmp : Cmp κ) (serverCache : Option (FNode κ β))
    (syncPoint : Option (FSyncPoint κ β)) : Option (FNode κ β) :=
  if serverCache.isNone then syncPoint.bind (·.completeServerCacheAtPath cmp []) else serverCache

/-- An operation at the root of a tree goes to everything below. -/
def applyOperationDescendantsHelper (F : FUtilities κ) (operation : FOperation κ β)
    (serverCache : Option (FNode κ β)) (writesCache : FWriteTreeRef κ β) :
    FSyncPointTree κ β → Option (FSyncPointTree κ β)
  | ⟨value, children⟩ => do
    let resolvedServerCache := resolveServerCache F.keyComparator serverCache value
    let newChildren ← applyToChildren operation resolvedServerCache writesCache children
    let newValue ← value.mapM (·.applyOperation F operation writesCache resolvedServerCache)
    return ⟨newValue, newChildren⟩
where
  applyToChildren (operation : FOperation κ β) (resolvedServerCache : Option (FNode κ β))
      (writesCache : FWriteTreeRef κ β) : List (Piece κ × FSyncPointTree κ β) →
      Option (List (Piece κ × FSyncPointTree κ β))
    | [] => some []
    | (childKey, childTree) :: rest => do
      let childOperation ← operation.operationForChild F childKey
      let newChild ← (match childOperation with
        | some childOperation =>
          applyOperationDescendantsHelper F childOperation
            (resolvedServerCache.map (·.getImmediateChild F.keyComparator childKey))
            (writesCache.childWriteTreeRef childKey) childTree
        | none => some childTree)
      let newRest ← applyToChildren operation resolvedServerCache writesCache rest
      return (childKey, newChild) :: newRest

/-- An operation goes down its path, and then to everything below. -/
def applyOperationHelper (F : FUtilities κ) :
    List (Piece κ) → FOperation κ β → FSyncPointTree κ β → Option (FNode κ β) →
      FWriteTreeRef κ β → Option (FSyncPointTree κ β)
  | [], operation, tree, serverCache, writesCache =>
    applyOperationDescendantsHelper F operation serverCache writesCache tree
  | childKey :: path, operation, tree, serverCache, writesCache => do
    let serverCache := resolveServerCache F.keyComparator serverCache tree.value
    let childOperation ← operation.operationForChild F childKey
    let newChildren ← (match lookup F.stringComparator childKey tree.children, childOperation with
      | some childTree, some childOperation =>
        (applyOperationHelper F path childOperation childTree
          (serverCache.map (·.getImmediateChild F.keyComparator childKey))
          (writesCache.childWriteTreeRef childKey)).map fun newChild =>
            upsert F.stringComparator childKey newChild tree.children
      | _, _ => some tree.children)
    let newValue ← tree.value.mapM (·.applyOperation F operation writesCache serverCache)
    return ⟨newValue, newChildren⟩

def applyOperationToSyncPoints (F : FUtilities κ) (t : FSyncTree κ β)
    (operation : FOperation κ β) : Option (FSyncTree κ β) :=
  (applyOperationHelper F operation.path operation t.syncPointTree none
    ⟨[], t.pendingWriteTree⟩).map fun syncPointTree => { t with syncPointTree := syncPointTree }

def applyUserOverwriteAtPath (F : FUtilities κ) (t : FSyncTree κ β) (path : List (Piece κ))
    (newData : FNode κ β) (writeId : ℤ) : Option (FSyncTree κ β) := do
  let pendingWriteTree ← t.pendingWriteTree.addOverwriteAtPath F path newData writeId true
  applyOperationToSyncPoints F { t with pendingWriteTree := pendingWriteTree }
    (.userOverwrite path newData)

/-- The paths of a write, below its own. -/
def affectedTree (F : FUtilities κ) (write : FWriteRecord κ β) : FImmutableTree (Piece κ) Unit :=
  match write.kind with
  | .overwrite _ => FImmutableTree.empty.setValue F.stringComparator () []
  | .merge changedChildren => (changedChildren.forEach []).foldl
      (fun affectedTree merged => affectedTree.setValue F.stringComparator () merged.1)
      FImmutableTree.empty

def ackUserWriteWithWriteId (F : FUtilities κ) (t : FSyncTree κ β) (writeId : ℤ)
    (revert : Bool) : Option (FSyncTree κ β) := do
  let write ← t.pendingWriteTree.allWrites.find? (·.writeId = writeId)
  let removed ← t.pendingWriteTree.removeWriteId F writeId
  let t := { t with pendingWriteTree := removed.1 }
  if !removed.2 then return t
  else applyOperationToSyncPoints F t (.ackUserWrite write.path (affectedTree F write) revert)

def applyServerOverwriteAtPath (F : FUtilities κ) (t : FSyncTree κ β) (path : List (Piece κ))
    (newData : FNode κ β) : Option (FSyncTree κ β) :=
  applyOperationToSyncPoints F t (.serverOverwrite path newData)

def applyServerMergeAtPath (F : FUtilities κ) (t : FSyncTree κ β) (path : List (Piece κ))
    (changedChildren : FCompoundWrite κ β) : Option (FSyncTree κ β) :=
  applyOperationToSyncPoints F t (.serverMerge path changedChildren)

def applyListenCompleteAtPath (F : FUtilities κ) (t : FSyncTree κ β) (path : List (Piece κ)) :
    Option (FSyncTree κ β) :=
  applyOperationToSyncPoints F t (.listenComplete path)

def removeAllWrites (F : FUtilities κ) (t : FSyncTree κ β) : Option (FSyncTree κ β) :=
  let pendingWriteTree :=
    { t.pendingWriteTree with visibleWrites := FCompoundWrite.emptyWrite, allWrites := [] }
  if t.pendingWriteTree.allWrites.isEmpty then some { t with pendingWriteTree := pendingWriteTree }
  else applyOperationToSyncPoints F { t with pendingWriteTree := pendingWriteTree }
    (.ackUserWrite [] (FImmutableTree.empty.setValue F.stringComparator () []) true)

/-- What a view at the path above knows, or else the children that views below know. -/
def serverCacheForQuery (F : FUtilities κ) (t : FSyncTree κ β) (path : List (Piece κ)) :
    FCacheNode κ β :=
  match (t.syncPointTree.valuesOnPath F.stringComparator path).findSome?
    fun found => found.2.completeServerCacheAtPath F.keyComparator found.1 with
  | some serverCacheNode => ⟨serverCacheNode, true⟩
  | none =>
    let subtree := t.syncPointTree.subtreeAtPath F.stringComparator path
    ⟨subtree.children.foldl (fun serverCacheNode child =>
      match child.2.value.bind (·.completeServerCacheAtPath F.keyComparator []) with
      | some completeCache =>
        serverCacheNode.updateImmediateChild F.keyComparator child.1 completeCache
      | none => serverCacheNode) .empty, false⟩

def addEventRegistration (F : FUtilities κ) (t : FSyncTree κ β) (path : List (Piece κ))
    (handle : ℕ) : Option (FSyncTree κ β) := do
  let syncPoint := (t.syncPointTree.valueAtPath F.stringComparator path).getD ⟨none⟩
  let view ← syncPoint.getView F ⟨path, t.pendingWriteTree⟩ (serverCacheForQuery F t path)
  return { t with syncPointTree :=
    t.syncPointTree.setValue F.stringComparator ⟨some (view.addEventRegistration handle)⟩ path }

/-- A place without a view goes. -/
def removeEventRegistration (F : FUtilities κ) (t : FSyncTree κ β) (path : List (Piece κ))
    (handle : Option ℕ) : FSyncTree κ β :=
  match t.syncPointTree.valueAtPath F.stringComparator path with
  | some syncPoint =>
    let syncPoint := syncPoint.removeEventRegistration handle
    if syncPoint.view.isNone then
      { t with syncPointTree := t.syncPointTree.removeValueAtPath F.stringComparator path }
    else { t with syncPointTree := t.syncPointTree.setValue F.stringComparator syncPoint path }
  | none => t

/-- The value that is known without the server. A place without a view is left in the tree if
there is none on the path. -/
def getServerValue (F : FUtilities κ) (t : FSyncTree κ β) (path : List (Piece κ)) :
    Option (FSyncTree κ β × Option (FNode κ β)) :=
  let visited := t.syncPointTree.valuesOnPath F.stringComparator path
  let found := visited.find? fun found =>
    (found.2.completeEventCacheAtPath F.keyComparator found.1).isSome
  match found <|> visited.getLast? with
  | some (relativePath, targetSyncPoint) => do
    let serverCacheNode :=
      (if found.isSome then targetSyncPoint.completeEventCacheAtPath F.keyComparator relativePath
        else none) <|> targetSyncPoint.completeServerCacheAtPath F.keyComparator []
    let view ← targetSyncPoint.getView F ⟨path, t.pendingWriteTree⟩
      ⟨serverCacheNode.getD .empty, serverCacheNode.isSome⟩
    return (t, view.viewCache.completeEventSnap)
  | none => do
    let targetSyncPoint : FSyncPoint κ β := ⟨none⟩
    let view ← targetSyncPoint.getView F ⟨path, t.pendingWriteTree⟩ ⟨.empty, false⟩
    return ({ t with syncPointTree :=
      t.syncPointTree.setValue F.stringComparator targetSyncPoint path },
      view.viewCache.completeEventSnap)

end FSyncTree

structure FRepo (κ β : Type) where
  serverSyncTree : FSyncTree κ β
  writeIdCounter : ℤ

namespace FRepo

variable {κ β : Type} [DecidableEq κ] [DecidableEq β]

inductive Message (κ β : Type)
  | overwrite (snap : FNode κ β)
  | merge (changedChildren : FCompoundWrite κ β)

def init : FRepo κ β := ⟨FSyncTree.init, 0⟩

def set (F : FUtilities κ) (repo : FRepo κ β) (path : List (Piece κ)) (node : FNode κ β) :
    Option (FRepo κ β) :=
  (repo.serverSyncTree.applyUserOverwriteAtPath F path node repo.writeIdCounter).map
    fun serverSyncTree => ⟨serverSyncTree, repo.writeIdCounter + 1⟩

/-- The server has answered a write that was not cancelled. -/
def ackWrite (F : FUtilities κ) (repo : FRepo κ β) (writeId : ℤ) (success : Bool) :
    Option (FRepo κ β) :=
  (repo.serverSyncTree.ackUserWriteWithWriteId F writeId !success).map
    fun serverSyncTree => { repo with serverSyncTree := serverSyncTree }

def purgeOutstandingWrites (F : FUtilities κ) (repo : FRepo κ β) : Option (FRepo κ β) :=
  (repo.serverSyncTree.removeAllWrites F).map
    fun serverSyncTree => { repo with serverSyncTree := serverSyncTree }

/-- The server has told of new data, or of children that have changed. The reply to a read
is of the first kind. -/
def onDataUpdate (F : FUtilities κ) (repo : FRepo κ β) (path : List (Piece κ)) :
    Message κ β → Option (FRepo κ β)
  | .overwrite snap => (repo.serverSyncTree.applyServerOverwriteAtPath F path snap).map
      fun serverSyncTree => { repo with serverSyncTree := serverSyncTree }
  | .merge changedChildren =>
    (repo.serverSyncTree.applyServerMergeAtPath F path changedChildren).map
      fun serverSyncTree => { repo with serverSyncTree := serverSyncTree }

def onListenComplete (F : FUtilities κ) (repo : FRepo κ β) (path : List (Piece κ)) :
    Option (FRepo κ β) :=
  (repo.serverSyncTree.applyListenCompleteAtPath F path).map
    fun serverSyncTree => { repo with serverSyncTree := serverSyncTree }

def addEventRegistration (F : FUtilities κ) (repo : FRepo κ β) (path : List (Piece κ))
    (handle : ℕ) : Option (FRepo κ β) :=
  (repo.serverSyncTree.addEventRegistration F path handle).map
    fun serverSyncTree => { repo with serverSyncTree := serverSyncTree }

def removeEventRegistration (F : FUtilities κ) (repo : FRepo κ β) (path : List (Piece κ))
    (handle : Option ℕ) : FRepo κ β :=
  { repo with serverSyncTree := repo.serverSyncTree.removeEventRegistration F path handle }

def getData (F : FUtilities κ) (repo : FRepo κ β) (path : List (Piece κ)) :
    Option (FRepo κ β × Option (FNode κ β)) :=
  (repo.serverSyncTree.getServerValue F path).map fun found =>
    ({ repo with serverSyncTree := found.1 }, found.2)

end FRepo

end Treena.Firebase
