import ContextFS.Branch.Checkpoint
import ContextFS.Daemon.WriteBuffer

/-!
# Branches and open file handles

A handle keeps the path it was opened at, the blob its writes are laid over and a write buffer.
Flushing it replaces the blob at that path by the materialised content.  A branch is identified
by its id, which is never used again; a deleted branch is one that is no longer in the map.
-/

namespace ContextFS

open Std Lib ObjectStore WorkingTree

/-- `FhState`. -/
structure FhState where
  path : FsPath
  branchId : Nat
  pinnedCommit : Hash
  baseBlob : Hash
  baseSize : Nat
  baseCache : Bytes := []
  baseCacheLoaded : Bool := false
  writeBuf : WriteBuffer
  stale : Bool := false

namespace FhState

/-- `ensure_base_cache`: a base that cannot be read counts as empty. -/
def ensureBaseCache (s : FhState) (store : ObjectStore) : FhState :=
  if s.baseCacheLoaded then s
  else if s.baseBlob = zeroHash then { s with baseCacheLoaded := true }
  else
    { s with
      baseCache := (store.readBlob s.baseBlob).getD s.baseCache
      baseCacheLoaded := true }

/-- The content a flush writes. -/
def flushData (s : FhState) (store : ObjectStore) : Bytes :=
  s.writeBuf.materialize (s.ensureBaseCache store).baseCache

/-- The handle after its content was written as `newBlob`. -/
def flushed (s : FhState) (newBlob : Hash) (data : Bytes) : FhState :=
  { s with
    baseBlob := newBlob
    baseSize := data.length
    baseCache := data
    baseCacheLoaded := true
    writeBuf := s.writeBuf.clear }

/-- A handle that a flush of its branch writes out. -/
def needsFlush (s : FhState) (branchId : Nat) : Bool :=
  s.branchId == branchId && !s.stale && s.writeBuf.isDirty

end FhState

/-- `BranchContext`. -/
structure BranchContext where
  name : Bytes
  wt : WorkingTree

/-- A flush keeps the mode of the file at the path. -/
def insertFlushed (wt : WorkingTree) (path : FsPath) (newBlob : Hash) : WorkingTree :=
  let mode :=
    match wt.lookup path with
    | some e => e.mode
    | none => 0o100644
  wt.insert path ⟨.blob, newBlob, mode⟩

/-- The table of open handles. -/
abbrev FhTable := ExtTreeMap Nat FhState

structure Daemon where
  store : ObjectStore := {}
  refs : Refs := {}
  branches : ExtTreeMap Nat BranchContext := ∅
  fhTable : FhTable := ∅
  nextFhId : Nat := 1
  nextBranchId : Nat := 1
  sessionId : UInt64 := 0
  policyVersion : UInt32 := 1

/-- `flush_fhs_for_branch`; `order` is the order the handle table is visited in. -/
def flushFhs [Blake3] (branchId : Nat) :
    List Nat → ObjectStore × FhTable × WorkingTree → Bool × ObjectStore × FhTable × WorkingTree
  | [], st => (true, st)
  | fh :: order, (store, fhs, wt) =>
      match fhs[fh]? with
      | none => flushFhs branchId order (store, fhs, wt)
      | some s =>
          if s.needsFlush branchId then
            let data := s.flushData store
            let w := store.writeBlob data
            if w.2 = zeroHash then
              (false, w.1, fhs.insert fh (s.ensureBaseCache store), wt)
            else
              flushFhs branchId order
                (w.1, fhs.insert fh (s.flushed w.2 data), insertFlushed wt s.path w.2)
          else flushFhs branchId order (store, fhs, wt)

/-- `invalidate_fhs_for_branch`. -/
def invalidateFhs (branchId : Nat) (fhs : FhTable) : FhTable :=
  fhs.map fun _ s => if s.branchId = branchId then { s with stale := true } else s

namespace Daemon

/-- `branch`. -/
def branch (d : Daemon) (id : Nat) : Option BranchContext := d.branches[id]?

/-- The working tree of a branch. -/
def tree (d : Daemon) (id : Nat) : Option WorkingTree := (d.branch id).map (·.wt)

/-- `branch_by_name`. -/
def branchByName (d : Daemon) (name : Bytes) : Option (Nat × BranchContext) :=
  d.branches.toList.find? fun b => b.2.name = name

/-- `get_fh`. -/
def getFh (d : Daemon) (fh : Nat) : Option FhState := d.fhTable[fh]?

/-- An update of the working tree of a branch. -/
def modifyTree (d : Daemon) (id : Nat) (f : WorkingTree → WorkingTree) : Daemon :=
  match d.branches[id]? with
  | none => d
  | some br => { d with branches := d.branches.insert id { br with wt := f br.wt } }

/-- An update of a handle, if it is still open. -/
def modifyFh (d : Daemon) (fh : Nat) (f : FhState → FhState) : Daemon :=
  match d.fhTable[fh]? with
  | none => d
  | some s => { d with fhTable := d.fhTable.insert fh (f s) }

/-- `allocate_fh`. -/
def allocateFh (d : Daemon) (s : FhState) : Nat × Daemon :=
  (d.nextFhId, { d with fhTable := d.fhTable.insert d.nextFhId s, nextFhId := d.nextFhId + 1 })

/-- `release_fh`. -/
def releaseFh (d : Daemon) (fh : Nat) : Daemon := { d with fhTable := d.fhTable.erase fh }

/-- A new handle of a branch over a base of known size. -/
def newFh (d : Daemon) (branchId : Nat) (br : BranchContext) (path : FsPath) (baseBlob : Hash)
    (baseSize : Nat) (knownEmpty : Bool) : FhState where
  path := path
  branchId := branchId
  pinnedCommit := currentCommit d.refs br.name
  baseBlob := baseBlob
  baseSize := baseSize
  baseCacheLoaded := knownEmpty
  writeBuf := { baseSize := baseSize }

/-- `dirty_fh_size_for_path`; `order` is the order the handle table is visited in. -/
def dirtyFhSizeForPath (d : Daemon) (order : List Nat) (path : FsPath) (branchId : Nat) :
    Option Nat :=
  (order.filterMap d.getFh).findSome? fun s =>
    if !s.stale && s.path = path && s.branchId == branchId && s.writeBuf.isDirty then
      some (s.writeBuf.effectiveSize
        (if s.baseCacheLoaded then s.baseCache.length else s.baseSize))
    else none

end Daemon
end ContextFS
