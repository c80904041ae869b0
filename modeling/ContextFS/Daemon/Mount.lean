import ContextFS.Daemon.Bootstrap
import ContextFS.Daemon.FuseStep
import ContextFS.Daemon.Publish

/-!
# The mounted file system as a whole

The daemon with its background walk, and everything that can happen to it under one lock: a
request, a step of the bootstrap, an operation on branches, a restart.  An operation that would
need more fuel than it is given does not happen.
-/

namespace ContextFS

open Std Lib ObjectStore WorkingTree

/-- `is_valid_branch_name`. -/
def isValidBranchName (name : Bytes) : Bool :=
  let isAlnum := fun c : UInt8 =>
    (48 ≤ c && c ≤ 57) || (65 ≤ c && c ≤ 90) || (97 ≤ c && c ≤ 122)
  let reserved := ["main", "HEAD", "FETCH_HEAD", "ORIG_HEAD", "MERGE_HEAD", "refs", "objects", "tmp",
    "telemetry"]
  name ≠ [] && name.length ≤ 64 && (name.all fun c => isAlnum c || c = 45 || c = 95) &&
    !(reserved.map asciiBytes).contains name

namespace Daemon

/-- `rebuild_branch_from_ref`; `none` when the rebuild has not enough fuel. -/
def rebuildBranchFromRef (d : Daemon) (name : Bytes) (fuel : Nat) :
    Option (Except String WorkingTree) :=
  match d.refs.readRef name with
  | none => some (.error ("failed to read refs/" ++ bytesText name))
  | some commit => loadCommitTree d.store fuel commit

/-- `load_persisted_branches`. -/
def loadPersistedBranches (fuel : Nat) : List Bytes → Daemon → Option Daemon
  | [], d => some d
  | name :: names, d =>
      if name = Refs.mainName || !isValidBranchName name then loadPersistedBranches fuel names d
      else
        let id := d.nextBranchId
        let d := { d with nextBranchId := id + 1 }
        match d.rebuildBranchFromRef name fuel with
        | none => none
        | some (.error _) => loadPersistedBranches fuel names d
        | some (.ok wt) =>
            if (d.branchByName name).isSome then loadPersistedBranches fuel names d
            else
              loadPersistedBranches fuel names
                { d with branches := d.branches.insert id ⟨name, wt⟩ }

section Initialize

variable [Blake3]

/-- The first half of `initialize` on a fresh store: an empty tree, its commit and the ref of
`main`. -/
def writeInitialCommit (d : Daemon) (timestampNs : UInt64) : Bool × Daemon :=
  let r := serializeWorkingTree {} d.store
  if r.root = zeroHash then (false, { d with store := r.store })
  else
    let w := r.store.writeCommit (serializeCommit
      ((d.commitMeta (asciiBytes "initial") timestampNs).commitData r.root []))
    if w.2 = zeroHash then (false, { d with store := w.1 })
    else
      -- everything pending is synced, not only what the commit needs
      let p := w.1.drainPending
      match p.2.fsyncObjects p.1 with
      | (false, s) => (false, { d with store := s.restorePending p.1 })
      | (true, s) =>
          match s.fsyncShardDirs p.1 with
          | (false, s) => (false, { d with store := s.restorePending p.1 })
          | (true, s) =>
              match d.refs.writeRef Refs.mainName w.2 with
              | (ok, refs) => (ok, { d with store := s, refs := refs })

/-- `Daemon::initialize` of a new daemon on the store and refs that `d` has, and whether it
succeeded.  `main` is branch 0; what was pending in the old process is not pending in the new. -/
def initializeDaemon (d : Daemon) (timestampNs : UInt64) (fuel : Nat) : Option (Bool × Daemon) :=
  let d : Daemon := {
    store := { d.store with pending := ∅, lastError := "" }
    refs := d.refs
    branches := (∅ : ExtTreeMap Nat BranchContext).insert 0 ⟨Refs.mainName, {}⟩
    sessionId := d.sessionId
    policyVersion := d.policyVersion }
  let loaded := fun d : Daemon =>
    -- refs that cannot be listed count as none
    (loadPersistedBranches fuel (d.refs.listRefs.toOption.getD []) d).map fun d => (true, d)
  match d.refs.readRef Refs.mainName with
  | none =>
      match d.writeInitialCommit timestampNs with
      | (false, d) => some (false, d)
      | (true, d) => loaded d
  | some _ =>
      match d.rebuildBranchFromRef Refs.mainName fuel with
      | none => none
      | some (.error _) => some (false, d)
      | some (.ok wt) => loaded (d.modifyTree 0 fun _ => wt)

end Initialize

end Daemon

/-- The daemon and its background walk. -/
structure Mount where
  daemon : Daemon
  walker : Walker

/-- Everything that can happen under one lock. -/
inductive MountEvent
  | request (op : FuseOp)
  | release (fh : Nat)
  | ensurePath (source : Source) (path : FsPath)
  | walk (listing : Option (List Name)) (src : SourceEntry)
  | stopWalk
  | checkpoint (b : Nat) (label : Bytes) (order : List Nat) (timestampNs : UInt64)
  | rollback (name : Bytes) (target : Hash) (fuel : Nat)
  | createBranch (name source : Bytes)
  | deleteBranch (name : Bytes) (routed : Bool)
  | merge (source target : Bytes) (args : Daemon.MergeArgs)
  | restart (sessionId timestampNs : UInt64) (fuel : Nat)
  | disk (faults : List (Option String)) (refFaults : List RefFault)

namespace Mount

/-- The store and the working tree of `main` after a step of the bootstrap. -/
def setMain (m : Mount) (store : ObjectStore) (wt : WorkingTree) : Mount :=
  { m with daemon := { m.daemon.modifyTree 0 fun _ => wt with store := store } }

variable [Blake3]

/-- A request in one go. -/
def request (m : Mount) (op : FuseOp) : Answer × Mount :=
  let r := (op.start m.daemon).run m.daemon
  (r.1, { m with daemon := r.2 })

/-- `ensure_path` under the lock of `main`. -/
def ensure (m : Mount) (source : Source) (path : FsPath) : Mount :=
  match m.daemon.tree 0 with
  | none => m
  | some wt =>
      let r := ensurePath source path m.daemon.store wt
      m.setMain r.2.1 r.2.2

/-- A step of the background walk. -/
def walk (m : Mount) (listing : Option (List Name)) (src : SourceEntry) : Mount :=
  match m.daemon.tree 0 with
  | none => m
  | some wt =>
      let r := walkStep m.walker listing src m.daemon.store wt
      { m.setMain r.2.1 r.2.2 with walker := r.1 }

/-- The process ends and a new one starts on the same store: `initialize`, then
`start_background`. -/
def restart (m : Mount) (sessionId timestampNs : UInt64) (fuel : Nat) : Mount :=
  match ({ m.daemon with sessionId := sessionId, policyVersion := 1 } : Daemon).initializeDaemon
      timestampNs fuel with
  | some (true, d) =>
      { daemon := d.modifyTree 0 WorkingTree.beginSourceWalk, walker := .start }
  | _ => m

/-- What an event leads to. -/
def apply (m : Mount) : MountEvent → Mount
  | .request op => (m.request op).2
  | .release fh => { m with daemon := (m.daemon.casRelease fh).2 }
  | .ensurePath source path => m.ensure source path
  | .walk listing src => m.walk listing src
  | .stopWalk => { m with walker := .stopped }
  | .checkpoint b label order timestampNs =>
      { m with daemon := (m.daemon.checkpointBranch b label order timestampNs).2 }
  | .rollback name target fuel =>
      match m.daemon.rollbackBranchToCommit name target fuel with
      | none => m
      | some r => { m with daemon := r.2 }
  | .createBranch name source => { m with daemon := (m.daemon.createBranch name source).2 }
  | .deleteBranch name routed => { m with daemon := (m.daemon.deleteBranch name routed).2 }
  | .merge source target args =>
      match m.daemon.mergeBranch source target args with
      | none => m
      | some r => { m with daemon := r.2 }
  | .restart sessionId timestampNs fuel => m.restart sessionId timestampNs fuel
  | .disk faults refFaults =>
      { m with daemon := {
          m.daemon with
          store := { m.daemon.store with faults := faults }
          refs := { m.daemon.refs with faults := refFaults } } }

/-- Every event leads to one state. -/
def Step (m : Mount) (ev : MountEvent) (m' : Mount) : Prop := m' = m.apply ev

end Mount
end ContextFS
