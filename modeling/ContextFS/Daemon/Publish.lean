import ContextFS.Branch.Merge
import ContextFS.Daemon.State

/-!
# Operations on branches

Checkpoints, rollbacks, forks, deletions and merges.  They all hold the publication gate, so
none of them overlaps another one or a collection.  The order in which a flush visits the
handle table, the time stamps and the fuel of the tree walks are arguments.
-/

namespace ContextFS

open Std Lib ObjectStore WorkingTree

/-- ASCII text as bytes. -/
def asciiBytes (text : String) : Bytes := text.toList.map fun c => UInt8.ofNat c.toNat

/-- `BranchMergeResult`. -/
structure BranchMergeResult where
  ok : Bool := false
  commit : Hash := zeroHash
  conflicts : List FsPath := []
  error : String := ""

namespace Daemon

/-- The fields of a commit that do not depend on the tree. -/
def commitMeta (d : Daemon) (label : Bytes) (timestampNs : UInt64) : CommitMeta :=
  ⟨d.sessionId, timestampNs, label, d.policyVersion⟩

/-- The branch `b` with another working tree. -/
def setTree (d : Daemon) (b : Nat) (br : BranchContext) (wt : WorkingTree) : Daemon :=
  { d with branches := d.branches.insert b { br with wt := wt } }

section Publish

variable [Blake3]

/-- The flush of the dirty handles of a branch before its checkpoint. -/
def flushBranch (d : Daemon) (b : Nat) (br : BranchContext) (order : List Nat) : Bool × Daemon :=
  let f := flushFhs b order (d.store, d.fhTable, br.wt)
  (f.1, { d.setTree b br f.2.2.2 with store := f.2.1, fhTable := f.2.2.1 })

/-- `checkpoint_branch`. -/
def checkpointBranch (d : Daemon) (b : Nat) (label : Bytes) (order : List Nat)
    (timestampNs : UInt64) : CommitResult × Daemon :=
  match d.branch b with
  | none => (.failed "unknown branch", d)
  | some br =>
      let f := d.flushBranch b br order
      let wt := (f.2.tree b).getD br.wt
      let r := checkpointLocked (d.commitMeta label timestampNs) f.1 wt br.name f.2.store f.2.refs
      (r.1, { f.2 with store := r.2.1, refs := r.2.2 })

end Publish

/-- `rollback_branch_to_commit`; `none` when the rebuild has not enough fuel. -/
def rollbackBranchToCommit (d : Daemon) (name : Bytes) (target : Hash) (fuel : Nat) :
    Option (CommitResult × Daemon) :=
  match d.branchByName name with
  | none => some (.failed "unknown branch", d)
  | some (b, br) =>
      match rollbackLocked fuel (hashToHex target) br.wt name d.store d.refs with
      | none => none
      | some o => some (o.result, {
          d.setTree b br o.wt with
          fhTable := if o.invalidated then invalidateFhs b d.fhTable else d.fhTable
          refs := o.refs })

/-- `create_branch`: the live tree of the source is cloned, and the ref of the new branch is the
last commit of the source. -/
def createBranch (d : Daemon) (name source : Bytes) : Option Nat × Daemon :=
  if (d.branchByName name).isSome then (none, d)
  else
    match d.branchByName source with
    | none => (none, d)
    | some (_, br) =>
        let id := d.nextBranchId
        -- the id is used up also where the branch is not made
        let d := { d with nextBranchId := id + 1 }
        match d.refs.readRef source with
        | none => (none, d)
        | some commit =>
            match d.refs.writeRef name commit with
            | (false, refs) => (none, { d with refs := refs })
            | (true, refs) => (some id, {
                d with
                refs := refs
                branches := d.branches.insert id ⟨name, br.wt.clone⟩ })

/-- `delete_branch`; `routed` says whether a cgroup is still registered for the branch. -/
def deleteBranch (d : Daemon) (name : Bytes) (routed : Bool) : Bool × Daemon :=
  if name = Refs.mainName then (false, d)
  else
    match d.branchByName name with
    | none => (false, d)
    | some (b, _) =>
        if routed then (false, d)
        else
          match d.refs.removeRef name with
          | (false, refs) => (false, { d with refs := refs })
          | (true, refs) => (true, {
              d with
              refs := refs
              fhTable := invalidateFhs b d.fhTable
              branches := d.branches.erase b })

section Merge

variable [Blake3]

/-- The labels of the two checkpoints a merge begins with. -/
def preMergeLabel (source target : Bytes) (side : String) : Bytes :=
  asciiBytes "pre-merge " ++ source ++ asciiBytes " into " ++ target ++ asciiBytes side

/-- `default_merge_label`. -/
def defaultMergeLabel (source target label : Bytes) : Bytes :=
  if label = [] then asciiBytes "merge " ++ source ++ asciiBytes " into " ++ target else label

/-- What a merge is given besides the names of the branches. -/
structure MergeArgs where
  label : Bytes := []
  sourceOrder : List Nat
  targetOrder : List Nat
  sourceTime : UInt64
  targetTime : UInt64
  mergeTime : UInt64
  fuel : Nat

/-- `merge_branch` once both branches are checkpointed. -/
def mergeCommits (d : Daemon) (sourceName : Bytes) (target : Nat) (targetBr : BranchContext)
    (sourceCp targetCp : Hash) (args : MergeArgs) : Option (BranchMergeResult × Daemon) :=
  match findCommonAncestor d.store args.fuel sourceCp targetCp with
  | none => none
  | some (.error err) => some ({ error := err }, d)
  | some (.ok baseCommit) =>
      match loadCommitTree d.store args.fuel baseCommit, loadCommitTree d.store args.fuel sourceCp,
        loadCommitTree d.store args.fuel targetCp with
      | some (.ok base), some (.ok source), some (.ok wt) =>
          let merge := mergeTrees base source wt
          if !merge.ok then some ({ error := merge.error, conflicts := merge.conflicts }, d)
          else
            match writeCommitWithParents (d.commitMeta
                (defaultMergeLabel sourceName targetBr.name args.label) args.mergeTime) merge.merged
                [targetCp, sourceCp] d.store with
            | (.error err, store) => some ({ error := err }, { d with store := store })
            | (.ok commit, store) =>
                match d.refs.writeRef targetBr.name commit with
                -- the merge commit is stored, and no ref names it
                | (false, refs) =>
                    some ({ error := "failed to advance refs/" ++ bytesText targetBr.name },
                      { d with store := store, refs := refs })
                | (true, refs) =>
                    some ({ ok := true, commit := commit }, {
                      d.setTree target targetBr merge.merged with
                      store := store
                      refs := refs
                      fhTable := invalidateFhs target d.fhTable })
      -- the first tree that cannot be loaded ends the merge
      | some (.error err), _, _ | some (.ok _), some (.error err), _
      | some (.ok _), some (.ok _), some (.error err) => some ({ error := err }, d)
      | _, _, _ => none

/-- `merge_branch`. -/
def mergeBranch (d : Daemon) (sourceName targetName : Bytes) (args : MergeArgs) :
    Option (BranchMergeResult × Daemon) :=
  match d.branchByName sourceName, d.branchByName targetName with
  | some (source, _), some (target, targetBr) =>
      if source = target then some ({ error := "cannot merge branch into itself" }, d)
      else
        match d.checkpointBranch source (preMergeLabel sourceName targetName " source")
            args.sourceOrder args.sourceTime with
        | (sourceCp, d) =>
            if !sourceCp.ok then some ({ error := sourceCp.error }, d)
            else
              match d.checkpointBranch target (preMergeLabel sourceName targetName " target")
                  args.targetOrder args.targetTime with
              | (targetCp, d) =>
                  if !targetCp.ok then some ({ error := targetCp.error }, d)
                  else d.mergeCommits sourceName target targetBr sourceCp.commit targetCp.commit args
  | _, _ => some ({ error := "unknown branch" }, d)

end Merge

end Daemon
end ContextFS
