import ContextFS.Daemon.FuseStep
import ContextFS.Daemon.Publish

/-!
# What the operations on branches do

For each operation one lemma says which of a few outcomes it has; proofs about runs split on the
outcomes and never unfold an operation.  `flushFhs_induction` is the rule for the flush of all
dirty handles of a branch.
-/

namespace ContextFS

open Std Lib ObjectStore WorkingTree

section Flush

variable [Blake3]

/-- What one flushed handle preserves, the flush of all handles preserves. -/
theorem flushFhs_induction {b : Nat} {I : ObjectStore → FhTable → WorkingTree → Prop}
    (hfail : ∀ store fhs wt fh s, I store fhs wt → fhs[fh]? = some s → s.needsFlush b = true →
      I (store.writeBlob (s.flushData store)).1 (fhs.insert fh (s.ensureBaseCache store)) wt)
    (hflush : ∀ store fhs wt fh s, I store fhs wt → fhs[fh]? = some s → s.needsFlush b = true →
      (store.writeBlob (s.flushData store)).2 ≠ zeroHash →
      I (store.writeBlob (s.flushData store)).1
        (fhs.insert fh (s.flushed (store.writeBlob (s.flushData store)).2 (s.flushData store)))
        (insertFlushed wt s.path (store.writeBlob (s.flushData store)).2))
    (order : List Nat) {store : ObjectStore} {fhs : FhTable} {wt : WorkingTree}
    (h : I store fhs wt) :
    I (flushFhs b order (store, fhs, wt)).2.1 (flushFhs b order (store, fhs, wt)).2.2.1
      (flushFhs b order (store, fhs, wt)).2.2.2 := by
  induction order generalizing store fhs wt with
  | nil => exact h
  | cons fh order ih =>
      cases hfh : fhs[fh]? with
      | none =>
          simp only [flushFhs, hfh]
          exact ih h
      | some s =>
          cases hneeds : s.needsFlush b with
          | false =>
              simp only [flushFhs, hfh, hneeds, Bool.false_eq_true, if_false]
              exact ih h
          | true =>
              by_cases hz : (store.writeBlob (s.flushData store)).2 = zeroHash
              · simp only [flushFhs, hfh, hneeds, hz, if_true]
                exact hfail store fhs wt fh s h hfh hneeds
              · simp only [flushFhs, hfh, hneeds, hz, if_true, if_false]
                exact ih (hflush store fhs wt fh s h hfh hneeds hz)

omit [Blake3] in
theorem FhState.needsFlush_iff {s : FhState} {b : Nat} :
    s.needsFlush b = true ↔ s.branchId = b ∧ s.stale = false ∧ s.writeBuf.isDirty = true := by
  simp [needsFlush, and_assoc]

omit [Blake3] in
@[simp] theorem WriteBuffer.isDirty_clear (w : WriteBuffer) : w.clear.isDirty = false := by
  simp [WriteBuffer.clear, WriteBuffer.isDirty]

omit [Blake3] in
@[simp] theorem FhState.flushed_path (s : FhState) (h : Hash) (data : Bytes) :
    (s.flushed h data).path = s.path := rfl

omit [Blake3] in
@[simp] theorem FhState.needsFlush_flushed (s : FhState) (h : Hash) (data : Bytes) (b : Nat) :
    (s.flushed h data).needsFlush b = false := by
  simp [FhState.needsFlush, FhState.flushed]

omit [Blake3] in
/-- Loading its base changes neither where a handle belongs nor what was written through it. -/
theorem FhState.ensureBaseCache_spec (s : FhState) (store : ObjectStore) :
    (s.ensureBaseCache store).path = s.path ∧
      (s.ensureBaseCache store).branchId = s.branchId ∧
      (s.ensureBaseCache store).stale = s.stale ∧
      (s.ensureBaseCache store).writeBuf = s.writeBuf ∧
      (s.ensureBaseCache store).baseBlob = s.baseBlob := by
  unfold FhState.ensureBaseCache
  split
  · exact ⟨rfl, rfl, rfl, rfl, rfl⟩
  · split
    · exact ⟨rfl, rfl, rfl, rfl, rfl⟩
    · exact ⟨rfl, rfl, rfl, rfl, rfl⟩

end Flush

namespace Daemon

variable {d : Daemon}

/-- The branches of a daemon, one entry replaced. -/
theorem tree_of_branches_insert {d' : Daemon} {b : Nat} {br : BranchContext}
    (h : d'.branches = d.branches.insert b br) (c : Nat) :
    d'.tree c = if b = c then some br.wt else d.tree c := by
  unfold tree branch
  rw [h, ExtTreeMap.getElem?_insert]
  by_cases hbc : b = c
  · simp [hbc]
  · simp [hbc]

theorem branchByName_eq_some {name : Bytes} {b : Nat} {br : BranchContext}
    (h : d.branchByName name = some (b, br)) : d.branch b = some br ∧ br.name = name := by
  have hmem := List.mem_of_find?_eq_some h
  have hname := List.find?_some h
  exact ⟨ExtTreeMap.mem_toList_iff_getElem?_eq_some.1 hmem, by simpa using hname⟩

theorem getFh_invalidateFhs (b : Nat) (fhs : FhTable) (fh : Nat) :
    (invalidateFhs b fhs)[fh]? =
      (fhs[fh]?).map fun s => if s.branchId = b then { s with stale := true } else s := by
  simp [invalidateFhs]

section Checkpoint

variable [Blake3]

/-- The state `checkpoint_branch` leaves. -/
theorem checkpointBranch_eq {b : Nat} {br : BranchContext} (hbr : d.branch b = some br)
    (label : Bytes) (order : List Nat) (timestampNs : UInt64) :
    let f := flushFhs b order (d.store, d.fhTable, br.wt)
    let r := checkpointLocked (d.commitMeta label timestampNs) f.1 f.2.2.2 br.name f.2.1 d.refs
    d.checkpointBranch b label order timestampNs = (r.1, {
      d with
      store := r.2.1
      refs := r.2.2
      fhTable := f.2.2.1
      branches := d.branches.insert b { br with wt := f.2.2.2 } }) := by
  have htree : ((d.flushBranch b br order).2.tree b).getD br.wt =
      (flushFhs b order (d.store, d.fhTable, br.wt)).2.2.2 := by
    rw [tree_of_branches_insert (d := d) rfl b, if_pos rfl]
    rfl
  simp only [checkpointBranch, hbr, htree]
  rfl

theorem checkpointBranch_of_none {b : Nat} (hbr : d.branch b = none) (label : Bytes)
    (order : List Nat) (timestampNs : UInt64) :
    d.checkpointBranch b label order timestampNs = (.failed "unknown branch", d) := by
  simp only [checkpointBranch, hbr]

end Checkpoint

/-- A rollback fails and changes nothing, or rebuilds the tree and invalidates the handles. -/
theorem rollbackBranchToCommit_cases {name : Bytes} {target : Hash} {fuel : Nat}
    {r : CommitResult × Daemon} (h : d.rollbackBranchToCommit name target fuel = some r) :
    (r.1.ok = false ∧ r.2.branches = d.branches ∧ r.2.store = d.store ∧
        r.2.fhTable = d.fhTable ∧ r.2.refs = d.refs ∧ r.2.nextFhId = d.nextFhId) ∨
      ∃ b br o, d.branchByName name = some (b, br) ∧
        rollbackLocked fuel (hashToHex target) br.wt name d.store d.refs = some o ∧
        o.invalidated = true ∧
        r = (o.result, {
          d with
          branches := d.branches.insert b { br with wt := o.wt }
          fhTable := invalidateFhs b d.fhTable
          refs := o.refs }) := by
  unfold rollbackBranchToCommit at h
  split at h
  · cases h
    exact Or.inl ⟨rfl, rfl, rfl, rfl, rfl, rfl⟩
  rename_i b br hname
  split at h
  · cases h
  rename_i o ho
  have hr := (Option.some.inj h).symm
  rcases rollbackLocked_cases ho with ⟨hwt, hinv, hrefs, hfail⟩ | ⟨cd, -, -, -, hinv, -⟩
  · left
    subst hr
    have hbr := (branchByName_eq_some hname).1
    have hsame : d.branches.insert b { br with wt := o.wt } = d.branches := by
      rw [hwt]
      exact ExtTreeMap.ext_getElem? fun k => by
        rw [ExtTreeMap.getElem?_insert]
        split
        · rename_i hk
          rw [← LawfulEqCmp.eq_of_compare hk]
          exact hbr.symm
        · rfl
    exact ⟨hfail, hsame, rfl, by simp [hinv], hrefs, rfl⟩
  · right
    refine ⟨b, br, o, hname, ho, hinv, ?_⟩
    rw [hr, if_pos hinv]
    rfl

/-- A fork fails, or adds a branch with the live tree of the source and its last commit. -/
theorem createBranch_cases (d : Daemon) (name source : Bytes) :
    (∃ next refs, d.createBranch name source = (none, { d with nextBranchId := next, refs := refs })) ∨
      ∃ b br commit refs, d.branchByName source = some (b, br) ∧
        d.branchByName name = none ∧ d.refs.readRef source = some commit ∧
        d.refs.writeRef name commit = (true, refs) ∧
        d.createBranch name source = (some d.nextBranchId, {
          d with
          nextBranchId := d.nextBranchId + 1
          refs := refs
          branches := d.branches.insert d.nextBranchId ⟨name, br.wt⟩ }) := by
  unfold createBranch
  split
  · exact Or.inl ⟨d.nextBranchId, d.refs, rfl⟩
  rename_i hname
  split
  · exact Or.inl ⟨d.nextBranchId, d.refs, rfl⟩
  rename_i b br hbr
  simp only
  split
  · exact Or.inl ⟨d.nextBranchId + 1, d.refs, rfl⟩
  rename_i commit hcommit
  split
  · rename_i refs _
    exact Or.inl ⟨d.nextBranchId + 1, refs, rfl⟩
  · rename_i refs hw
    exact Or.inr ⟨b, br, commit, refs, hbr, by simpa using hname, hcommit, hw, rfl⟩

/-- A deletion fails, or takes the branch out and invalidates its handles. -/
theorem deleteBranch_cases (d : Daemon) (name : Bytes) (routed : Bool) :
    (∃ refs, d.deleteBranch name routed = (false, { d with refs := refs })) ∨
      ∃ b br refs, d.branchByName name = some (b, br) ∧ name ≠ Refs.mainName ∧
        d.deleteBranch name routed = (true, {
          d with
          refs := refs
          fhTable := invalidateFhs b d.fhTable
          branches := d.branches.erase b }) := by
  unfold deleteBranch
  split
  · exact Or.inl ⟨d.refs, rfl⟩
  rename_i hmain
  split
  · exact Or.inl ⟨d.refs, rfl⟩
  rename_i b br hbr
  split
  · exact Or.inl ⟨d.refs, rfl⟩
  split
  · rename_i refs _
    exact Or.inl ⟨refs, rfl⟩
  · rename_i refs _
    exact Or.inr ⟨b, br, refs, hbr, hmain, rfl⟩

section Merge

variable [Blake3]

/-- How the second half of a merge ends: it changes nothing, or a merge of three loaded trees
succeeded and its commit was written, and perhaps the ref, before something failed, or the
target took the merged tree over. -/
inductive MergeOutcome (d : Daemon) (sourceName : Bytes) (target : Nat) (targetBr : BranchContext)
    (sourceCp targetCp : Hash) (args : MergeArgs) : BranchMergeResult × Daemon → Prop
  | failed (r : BranchMergeResult) (hr : r.ok = false) :
      MergeOutcome d sourceName target targetBr sourceCp targetCp args (r, d)
  | unpublished {baseCommit base source wt info} (refs : Refs) (r : BranchMergeResult)
      (hbase : loadCommitTree d.store args.fuel baseCommit = some (.ok base))
      (hsource : loadCommitTree d.store args.fuel sourceCp = some (.ok source))
      (htarget : loadCommitTree d.store args.fuel targetCp = some (.ok wt))
      (hok : (mergeTrees base source wt).ok = true) (hr : r.ok = false) :
      MergeOutcome d sourceName target targetBr sourceCp targetCp args (r, {
        d with
        store := (publishCommit info (mergeTrees base source wt).merged [targetCp, sourceCp]
          d.store).2
        refs := refs })
  | published {baseCommit base source wt info commit refs}
      (hancestor : findCommonAncestor d.store args.fuel sourceCp targetCp = some (.ok baseCommit))
      (hbase : loadCommitTree d.store args.fuel baseCommit = some (.ok base))
      (hsource : loadCommitTree d.store args.fuel sourceCp = some (.ok source))
      (htarget : loadCommitTree d.store args.fuel targetCp = some (.ok wt))
      (hok : (mergeTrees base source wt).ok = true)
      (hcommit : (publishCommit info (mergeTrees base source wt).merged [targetCp, sourceCp]
        d.store).1 = .ok commit)
      (hrefs : d.refs.writeRef targetBr.name commit = (true, refs)) :
      MergeOutcome d sourceName target targetBr sourceCp targetCp args
        ({ ok := true, commit := commit }, {
          d with
          store := (publishCommit info (mergeTrees base source wt).merged [targetCp, sourceCp]
            d.store).2
          refs := refs
          fhTable := invalidateFhs target d.fhTable
          branches := d.branches.insert target
            { targetBr with wt := (mergeTrees base source wt).merged } })

theorem mergeCommits_outcome {sourceName : Bytes} {target : Nat} {targetBr : BranchContext}
    {sourceCp targetCp : Hash} {args : MergeArgs} {r : BranchMergeResult × Daemon}
    (h : d.mergeCommits sourceName target targetBr sourceCp targetCp args = some r) :
    MergeOutcome d sourceName target targetBr sourceCp targetCp args r := by
  unfold mergeCommits at h
  split at h
  · cases h
  · cases h
    exact .failed _ rfl
  rename_i baseCommit hancestor
  split at h
  · rename_i base source wt hbase hsource htarget
    simp only at h
    split at h
    · cases h
      exact .failed _ rfl
    rename_i hnot
    have hok : (mergeTrees base source wt).ok = true := by simpa using hnot
    generalize hinfo : d.commitMeta (defaultMergeLabel sourceName targetBr.name args.label)
      args.mergeTime = info at h
    unfold writeCommitWithParents at h
    rcases hpub : publishCommit info (mergeTrees base source wt).merged [targetCp, sourceCp]
      d.store with ⟨failure | commit, store⟩
    · rw [hpub] at h
      simp only [Option.some.injEq] at h
      obtain rfl : (publishCommit info (mergeTrees base source wt).merged [targetCp, sourceCp]
        d.store).2 = store := by rw [hpub]
      subst h
      exact .unpublished d.refs _ hbase hsource htarget hok rfl
    · rw [hpub] at h
      simp only at h
      obtain rfl : (publishCommit info (mergeTrees base source wt).merged [targetCp, sourceCp]
        d.store).2 = store := by rw [hpub]
      split at h
      · rename_i refs _
        cases h
        exact .unpublished refs _ hbase hsource htarget hok rfl
      · rename_i refs hw
        cases h
        exact .published hancestor hbase hsource htarget hok (by rw [hpub]) hw
  · cases h
    exact .failed _ rfl
  · cases h
    exact .failed _ rfl
  · cases h
    exact .failed _ rfl
  · cases h

/-- A merge fails before, at or between its two checkpoints, or goes on with the commits of
both. -/
inductive MergeBranchOutcome (d : Daemon) (sourceName targetName : Bytes) (args : MergeArgs) :
    BranchMergeResult × Daemon → Prop
  | refused (r : BranchMergeResult) (hr : r.ok = false) :
      MergeBranchOutcome d sourceName targetName args (r, d)
  | sourceFailed {source target sourceBr targetBr cp} (r : BranchMergeResult)
      (hsource : d.branchByName sourceName = some (source, sourceBr))
      (htarget : d.branchByName targetName = some (target, targetBr)) (hne : source ≠ target)
      (hcp : d.checkpointBranch source (preMergeLabel sourceName targetName " source")
        args.sourceOrder args.sourceTime = cp) (hr : r.ok = false) :
      MergeBranchOutcome d sourceName targetName args (r, cp.2)
  | targetFailed {source target sourceBr targetBr cp cp'} (r : BranchMergeResult)
      (hsource : d.branchByName sourceName = some (source, sourceBr))
      (htarget : d.branchByName targetName = some (target, targetBr)) (hne : source ≠ target)
      (hcp : d.checkpointBranch source (preMergeLabel sourceName targetName " source")
        args.sourceOrder args.sourceTime = cp) (hok : cp.1.ok = true)
      (hcp' : cp.2.checkpointBranch target (preMergeLabel sourceName targetName " target")
        args.targetOrder args.targetTime = cp') (hr : r.ok = false) :
      MergeBranchOutcome d sourceName targetName args (r, cp'.2)
  | merged {source target sourceBr targetBr cp cp' r}
      (hsource : d.branchByName sourceName = some (source, sourceBr))
      (htarget : d.branchByName targetName = some (target, targetBr)) (hne : source ≠ target)
      (hcp : d.checkpointBranch source (preMergeLabel sourceName targetName " source")
        args.sourceOrder args.sourceTime = cp) (hok : cp.1.ok = true)
      (hcp' : cp.2.checkpointBranch target (preMergeLabel sourceName targetName " target")
        args.targetOrder args.targetTime = cp') (hok' : cp'.1.ok = true)
      (hr : cp'.2.mergeCommits sourceName target targetBr cp.1.commit cp'.1.commit args = some r) :
      MergeBranchOutcome d sourceName targetName args r

theorem mergeBranch_outcome {sourceName targetName : Bytes} {args : MergeArgs}
    {r : BranchMergeResult × Daemon} (h : d.mergeBranch sourceName targetName args = some r) :
    MergeBranchOutcome d sourceName targetName args r := by
  unfold mergeBranch at h
  split at h
  · rename_i source sourceBr target targetBr hsource htarget
    split at h
    · cases h
      exact .refused _ rfl
    rename_i hne
    rcases hcp : d.checkpointBranch source (preMergeLabel sourceName targetName " source")
      args.sourceOrder args.sourceTime with ⟨cp, d₁⟩
    rw [hcp] at h
    simp only at h
    split at h
    · cases h
      exact .sourceFailed _ hsource htarget hne hcp rfl
    rename_i hok
    rcases hcp' : d₁.checkpointBranch target (preMergeLabel sourceName targetName " target")
      args.targetOrder args.targetTime with ⟨cp', d₂⟩
    rw [hcp'] at h
    simp only at h
    split at h
    · cases h
      exact .targetFailed _ hsource htarget hne hcp (by simpa using hok) hcp' rfl
    rename_i hok'
    exact .merged hsource htarget hne hcp (by simpa using hok) hcp' (by simpa using hok') h
  · cases h
    exact .refused _ rfl

end Merge

end Daemon
end ContextFS
