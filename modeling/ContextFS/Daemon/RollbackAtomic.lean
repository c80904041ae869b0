import ContextFS.Daemon.Publish

/-!
# What a failed rollback leaves behind

`rollback_locked` replaces the tree and invalidates the handles before it writes the ref.  Every
failure up to the rebuild leaves the branch alone; a ref write that fails after it is reported as a
failed rollback of a branch that has changed.
-/

namespace ContextFS

open Std ObjectStore WorkingTree

/-- The handle table after a rollback of the branch `id`. -/
def RollbackOutcome.handles (o : RollbackOutcome) (id : Nat) (fhs : FhTable) : FhTable :=
  if o.invalidated then invalidateFhs id fhs else fhs

/-- The tree, the handles and the ref of the branch are as before the call. -/
structure RollbackOutcome.Unchanged (o : RollbackOutcome) (id : Nat) (name : Bytes)
    (wt : WorkingTree) (fhs : FhTable) (refs : Refs) : Prop where
  tree : o.wt = wt
  handles : o.handles id fhs = fhs
  ref : o.refs.files[name]? = refs.files[name]?

/-- The target resolves to a readable commit whose tree rebuilds to `wt'`. -/
def TargetTree (fuel : Nat) (target : Bytes) (wt : WorkingTree) (name : Bytes) (s : ObjectStore)
    (refs : Refs) (wt' : WorkingTree) : Prop :=
  resolveTarget s refs target name ≠ zeroHash ∧
    ∃ cd, s.readCommit (resolveTarget s refs target name) = some cd ∧
      rebuildWorkingTree fuel cd.treeHash s wt = some (.ok wt')

/-- Every open handle of the branch is stale already. -/
def AllStale (id : Nat) (fhs : FhTable) : Prop :=
  ∀ (fh : Nat) (st : FhState), fhs[fh]? = some st → st.branchId = id → st.stale = true

/-- Wherever the target's tree rebuilds, the ref write succeeds, or the branch is at the target
already: it has this tree, no handle to invalidate, and a ref that the failed write leaves. -/
def RefFailureHarmless (fuel : Nat) (target : Bytes) (id : Nat) (name : Bytes) (wt : WorkingTree)
    (fhs : FhTable) (s : ObjectStore) (refs : Refs) : Prop :=
  ∀ wt', TargetTree fuel target wt name s refs wt' →
    refs.nextFault.1 = .success ∨
      wt' = wt ∧ AllStale id fhs ∧ (refs.nextFault.1 = .beforeRename ∨
        refs.files[name]? = some (hashToHex (resolveTarget s refs target name) ++ [10]))

theorem invalidateFhs_eq_self_iff {id : Nat} {fhs : FhTable} :
    invalidateFhs id fhs = fhs ↔ AllStale id fhs := by
  have hget : ∀ fh : Nat, (invalidateFhs id fhs)[fh]? =
      fhs[fh]?.map fun st : FhState => if st.branchId = id then { st with stale := true } else st := by
    intro fh
    rw [invalidateFhs, ExtTreeMap.getElem?_map]
  constructor
  · intro heq fh st hst hid
    have h := hget fh
    rw [heq, hst, Option.map_some, Option.some.injEq, if_pos hid] at h
    rw [h]
  · intro hall
    apply ExtTreeMap.ext_getElem?
    intro fh
    rw [hget]
    cases hst : fhs[fh]? with
    | none => rfl
    | some st =>
        rw [Option.map_some, Option.some.injEq]
        split
        · rename_i hid
          have hstale := hall fh st hst hid
          cases st
          simp_all
        · rfl

/-- The write of a ref that does not succeed leaves the file, or replaces it all the same. -/
theorem files_writeRef_of_fault (refs : Refs) (name : Bytes) (commit : Hash) :
    ((refs.writeRef name commit).1 = true ↔ refs.nextFault.1 = .success) ∧
      (refs.nextFault.1 = .beforeRename →
        (refs.writeRef name commit).2.files[name]? = refs.files[name]?) ∧
      (refs.nextFault.1 = .afterRename →
        (refs.writeRef name commit).2.files[name]? = some (hashToHex commit ++ [10])) := by
  have hfiles := Refs.nextFault_files refs
  unfold Refs.writeRef
  generalize refs.nextFault = r at hfiles
  obtain ⟨_ | _ | _, r⟩ := r
  · simp
  · have hr : r.files = refs.files := hfiles
    simp [hr]
  · simp

/-- The run where the target's tree rebuilds. -/
theorem rollbackLocked_of_targetTree {fuel : Nat} {target name : Bytes} {wt wt' : WorkingTree}
    {s : ObjectStore} {refs : Refs} (h : TargetTree fuel target wt name s refs wt') :
    ∃ o, rollbackLocked fuel target wt name s refs = some o ∧ o.wt = wt' ∧ o.invalidated = true ∧
      o.refs = (refs.writeRef name (resolveTarget s refs target name)).2 ∧
      o.result.ok = (refs.writeRef name (resolveTarget s refs target name)).1 := by
  obtain ⟨hne, cd, hread, hrebuild⟩ := h
  unfold rollbackLocked
  simp only [if_neg hne]
  unfold ObjectStore.readCommit at hread
  generalize resolveTarget s refs target name = commit at hread
  cases hbody : s.readObject commit .commit with
  | none =>
      rw [hbody] at hread
      cases hread
  | some body =>
      rw [hbody] at hread
      simp only at hread ⊢
      rw [hread]
      simp only [hrebuild]
      generalize refs.writeRef name commit = w
      obtain ⟨_ | _, refs'⟩ := w
      · exact ⟨_, rfl, rfl, rfl, rfl, rfl⟩
      · exact ⟨_, rfl, rfl, rfl, rfl, rfl⟩

/-- A rollback that fails leaves the branch as it was exactly when no ref write fails after the
rebuild, unless that failure changes nothing. -/
theorem rollback_atomic_iff (fuel : Nat) (target : Bytes) (id : Nat) (name : Bytes)
    (wt : WorkingTree) (fhs : FhTable) (s : ObjectStore) (refs : Refs) :
    (∀ o, rollbackLocked fuel target wt name s refs = some o → o.result.ok = false →
      o.Unchanged id name wt fhs refs) ↔
    RefFailureHarmless fuel target id name wt fhs s refs := by
  obtain ⟨hok, hbefore, hafter⟩ :=
    files_writeRef_of_fault refs name (resolveTarget s refs target name)
  constructor
  · intro hatomic wt' htree
    obtain ⟨o, ho, hwt, hinv, hrefs, hresult⟩ := rollbackLocked_of_targetTree htree
    by_cases hsucc : refs.nextFault.1 = .success
    · exact Or.inl hsucc
    have hfail : o.result.ok = false := by
      rw [hresult, ← Bool.not_eq_true, hok]
      exact hsucc
    obtain ⟨htree', hhandles, href⟩ := hatomic o ho hfail
    rw [RollbackOutcome.handles, if_pos hinv, invalidateFhs_eq_self_iff] at hhandles
    refine Or.inr ⟨hwt.symm.trans htree', hhandles, ?_⟩
    cases hfault : refs.nextFault.1 with
    | success => exact absurd hfault hsucc
    | beforeRename => exact Or.inl rfl
    | afterRename =>
        right
        rw [← href, hrefs]
        exact hafter hfault
  · intro hharmless o ho hfail
    rcases rollbackLocked_cases ho with ⟨hwt, hinv, hrefs, -⟩ |
      ⟨cd, hne, hread, hrebuild, hinv, hrefs, hresult⟩
    · exact ⟨hwt, by rw [RollbackOutcome.handles, hinv]; rfl, by rw [hrefs]⟩
    have hsucc : refs.nextFault.1 ≠ .success := by
      intro hsucc
      rw [← hok, ← hresult, hfail] at hsucc
      cases hsucc
    rcases hharmless o.wt ⟨hne, cd, hread, hrebuild⟩ with hs | ⟨hwt, hstale, href⟩
    · exact absurd hs hsucc
    refine ⟨hwt, ?_, ?_⟩
    · rw [RollbackOutcome.handles, if_pos hinv]
      exact invalidateFhs_eq_self_iff.2 hstale
    · rw [hrefs]
      cases hfault : refs.nextFault.1 with
      | success => exact absurd hfault hsucc
      | beforeRename => exact hbefore hfault
      | afterRename =>
          rcases href with hb | hfile
          · rw [hfault] at hb
            cases hb
          · rw [hafter hfault, hfile]

section RefWriteFails

local instance rollbackDigest : Blake3 := foldDigest

/-- An empty directory and a commit of it. -/
def emptyTree : ObjectStore × Hash := ObjectStore.writeTree {} (serializeTreeEntries [])

def emptyCommit : ObjectStore × Hash :=
  emptyTree.1.writeCommit (serializeCommit ⟨emptyTree.2, [], 0, 0, [], 1⟩)

/-- A branch with one file that was not checkpointed. -/
def oneFile : WorkingTree := ({} : WorkingTree).insert [[97]] ⟨.blob, zeroHash, 0o644⟩

/-- `main` is at the commit and the next ref write fails. -/
def fullDisk : Refs where
  files := (∅ : ExtTreeMap Bytes Bytes).insert Refs.mainName (hashToHex emptyCommit.2 ++ [10])
  faults := [.beforeRename]

/-- The rollback to the branch's own commit fails and the file is gone. -/
theorem failed_rollback_drops_file :
    ¬∀ fuel target id name wt fhs s refs o,
      rollbackLocked fuel target wt name s refs = some o → o.result.ok = false →
        o.Unchanged id name wt fhs refs := by
  intro h
  have hrun : (rollbackLocked 2 (hashToHex emptyCommit.2) oneFile Refs.mainName emptyCommit.1
      fullDisk).any (fun o => !o.result.ok && (o.wt.lookupRaw [[97]]).isNone) = true := by
    decide +kernel
  cases ho : rollbackLocked 2 (hashToHex emptyCommit.2) oneFile Refs.mainName emptyCommit.1
      fullDisk with
  | none =>
      rw [ho] at hrun
      cases hrun
  | some o =>
      rw [ho, Option.any_some, Bool.and_eq_true, Bool.not_eq_true'] at hrun
      have hsame := (h _ _ 0 _ _ ∅ _ _ o ho hrun.1).tree
      have hgone := hrun.2
      rw [hsame] at hgone
      cases hgone

end RefWriteFails

end ContextFS
