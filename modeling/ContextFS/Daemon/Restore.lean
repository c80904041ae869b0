import ContextFS.Daemon.LinkedTrees
import ContextFS.Daemon.MergeBranch
import ContextFS.Daemon.RollbackAtomic
import ContextFS.Gc.LatestScan

/-!
# What a commit brings back

Nothing that happens to the mounted file system takes an object out of the store.  So the commit of
a checkpoint shows what the branch showed when it was made, for as long as no collection runs: a
rollback to it and a restart of the daemon on it both bring that view back.
-/

namespace ContextFS

open Std Lib ObjectStore WorkingTree

section Restore

variable [Blake3]

/-! ## Objects stay -/

theorem extends_insertBlob (path : FsPath) (kind : EntryKind) (mode : UInt32) (data : Bytes)
    (text : String) (store : ObjectStore) (wt : WorkingTree) :
    Extends store (insertBlob path kind mode data text store wt).2.1 := by
  unfold insertBlob
  simp only
  split
  · exact extends_writeObject store .blob _
  · exact extends_writeObject store .blob _

theorem extends_ingestEntry (path : FsPath) (src : SourceEntry) (store : ObjectStore)
    (wt : WorkingTree) : Extends store (ingestEntry path src store wt).2.1 := by
  cases src with
  | missing => exact .refl store
  | unsupported => exact .refl store
  | failed text => exact .refl store
  | directory perms => exact .refl store
  | symlink perms target => exact extends_insertBlob _ _ _ _ _ store wt
  | file perms data => exact extends_insertBlob _ _ _ _ _ store wt

theorem extends_ingestMissing (source : Source) (missing : List FsPath) (store : ObjectStore)
    (wt : WorkingTree) : Extends store (ingestMissing source missing store wt).2.1 := by
  induction missing generalizing store wt with
  | nil => exact .refl store
  | cons q rest ih =>
      unfold ingestMissing
      split
      · split
        · exact .refl store
        · exact ih store wt
      · split
        · exact .refl store
        · have hentry := extends_ingestEntry q (source q) store wt
          split
          · rename_i store' wt' heq
            rw [heq] at hentry
            exact hentry.trans (ih store' wt')
          · rename_i store' wt' _ heq
            rw [heq] at hentry
            exact hentry

theorem extends_ensurePath (source : Source) (path : FsPath) (store : ObjectStore)
    (wt : WorkingTree) : Extends store (ensurePath source path store wt).2.1 := by
  unfold ensurePath
  split
  · exact .refl store
  · exact extends_ingestMissing source _ store wt

theorem extends_walkStep (w : Walker) (listing : Option (List Name)) (src : SourceEntry)
    (store : ObjectStore) (wt : WorkingTree) :
    Extends store (walkStep w listing src store wt).2.1 := by
  unfold walkStep
  split
  · exact .refl store
  · rename_i queue dir name rest
    unfold walkChild
    simp only
    have hentry := extends_ingestEntry (dir ++ [name]) src store wt
    split
    · exact .refl store
    · split
      · exact .refl store
      · exact .refl store
      · exact .refl store
      · split
        · rename_i store' wt' heq
          rw [heq] at hentry
          exact hentry
        · rename_i store' wt' heq
          rw [heq] at hentry
          exact hentry
        · rename_i store' wt' _ heq
          rw [heq] at hentry
          exact hentry
  · exact .refl store
  · split
    · exact .refl store
    · exact .refl store
  · exact .refl store

namespace Daemon

variable {d : Daemon}

theorem extends_request (d : Daemon) (op : FuseOp) :
    Extends d.store ((op.start d).run d).2.store := by
  have hwrite : ∀ (data : Bytes) (finish : Hash → Daemon → Answer × Daemon),
      (∀ h (d' : Daemon), (finish h d').2.store = d'.store) →
      Extends d.store ((Critical.write data finish).run d).2.store := by
    intro data finish hfinish
    rw [Critical.run, hfinish]
    exact extends_writeObject d.store .blob _
  have hput : ∀ (b : Nat) (path : FsPath) (kind : EntryKind) (mode : UInt32) (h : Hash)
      (d' : Daemon), (putBlob b path kind mode h d').2.store = d'.store := by
    intro b path kind mode h d'
    rw [putBlob, modifyTree_store]
  have hempty : ∀ (b : Nat) (br : BranchContext) (path : FsPath) (mode : UInt32) (h : Hash)
      (d' : Daemon), (Daemon.openEmpty b br path mode h d').2.store = d'.store := by
    intro b br path mode h d'
    rw [Daemon.openEmpty, allocateFh_store, modifyTree_store]
  have hstarted := op.started d
  generalize op.start d = c at hstarted
  cases hstarted with
  | refused op e => exact .refl _
  | opened => exact .refl _
  | openTrunc => exact hwrite _ _ (hempty _ _ _ _)
  | create => exact hwrite _ _ (hempty _ _ _ _)
  | read => exact Extends.of_objects_eq (by simp [Critical.run]) (by simp [Critical.run])
  | write => exact Extends.of_objects_eq (by simp [Critical.run]) (by simp [Critical.run])
  | flushClean => exact .refl _
  | flush =>
      refine hwrite _ _ fun h d' => ?_
      unfold putFlushed
      split
      · simp
      · simp
  | truncateFh => exact Extends.of_objects_eq (by simp [Critical.run]) (by simp [Critical.run])
  | truncate => exact hwrite _ _ (hput _ _ _ _)
  | unlink => exact Extends.of_objects_eq (by simp [Critical.run]) (by simp [Critical.run])
  | rmdir => exact Extends.of_objects_eq (by simp [Critical.run]) (by simp [Critical.run])
  | mkdir => exact Extends.of_objects_eq (by simp [Critical.run]) (by simp [Critical.run])
  | renameDir => exact Extends.of_objects_eq (by simp [Critical.run]) (by simp [Critical.run])
  | renameEntry => exact Extends.of_objects_eq (by simp [Critical.run]) (by simp [Critical.run])
  | symlink => exact hwrite _ _ (hput _ _ _ _)
  | chmod => exact Extends.of_objects_eq (by simp [Critical.run]) (by simp [Critical.run])

theorem extends_checkpointBranch (d : Daemon) (b : Nat) (label : Bytes) (order : List Nat)
    (timestampNs : UInt64) :
    Extends d.store (d.checkpointBranch b label order timestampNs).2.store := by
  cases hbr : d.branch b with
  | none =>
      rw [checkpointBranch_of_none hbr]
  | some br => exact (checkpointBranch_spec hbr label order timestampNs).store

omit [Blake3] in
theorem rollback_store {name : Bytes} {target : Hash} {fuel : Nat} {r : CommitResult × Daemon}
    (h : d.rollbackBranchToCommit name target fuel = some r) : r.2.store = d.store := by
  rcases rollbackBranchToCommit_cases h with ⟨-, -, hstore, -⟩ | ⟨b, br, o, -, -, -, rfl⟩
  · exact hstore
  · rfl

omit [Blake3] in
theorem createBranch_store (d : Daemon) (name source : Bytes) :
    (d.createBranch name source).2.store = d.store := by
  rcases createBranch_cases d name source with ⟨next, refs, h⟩ | ⟨b, br, commit, refs, -, -, -, -, h⟩
  · rw [h]
  · rw [h]

omit [Blake3] in
theorem deleteBranch_store (d : Daemon) (name : Bytes) (routed : Bool) :
    (d.deleteBranch name routed).2.store = d.store := by
  rcases deleteBranch_cases d name routed with ⟨refs, h⟩ | ⟨b, br, refs, -, -, h⟩
  · rw [h]
  · rw [h]

theorem extends_mergeCommits {sourceName : Bytes} {target : Nat} {targetBr : BranchContext}
    {sourceCp targetCp : Hash} {args : MergeArgs} {r : BranchMergeResult × Daemon}
    (h : d.mergeCommits sourceName target targetBr sourceCp targetCp args = some r) :
    Extends d.store r.2.store := by
  cases mergeCommits_outcome h with
  | failed r hr => exact .refl _
  | @unpublished _ base source wt info =>
      have hgrow := (grows_publishCommit info (mergeTrees base source wt).merged
        [targetCp, sourceCp] d.store).extends_
      simp only
      exact hgrow
  | @published _ base source wt info =>
      have hgrow := (grows_publishCommit info (mergeTrees base source wt).merged
        [targetCp, sourceCp] d.store).extends_
      simp only
      exact hgrow

theorem extends_mergeBranch {sourceName targetName : Bytes} {args : MergeArgs}
    {r : BranchMergeResult × Daemon} (h : d.mergeBranch sourceName targetName args = some r) :
    Extends d.store r.2.store := by
  cases mergeBranch_outcome h with
  | refused r hr => exact .refl _
  | sourceFailed r hsource htarget hne hcp hr =>
      subst hcp
      exact extends_checkpointBranch d _ _ _ _
  | @targetFailed _ _ _ _ cp cp' r hsource htarget hne hcp hok hcp' hr =>
      have he : Extends d.store cp.2.store := hcp ▸ extends_checkpointBranch d _ _ _ _
      have he' : Extends cp.2.store cp'.2.store := hcp' ▸ extends_checkpointBranch cp.2 _ _ _ _
      exact he.trans he'
  | @merged _ _ _ _ cp cp' r hsource htarget hne hcp hok hcp' hok' hr =>
      have he : Extends d.store cp.2.store := hcp ▸ extends_checkpointBranch d _ _ _ _
      have he' : Extends cp.2.store cp'.2.store := hcp' ▸ extends_checkpointBranch cp.2 _ _ _ _
      exact (he.trans he').trans (extends_mergeCommits hr)

theorem extends_writeInitialCommit (d : Daemon) (timestampNs : UInt64) :
    Extends d.store (d.writeInitialCommit timestampNs).2.store := by
  have hser := (published_serializeWorkingTree {} d.store).extends_
  unfold writeInitialCommit
  simp only
  split
  · exact hser
  · generalize hw : (serializeWorkingTree {} d.store).store.writeCommit _ = w
    have hwrite : Extends d.store w.1 := by
      rw [← hw]
      exact hser.trans (extends_writeObject _ _ _)
    split
    · exact hwrite
    · obtain ⟨s₀, h₀, hdrain⟩ := published_drainPending w.1
      rw [hdrain]
      simp only
      have hdrained : Extends d.store { s₀ with pending := ∅ } :=
        (hwrite.trans h₀.extends_).trans (Extends.of_objects_eq rfl rfl)
      have hfsync := hdrained.trans (published_fsyncObjects { s₀ with pending := ∅ }
        s₀.pending.toList).extends_
      generalize fsyncObjects { s₀ with pending := ∅ } s₀.pending.toList = r at hfsync ⊢
      obtain ⟨_ | _, s₁⟩ := r
      · exact hfsync.trans (Extends.of_objects_eq rfl rfl)
      · obtain ⟨s₂, h₂, heq | heq⟩ := fsyncShardDirs_cases s₁ s₀.pending.toList
        · simp only [heq]
          exact (hfsync.trans h₂.extends_).trans (Extends.of_objects_eq rfl rfl)
        · simp only [heq]
          exact (hfsync.trans h₂.extends_).trans (Extends.of_objects_eq rfl rfl)

omit [Blake3] in
/-- Loading the branches of a store changes neither the store nor the refs, and leaves the branches
that are there. -/
theorem loadPersistedBranches_kept {fuel : Nat} {names : List Bytes} {d d' : Daemon}
    (h : loadPersistedBranches fuel names d = some d') :
    d'.store = d.store ∧ d'.refs = d.refs := by
  induction names generalizing d with
  | nil =>
      cases h
      exact ⟨rfl, rfl⟩
  | cons name names ih =>
      unfold loadPersistedBranches at h
      split at h
      · exact ih h
      · simp only at h
        split at h
        · cases h
        · have hrest := ih h
          exact hrest
        · split at h
          · have hrest := ih h
            exact hrest
          · have hrest := ih h
            exact hrest

theorem extends_initializeDaemon {d d' : Daemon} {timestampNs : UInt64} {fuel : Nat} {ok : Bool}
    (h : d.initializeDaemon timestampNs fuel = some (ok, d')) : Extends d.store d'.store := by
  have hstart : Extends d.store { d.store with pending := ∅, lastError := "" } :=
    Extends.of_objects_eq rfl rfl
  have hload : ∀ {d₀ : Daemon} {names : List Bytes}, Extends d.store d₀.store →
      (loadPersistedBranches fuel names d₀).map (fun d => (true, d)) = some (ok, d') →
      Extends d.store d'.store := by
    intro d₀ names he hl
    obtain ⟨d₁, hd₁, heq⟩ := Option.map_eq_some_iff.1 hl
    cases heq
    rw [(loadPersistedBranches_kept hd₁).1]
    exact he
  unfold initializeDaemon at h
  simp only at h
  split at h
  · split at h
    · rename_i d₁ hw
      have hwritten := extends_writeInitialCommit {
        store := { d.store with pending := ∅, lastError := "" }
        refs := d.refs
        branches := (∅ : ExtTreeMap Nat BranchContext).insert 0 ⟨Refs.mainName, {}⟩
        sessionId := d.sessionId
        policyVersion := d.policyVersion } timestampNs
      rw [hw] at hwritten
      cases h
      exact hstart.trans hwritten
    · rename_i d₁ hw
      have hwritten := extends_writeInitialCommit {
        store := { d.store with pending := ∅, lastError := "" }
        refs := d.refs
        branches := (∅ : ExtTreeMap Nat BranchContext).insert 0 ⟨Refs.mainName, {}⟩
        sessionId := d.sessionId
        policyVersion := d.policyVersion } timestampNs
      rw [hw] at hwritten
      exact hload (hstart.trans hwritten) h
  · split at h
    · cases h
    · cases h
      exact hstart
    · refine hload ?_ h
      rw [modifyTree_store]
      exact hstart

end Daemon

namespace Mount

/-- No event takes an object away. -/
theorem extends_apply (m : Mount) (ev : MountEvent) :
    Extends m.daemon.store (m.apply ev).daemon.store := by
  cases ev with
  | request op => exact Daemon.extends_request m.daemon op
  | release fh => exact Daemon.extends_request m.daemon (.flush fh)
  | ensurePath source path =>
      show Extends _ (m.ensure source path).daemon.store
      unfold ensure
      split
      · exact .refl _
      · exact extends_ensurePath source path _ _
  | walk listing src =>
      show Extends _ (m.walk listing src).daemon.store
      unfold walk
      split
      · exact .refl _
      · exact extends_walkStep m.walker listing src _ _
  | stopWalk => exact .refl _
  | checkpoint b label order timestampNs =>
      simp only [Mount.apply]
      exact m.daemon.extends_checkpointBranch b label order timestampNs
  | rollback name target fuel =>
      simp only [Mount.apply]
      split
      · exact .refl _
      · rename_i r hr
        rw [Daemon.rollback_store hr]
  | createBranch name source =>
      simp only [Mount.apply]
      rw [Daemon.createBranch_store]
  | deleteBranch name routed =>
      simp only [Mount.apply]
      rw [Daemon.deleteBranch_store]
  | merge source target args =>
      simp only [Mount.apply]
      split
      · exact .refl _
      · rename_i r hr
        exact Daemon.extends_mergeBranch hr
  | restart sessionId timestampNs fuel =>
      show Extends _ (m.restart sessionId timestampNs fuel).daemon.store
      unfold restart
      split
      · rename_i d hd
        have he := Daemon.extends_initializeDaemon hd
        simp only [Daemon.modifyTree_store]
        exact he
      · exact .refl _
  | disk faults refFaults => exact Extends.of_objects_eq rfl rfl

theorem extends_of_reaches {m m' : Mount} (h : Reaches (fun x => x = m) Step m') :
    Extends m.daemon.store m'.daemon.store := by
  refine h.invariant (I := fun x => Extends m.daemon.store x.daemon.store) ?_ ?_
  · rintro x rfl
    exact .refl _
  · rintro x ev x' he rfl
    exact he.trans (x.extends_apply ev)

end Mount

/-! ## What a commit shows -/

/-- The commit can be read, and with enough fuel a rebuild of its tree, over whatever tree there
was, shows what `shown` shows. -/
def CommitShows (s : ObjectStore) (commit : Hash) (shown : WorkingTree) : Prop :=
  commit ≠ zeroHash ∧ ∃ cd, s.readCommit commit = some cd ∧
    ∀ wt, ∃ n wt', wt'.SameLive shown ∧
      ∀ fuel ≥ n, rebuildWorkingTree fuel cd.treeHash s wt = some (.ok wt')

/-- The commit of a closed tree shows the live view of the tree. -/
theorem commitShows_of_published {info : CommitMeta} {wt : WorkingTree} {parents : List Hash}
    {s s' s'' : ObjectStore} {commit : Hash}
    (hok : publishCommit info wt parents s = (.ok commit, s')) (hparents : parents.length < 2 ^ 27)
    (he : Extends s' s'') (hc : s''.collided = false) (hs : Contents GoodTreeFile s'')
    (hclosed : wt.Closed) (hnamed : wt.WellNamed) (hcounts : wt.FitsCounts)
    (hstorable : wt.Storable) : CommitShows s'' commit wt := by
  have hne : commit ≠ zeroHash := by
    obtain ⟨r, w, -, -, -, hw, rfl, -⟩ := publishCommit_ok hok
    exact hw
  obtain ⟨hread, hdir⟩ := dirWritten_publishCommit hok hparents he hc
  refine ⟨hne, _, hread, fun wt₀ => ?_⟩
  obtain ⟨n, m, hm⟩ := hdir.readable.exists_rebuildWorkingTree wt₀
  refine ⟨n, wt₀.setBase m, ?_, hm⟩
  exact sameLive_of_dirWritten hdir hclosed hnamed hcounts hstorable
    (lookupRaw_rebuildWorkingTree (hm n (Nat.le_refl n)) (singleValued_of_contents hs _))

namespace CommitShows

variable {s : ObjectStore} {commit : Hash} {shown : WorkingTree}

omit [Blake3] in
/-- Its hash in hexadecimal resolves to the commit, on whatever branch. -/
theorem resolveTarget_eq (h : CommitShows s commit shown) (refs : Refs) (branch : Bytes) :
    resolveTarget s refs (hashToHex commit) branch = commit := by
  obtain ⟨-, cd, hread, -⟩ := h
  have hexists : s.objectExists commit = true := by
    unfold ObjectStore.readCommit ObjectStore.readObject at hread
    unfold ObjectStore.objectExists
    cases hf : s.objects[commit]? with
    | none =>
        rw [hf] at hread
        cases hread
    | some f =>
        rw [ExtTreeMap.contains_iff_mem, ExtTreeMap.mem_iff_isSome_getElem?, hf]
        rfl
  unfold resolveTarget
  rw [if_pos (length_hashToHex commit), hexToHash_hashToHex, Option.filter_some, hexists]
  rfl

omit [Blake3] in
/-- A rebuild that succeeded is not disturbed by what is added to the store. -/
theorem rebuildLoop_of_extends {s' : ObjectStore} (he : Extends s s') {fuel : Nat}
    {stack : List (Hash × FsPath)} {scratch m : EntryMap}
    (h : rebuildLoop s fuel stack scratch = some (.ok m)) :
    rebuildLoop s' fuel stack scratch = some (.ok m) := by
  induction fuel generalizing stack scratch with
  | zero => cases h
  | succ fuel ih =>
      cases stack with
      | nil => exact h
      | cons top stack =>
          obtain ⟨hash, pre⟩ := top
          obtain ⟨es, hes, h⟩ := exists_dirEntries_of_rebuildLoop_ok h
          rw [rebuildLoop_succ (he.dirEntries hes)]
          exact ih h

omit [Blake3] in
theorem mono {s' : ObjectStore} (h : CommitShows s commit shown) (he : Extends s s') :
    CommitShows s' commit shown := by
  obtain ⟨hne, cd, hread, hrebuild⟩ := h
  refine ⟨hne, cd, he.readCommit hread, fun wt => ?_⟩
  obtain ⟨n, wt', hsame, hm⟩ := hrebuild wt
  refine ⟨n, wt', hsame, fun fuel hfuel => ?_⟩
  have hok := hm fuel hfuel
  unfold rebuildWorkingTree at hok ⊢
  split at hok
  · cases hok
  · cases hok
  · rename_i m hloop
    rw [rebuildLoop_of_extends he hloop]
    exact hok

omit [Blake3] in
/-- A rollback to the commit, with enough fuel, gives the branch what the commit shows and makes
its handles stale, even if the ref cannot be written. -/
theorem rollback {d : Daemon} (h : CommitShows d.store commit shown) {name : Bytes} {b : Nat}
    {br : BranchContext} (hname : d.branchByName name = some (b, br)) :
    ∃ n, ∀ fuel ≥ n, ∃ r, d.rollbackBranchToCommit name commit fuel = some r ∧
      (∃ wt, r.2.tree b = some wt ∧ wt.SameLive shown) ∧
      r.2.fhTable = invalidateFhs b d.fhTable ∧ r.2.nextFhId = d.nextFhId ∧
      r.1.ok = (d.refs.writeRef name commit).1 := by
  have hresolve := h.resolveTarget_eq d.refs name
  obtain ⟨hne, cd, hread, hrebuild⟩ := h
  obtain ⟨n, wt', hsame, hm⟩ := hrebuild br.wt
  refine ⟨n, fun fuel hfuel => ?_⟩
  have htarget : TargetTree fuel (hashToHex commit) br.wt name d.store d.refs wt' :=
    ⟨hresolve.symm ▸ hne, cd, hresolve.symm ▸ hread, hm fuel hfuel⟩
  obtain ⟨o, ho, rfl, hinv, -, hok⟩ := rollbackLocked_of_targetTree htarget
  refine ⟨(o.result, {
      d.setTree b br o.wt with
      fhTable := if o.invalidated then invalidateFhs b d.fhTable else d.fhTable
      refs := o.refs }), ?_, ⟨o.wt, ?_, hsame⟩, ?_, rfl, ?_⟩
  · simp only [Daemon.rollbackBranchToCommit, hname, ho]
  · rw [Daemon.tree_of_branches_insert (d := d) rfl b, if_pos rfl]
  · simp only [hinv, if_true]
  · rw [hok, hresolve]

end CommitShows

/-! ## What a flush leaves -/

omit [Blake3] in
theorem lookupRaw_insertFlushed (wt : WorkingTree) (path : FsPath) (h : Hash) (q : FsPath) :
    (∃ mode, (insertFlushed wt path h).lookupRaw path = some ⟨.blob, h, mode⟩) ∧
      (q ≠ path → (insertFlushed wt path h).lookupRaw q = wt.lookupRaw q) := by
  unfold insertFlushed
  constructor
  · rw [lookupRaw_insert, if_pos rfl]
    exact ⟨_, rfl⟩
  · intro hq
    rw [lookupRaw_insert, if_neg (Ne.symm hq)]

omit [Blake3] in
theorem storable_insertFlushed {wt : WorkingTree} (hwt : wt.Storable) {path : FsPath} {h : Hash}
    (hpath : path ≠ []) (hh : h ≠ zeroHash) : (insertFlushed wt path h).Storable := by
  constructor
  · intro p e hp
    obtain ⟨⟨mode, hself⟩, hother⟩ := lookupRaw_insertFlushed wt path h p
    by_cases heq : p = path
    · rw [heq, hself] at hp
      cases hp
      simp [WorkingTreeEntry.isNullLeaf, hh]
    · exact hwt.content p e ((hother heq).symm.trans hp)
  · obtain ⟨-, hother⟩ := lookupRaw_insertFlushed wt path h []
    rw [hother (Ne.symm hpath)]
    exact hwt.root

omit [Blake3] in
/-- A file that is put at a path adds at most one child to each directory. -/
theorem length_childrenOf_insertFlushed (wt : WorkingTree) (path : FsPath) (h : Hash)
    (dir : FsPath) :
    (childrenOf (insertFlushed wt path h) dir).length ≤ (childrenOf wt dir).length + 1 := by
  have hsub : (childrenOf (insertFlushed wt path h) dir).map Prod.fst ⊆
      nameOf path :: (childrenOf wt dir).map Prod.fst := by
    intro n hn
    obtain ⟨c, hc, rfl⟩ := List.mem_map.1 hn
    obtain ⟨hraw, hnull, hname⟩ := mem_childrenOf.1 hc
    by_cases heq : dir ++ [c.1] = path
    · rw [← heq, nameOf_append]
      exact List.mem_cons_self
    · rw [(lookupRaw_insertFlushed wt path h (dir ++ [c.1])).2 heq] at hraw
      exact List.mem_cons_of_mem _ (List.mem_map_of_mem (mem_childrenOf.2 ⟨hraw, hnull, hname⟩))
  have hle := (nodup_childrenOf _ dir).length_le_of_subset hsub
  simpa using hle

theorem length_childrenOf_flushFhs (b : Nat) (order : List Nat) (store : ObjectStore)
    (fhs : FhTable) (wt : WorkingTree) (dir : FsPath) :
    (childrenOf (flushFhs b order (store, fhs, wt)).2.2.2 dir).length ≤
      (childrenOf wt dir).length + order.length := by
  induction order generalizing store fhs wt with
  | nil => exact Nat.le_refl _
  | cons fh order ih =>
      have hkeep : ∀ store fhs, (childrenOf (flushFhs b order (store, fhs, wt)).2.2.2 dir).length ≤
          (childrenOf wt dir).length + (fh :: order).length := by
        intro store fhs
        have hle := ih store fhs wt
        simp only [List.length_cons]
        omega
      cases hs : fhs[fh]? with
      | none =>
          simp only [flushFhs, hs]
          exact hkeep store fhs
      | some s =>
          cases hneeds : s.needsFlush b with
          | false =>
              simp only [flushFhs, hs, hneeds, Bool.false_eq_true, if_false]
              exact hkeep store fhs
          | true =>
              simp only [flushFhs, hs, hneeds, if_true]
              split
              · exact Nat.le_add_right _ _
              · refine (ih _ _ _).trans ?_
                have hone := length_childrenOf_insertFlushed wt s.path
                  (store.writeBlob (s.flushData store)).2 dir
                simp only [List.length_cons]
                omega

namespace Daemon

/-- The dirty contents of the branch have a place: each fits at its path, none is opened at the
root, and no directory is so full that they could overflow the count of its tree object. -/
structure FlushFits (d : Daemon) (b : Nat) (order : List Nat) : Prop extends
    AllFlushesLink d b where
  named : ∀ fh s, d.getFh fh = some s → s.needsFlush b = true → s.path ≠ []
  room : ∀ wt dir, d.tree b = some wt → (childrenOf wt dir).length + order.length < 2 ^ 32

end Daemon

/-- A tree whose commit shows all of it. -/
structure WorkingTree.Checkpointable (wt : WorkingTree) : Prop where
  closed : wt.Closed
  wellNamed : wt.WellNamed
  fitsCounts : wt.FitsCounts
  storable : wt.Storable

namespace Daemon

variable {d : Daemon} {b : Nat} {br : BranchContext} {order : List Nat}

theorem storable_flushFhs (hstorable : br.wt.Storable) (hfits : d.FlushFits b order) :
    (flushFhs b order (d.store, d.fhTable, br.wt)).2.2.2.Storable := by
  have hpath : ∀ {fhs : FhTable} {fh : Nat} {s s' : FhState}, s'.path = s.path → s.path ≠ [] →
      (∀ (k : Nat) (s : FhState), fhs[k]? = some s → s.needsFlush b = true → s.path ≠ []) →
      ∀ (k : Nat) (s : FhState), (fhs.insert fh s')[k]? = some s → s.needsFlush b = true →
        s.path ≠ [] := by
    intro fhs fh s s' heq hne hall k r hr hneeds
    rw [ExtTreeMap.getElem?_insert] at hr
    split at hr
    · cases hr
      rw [heq]
      exact hne
    · exact hall k r hr hneeds
  refine (flushFhs_induction (I := fun _ fhs wt => wt.Storable ∧ ∀ (fh : Nat) (s : FhState),
    fhs[fh]? = some s → s.needsFlush b = true → s.path ≠ []) ?_ ?_ order
    ⟨hstorable, hfits.named⟩).1
  · rintro store fhs wt fh s ⟨hwt, hall⟩ hs hneeds
    exact ⟨hwt, hpath (s.follows_ensureBaseCache store).path (hall fh s hs hneeds) hall⟩
  · rintro store fhs wt fh s ⟨hwt, hall⟩ hs hneeds hh
    have hne := hall fh s hs hneeds
    exact ⟨storable_insertFlushed hwt hne hh, hpath (s.flushed_path _ _) hne hall⟩

/-- The flush of contents that have a place leaves a tree whose commit shows all of it. -/
theorem checkpointable_flushFhs (hgood : d.GoodNames) (hbr : d.branch b = some br)
    (hclosed : br.wt.Closed) (hstorable : br.wt.Storable) (hfits : d.FlushFits b order) :
    (flushFhs b order (d.store, d.fhTable, br.wt)).2.2.2.Checkpointable where
  closed := by
    -- the other branches do not matter
    have hone : ∀ {alone : Daemon}, alone.branches = (∅ : ExtTreeMap Nat BranchContext).insert b br →
        ∀ c wt, alone.tree c = some wt → wt = br.wt := by
      intro alone halone c wt hwt
      unfold tree branch at hwt
      rw [halone, ExtTreeMap.getElem?_insert] at hwt
      split at hwt
      · cases hwt
        rfl
      · simp at hwt
    refine closed_flushFhs (d := { d with branches := (∅ : ExtTreeMap Nat BranchContext).insert b br })
      ?_ (by simp [branch]) ⟨?_, hfits.apart⟩ order
    · intro c wt hwt
      rw [hone rfl c wt hwt]
      exact hclosed
    · intro wt fh s hwt hs hneeds
      rw [hone rfl b wt hwt]
      exact hfits.fits br.wt fh s (tree_of_branch hbr) hs hneeds
  wellNamed := (hgood.flushFhs hbr order).2.1
  fitsCounts := fun dir =>
    Nat.lt_of_le_of_lt (length_childrenOf_flushFhs b order d.store d.fhTable br.wt dir)
      (hfits.room br.wt dir (tree_of_branch hbr))
  storable := storable_flushFhs hstorable hfits

/-- The commit of a checkpoint shows the tree with all dirty contents of the branch applied. -/
theorem commitShows_checkpointBranch (hgood : d.GoodNames) (hbr : d.branch b = some br)
    (hclosed : br.wt.Closed) (hstorable : br.wt.Storable) (hfits : d.FlushFits b order)
    (horder : ∀ fh, d.getFh fh ≠ none → fh ∈ order) {label : Bytes} {timestampNs : UInt64}
    (hc : (d.checkpointBranch b label order timestampNs).2.store.collided = false)
    (hok : (d.checkpointBranch b label order timestampNs).1.ok = true) :
    ∃ applied shown, (d.checkpointBranch b label order timestampNs).2.tree b = some shown ∧
      AllDirty d b applied ∧ Applied d b applied br.wt shown ∧
      CommitShows (d.checkpointBranch b label order timestampNs).2.store
        (d.checkpointBranch b label order timestampNs).1.commit shown := by
  obtain ⟨applied, shown, htree, happ, -, hall⟩ :=
    (checkpointBranch_spec hbr label order timestampNs).tree
  refine ⟨applied, shown, htree, hall hok horder, happ, ?_⟩
  have hflushed := checkpointable_flushFhs hgood hbr hclosed hstorable hfits
  have hs := (hgood.checkpointBranch b label order timestampNs).store
  have hcp := checkpointBranch_eq hbr label order timestampNs
  rw [hcp] at htree hok hc hs ⊢
  rw [tree_of_branches_insert (d := d) rfl b, if_pos rfl] at htree
  cases htree
  obtain ⟨commit, hflush, hres, hpub, -⟩ := checkpointLocked_ok hok
  have hparents : (d.refs.readRef br.name).toList.length < 2 ^ 27 := by
    cases d.refs.readRef br.name <;> simp
  rw [hres]
  exact commitShows_of_published hpub hparents (.refl _) hc hs hflushed.closed hflushed.wellNamed
    hflushed.fitsCounts hflushed.storable

end Daemon

end Restore
end ContextFS
