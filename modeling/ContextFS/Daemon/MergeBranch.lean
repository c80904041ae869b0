import ContextFS.Branch.LiveView
import ContextFS.Daemon.Binding
import ContextFS.Daemon.Flush
import ContextFS.Daemon.Names

/-!
# A merge from end to end

`merge_branch` checkpoints the source and the target, which flushes their dirty handles, merges the
two commits with their common ancestor, publishes a commit with both as parents and puts the
merged tree into the target.  Whatever stops it, the trees of both branches are the ones before it
with contents of dirty handles applied.
-/

namespace ContextFS

open Std Lib ObjectStore WorkingTree

section Merge

variable [Blake3] {d : Daemon}

namespace Daemon

/-- What a checkpoint of the branch `b` does besides its commit. -/
structure CheckpointSpec (d : Daemon) (b : Nat) (br : BranchContext) (order : List Nat)
    (cp : CommitResult × Daemon) : Prop where
  tree : ∃ applied wt, cp.2.tree b = some wt ∧ Applied d b applied br.wt wt ∧ applied.Nodup ∧
    (cp.1.ok = true → (∀ fh, d.getFh fh ≠ none → fh ∈ order) → AllDirty d b applied)
  branches : ∀ c, c ≠ b → cp.2.branch c = d.branch c
  refs : ∀ name, name ≠ br.name → cp.2.refs.readRef name = d.refs.readRef name
  handles : ∀ fh s, cp.2.getFh fh = some s → s.branchId ≠ b → d.getFh fh = some s
  store : Extends d.store cp.2.store
  published : cp.1.ok = true → ∃ info wt parents s, parents.length ≤ 1 ∧
    publishCommit info wt parents s = (.ok cp.1.commit, cp.2.store)

/-- The flush of a branch leaves the handles of other branches alone. -/
theorem flushFhs_other {b : Nat} (order : List Nat) (store : ObjectStore) (fhs : FhTable)
    (wt : WorkingTree) {fh : Nat} {s : FhState}
    (hs : (flushFhs b order (store, fhs, wt)).2.2.1[fh]? = some s) (hb : s.branchId ≠ b) :
    fhs[fh]? = some s := by
  have hall : ∀ (k : Nat) (s' : FhState), (flushFhs b order (store, fhs, wt)).2.2.1[k]? = some s' →
      s'.branchId ≠ b → fhs[k]? = some s' := by
    have hinsert : ∀ {fhs' : FhTable} {k : Nat} {s₀ s' : FhState}, s'.branchId = s₀.branchId →
        s₀.needsFlush b = true →
        (∀ (k : Nat) (s : FhState), fhs'[k]? = some s → s.branchId ≠ b → fhs[k]? = some s) →
        ∀ (j : Nat) (s : FhState), (fhs'.insert k s')[j]? = some s → s.branchId ≠ b →
          fhs[j]? = some s := by
      intro fhs' k s₀ s' hbranch hneeds h j s hj hne
      rw [ExtTreeMap.getElem?_insert] at hj
      split at hj
      · cases hj
        exact absurd (hbranch.trans (FhState.needsFlush_iff.1 hneeds).1) hne
      · exact h j s hj hne
    refine flushFhs_induction (I := fun _ fhs' _ => ∀ (k : Nat) (s : FhState),
      fhs'[k]? = some s → s.branchId ≠ b → fhs[k]? = some s) ?_ ?_ order fun _ _ hk _ => hk
    · intro store' fhs' wt' k s₀ h hs₀ hneeds
      exact hinsert (s₀.follows_ensureBaseCache store').branchId hneeds h
    · intro store' fhs' wt' k s₀ h hs₀ hneeds _
      exact hinsert (s₀.follows_flushed _ _).branchId hneeds h
  exact hall fh s hs hb

/-- The flush of a branch only adds to the store. -/
theorem extends_flushFhs (b : Nat) (order : List Nat) (store : ObjectStore) (fhs : FhTable)
    (wt : WorkingTree) : Extends store (flushFhs b order (store, fhs, wt)).2.1 := by
  refine flushFhs_induction (I := fun store' _ _ => Extends store store') ?_ ?_ order (.refl store)
  · exact fun store' _ _ _ s h _ _ => h.trans (extends_writeObject store' _ _)
  · exact fun store' _ _ _ s h _ _ _ => h.trans (extends_writeObject store' _ _)

omit [Blake3] in
/-- A ref write leaves the other refs alone. -/
theorem readRef_writeRef_of_ne (refs : Refs) (commit : Hash) {branch name : Bytes}
    (hne : name ≠ branch) : (refs.writeRef branch commit).2.readRef name = refs.readRef name := by
  rcases refs.writeRef_cases branch commit with ⟨-, hsame⟩ | hset
  · exact hsame name
  · rw [hset name, if_neg (Ne.symm hne)]

/-- A checkpoint leaves the refs of other branches alone. -/
theorem readRef_checkpointLocked (info : CommitMeta) (flushed : Bool) (wt : WorkingTree)
    (branch : Bytes) (s : ObjectStore) (refs : Refs) {name : Bytes} (hne : name ≠ branch) :
    (checkpointLocked info flushed wt branch s refs).2.2.readRef name = refs.readRef name := by
  unfold checkpointLocked
  split
  · rfl
  · split
    · rfl
    · rename_i commit s' _
      have hother := readRef_writeRef_of_ne refs commit hne
      split
      · rename_i refs' heq
        rw [heq] at hother
        exact hother
      · rename_i refs' heq
        rw [heq] at hother
        exact hother

theorem checkpointBranch_spec {b : Nat} {br : BranchContext} (hbr : d.branch b = some br)
    (label : Bytes) (order : List Nat) (timestampNs : UInt64) :
    CheckpointSpec d b br order (d.checkpointBranch b label order timestampNs) := by
  rw [checkpointBranch_eq hbr]
  have hext := extends_flushFhs b order d.store d.fhTable br.wt
  obtain ⟨applied, happ, hnd, -, hall⟩ :=
    applied_flushFhs order br.wt (.refl d.store) fun (fh : Nat) (s : FhState) hs
      (_ : s.needsFlush b = true) => hs
  have hother : ∀ (fh : Nat) (s : FhState),
      (flushFhs b order (d.store, d.fhTable, br.wt)).2.2.1[fh]? = some s → s.branchId ≠ b →
        d.fhTable[fh]? = some s := fun _ _ => flushFhs_other order d.store d.fhTable br.wt
  generalize flushFhs b order (d.store, d.fhTable, br.wt) = f at *
  refine ⟨⟨applied, f.2.2.2, ?_, happ, hnd, fun hok horder => ⟨hnd, fun fh s hs hdirty => ?_⟩⟩,
    fun c hc => ?_, fun name hname => ?_, fun fh s hs hb => hother fh s hs hb, ?_, fun hok => ?_⟩
  · rw [tree_of_branches_insert (d := d) rfl b, if_pos rfl]
  · obtain ⟨commit, hflushed, -⟩ := checkpointLocked_ok hok
    exact hall hflushed fh (horder fh (by simp [hs])) s hs hdirty
  · unfold branch
    rw [ExtTreeMap.getElem?_insert, if_neg]
    simpa using Ne.symm hc
  · exact readRef_checkpointLocked _ _ _ _ _ _ hname
  · simp only [checkpointLocked_store]
    split
    · exact hext.trans (grows_publishCommit _ _ _ _).extends_
    · exact hext
  · obtain ⟨commit, -, hres, hpub, -⟩ := checkpointLocked_ok hok
    refine ⟨_, _, _, _, ?_, by rw [hres]; exact hpub⟩
    cases d.refs.readRef br.name <;> simp

/-! ## The merge -/

/-- A merge of `source` into `target` that has gone through to its end: the checkpoints of this
call, the trees it has loaded, and what it has published. -/
structure Merged (d : Daemon) (sourceName targetName : Bytes) (source target : Nat)
    (args : MergeArgs) (r : BranchMergeResult × Daemon) (cp cp' : CommitResult × Daemon)
    (base sourceWt targetWt : WorkingTree) : Prop where
  sourceCheckpoint : d.checkpointBranch source (preMergeLabel sourceName targetName " source")
    args.sourceOrder args.sourceTime = cp
  targetCheckpoint : cp.2.checkpointBranch target (preMergeLabel sourceName targetName " target")
    args.targetOrder args.targetTime = cp'
  sourceOk : cp.1.ok = true
  targetOk : cp'.1.ok = true
  ancestor : ∃ baseCommit,
    findCommonAncestor cp'.2.store args.fuel cp.1.commit cp'.1.commit = some (.ok baseCommit) ∧
      loadCommitTree cp'.2.store args.fuel baseCommit = some (.ok base)
  sourceTree : loadCommitTree cp'.2.store args.fuel cp.1.commit = some (.ok sourceWt)
  targetTree : loadCommitTree cp'.2.store args.fuel cp'.1.commit = some (.ok targetWt)
  ok : (mergeTrees base sourceWt targetWt).ok = true
  tree : r.2.tree target = some (mergeTrees base sourceWt targetWt).merged
  commit : ∃ cd store, r.2.store.readCommit r.1.commit = some cd ∧
    cd.parents = [cp'.1.commit, cp.1.commit] ∧
    cd.treeHash = (serializeWorkingTree (mergeTrees base sourceWt targetWt).merged store).root
  loadable : ∃ n wt, ∀ fuel ≥ n, loadCommitTree r.2.store fuel r.1.commit = some (.ok wt)
  shown : (mergeTrees base sourceWt targetWt).merged.FitsCounts → ∀ fuel wt,
    loadCommitTree r.2.store fuel r.1.commit = some (.ok wt) →
      wt.SameLive (mergeTrees base sourceWt targetWt).merged
  ref : r.2.refs.readRef targetName = some r.1.commit
  stale : ∀ fh s, r.2.getFh fh = some s → s.branchId = target → s.stale = true

/-- The tree of a branch is the one before with contents of dirty handles applied. -/
def AppliedSome (d : Daemon) (b : Nat) (d' : Daemon) : Prop :=
  ∃ wt wt' applied, d.tree b = some wt ∧ d'.tree b = some wt' ∧ Applied d b applied wt wt'

/-- The same, with the contents of all handles that were dirty. -/
def AppliedAll (d : Daemon) (b : Nat) (d' : Daemon) : Prop :=
  ∃ wt wt' applied, d.tree b = some wt ∧ d'.tree b = some wt' ∧ Applied d b applied wt wt' ∧
    AllDirty d b applied

/-- Trees and refs of all branches but two are what they were. -/
structure OthersKept (d : Daemon) (sourceName targetName : Bytes) (source target : Nat)
    (d' : Daemon) : Prop where
  trees : ∀ c, c ≠ source → c ≠ target → d'.tree c = d.tree c
  refs : ∀ name, name ≠ sourceName → name ≠ targetName → d'.refs.readRef name = d.refs.readRef name

section

variable {sourceName targetName : Bytes} {source target : Nat} {sourceBr targetBr : BranchContext}
  {args : MergeArgs} {cp cp' : CommitResult × Daemon} {r : BranchMergeResult × Daemon}
  {sourceCp targetCp : Hash}

theorem CheckpointSpec.appliedSome {b : Nat} {br : BranchContext} {order : List Nat}
    (h : CheckpointSpec d b br order cp) (hbr : d.branch b = some br) : AppliedSome d b cp.2 := by
  obtain ⟨applied, wt, hwt, happ, -⟩ := h.tree
  exact ⟨br.wt, wt, applied, tree_of_branch hbr, hwt, happ⟩

/-- A tree that was not touched. -/
theorem AppliedSome.of_tree_eq {b : Nat} {br : BranchContext} {d' : Daemon}
    (hbr : d.branch b = some br) (h : d'.tree b = d.tree b) : AppliedSome d b d' :=
  ⟨br.wt, br.wt, [], tree_of_branch hbr, h.trans (tree_of_branch hbr), .nil⟩

omit [Blake3] in
theorem tree_of_branch_eq {d' : Daemon} {c : Nat} (h : d'.branch c = d.branch c) :
    d'.tree c = d.tree c := by
  rw [tree, tree, h]

/-- What the two checkpoints at the start of a merge leave behind. -/
structure BothCheckpointed (d : Daemon) (sourceName targetName : Bytes) (source target : Nat)
    (d' : Daemon) : Prop where
  sourceTree : AppliedSome d source d'
  targetTree : AppliedSome d target d'
  others : OthersKept d sourceName targetName source target d'

theorem BothCheckpointed.of_eq {d' d'' : Daemon}
    (h : BothCheckpointed d sourceName targetName source target d')
    (hbr : d''.branches = d'.branches)
    (hrefs : ∀ name, name ≠ targetName → d''.refs.readRef name = d'.refs.readRef name) :
    BothCheckpointed d sourceName targetName source target d'' := by
  have htree := fun c => tree_congr hbr c
  obtain ⟨wt, wt', applied, hwt, hwt', happ⟩ := h.sourceTree
  obtain ⟨wt₁, wt₁', applied₁, hwt₁, hwt₁', happ₁⟩ := h.targetTree
  exact {
    sourceTree := ⟨wt, wt', applied, hwt, (htree _).trans hwt', happ⟩
    targetTree := ⟨wt₁, wt₁', applied₁, hwt₁, (htree _).trans hwt₁', happ₁⟩
    others := {
      trees := fun c hs ht => (htree c).trans (h.others.trees c hs ht)
      refs := fun name hs ht => (hrefs name ht).trans (h.others.refs name hs ht) } }

theorem bothCheckpointed_source (hsource : d.branchByName sourceName = some (source, sourceBr))
    (htarget : d.branchByName targetName = some (target, targetBr)) (hne : source ≠ target)
    {order : List Nat} (hcp : CheckpointSpec d source sourceBr order cp) :
    BothCheckpointed d sourceName targetName source target cp.2 := by
  obtain ⟨hsbr, hsname⟩ := branchByName_eq_some hsource
  obtain ⟨htbr, -⟩ := branchByName_eq_some htarget
  exact {
    sourceTree := hcp.appliedSome hsbr
    targetTree := .of_tree_eq htbr (tree_of_branch_eq (hcp.branches target (Ne.symm hne)))
    others := {
      trees := fun c hs _ => tree_of_branch_eq (hcp.branches c hs)
      refs := fun name hs _ => hcp.refs name (by rw [hsname]; exact hs) } }

/-- The second half of a merge leaves the other refs alone. -/
theorem mergeCommits_refs
    (hr : d.mergeCommits sourceName target targetBr sourceCp targetCp args = some r) :
    ∀ name, name ≠ targetBr.name → r.2.refs.readRef name = d.refs.readRef name := by
  intro name hne
  unfold mergeCommits at hr
  split at hr
  · cases hr
  · cases hr
    rfl
  split at hr
  · simp only at hr
    split at hr
    · cases hr
      rfl
    split at hr
    · cases hr
      rfl
    · rename_i commit store _
      have hother := readRef_writeRef_of_ne d.refs commit hne
      split at hr
      · rename_i refs heq
        cases hr
        rw [heq] at hother
        exact hother
      · rename_i refs heq
        cases hr
        rw [heq] at hother
        exact hother
  · cases hr
    rfl
  · cases hr
    rfl
  · cases hr
    rfl
  · cases hr

theorem bothCheckpointed (hsource : d.branchByName sourceName = some (source, sourceBr))
    (htarget : d.branchByName targetName = some (target, targetBr)) (hne : source ≠ target)
    {order order' : List Nat} (hcp : CheckpointSpec d source sourceBr order cp)
    (hcp' : CheckpointSpec cp.2 target targetBr order' cp') :
    BothCheckpointed d sourceName targetName source target cp'.2 := by
  have hfirst := bothCheckpointed_source hsource htarget hne hcp
  obtain ⟨htbr, htname⟩ := branchByName_eq_some htarget
  have hsame : ∀ c, c ≠ target → cp'.2.tree c = cp.2.tree c :=
    fun c hc => tree_of_branch_eq (hcp'.branches c hc)
  obtain ⟨applied, wt, hwt, happ, -⟩ := hcp'.tree
  obtain ⟨wt₀, wt₀', applied₀, hwt₀, hwt₀', happ₀⟩ := hfirst.sourceTree
  exact {
    sourceTree := ⟨wt₀, wt₀', applied₀, hwt₀, (hsame source hne).trans hwt₀', happ₀⟩
    -- the handles of the target are what they were before the source's checkpoint
    targetTree := ⟨targetBr.wt, wt, applied, tree_of_branch htbr, hwt,
      happ.of_same hcp.store fun fh s hs hdirty => hcp.handles fh s hs
        (by rw [(FhState.needsFlush_iff.1 hdirty).1]; exact Ne.symm hne)⟩
    others := {
      trees := fun c hs ht => (hsame c ht).trans (hfirst.others.trees c hs ht)
      refs := fun name hs ht =>
        (hcp'.refs name (by rw [htname]; exact ht)).trans (hfirst.others.refs name hs ht) } }

/-- The commit of a merge of three loaded trees can be read back. -/
theorem commit_of_loadedMerge (hgood : d.GoodNames) {fuel : Nat} {baseCommit sourceCp targetCp : Hash}
    {base sourceWt targetWt : WorkingTree}
    (hbase : loadCommitTree d.store fuel baseCommit = some (.ok base))
    (hsource : loadCommitTree d.store fuel sourceCp = some (.ok sourceWt))
    (htarget : loadCommitTree d.store fuel targetCp = some (.ok targetWt))
    (hok : (mergeTrees base sourceWt targetWt).ok = true) (hsourceStorable : sourceWt.Storable)
    (htargetStorable : targetWt.Storable) {info : CommitMeta} {commit : Hash} {s' : ObjectStore}
    (hpub : publishCommit info (mergeTrees base sourceWt targetWt).merged [targetCp, sourceCp]
      d.store = (.ok commit, s')) (hc : s'.collided = false) :
    (∃ cd store, s'.readCommit commit = some cd ∧ cd.parents = [targetCp, sourceCp] ∧
      cd.treeHash =
        (serializeWorkingTree (mergeTrees base sourceWt targetWt).merged store).root) ∧
      (∃ n wt, ∀ fuel ≥ n, loadCommitTree s' fuel commit = some (.ok wt)) ∧
      ((mergeTrees base sourceWt targetWt).merged.FitsCounts → ∀ fuel wt,
        loadCommitTree s' fuel commit = some (.ok wt) →
          wt.SameLive (mergeTrees base sourceWt targetWt).merged) := by
  obtain ⟨hclosed, hnamed⟩ := wellNamed_loadedMerge hgood hbase hsource htarget hok
  have hcontents : Contents GoodTreeFile (publishCommit info
      (mergeTrees base sourceWt targetWt).merged [targetCp, sourceCp] d.store).2 :=
    contents_goodTreeFile_publishCommit hnamed hgood.store
  rw [hpub] at hcontents
  have hread := (dirWritten_publishCommit hpub (by simp) (.refl _) hc).1
  refine ⟨⟨_, d.store, hread, by simp, by simp⟩,
    exists_load_of_published hpub (by simp) (.refl _) hc, fun hcounts fuel wt hload => ?_⟩
  exact sameLive_of_published hpub (by simp) (.refl _) hc hcontents hclosed hnamed hcounts
    (storable_mergeTrees hok hsourceStorable htargetStorable) hload

/-- The second half of a merge: it leaves the trees and the other refs alone, or it succeeds. -/
theorem mergeCommits_spec (hgood : cp'.2.GoodNames)
    (htarget : d.branchByName targetName = some (target, targetBr))
    (hcp : d.checkpointBranch source (preMergeLabel sourceName targetName " source")
      args.sourceOrder args.sourceTime = cp)
    (hcp' : cp.2.checkpointBranch target (preMergeLabel sourceName targetName " target")
      args.targetOrder args.targetTime = cp')
    (hok : cp.1.ok = true) (hok' : cp'.1.ok = true)
    (hspec : CheckpointSpec d source sourceBr args.sourceOrder cp)
    (hspec' : CheckpointSpec cp.2 target targetBr args.targetOrder cp')
    (hc : r.2.store.collided = false)
    (hr : cp'.2.mergeCommits sourceName target targetBr cp.1.commit cp'.1.commit args = some r) :
    (r.1.ok = false ∧ r.2.branches = cp'.2.branches ∧
        ∀ name, name ≠ targetName → r.2.refs.readRef name = cp'.2.refs.readRef name) ∨
      (r.1.ok = true ∧ (∀ c, c ≠ target → r.2.tree c = cp'.2.tree c) ∧
        (∀ name, name ≠ targetName → r.2.refs.readRef name = cp'.2.refs.readRef name) ∧
        ∃ base sourceWt targetWt,
          Merged d sourceName targetName source target args r cp cp' base sourceWt targetWt) := by
  have htname := (branchByName_eq_some htarget).2
  cases hr' : r.1.ok with
  | false =>
      left
      refine ⟨rfl, ?_⟩
      have hrefs := mergeCommits_refs hr
      cases mergeCommits_outcome hr with
      | failed r hfail => exact ⟨rfl, fun name hname => hrefs name (by rw [htname]; exact hname)⟩
      | unpublished refs r hbase hsourceTree htargetTree hmerge hfail =>
          exact ⟨rfl, fun name hname => hrefs name (by rw [htname]; exact hname)⟩
      | published => cases hr'
  | true =>
      right
      cases mergeCommits_outcome hr with
      | failed r hfail => exact absurd (hr'.symm.trans hfail) (by simp)
      | unpublished refs r hbase hsourceTree htargetTree hmerge hfail =>
          exact absurd (hr'.symm.trans hfail) (by simp)
      | @published baseCommit base sourceWt targetWt info commit refs hancestor hbase hsourceTree
          htargetTree hmerge hcommit hrefs =>
          -- both checkpoints have published what they show
          obtain ⟨info₁, wt₁, parents₁, s₁, hlen₁, hpub₁⟩ := hspec.published hok
          obtain ⟨info₂, wt₂, parents₂, s₂, hlen₂, hpub₂⟩ := hspec'.published hok'
          have hgrow := (grows_publishCommit info (mergeTrees base sourceWt targetWt).merged
            [cp'.1.commit, cp.1.commit] cp'.2.store).extends_
          generalize hpub : publishCommit info (mergeTrees base sourceWt targetWt).merged
            [cp'.1.commit, cp.1.commit] cp'.2.store = pub at *
          obtain ⟨res, store⟩ := pub
          obtain rfl : res = .ok commit := hcommit
          replace hc : store.collided = false := hc
          have hc' := hgrow.collided_eq hc
          -- so the trees that were merged can be stored again
          obtain ⟨hcommit', hload, hshown⟩ := commit_of_loadedMerge hgood hbase hsourceTree
            htargetTree hmerge
            (storable_of_published hpub₁ (by omega) hspec'.store hc' hgood.store hsourceTree)
            (storable_of_published hpub₂ (by omega) (.refl _) hc' hgood.store htargetTree) hpub hc
          have hwrite := Refs.readRef_writeRef_of_ok
            (show (cp'.2.refs.writeRef targetBr.name commit).1 = true by rw [hrefs])
          rw [hrefs] at hwrite
          refine ⟨rfl, fun c hne => ?_, fun name hne => ?_, base, sourceWt, targetWt, ?_⟩
          · rw [tree_of_branches_insert (d := cp'.2) rfl, if_neg (Ne.symm hne)]
          · rw [hwrite name, if_neg (by rw [htname]; exact Ne.symm hne)]
          exact {
            sourceCheckpoint := hcp
            targetCheckpoint := hcp'
            sourceOk := hok
            targetOk := hok'
            ancestor := ⟨baseCommit, hancestor, hbase⟩
            sourceTree := hsourceTree
            targetTree := htargetTree
            ok := hmerge
            tree := by rw [tree_of_branches_insert (d := cp'.2) rfl, if_pos rfl]
            commit := hcommit'
            loadable := hload
            shown := hshown
            ref := by rw [hwrite targetName, if_pos htname]
            stale := fun fh s hs hb => stale_of_invalidated rfl hs hb }

/-- Merging two branches: on success the target shows what its new commit shows, and the source has
the contents of its dirty handles; otherwise both branches have the contents of some. -/
theorem merge_end_to_end (hgood : d.GoodNames)
    (hmerge : d.mergeBranch sourceName targetName args = some r)
    (hsource : d.branchByName sourceName = some (source, sourceBr))
    (htarget : d.branchByName targetName = some (target, targetBr)) (hne : source ≠ target)
    (horder : ∀ fh, d.getFh fh ≠ none → fh ∈ args.sourceOrder)
    (hc : r.2.store.collided = false) :
    (r.1.ok = true → (∃ cp cp' base sourceWt targetWt,
        Merged d sourceName targetName source target args r cp cp' base sourceWt targetWt) ∧
      AppliedAll d source r.2 ∧ OthersKept d sourceName targetName source target r.2) ∧
    (r.1.ok = false → BothCheckpointed d sourceName targetName source target r.2) := by
  obtain ⟨hsbr, hsname⟩ := branchByName_eq_some hsource
  obtain ⟨htbr, htname⟩ := branchByName_eq_some htarget
  cases mergeBranch_outcome hmerge with
  | refused r hfail =>
      refine ⟨fun hok => absurd (hok.symm.trans hfail) (by simp), fun _ => ?_⟩
      exact ⟨.of_tree_eq hsbr rfl, .of_tree_eq htbr rfl, ⟨fun _ _ _ => rfl, fun _ _ _ => rfl⟩⟩
  | @sourceFailed b b' br br' cp r hs ht _ hcp hfail =>
      cases hsource.symm.trans hs
      cases htarget.symm.trans ht
      refine ⟨fun hok => absurd (hok.symm.trans hfail) (by simp), fun _ => ?_⟩
      exact bothCheckpointed_source hsource htarget hne (hcp ▸ checkpointBranch_spec hsbr _ _ _)
  | @targetFailed b b' br br' cp cp' r hs ht _ hcp hok hcp' hfail =>
      cases hsource.symm.trans hs
      cases htarget.symm.trans ht
      have hspec := hcp ▸ checkpointBranch_spec hsbr _ _ _
      have hspec' := hcp' ▸ checkpointBranch_spec ((hspec.branches target (Ne.symm hne)).trans htbr)
        _ _ _
      refine ⟨fun hok => absurd (hok.symm.trans hfail) (by simp), fun _ => ?_⟩
      exact bothCheckpointed hsource htarget hne hspec hspec'
  | @merged b b' br br' cp cp' r hs ht _ hcp hok hcp' hok' hr =>
      cases hsource.symm.trans hs
      cases htarget.symm.trans ht
      have hspec := hcp ▸ checkpointBranch_spec hsbr _ _ _
      have hspec' := hcp' ▸ checkpointBranch_spec ((hspec.branches target (Ne.symm hne)).trans htbr)
        _ _ _
      have hgood' : cp'.2.GoodNames :=
        hcp' ▸ (hcp ▸ hgood.checkpointBranch _ _ _ _).checkpointBranch _ _ _ _
      have hboth := bothCheckpointed hsource htarget hne hspec hspec'
      rcases mergeCommits_spec hgood' htarget hcp hcp' hok hok' hspec hspec' hc hr with
        ⟨hfail, hbranches, hrefs⟩ | ⟨hdone, htrees, hrefs, base, sourceWt, targetWt, hm⟩
      · exact ⟨fun hdone => absurd (hdone.symm.trans hfail) (by simp),
          fun _ => hboth.of_eq hbranches hrefs⟩
      · refine ⟨fun _ => ⟨⟨cp, cp', base, sourceWt, targetWt, hm⟩, ?_, ?_⟩,
          fun hfail => absurd (hdone.symm.trans hfail) (by simp)⟩
        · obtain ⟨applied, wt, hwt, happ, -, hall⟩ := hspec.tree
          refine ⟨sourceBr.wt, wt, applied, tree_of_branch hsbr, ?_, happ, hall hok horder⟩
          rw [htrees source hne, tree_of_branch_eq (hspec'.branches source hne)]
          exact hwt
        · exact {
            trees := fun c hs ht => (htrees c ht).trans (hboth.others.trees c hs ht)
            refs := fun name hs ht => (hrefs name ht).trans (hboth.others.refs name hs ht) }

end

end Daemon
end Merge

/-! ## A merge of a branch with a dirty handle -/

namespace Daemon

local instance : Blake3 := foldDigest

/-- The daemon after a write to the handle on the file `f` of the branch `b`. -/
@[irreducible] def daemonWithWrite : Daemon :=
  (((FuseOp.write 1 0 [7]).start FhSystem.daemonWithHandle).run FhSystem.daemonWithHandle).2

def mergeArgsOfB : MergeArgs := ⟨[], [1], [1], 0, 0, 0, 5⟩

/-- The merge of `b` into `main`. -/
@[irreducible] def mergeOfB : Option (BranchMergeResult × Daemon) :=
  daemonWithWrite.mergeBranch [98] Refs.mainName mergeArgsOfB

/-- Trees in which everything is at the root. -/
theorem closed_of_shallow {wt : WorkingTree} (hdelta : ∀ p ∈ wt.delta, p.length ≤ 1)
    (hbase : ∀ p ∈ wt.baseMap, p.length ≤ 1) : wt.Closed := by
  intro p e hp q hq hq0 hqp
  have hlen : p.length ≤ 1 := by
    have hraw := (lookup_eq_some.1 hp).1
    unfold lookupRaw at hraw
    split at hraw
    · rename_i e' hd
      exact hdelta p (ExtTreeMap.mem_iff_isSome_getElem?.2 (by simp [hd]))
    · exact hbase p (ExtTreeMap.mem_iff_isSome_getElem?.2 (by simp [hraw]))
  have hpos := List.length_pos_iff.2 hq0
  have hle := hq.length_le
  exact absurd (hq.eq_of_length (by omega)) hqp

theorem goodNames_daemonWithWrite : daemonWithWrite.GoodNames := by
  have hempty : Contents GoodTreeFile ({} : Daemon).store :=
    ⟨fun hf => by simp at hf, fun batch hbatch => by simp at hbatch⟩
  have hfresh := goodNames_initializeDaemon hempty FhSystem.initializeDaemon_freshDaemon
  have hname : GoodPath [[102]] := by
    intro n hn
    rw [List.mem_singleton.1 hn]
    exact ⟨by simp, by simp⟩
  have hb : FhSystem.daemonWithB.GoodNames := by
    unfold FhSystem.daemonWithB
    exact hfresh.createBranch _ _
  have hhandle : FhSystem.daemonWithHandle.GoodNames := by
    unfold FhSystem.daemonWithHandle
    exact hb.request fun p hp => List.mem_singleton.1 hp ▸ hname
  unfold daemonWithWrite
  exact hhandle.request fun p hp => (by cases hp)

theorem closed_daemonWithWrite : ∀ b wt, daemonWithWrite.tree b = some wt → wt.Closed := by
  have hall : daemonWithWrite.branches.toList.all (fun entry =>
      entry.2.wt.delta.keys.all (fun p => p.length ≤ 1) &&
        entry.2.wt.baseMap.keys.all fun p => p.length ≤ 1) = true := by
    decide +kernel
  intro b wt hwt
  obtain ⟨br, hbr, rfl⟩ := Option.map_eq_some_iff.1 hwt
  have hmem := List.all_eq_true.1 hall (b, br) (ExtTreeMap.mem_toList_iff_getElem?_eq_some.2 hbr)
  rw [Bool.and_eq_true, List.all_eq_true, List.all_eq_true] at hmem
  refine closed_of_shallow (fun p hp => ?_) fun p hp => ?_
  · simpa using hmem.1 p (ExtTreeMap.mem_keys.2 hp)
  · simpa using hmem.2 p (ExtTreeMap.mem_keys.2 hp)

theorem exists_mergeOfB : ∃ r, daemonWithWrite.mergeBranch [98] Refs.mainName mergeArgsOfB =
    some r ∧ r.1.ok = true ∧ r.2.store.collided = false ∧
      (daemonWithWrite.tree 1).bind (·.lookup [[102]]) ≠ (r.2.tree 1).bind (·.lookup [[102]]) := by
  have hrun : mergeOfB.map (fun r => (r.1.ok, r.2.store.collided,
      decide ((daemonWithWrite.tree 1).bind (·.lookup [[102]]) =
        (r.2.tree 1).bind (·.lookup [[102]])))) = some (true, false, false) := by
    decide +kernel
  obtain ⟨r, hr, heq⟩ := Option.map_eq_some_iff.1 hrun
  rw [mergeOfB] at hr
  simp only [Prod.mk.injEq, decide_eq_false_iff_not] at heq
  exact ⟨r, hr, heq.1, heq.2.1, heq.2.2⟩

theorem branchByName_daemonWithWrite : ∃ br br', daemonWithWrite.branchByName [98] = some (1, br) ∧
    daemonWithWrite.branchByName Refs.mainName = some (0, br') := by
  have hids : (daemonWithWrite.branchByName [98]).map (·.1) = some 1 ∧
      (daemonWithWrite.branchByName Refs.mainName).map (·.1) = some 0 := by
    decide +kernel
  obtain ⟨⟨b, br⟩, hbr, rfl⟩ := Option.map_eq_some_iff.1 hids.1
  obtain ⟨⟨b', br'⟩, hbr', rfl⟩ := Option.map_eq_some_iff.1 hids.2
  exact ⟨br, br', hbr, hbr'⟩

/-- The merge changes the live view of its source: a write of a handle that is still open becomes
visible. -/
theorem source_changed_by_merge : ∃ (d : Daemon) (sourceName targetName : Bytes)
    (source : Nat) (sourceBr : BranchContext) (args : MergeArgs) (r : BranchMergeResult × Daemon)
    (p : FsPath), d.GoodNames ∧ (∀ b wt, d.tree b = some wt → wt.Closed) ∧
      d.branchByName sourceName = some (source, sourceBr) ∧ sourceName ≠ targetName ∧
      d.mergeBranch sourceName targetName args = some r ∧ r.1.ok = true ∧
      (d.tree source).bind (·.lookup p) ≠ (r.2.tree source).bind (·.lookup p) := by
  obtain ⟨r, hr, hok, -, hdiff⟩ := exists_mergeOfB
  obtain ⟨br, -, hbr, -⟩ := branchByName_daemonWithWrite
  exact ⟨daemonWithWrite, [98], Refs.mainName, 1, br, mergeArgsOfB, r, [[102]],
    goodNames_daemonWithWrite, closed_daemonWithWrite, hbr, by decide, hr, hok, hdiff⟩

theorem merge_end_to_end_of_b : ∃ r, daemonWithWrite.mergeBranch [98] Refs.mainName mergeArgsOfB =
    some r ∧ r.1.ok = true ∧ AppliedAll daemonWithWrite 1 r.2 ∧
      ∃ cp cp' base sourceWt targetWt, Merged daemonWithWrite [98] Refs.mainName 1 0 mergeArgsOfB r
        cp cp' base sourceWt targetWt := by
  obtain ⟨r, hr, hok, hc, -⟩ := exists_mergeOfB
  obtain ⟨br, br', hbr, hbr'⟩ := branchByName_daemonWithWrite
  have horder : ∀ fh, daemonWithWrite.getFh fh ≠ none → fh ∈ mergeArgsOfB.sourceOrder := by
    have hall : daemonWithWrite.fhTable.keys = [1] := by decide +kernel
    intro fh hfh
    have hmem : fh ∈ daemonWithWrite.fhTable.keys := by
      rw [ExtTreeMap.mem_keys, ExtTreeMap.mem_iff_isSome_getElem?, Option.isSome_iff_ne_none]
      exact hfh
    rw [hall] at hmem
    exact hmem
  obtain ⟨hmerged, happlied, -⟩ :=
    (merge_end_to_end goodNames_daemonWithWrite hr hbr hbr' (by decide) horder hc).1 hok
  exact ⟨r, hr, hok, happlied, hmerged⟩

end Daemon
end ContextFS
