import ContextFS.Daemon.PlainRequests
import ContextFS.Tree.FlatMap

/-!
# Runs of the daemon

Requests, looks, checkpoints, forks and rollbacks in any order: every run of the daemon in which
blobs reach the store is one of the plain service, with answers that mean the same.
-/

namespace ContextFS

open Std Lib ObjectStore WorkingTree Daemon

/-! ## Looks -/

section Looks

variable {d : Daemon} {sv : PlainService}

/-- The tree a process without a lock looks at stands for the view it is shown. -/
theorem viewShown_look (h : d.Serves sv) (b : Nat) :
    ViewShown d.store (d.treeForPid b) (sv.look fileConventions b) := by
  unfold Daemon.treeForPid FileService.look
  rcases optionRel_cases (h.views b) with ⟨ht, hv⟩ | ⟨wt, v, ht, hv, hshown⟩
  · rw [ht, hv, Option.none_or, Option.none_or]
    -- the branch is gone, and `main` stands in for it
    rcases optionRel_cases (h.views 0) with ⟨ht, hv⟩ | ⟨wt, v, ht, hv, hshown⟩
    · rw [ht, show sv.view fileConventions.home = none from hv]
      intro path
      exact .none
    · rw [ht, show sv.view fileConventions.home = some v from hv]
      exact hshown
  · rw [ht, hv]
    exact hshown

theorem means_readlink (h : d.Serves sv) (b : Nat) {path : FsPath} (size : Nat)
    (hpath : fileConventions.Open path) :
    let r := sv.call fileConventions (.readlink b path size)
    Means (.answer (d.casReadlink b path size)) r.1 ∧ r.2 = sv := by
  obtain ⟨hhidden, hfast, hbelow⟩ := plain_of_open hpath
  unfold Daemon.casReadlink
  rw [if_neg (by simp [hfast]), if_neg (by simp [hbelow]), if_neg (by simp [hhidden])]
  unfold FileService.call
  rcases optionRel_cases (viewShown_look h b path) with ⟨hl, hv⟩ | ⟨e, n, hl, hv, hnode⟩
  · simp only [hl, hv, and_true]
    exact .refused .missing
  simp only [hl, hv]
  by_cases hk : n.kind = .link
  · rw [if_neg (not_not.2 (hnode.isLink.2 hk)), if_neg (not_not.2 hk)]
    have hdata := hnode.data (by rw [hk]; decide)
    rw [blobContent, if_neg (hnode.link hk)] at hdata
    rw [hdata]
    exact ⟨.data _, rfl⟩
  · rw [if_pos fun hkind => hk (hnode.isLink.1 hkind), if_pos hk]
    exact ⟨.refused .notLink, rfl⟩

/-- A look under the lock of a branch, at what is at a path. -/
theorem means_withNode (h : d.Serves sv) (b : Nat) (path : FsPath)
    {k : WorkingTreeEntry → Answer}
    {k' : FileView Name UInt8 UInt32 → FileNode UInt8 UInt32 → PlainAnswer × PlainService}
    (hk : ∀ v e n, NodeShown d.store e n → Means (.answer (k e)) (k' v n).1 ∧ (k' v n).2 = sv) :
    Means (.answer (match d.tree b with
      | none => .error .estale
      | some wt =>
          match wt.lookup path with
          | none => .error .enoent
          | some e => k e)) (sv.withNode b path k').1 ∧ (sv.withNode b path k').2 = sv := by
  unfold FileService.withNode FileService.withView
  rcases optionRel_cases (h.views b) with ⟨ht, hv⟩ | ⟨wt, v, ht, hv, hshown⟩
  · rw [ht, hv]
    exact ⟨.refused .gone, rfl⟩
  rw [ht, hv]
  rcases optionRel_cases (hshown path) with ⟨hl, hv⟩ | ⟨e, n, hl, hv, hnode⟩
  · simp only [hl, hv, and_true]
    exact .refused .missing
  · simp only [hl, hv]
    exact hk v e n hnode

/-- The size of a file for the one who changes it. -/
theorem dirtyFhSizeForPath_eq (h : d.Serves sv) (b : Nat) (order : List Nat) (path : FsPath) :
    d.dirtyFhSizeForPath order path b = sv.draftSize b order path := by
  unfold Daemon.dirtyFhSizeForPath FileService.draftSize
  induction order with
  | nil => rfl
  | cons fh order ih =>
      rcases optionRel_cases (h.files fh) with ⟨hs, hf⟩ | ⟨s, f, hs, hf, hdraft⟩
      · rw [List.filterMap_cons_none hs, List.filterMap_cons_none hf]
        exact ih
      · rw [List.filterMap_cons_some hs, List.filterMap_cons_some hf, List.findSome?_cons,
          List.findSome?_cons, ih, hdraft.effectiveSize]
        have hcond : (!s.stale && decide (s.path = path) && (s.branchId == b) &&
            s.writeBuf.isDirty) = decide (f.path = path ∧ f.pending b = true) := by
          rw [hdraft.stale, hdraft.path, hdraft.tree, hdraft.dirty, OpenFile.pending,
            Bool.eq_iff_iff]
          simp only [Bool.and_eq_true, decide_eq_true_eq]
          tauto
        simp only [hcond, decide_eq_true_eq]

theorem means_getattr (h : d.Serves sv) (b : Nat) (order : List Nat) {path : FsPath}
    (hpath : fileConventions.Open path) :
    let r := sv.call fileConventions (.stat b order path)
    Means (.answer (d.casGetattr b order path)) r.1 ∧ r.2 = sv := by
  obtain ⟨hhidden, -, hbelow⟩ := plain_of_open hpath
  unfold Daemon.casGetattr
  rw [if_neg (by simp [hbelow]), if_neg (by simp [hhidden])]
  refine means_withNode h b path fun v e n hnode => ?_
  rw [hnode.kind, hnode.perm, dirtyFhSizeForPath_eq h]
  cases hk : n.kind with
  | dir => exact ⟨.stat .dir n.perm 0, rfl⟩
  | file =>
      rw [hnode.entrySize (by rw [hk]; decide)]
      exact ⟨.stat .file n.perm _, rfl⟩
  | link =>
      rw [hnode.entrySize (by rw [hk]; decide)]
      exact ⟨.stat .link fileConventions.linkPerm _, rfl⟩

/-- The listing has every visible name once. -/
theorem mem_names_shown {store : ObjectStore} {wt : WorkingTree}
    {v : FileView Name UInt8 UInt32} (h : ViewShown store wt v) {path : FsPath}
    (hroot : path = [] → v [] = none) :
    let l := ((wt.listDir path).map fun pe => pe.1.getLastD []).filter fun name =>
      name ≠ storeName ∧ name ≠ controlName
    l.Nodup ∧ ∀ name, name ∈ l ↔ v (path ++ [name]) ≠ none ∧ fileConventions.hidden name = false := by
  have hchild : ∀ pe ∈ wt.listDir path, pe.1 = path ++ [pe.1.getLastD []] := by
    rintro ⟨p, e⟩ hpe
    obtain ⟨name, rfl, -⟩ := (mem_listDir_shown h hroot p).1 ⟨e, hpe⟩
    simp
  constructor
  · refine List.Nodup.filter _ (List.Nodup.map_on ?_ ?_)
    · rintro ⟨p, e⟩ hpe ⟨q, e'⟩ hqe heq
      have hpq : p = q := by
        have hp := hchild _ hpe
        rw [heq] at hp
        exact hp.trans (hchild _ hqe).symm
      subst hpq
      rw [(sortedKeys_listDir wt path).value_unique hpe hqe]
    · refine (sortedKeys_listDir wt path).imp ?_
      rintro a b hlt rfl
      simp at hlt
  · intro name
    simp only [List.mem_filter, List.mem_map, decide_eq_true_eq, fileConventions,
      Bool.or_eq_false_iff, decide_eq_false_iff_not]
    refine and_congr_left fun _ => ⟨?_, fun hname => ?_⟩
    · rintro ⟨⟨p, e⟩, hpe, rfl⟩
      obtain ⟨name, rfl, hne⟩ := (mem_listDir_shown h hroot p).1 ⟨e, hpe⟩
      simpa using hne
    · obtain ⟨e, hpe⟩ := (mem_listDir_shown h hroot _).2 ⟨name, rfl, hname⟩
      exact ⟨_, hpe, by simp⟩

theorem means_readdir (h : d.Serves sv) {b : Nat} {path : FsPath}
    (hpath : fileConventions.Open path ∨ path = [] ∧ sv.look fileConventions b [] = none) :
    let r := sv.call fileConventions (.list b path)
    Means (.answer (d.casReaddir b path)) r.1 ∧ r.2 = sv := by
  have hhidden : isHidden path = false := by
    rcases hpath with hopen | ⟨rfl, -⟩
    · exact (plain_of_open hopen).1
    · rfl
  have hshown := viewShown_look h b
  unfold Daemon.casReaddir FileService.call
  rw [if_neg (by simp [hhidden])]
  simp only
  generalize d.treeForPid b = wt at hshown ⊢
  generalize sv.look fileConventions b = v at hpath hshown ⊢
  have hroot : path = [] → v [] = none := by
    rintro rfl
    rcases hpath with ⟨name, hname, -⟩ | ⟨-, hroot⟩
    · cases hname
    · exact hroot
  have hdir : (wt.lookup path).map (·.kind) ≠ some .tree ↔ (v path).map (·.kind) ≠ some .dir := by
    rcases optionRel_cases (hshown path) with ⟨hl, hv⟩ | ⟨e, n, hl, hv, hnode⟩
    · simp [hl, hv]
    · simp [hl, hv, hnode.isDir]
  by_cases hnot : path ≠ [] ∧ (v path).map (·.kind) ≠ some .dir
  · rw [if_pos ⟨hnot.1, hdir.2 hnot.2⟩, if_pos hnot]
    exact ⟨.refused .missing, rfl⟩
  · rw [if_neg fun hyes => hnot ⟨hyes.1, hdir.1 hyes.2⟩, if_neg hnot]
    obtain ⟨hnodup, hmem⟩ := mem_names_shown hshown hroot
    exact ⟨.names hnodup hmem, rfl⟩

end Looks

/-! ## Checkpoints and branches -/

section Branches

variable {d : Daemon} {sv : PlainService}

/-- What a daemon serves is in its trees and handles. -/
theorem Daemon.Serves.of_eq (h : d.Serves sv) {d' : Daemon} (hstore : d'.store = d.store)
    (htree : ∀ b, d'.tree b = d.tree b) (hfh : ∀ fh, d'.getFh fh = d.getFh fh)
    (hnextFh : d'.nextFhId = d.nextFhId) (hnext : d'.nextBranchId = d.nextBranchId) :
    d'.Serves sv where
  views := fun b => by
    rw [htree, hstore]
    exact h.views b
  files := fun fh => by
    rw [hfh, hstore]
    exact h.files fh
  snapshots := by
    rw [hstore]
    exact h.snapshots
  nextFile := hnextFh.trans h.nextFile
  nextTree := hnext.trans h.nextTree

/-- All handles of a branch become stale. -/
theorem Daemon.Serves.staleFiles (h : d.Serves sv) (b : Nat) :
    Daemon.Serves { d with fhTable := invalidateFhs b d.fhTable } (sv.staleFiles b) where
  views := h.views
  files := fun fh => by
    have hget : ({ d with fhTable := invalidateFhs b d.fhTable } : Daemon).getFh fh =
        (d.getFh fh).map fun s => if s.branchId = b then { s with stale := true } else s :=
      getFh_invalidateFhs b d.fhTable fh
    show Option.Rel _ _ ((sv.file fh).map fun f =>
      if f.tree = b then { f with stale := true } else f)
    rw [hget]
    rcases optionRel_cases (h.files fh) with ⟨hs, hf⟩ | ⟨s, f, hs, hf, hdraft⟩
    · rw [hs, hf]
      exact .none
    · rw [hs, hf, Option.map_some, Option.map_some]
      by_cases hb : s.branchId = b
      · rw [if_pos hb, if_pos (hdraft.tree.symm.trans hb)]
        exact .some hdraft.setStale
      · rw [if_neg hb, if_neg fun htree => hb (hdraft.tree.trans htree)]
        exact .some hdraft
  snapshots := h.snapshots
  nextFile := h.nextFile
  nextTree := h.nextTree

/-- A branch gets another tree. -/
theorem Daemon.Serves.putBranch (h : d.Serves sv) (b : Nat) (br : BranchContext)
    {v : FileView Name UInt8 UInt32} (hv : ViewShown d.store br.wt v) :
    Daemon.Serves { d with branches := d.branches.insert b br } (sv.setView b v) where
  views := fun c => by
    have htree : ({ d with branches := d.branches.insert b br } : Daemon).tree c =
        if b = c then some br.wt else d.tree c := tree_of_branches_insert rfl c
    rw [htree, FileService.setView_view]
    split
    · exact .some hv
    · exact h.views c
  files := h.files
  snapshots := h.snapshots
  nextFile := h.nextFile
  nextTree := h.nextTree

theorem serves_fork (h : d.Serves sv) {name source : Bytes} {b id : Nat} {br : BranchContext}
    {d' : Daemon} (hsource : d.branchByName source = some (b, br))
    (hfork : d.createBranch name source = (some id, d')) :
    let r := sv.call fileConventions (.fork b)
    Means (.branch id) r.1 ∧ d'.Serves r.2 := by
  rcases createBranch_cases d name source with
    ⟨next, refs, heq⟩ | ⟨b', br', commit, refs, hsource', -, -, -, heq⟩
  · cases heq.symm.trans hfork
  · cases heq.symm.trans hfork
    cases hsource.symm.trans hsource'
    obtain ⟨v, hv, hshown⟩ := h.tree (tree_of_branch (branchByName_eq_some hsource).1)
    have hput := h.putBranch d.nextBranchId ⟨name, br.wt⟩ hshown
    simp only [FileService.call, FileService.withView, hv, ← h.nextTree]
    exact ⟨.tree _, hput.views, hput.files, hput.snapshots, hput.nextFile, rfl⟩

theorem serves_drop (h : d.Serves sv) {name : Bytes} {routed : Bool} {b : Nat}
    {br : BranchContext} {d' : Daemon} (hname : d.branchByName name = some (b, br))
    (hdrop : d.deleteBranch name routed = (true, d')) :
    let r := sv.call fileConventions (.drop b)
    Means (.answer (.ok .ok)) r.1 ∧ d'.Serves r.2 := by
  rcases deleteBranch_cases d name routed with ⟨refs, heq⟩ | ⟨b', br', refs, hname', -, heq⟩
  · cases heq.symm.trans hdrop
  · cases heq.symm.trans hdrop
    cases hname.symm.trans hname'
    obtain ⟨v, hv, -⟩ := h.tree (tree_of_branch (branchByName_eq_some hname).1)
    have hstale := h.staleFiles b
    simp only [FileService.call, FileService.withView, hv]
    refine ⟨.done, fun c => ?_, hstale.files, hstale.snapshots, hstale.nextFile, hstale.nextTree⟩
    have htree : ({ d with
        refs := refs
        fhTable := invalidateFhs b d.fhTable
        branches := d.branches.erase b } : Daemon).tree c = if b = c then none else d.tree c := by
      unfold Daemon.tree branch
      rw [ExtTreeMap.getElem?_erase]
      by_cases hc : b = c <;> simp [hc]
    simp only [htree, Function.update_apply, eq_comm (a := c)]
    split
    · exact .none
    · exact h.views c

theorem serves_rollback (h : d.Serves sv) {name : Bytes} {target : Hash} {fuel b : Nat}
    {br : BranchContext} {r : CommitResult × Daemon} (hname : d.branchByName name = some (b, br))
    (hback : d.rollbackBranchToCommit name target fuel = some r) (hok : r.1.ok = true)
    (hsaved : sv.snapshot target ≠ none) :
    let r' := sv.call fileConventions (.restore b target)
    Means (.answer (.ok .ok)) r'.1 ∧ r.2.Serves r'.2 := by
  obtain ⟨v, hv, -⟩ := h.tree (tree_of_branch (branchByName_eq_some hname).1)
  obtain ⟨saved, hsnap⟩ := Option.ne_none_iff_exists'.1 hsaved
  obtain ⟨wt, hshows, hshown⟩ := h.snapshots target saved hsnap
  -- with more fuel the rollback does the same
  obtain ⟨n, hn⟩ := hshows.rollback hname
  obtain ⟨r', hr', ⟨wt', htree, hsame⟩, -⟩ := hn (max fuel n) (Nat.le_max_right fuel n)
  cases (rollbackBranchToCommit_mono (Nat.le_max_left fuel n) hback).symm.trans hr'
  rcases rollbackBranchToCommit_cases hback with ⟨hfail, -⟩ | ⟨b', br', o, hname', -, -, rfl⟩
  · cases hfail.symm.trans hok
  · cases hname.symm.trans hname'
    rw [tree_of_branches_insert (d := d) rfl b, if_pos rfl] at htree
    cases htree
    have hput := (h.staleFiles b).putBranch b { br with wt := o.wt } (hshown.congr hsame.symm)
    simp only [FileService.call, FileService.withView, hv, hsnap]
    exact ⟨.done, hput.views, hput.files, hput.snapshots, hput.nextFile, hput.nextTree⟩

variable [Blake3]

/-- The daemon while the handles of a branch are flushed. -/
def Daemon.flushing (d : Daemon) (b : Nat) (br : BranchContext)
    (st : ObjectStore × FhTable × WorkingTree) : Daemon :=
  { d with
    store := st.1
    fhTable := st.2.1
    branches := d.branches.insert b { br with wt := st.2.2 } }

omit [Blake3] in
theorem branch_flushing (d : Daemon) (b : Nat) (br : BranchContext)
    (st : ObjectStore × FhTable × WorkingTree) (c : Nat) :
    (d.flushing b br st).branch c = if b = c then some { br with wt := st.2.2 } else d.branch c :=
  branch_insert d b { br with wt := st.2.2 } c rfl

omit [Blake3] in
theorem tree_flushing (d : Daemon) (b : Nat) (br : BranchContext)
    (st : ObjectStore × FhTable × WorkingTree) (c : Nat) :
    (d.flushing b br st).tree c = if b = c then some st.2.2 else d.tree c := by
  unfold Daemon.tree
  rw [branch_flushing]
  split <;> rfl

/-- One flush of the sweep is a save. -/
theorem serves_flushOne {b fh : Nat} {br : BranchContext} {store : ObjectStore} {fhs : FhTable}
    {wt : WorkingTree} (h : (d.flushing b br (store, fhs, wt)).Serves sv) {s : FhState}
    (hs : fhs[fh]? = some s) (hneeds : s.needsFlush b = true)
    (hz : (store.writeBlob (s.flushData store)).2 ≠ zeroHash)
    (hc : (store.writeBlob (s.flushData store)).1.collided = false) (hsettled : sv.Settled fh)
    {f : OpenFile Name UInt8} {v : FileView Name UInt8 UInt32} (hf : sv.file fh = some f)
    (hv : sv.view b = some v) (hdraft : DraftShown store s f) :
    (d.flushing b br ((store.writeBlob (s.flushData store)).1,
      fhs.insert fh (s.flushed (store.writeBlob (s.flushData store)).2 (s.flushData store)),
      insertFlushed wt s.path (store.writeBlob (s.flushData store)).2)).Serves
        (sv.save fileConventions fh f v) := by
  obtain ⟨hbranch, hstale, hdirty⟩ := FhState.needsFlush_iff.1 hneeds
  have hget : (d.flushing b br (store, fhs, wt)).getFh fh = some s := hs
  have hbr : (d.flushing b br (store, fhs, wt)).branch s.branchId = some { br with wt := wt } := by
    rw [branch_flushing, if_pos hbranch.symm]
  have hstart : (d.flushing b br (store, fhs, wt)).casFlush fh =
      .write (s.flushData store) (putFlushed fh s store) := by
    simp only [casFlush, withFh, hget, withBranch, hbr, hstale, hdirty, Bool.not_true,
      Bool.false_eq_true, if_false]
    rfl
  have hstored : ((d.flushing b br (store, fhs, wt)).casFlush fh).Stored
      (d.flushing b br (store, fhs, wt)) := by
    rw [hstart]
    exact ⟨hz, hc⟩
  have hsaved : (sv.call fileConventions (.save fh)).2 = sv.save fileConventions fh f v := by
    have hview : sv.view f.tree = some v := by rw [← hdraft.tree, hbranch, hv]
    simp [FileService.call, FileService.saveFile, FileService.withFile, hf, FileService.withView,
      hview, ← hdraft.stale, hstale, ← hdraft.dirty, hdirty]
  obtain ⟨-, hserves⟩ := matches_flush h hsettled hstored
  rw [hsaved] at hserves
  rcases casFlush_cases hget hbr hstale with ⟨hclean, -⟩ | ⟨-, ⟨hzero, -⟩ | ⟨-, hrun⟩⟩
  · cases hdirty.symm.trans hclean
  · exact absurd hzero hz
  · rw [hrun, hbranch] at hserves
    refine hserves.of_eq rfl (fun c => ?_) (fun _ => rfl) rfl rfl
    refine Eq.trans ?_
      (tree_of_branches_insert (d := d.flushing b br (store, fhs, wt)) rfl c).symm
    rw [tree_flushing, tree_flushing]
    split <;> rfl

theorem serves_flushFhs {b : Nat} {br : BranchContext} (order : List Nat) {store : ObjectStore}
    {fhs : FhTable} {wt : WorkingTree} (h : (d.flushing b br (store, fhs, wt)).Serves sv)
    (hsettled : ∀ fh ∈ order, sv.Settled fh)
    (hok : (flushFhs b order (store, fhs, wt)).1 = true)
    (hc : (flushFhs b order (store, fhs, wt)).2.1.collided = false) :
    (d.flushing b br (flushFhs b order (store, fhs, wt)).2).Serves
      (sv.saveAll fileConventions b order) := by
  induction order generalizing store fhs wt sv with
  | nil => exact h
  | cons fh order ih =>
      have hrest : ∀ k ∈ order, sv.Settled k := fun k hk => hsettled k (List.mem_cons_of_mem _ hk)
      have htree : (d.flushing b br (store, fhs, wt)).tree b = some wt :=
        tree_of_branch ((branch_flushing d b br _ b).trans (if_pos rfl))
      obtain ⟨v, hv, -⟩ := h.tree htree
      rcases optionRel_cases (h.files fh) with ⟨hs, hf⟩ | ⟨s, f, hs, hf, hdraft⟩
      · have hs' : fhs[fh]? = none := hs
        simp only [flushFhs, hs', FileService.saveAll, hf] at hok hc ⊢
        exact ih h hrest hok hc
      · have hs' : fhs[fh]? = some s := hs
        have hpending : f.pending b = s.needsFlush b := by
          rw [OpenFile.pending, FhState.needsFlush, hdraft.tree, hdraft.stale, hdraft.dirty]
        cases hneeds : s.needsFlush b with
        | false =>
            rw [hneeds] at hpending
            simp only [flushFhs, hs', hneeds, FileService.saveAll, hf, hv, hpending,
              Bool.false_eq_true, if_false] at hok hc ⊢
            exact ih h hrest hok hc
        | true =>
            rw [hneeds] at hpending
            by_cases hz : (store.writeBlob (s.flushData store)).2 = zeroHash
            · simp only [flushFhs, hs', hneeds, hz, if_true] at hok
              cases hok
            · simp only [flushFhs, hs', hneeds, hz, FileService.saveAll, hf, hv, hpending, if_true,
                if_false] at hok hc ⊢
              have hc₁ := (extends_flushFhs b order _ _ _).collided_eq hc
              exact ih (serves_flushOne h hs' hneeds hz hc₁ (hsettled fh List.mem_cons_self) hf hv
                hdraft) (fun k hk => (hrest k hk).save sv fh f v) hok hc

/-- A checkpoint saves the open files of its branch, and its commit is a snapshot. -/
theorem serves_checkpoint (h : d.Serves sv) (hgood : d.GoodNames) {b : Nat} {br : BranchContext}
    (hbr : d.branch b = some br) (hclosed : br.wt.Closed) (hstorable : br.wt.Storable)
    {order : List Nat} (hfits : d.FlushFits b order) (horder : ∀ fh, d.getFh fh ≠ none → fh ∈ order)
    (hsettled : ∀ fh ∈ order, sv.Settled fh) {label : Bytes} {timestampNs : UInt64}
    {cp : CommitResult × Daemon} (hcp : d.checkpointBranch b label order timestampNs = cp)
    (hok : cp.1.ok = true) (hc : cp.2.store.collided = false) :
    let r := sv.call fileConventions (.checkpoint b order cp.1.commit)
    Means (.answer (.ok .ok)) r.1 ∧ cp.2.Serves r.2 := by
  obtain ⟨v, hv, -⟩ := h.tree (tree_of_branch hbr)
  subst hcp
  obtain ⟨-, shown, htree, -, -, hshows⟩ :=
    commitShows_checkpointBranch hgood hbr hclosed hstorable hfits horder hc hok
  -- the flush comes first, and the commit on top of it
  have hserves : (d.checkpointBranch b label order timestampNs).2.Serves
      (sv.saveAll fileConventions b order) := by
    rw [checkpointBranch_eq hbr] at hok hc ⊢
    obtain ⟨commit, hflushed, -, hpub, -⟩ := checkpointLocked_ok hok
    have hstart : (d.flushing b br (d.store, d.fhTable, br.wt)).Serves sv := by
      refine h.of_eq rfl (fun c => ?_) (fun _ => rfl) rfl rfl
      rw [tree_flushing]
      split
      · rename_i hbc
        exact (hbc ▸ tree_of_branch hbr).symm
      · rfl
    have hext : Extends (flushFhs b order (d.store, d.fhTable, br.wt)).2.1
        (checkpointLocked (d.commitMeta label timestampNs)
          (flushFhs b order (d.store, d.fhTable, br.wt)).1
          (flushFhs b order (d.store, d.fhTable, br.wt)).2.2.2 br.name
          (flushFhs b order (d.store, d.fhTable, br.wt)).2.1 d.refs).2.1 := by
      rw [checkpointLocked_store, if_pos hflushed]
      exact (grows_publishCommit _ _ _ _).extends_
    have hflush := serves_flushFhs order hstart hsettled hflushed (hext.collided_eq hc)
    exact (hflush.withStore hext).of_eq rfl (fun _ => rfl) (fun _ => rfl) rfl rfl
  obtain ⟨v', hv', hshown⟩ := hserves.tree htree
  simp only [FileService.call, FileService.withView, hv]
  refine ⟨.done, hserves.views, hserves.files, fun t view hview => ?_, hserves.nextFile,
    hserves.nextTree⟩
  simp only [Function.update_apply] at hview
  split at hview
  · rename_i heq
    subst heq
    cases hv'.symm.trans hview
    exact ⟨shown, hshows, hshown⟩
  · exact hserves.snapshots t view hview

end Branches

/-! ## Runs -/

section Runs

variable [Blake3]

/-- The daemon is called and reports.  The blobs a request writes reach the store, the names are
such as a tree can hold; a checkpoint, fork, rollback or deletion succeeds, what is in a branch
that is checkpointed can be stored, and a fork gets its id before the counter, a `uint32_t`,
wraps.  A request by path under a lock is for the branch that was found, which may be gone by
then; a listing is for the branch the process is routed to. -/
inductive Daemon.Handles : Daemon → PlainCall → Reported → Daemon → Prop
  | request {d : Daemon} (op : FuseOp) (hnames : ∀ p ∈ op.paths, GoodPath p)
      (hordinary : op.Ordinary) (hstored : (op.start d).Stored d) :
      Handles d op.call (.answer ((op.start d).run d).1) ((op.start d).run d).2
  | release {d : Daemon} {fh : Nat} (hstored : (d.casFlush fh).Stored d) :
      Handles d (.close fh) (.answer (d.casRelease fh).1) (d.casRelease fh).2
  | readdir (d : Daemon) (b : Nat) (path : FsPath) :
      Handles d (.list b path) (.answer (d.casReaddir b path)) d
  | getattr (d : Daemon) (b : Nat) (order : List Nat) (path : FsPath) :
      Handles d (.stat b order path) (.answer (d.casGetattr b order path)) d
  | readlink (d : Daemon) (b : Nat) (path : FsPath) (size : Nat) :
      Handles d (.readlink b path size) (.answer (d.casReadlink b path size)) d
  | checkpoint {d : Daemon} {b : Nat} {br : BranchContext} {label : Bytes} {order : List Nat}
      {timestampNs : UInt64} {cp : CommitResult × Daemon} (hbr : d.branch b = some br)
      (hclosed : br.wt.Closed) (hstorable : br.wt.Storable) (hfits : d.FlushFits b order)
      (horder : ∀ fh, d.getFh fh ≠ none → fh ∈ order)
      (hcp : d.checkpointBranch b label order timestampNs = cp) (hok : cp.1.ok = true)
      (hc : cp.2.store.collided = false) :
      Handles d (.checkpoint b order cp.1.commit) (.answer (.ok .ok)) cp.2
  | fork {d d' : Daemon} {name source : Bytes} {b id : Nat} {br : BranchContext}
      (hsource : d.branchByName source = some (b, br)) (hids : d.nextBranchId + 1 < 2 ^ 32)
      (hfork : d.createBranch name source = (some id, d')) : Handles d (.fork b) (.branch id) d'
  | drop {d d' : Daemon} {name : Bytes} {routed : Bool} {b : Nat} {br : BranchContext}
      (hname : d.branchByName name = some (b, br))
      (hdrop : d.deleteBranch name routed = (true, d')) :
      Handles d (.drop b) (.answer (.ok .ok)) d'
  | rollback {d : Daemon} {name : Bytes} {target : Hash} {fuel b : Nat} {br : BranchContext}
      {r : CommitResult × Daemon} (hname : d.branchByName name = some (b, br))
      (hback : d.rollbackBranchToCommit name target fuel = some r) (hok : r.1.ok = true) :
      Handles d (.restore b target) (.answer (.ok .ok)) r.2

/-- Release is a save whose answer nobody sees. -/
theorem serves_release {d : Daemon} {sv : PlainService} (h : d.Serves sv) {fh : Nat}
    (hsettled : sv.Settled fh) (hstored : (d.casFlush fh).Stored d) :
    let r := sv.call fileConventions (.close fh)
    Means (.answer (d.casRelease fh).1) r.1 ∧ (d.casRelease fh).2.Serves r.2 := by
  obtain ⟨-, hserves⟩ := matches_flush h hsettled hstored
  exact ⟨.done, hserves.closeFile fh⟩

/-- One step of the daemon is one call of the service. -/
theorem handles_refines {d d' : Daemon} {sv : PlainService} {c : PlainCall} {r : Reported}
    (h : d.Serves sv ∧ d.GoodNames) (hstep : d.Handles c r d')
    (hallowed : FileService.Allowed fileConventions sv c) :
    Means r (sv.call fileConventions c).1 ∧
      d'.Serves (sv.call fileConventions c).2 ∧ d'.GoodNames := by
  obtain ⟨h, hgood⟩ := h
  cases hstep with
  | request op hnames hordinary hstored =>
      obtain ⟨hmeans, hserves⟩ := matches_request h hordinary hallowed hstored
      exact ⟨hmeans, hserves, hgood.request hnames⟩
  | @release fh hstored =>
      obtain ⟨hmeans, hserves⟩ := serves_release h hallowed hstored
      have hflushed : (((FuseOp.flush fh).start d).run d).2.GoodNames :=
        hgood.request fun p hp => (by cases hp)
      exact ⟨hmeans, hserves, hflushed.releaseFh fh⟩
  | readdir b path =>
      obtain ⟨hmeans, hsame⟩ := means_readdir h hallowed
      exact ⟨hmeans, hsame.symm ▸ h, hgood⟩
  | getattr b order path =>
      obtain ⟨hmeans, hsame⟩ := means_getattr h b order hallowed
      exact ⟨hmeans, hsame.symm ▸ h, hgood⟩
  | readlink b path size =>
      obtain ⟨hmeans, hsame⟩ := means_readlink h b size hallowed
      exact ⟨hmeans, hsame.symm ▸ h, hgood⟩
  | checkpoint hbr hclosed hstorable hfits horder hcp hok hc =>
      obtain ⟨hmeans, hserves⟩ := serves_checkpoint h hgood hbr hclosed hstorable hfits horder
        hallowed hcp hok hc
      exact ⟨hmeans, hserves, hcp ▸ hgood.checkpointBranch _ _ _ _⟩
  | @fork _ name source _ _ _ hsource hids hfork =>
      obtain ⟨hmeans, hserves⟩ := serves_fork h hsource hfork
      have hnames := hgood.createBranch name source
      rw [hfork] at hnames
      exact ⟨hmeans, hserves, hnames⟩
  | @drop _ name routed _ _ hname hdrop =>
      obtain ⟨hmeans, hserves⟩ := serves_drop h hname hdrop
      have hnames := hgood.deleteBranch name routed
      rw [hdrop] at hnames
      exact ⟨hmeans, hserves, hnames⟩
  | rollback hname hback hok =>
      obtain ⟨hmeans, hserves⟩ := serves_rollback h hname hback hok hallowed
      exact ⟨hmeans, hserves, hgood.rollback hback⟩

end Runs

/-- A daemon without open handles stands for a service, when all its entries do for nodes. -/
theorem exists_serves {d : Daemon} (hfh : ∀ fh, d.getFh fh = none)
    (hnodes : ∀ b wt p e, d.tree b = some wt → wt.lookup p = some e →
      ∃ n, NodeShown d.store e n) :
    ∃ sv : PlainService, d.Serves sv ∧ (∀ fh, sv.file fh = none) ∧ sv.nextFile = d.nextFhId := by
  have hview : ∀ b, ∃ v, Option.Rel (ViewShown d.store) (d.tree b) v := by
    intro b
    cases hwt : d.tree b with
    | none => exact ⟨none, .none⟩
    | some wt =>
        have hnode : ∀ p, ∃ n, Option.Rel (NodeShown d.store) (wt.lookup p) n := by
          intro p
          cases he : wt.lookup p with
          | none => exact ⟨none, .none⟩
          | some e =>
              obtain ⟨n, hn⟩ := hnodes b wt p e hwt he
              exact ⟨some n, .some hn⟩
        choose v hv using hnode
        exact ⟨some v, .some hv⟩
  choose view hview using hview
  refine ⟨⟨view, fun _ => none, fun _ => none, d.nextFhId, d.nextBranchId⟩,
    ⟨hview, fun fh => ?_, fun t v hv => (by cases hv), rfl, rfl⟩, fun _ => rfl, rfl⟩
  rw [hfh]
  exact .none

section Run

attribute [local instance] mountDigest

/-- Where a request leads. -/
def Daemon.after (d : Daemon) (op : FuseOp) : Daemon := ((op.start d).run d).2

/-- `/f` is created, written and checkpointed, then unlinked; the rollback brings it back. -/
theorem handles_dirtyFile : freshMount.all (fun m =>
    let d₁ := m.daemon.after (.create 0 [[102]] 0o644)
    let cp := (d₁.after (.write 1 0 [7])).checkpointBranch 0 [] [1] 0
    let d₄ := cp.2.after (.unlink 0 [[102]])
    (((FuseOp.create 0 [[102]] 0o644).start m.daemon).Stored m.daemon &&
      ((FuseOp.write 1 0 [7]).start d₁).Stored d₁ &&
      ((FuseOp.unlink 0 [[102]]).start cp.2).Stored cp.2) &&
    (m.daemon.fhTable.isEmpty && m.daemon.branches.toList.all (fun x => x.2.wt.entries.isEmpty) &&
      m.daemon.nextFhId == 1 && (m.daemon.tree 0).isSome) &&
    ((d₄.branchByName Refs.mainName).any (fun x => x.1 == 0) &&
      (d₄.rollbackBranchToCommit Refs.mainName cp.1.commit 9).any fun r => r.1.ok)) = true := by
  decide +kernel

/-- The calls of that run, with the commit of its checkpoint. -/
def dirtyFileCalls (commit : Hash) : List PlainCall :=
  [.create 0 [[102]] 0o644, .write 1 0 [7], .checkpoint 0 [1] commit, .unlink 0 [[102]],
    .restore 0 commit]

/-- The service promises something about each of them, from any state with a first tree. -/
theorem allowed_dirtyFileCalls {sv : PlainService} {v : FileView Name UInt8 UInt32}
    (hv : sv.view 0 = some v) (hfile : sv.nextFile = 1) (commit : Hash) :
    AllAllowed (FileService.call fileConventions) (FileService.Allowed fileConventions) sv
      (dirtyFileCalls commit) := by
  have hopen : fileConventions.Open [[102]] := ⟨[102], rfl, by decide⟩
  obtain ⟨view, file, snapshot, nextFile, nextTree⟩ := sv
  simp only at hv hfile
  subst hfile
  refine ⟨hopen, by simp [FileService.Allowed, fileConventions], fun fh hfh => ?_, hopen, ?_,
    trivial⟩
  · rw [List.mem_singleton.1 hfh]
    intro f hf
    simp [FileService.call, FileService.withView, FileService.withFile, FileService.addFile,
      FileService.setView, FileService.setFile, hv] at hf
    subst hf
    intro pos _ hcut
    simp [Draft.edit, cutAt, Lib.FileOp.cuts] at hcut
  · simp [FileService.call, FileService.withView, FileService.withFile, FileService.addFile,
      FileService.setView, FileService.setFile, FileService.withNode, FileService.saveAll,
      FileService.save, OpenFile.pending, Draft.dirty, Draft.edit, Lib.FileOp.isEdit, FileView.put,
      FileService.Allowed, hv]

end Run

end ContextFS
