import ContextFS.Daemon.Binding
import ContextFS.Daemon.Restore

/-!
# A rollback brings a checkpoint back

Whatever happened after a checkpoint, on its branch or on others, a rollback to its commit shows
what the branch showed when it was made, with the dirty contents of its handles applied.  The
handles that were open before the rollback are stale, and nothing that is still done through them
reaches the tree.
-/

namespace ContextFS

open Std Lib ObjectStore WorkingTree

section RollsBack

variable [Blake3]

/-! ## Handles from before -/

/-- The handle that an event goes through. -/
def MountEvent.handle : MountEvent → Option Nat
  | .request op => op.handle
  | .release fh => some fh
  | _ => none

namespace Daemon

variable {d : Daemon}

/-- Every handle of the branch with a number below `n` is stale. -/
def StaleBelow (d : Daemon) (b n : Nat) : Prop :=
  ∀ fh s, d.getFh fh = some s → fh < n → s.branchId = b → s.stale = true

omit [Blake3] in
theorem StaleBelow.of_kept {d' : Daemon} {b n : Nat} (h : d.StaleBelow b n)
    (hn : n ≤ d.nextFhId) (hkept : FhKept d d') : d'.StaleBelow b n := by
  intro fh s' hs' hlt hb
  obtain ⟨s, hs, hfollows⟩ := hkept.kept fh s' hs' (Nat.lt_of_lt_of_le hlt hn)
  exact hfollows.stale (h fh s hs hlt (hfollows.branchId.symm.trans hb))

omit [Blake3] in
theorem StaleBelow.releaseFh {b n : Nat} (h : d.StaleBelow b n) (fh : Nat) :
    (d.releaseFh fh).StaleBelow b n := by
  intro k s hs hlt hb
  rw [getFh_releaseFh] at hs
  split at hs
  · cases hs
  · exact h k s hs hlt hb

/-- A request through a stale handle, or one of another branch, leaves the tree. -/
theorem tree_request_of_stale {op : FuseOp} {fh : Nat} (hop : op.handle = some fh) {b : Nat}
    (hstale : ∀ s, d.getFh fh = some s → s.branchId = b → s.stale = true) :
    ((op.start d).run d).2.tree b = d.tree b := by
  have hstarted := op.started d
  generalize op.start d = critical at hstarted ⊢
  cases hstarted with
  | refused op e => rfl
  | opened => cases hop
  | openTrunc => cases hop
  | create => cases hop
  | read hs => exact tree_congr (modifyFh_branches d _ _) b
  | write hs => exact tree_congr (modifyFh_branches d _ _) b
  | flushClean hs hclean => rfl
  | @flush _ s _ hs hdirty =>
      cases hop
      have hne : b ≠ s.branchId := by
        intro heq
        have hst := hstale s hs.open_ heq.symm
        rw [hs.live] at hst
        cases hst
      simp only [Critical.run, putFlushed]
      split
      · exact tree_congr (modifyFh_branches _ _ _) b
      · rw [tree_congr (modifyFh_branches _ _ _) b, tree_modifyTree_of_ne _ _ hne]
        rfl
  | truncateFh hs => exact tree_congr (modifyFh_branches d _ _) b
  | truncate => cases hop
  | unlink => cases hop
  | rmdir => cases hop
  | mkdir => cases hop
  | renameDir => cases hop
  | renameEntry => cases hop
  | symlink => cases hop
  | chmod => cases hop

end Daemon

namespace Mount

open Daemon

/-- The process goes on. -/
def StaysUp (_ : Mount) : MountEvent → Mount → Prop
  | .restart .., _ => False
  | _, _ => True

theorem tree_apply_of_stale (m : Mount) {ev : MountEvent} {fh b : Nat} (hev : ev.handle = some fh)
    (hstale : ∀ s, m.daemon.getFh fh = some s → s.branchId = b → s.stale = true) :
    (m.apply ev).daemon.tree b = m.daemon.tree b := by
  cases ev with
  | request op => exact tree_request_of_stale hev hstale
  | release k =>
      cases hev
      have hflush : (((FuseOp.flush fh).start m.daemon).run m.daemon).2.tree b =
          m.daemon.tree b := tree_request_of_stale rfl hstale
      exact hflush
  | ensurePath => cases hev
  | walk => cases hev
  | stopWalk => cases hev
  | checkpoint => cases hev
  | rollback => cases hev
  | createBranch => cases hev
  | deleteBranch => cases hev
  | merge => cases hev
  | restart => cases hev
  | disk => cases hev

/-- While the process goes on, what is stale stays stale, and no number is given out again. -/
theorem staleBelow_apply {m : Mount} {ev : MountEvent} (hup : m.StaysUp ev (m.apply ev))
    {b n : Nat} (hn : n ≤ m.daemon.nextFhId) (h : m.daemon.StaleBelow b n) :
    n ≤ (m.apply ev).daemon.nextFhId ∧ (m.apply ev).daemon.StaleBelow b n := by
  have hkept : ∀ {d' : Daemon}, FhKept m.daemon d' → n ≤ d'.nextFhId ∧ d'.StaleBelow b n :=
    fun hk => ⟨Nat.le_trans hn hk.next_le, h.of_kept hn hk⟩
  have hmain : ∀ (store : ObjectStore) (wt : WorkingTree),
      FhKept m.daemon (m.setMain store wt).daemon := by
    intro store wt
    have hmod := FhKept.modifyTree m.daemon 0 fun _ => wt
    exact hmod.trans (.of_eq rfl rfl)
  cases ev with
  | request op => exact hkept (op.fhKept m.daemon).1
  | release fh =>
      obtain ⟨hnext, hstale⟩ := hkept ((FuseOp.flush fh).fhKept m.daemon).1
      exact ⟨hnext, hstale.releaseFh fh⟩
  | ensurePath source path =>
      show n ≤ (m.ensure source path).daemon.nextFhId ∧ (m.ensure source path).daemon.StaleBelow b n
      unfold ensure
      split
      · exact ⟨hn, h⟩
      · exact hkept (hmain _ _)
  | walk listing src =>
      show n ≤ (m.walk listing src).daemon.nextFhId ∧ (m.walk listing src).daemon.StaleBelow b n
      unfold walk
      split
      · exact ⟨hn, h⟩
      · exact hkept (hmain _ _)
  | stopWalk => exact ⟨hn, h⟩
  | checkpoint c label order timestampNs =>
      exact hkept (fhQuiet_checkpointBranch m.daemon c label order timestampNs).toFhKept
  | rollback name target fuel =>
      simp only [Mount.apply]
      split
      · exact ⟨hn, h⟩
      · rename_i r hr
        exact hkept (fhQuiet_rollback hr).toFhKept
  | createBranch name source => exact hkept (fhQuiet_createBranch m.daemon name source).toFhKept
  | deleteBranch name routed => exact hkept (fhQuiet_deleteBranch m.daemon name routed).toFhKept
  | merge source target args =>
      simp only [Mount.apply]
      split
      · exact ⟨hn, h⟩
      · rename_i r hr
        exact hkept (fhQuiet_mergeBranch hr).toFhKept
  | restart => exact hup.elim
  | disk faults refFaults => exact hkept (.of_eq rfl rfl)

/-- A rollback to the commit, with enough fuel, shows `shown` on whatever branch.  It is reported as
a success if the ref can be written.  What is done after it through a handle that was open before,
for as long as the process goes on, leaves the tree of the branch. -/
def RollsBackTo (m : Mount) (commit : Hash) (shown : WorkingTree) : Prop :=
  ∀ name b br, m.daemon.branchByName name = some (b, br) →
    ∃ n, ∀ fuel ≥ n, ∃ r, m.daemon.rollbackBranchToCommit name commit fuel = some r ∧
      r.1.ok = (m.daemon.refs.writeRef name commit).1 ∧
      (∃ wt, r.2.tree b = some wt ∧ wt.SameLive shown) ∧
      ∀ m', Reaches (fun x => x = { m with daemon := r.2 }) (Restrict Step StaysUp) m' →
        ∀ ev fh, ev.handle = some fh → fh < m.daemon.nextFhId →
          (m'.apply ev).daemon.tree b = m'.daemon.tree b

theorem rollsBackTo_of_commitShows {m : Mount} {commit : Hash} {shown : WorkingTree}
    (h : CommitShows m.daemon.store commit shown) : m.RollsBackTo commit shown := by
  intro name b br hname
  obtain ⟨n, hn⟩ := h.rollback hname
  refine ⟨n, fun fuel hfuel => ?_⟩
  obtain ⟨r, hr, htree, hfhs, hnext, hok⟩ := hn fuel hfuel
  refine ⟨r, hr, hok, htree, fun m' hm' ev fh hev hlt => ?_⟩
  have hstale : m.daemon.nextFhId ≤ m'.daemon.nextFhId ∧
      m'.daemon.StaleBelow b m.daemon.nextFhId := by
    refine hm'.invariant (I := fun x => m.daemon.nextFhId ≤ x.daemon.nextFhId ∧
      x.daemon.StaleBelow b m.daemon.nextFhId) ?_ ?_
    · rintro x rfl
      exact ⟨Nat.le_of_eq hnext.symm, fun k s hs _ hb => stale_of_invalidated hfhs hs hb⟩
    · rintro x ev' x' ⟨hle, hst⟩ ⟨rfl, hup⟩
      exact staleBelow_apply hup hle hst
  exact m'.tree_apply_of_stale hev fun s hs hb => hstale.2 fh s hs hlt hb

/-- A successful checkpoint of a branch with a closed live view, whose dirty contents have a place:
after any run that follows it, on this branch and on others, a rollback to its commit shows the tree
of the branch with all dirty contents applied. -/
theorem rollsBackTo_of_checkpoint {m : Mount} (h : Reaches Init (Restrict Step NamesFit) m)
    {b : Nat} {br : BranchContext} {label : Bytes} {order : List Nat} {timestampNs : UInt64}
    (hbr : m.daemon.branch b = some br) (hclosed : br.wt.Closed) (hstorable : br.wt.Storable)
    (hfits : m.daemon.FlushFits b order) (horder : ∀ fh, m.daemon.getFh fh ≠ none → fh ∈ order)
    (hc : (m.apply (.checkpoint b label order timestampNs)).daemon.store.collided = false)
    (hok : (m.daemon.checkpointBranch b label order timestampNs).1.ok = true) :
    ∃ applied shown, (m.apply (.checkpoint b label order timestampNs)).daemon.tree b = some shown ∧
      AllDirty m.daemon b applied ∧ Applied m.daemon b applied br.wt shown ∧
      ∀ m', Reaches (fun x => x = m.apply (.checkpoint b label order timestampNs)) Step m' →
        m'.RollsBackTo (m.daemon.checkpointBranch b label order timestampNs).1.commit shown := by
  obtain ⟨applied, shown, htree, hall, happ, hshows⟩ := commitShows_checkpointBranch
    (goodNames_of_reaches h).daemon hbr hclosed hstorable hfits horder hc hok
  refine ⟨applied, shown, htree, hall, happ, fun m' hm' => ?_⟩
  exact rollsBackTo_of_commitShows (hshows.mono (extends_of_reaches hm'))

end Mount

end RollsBack

/-! ## A flush that brings back an orphan -/

section Orphan

attribute [local instance] mountDigest

/-- The mount after some requests, one after the other. -/
def Mount.requests (m : Mount) (ops : List FuseOp) : Mount :=
  ops.foldl (fun m op => m.apply (.request op)) m

theorem Mount.reaches_requests {m : Mount} (hm : m.Init) {ops : List FuseOp}
    (hops : ∀ op ∈ ops, ∀ p ∈ op.paths, GoodPath p) :
    Reaches Mount.Init (Restrict Mount.Step Mount.NamesFit) (m.requests ops) := by
  unfold Mount.requests
  have hstart : Reaches Mount.Init (Restrict Mount.Step Mount.NamesFit) m := .start hm
  clear hm
  induction ops generalizing m with
  | nil => exact hstart
  | cons op ops ih =>
      refine ih (fun op' hop' => hops op' (List.mem_cons_of_mem op hop')) (.step hstart ⟨rfl, ?_⟩)
      exact hops op List.mem_cons_self

/-- A tree in which nothing is live has nothing to keep. -/
theorem closed_of_liveEntries_nil {wt : WorkingTree} (h : wt.liveEntries = []) : wt.Closed := by
  intro p e hp
  have hin := mem_liveEntries.2 hp
  rw [h] at hin
  cases hin

/-- Whether a tree is `Storable`. -/
def storableCheck (wt : WorkingTree) : Bool :=
  wt.entries.all fun pe => !pe.2.isNullLeaf && pe.1 ≠ []

theorem storable_of_check {wt : WorkingTree} (h : storableCheck wt = true) : wt.Storable := by
  have hall : ∀ p e, wt.lookupRaw p = some e → e.isNullLeaf = false ∧ p ≠ [] := by
    intro p e hp
    have hpe := List.all_eq_true.1 h (p, e) (mem_entries.2 hp)
    simpa using hpe
  constructor
  · exact fun p e hp => (hall p e hp).1
  · cases hroot : wt.lookupRaw [] with
    | none => rfl
    | some e => exact absurd rfl (hall [] e hroot).2

/-- `/f` is created and written; the handle is still dirty. -/
def dirtyFile : List FuseOp := [.create 0 [[102]] 0o644, .write 1 0 [7]]

/-- `/d/f` is written, then both are removed; the handle is still dirty. -/
def dirtyOrphan : List FuseOp :=
  [.mkdir 0 [[100]] 0o755, .create 0 [[100], [102]] 0o644, .write 1 0 [7],
    .unlink 0 [[100], [102]], .rmdir 0 [[100]]]

/-- What the two runs lead to: one dirty handle, whose flush succeeds, in a storable tree.  Of the
first tree the file is the only entry, of the second nothing is live. -/
theorem dirtyRuns : freshMount.all (fun m =>
    [dirtyFile, dirtyOrphan].all fun ops =>
      let d := (m.requests ops).daemon
      let cp := d.checkpointBranch 0 [] [1] 0
      (cp.1.ok && !cp.2.store.collided) && (d.fhTable.keys == [1] && (d.tree 0).any storableCheck))
        = true ∧
    freshMount.all (fun m =>
      let d := (m.requests dirtyFile).daemon
      (d.fhTable.toList.all fun x => x.2.path == [[102]]) && (d.tree 0).any fun wt =>
        wt.entries.map Prod.fst == [[[102]]]) = true ∧
    freshMount.all (fun m =>
      let d := (m.requests dirtyOrphan).daemon
      let cp := d.checkpointBranch 0 [] [1] 0
      ((d.tree 0).any (fun wt => wt.liveEntries.isEmpty) &&
        (cp.2.branchByName Refs.mainName).any fun x => x.1 == 0) &&
        ((cp.2.tree 0).any (fun wt => (wt.lookup [[100], [102]]).isSome) &&
          ((cp.2.rollbackBranchToCommit Refs.mainName cp.1.commit 9).any fun r =>
            (r.2.tree 0).any fun wt => (wt.lookup [[100], [102]]).isNone))) = true := by
  decide +kernel

/-- The requests of both runs have good names. -/
theorem goodPath_dirtyRuns : (∀ op ∈ dirtyFile, ∀ p ∈ op.paths, GoodPath p) ∧
    ∀ op ∈ dirtyOrphan, ∀ p ∈ op.paths, GoodPath p := by
  unfold GoodPath GoodName
  decide

/-- What is opened is in the list of the keys. -/
theorem mem_keys_of_getFh {d : Daemon} {fh : Nat} (h : d.getFh fh ≠ none) : fh ∈ d.fhTable.keys := by
  rw [ExtTreeMap.mem_keys, ExtTreeMap.mem_iff_isSome_getElem?]
  exact Option.isSome_iff_ne_none.2 h

/-- A reached mount with a file at the root of `main` and a dirty handle of it, and what a
checkpoint of it needs. -/
theorem exists_dirtyFile : ∃ (start m : Mount) (br : BranchContext), freshMount = some start ∧
    m = start.requests dirtyFile ∧
    Reaches Mount.Init (Restrict Mount.Step Mount.NamesFit) m ∧ m.daemon.branch 0 = some br ∧
    br.wt.Closed ∧ br.wt.Storable ∧ m.daemon.FlushFits 0 [1] ∧
    (∀ fh, m.daemon.getFh fh ≠ none → fh ∈ [1]) ∧
    (m.apply (.checkpoint 0 [] [1] 0)).daemon.store.collided = false ∧
    (m.daemon.checkpointBranch 0 [] [1] 0).1.ok = true := by
  obtain ⟨start, hm, hinit⟩ := exists_freshMount
  obtain ⟨hboth, hfile, -⟩ := dirtyRuns
  rw [hm, Option.all_some, List.all_eq_true] at hboth
  rw [hm, Option.all_some] at hfile
  have hcommon := hboth dirtyFile List.mem_cons_self
  have hreach := Mount.reaches_requests hinit goodPath_dirtyRuns.1
  refine ⟨start, start.requests dirtyFile, ?_⟩
  generalize start.requests dirtyFile = m at hcommon hfile hreach
  simp only [Bool.and_eq_true, Bool.not_eq_true', beq_iff_eq, List.all_eq_true] at hcommon hfile
  obtain ⟨⟨hok, hcollided⟩, hkeys, hstorable⟩ := hcommon
  obtain ⟨hpaths, hentries⟩ := hfile
  obtain ⟨wt, hwt, hstorable⟩ := (Option.any_eq_true _ _).1 hstorable
  rw [hwt, Option.any_some, beq_iff_eq] at hentries
  obtain ⟨br, hbr, rfl⟩ := Option.map_eq_some_iff.1 hwt
  have hpath : ∀ fh s, m.daemon.getFh fh = some s → s.path = [[102]] := fun fh s hs =>
    hpaths (fh, s) (ExtTreeMap.mem_toList_iff_getElem?_eq_some.2 hs)
  -- the tree has one file, in the root
  have honly : ∀ p e, br.wt.lookup p = some e → p = [[102]] := by
    intro p e hp
    have hin := List.mem_map_of_mem (f := Prod.fst) (mem_entries.2 (lookup_eq_some.1 hp).1)
    rw [hentries, List.mem_singleton] at hin
    exact hin
  have hclosed : br.wt.Closed := by
    intro p e hp q hq hq0 hne
    rw [honly p e hp] at hq hne
    have hcases : q = [] ∨ q = [[102]] := by
      rw [← List.mem_inits] at hq
      simpa using hq
    rcases hcases with rfl | rfl
    · exact absurd rfl hq0
    · exact absurd rfl hne
  -- so the one handle flushes to the path of that file
  have hfits : m.daemon.FlushFits 0 [1] := by
    refine ⟨⟨fun wt fh s hwt' hs _ => ?_, fun fh s fh' s' hs hs' _ _ _ => ?_⟩, fun fh s hs _ => ?_,
      fun wt dir hwt' => ?_⟩
    · rw [Daemon.tree_of_branch hbr, Option.some.injEq] at hwt'
      subst hwt'
      rw [hpath fh s hs]
      refine ⟨Or.inl rfl, fun q hq hne => ?_⟩
      cases hlive : br.wt.lookup q with
      | none => rfl
      | some e => exact absurd (honly q e hlive) hne
    · rw [hpath fh s hs, hpath fh' s' hs']
    · rw [hpath fh s hs]
      decide
    · rw [Daemon.tree_of_branch hbr, Option.some.injEq] at hwt'
      subst hwt'
      have hone : br.wt.entries.length = 1 := by
        rw [← List.length_map (f := Prod.fst), hentries]
        rfl
      have hle : (childrenOf br.wt dir).length ≤ br.wt.entries.length :=
        (List.length_filterMap_le _ _).trans (List.length_filter_le _ _)
      rw [hone] at hle
      simp only [List.length_singleton]
      omega
  exact ⟨br, hm, rfl, hreach, hbr, hclosed, storable_of_check hstorable, hfits,
    fun fh hfh => hkeys ▸ mem_keys_of_getFh hfh, hcollided, hok⟩

/-- A file with a dirty handle at the root of `main`, and a checkpoint. -/
theorem rollsBackTo_of_checkpoint_dirtyFile : ∃ (m : Mount) (br : BranchContext)
    (applied : List Nat) (shown : WorkingTree), m.daemon.branch 0 = some br ∧
      (m.apply (.checkpoint 0 [] [1] 0)).daemon.tree 0 = some shown ∧
      AllDirty m.daemon 0 applied ∧ Applied m.daemon 0 applied br.wt shown ∧
      ∀ m', Reaches (fun x => x = m.apply (.checkpoint 0 [] [1] 0)) Mount.Step m' →
        m'.RollsBackTo (m.daemon.checkpointBranch 0 [] [1] 0).1.commit shown := by
  obtain ⟨-, m, br, -, -, hreach, hbr, hclosed, hstorable, hfits, horder, hc, hok⟩ :=
    exists_dirtyFile
  obtain ⟨applied, shown, hall⟩ := Mount.rollsBackTo_of_checkpoint hreach hbr hclosed hstorable
    hfits horder hc hok
  exact ⟨m, br, applied, shown, hbr, hall⟩

/-- More fuel does not change what a rollback does. -/
theorem rollbackBranchToCommit_mono {d : Daemon} {name : Bytes} {target : Hash} {fuel fuel' : Nat}
    (hle : fuel ≤ fuel') {r : CommitResult × Daemon}
    (h : d.rollbackBranchToCommit name target fuel = some r) :
    d.rollbackBranchToCommit name target fuel' = some r := by
  have hrebuild : ∀ {tree : Hash} {wt : WorkingTree} {out : Except String WorkingTree},
      rebuildWorkingTree fuel tree d.store wt = some out →
      rebuildWorkingTree fuel' tree d.store wt = some out := by
    intro tree wt out hout
    unfold rebuildWorkingTree at hout ⊢
    cases hloop : rebuildLoop d.store fuel [(tree, [])] ∅ with
    | none =>
        rw [hloop] at hout
        cases hout
    | some res =>
        rw [rebuildLoop_mono hle hloop]
        rw [hloop] at hout
        exact hout
  -- only the rebuild of the tree takes fuel
  have hlocked : ∀ {target : Bytes} {wt : WorkingTree} {o : RollbackOutcome},
      rollbackLocked fuel target wt name d.store d.refs = some o →
      rollbackLocked fuel' target wt name d.store d.refs = some o := by
    intro target wt o ho
    unfold rollbackLocked at ho ⊢
    simp only at ho ⊢
    by_cases hz : resolveTarget d.store d.refs target name = zeroHash
    · rw [if_pos hz] at ho ⊢
      exact ho
    rw [if_neg hz] at ho ⊢
    cases hbody : d.store.readObject (resolveTarget d.store d.refs target name) .commit with
    | none =>
        rw [hbody] at ho
        exact ho
    | some body =>
        rw [hbody] at ho
        simp only at ho ⊢
        cases hcd : (deserializeCommit body).toOption with
        | none =>
            rw [hcd] at ho
            exact ho
        | some cd =>
            rw [hcd] at ho
            simp only at ho ⊢
            cases hout : rebuildWorkingTree fuel cd.treeHash d.store wt with
            | none =>
                rw [hout] at ho
                cases ho
            | some out =>
                rw [hrebuild hout]
                rw [hout] at ho
                exact ho
  unfold Daemon.rollbackBranchToCommit at h ⊢
  split at h
  · exact h
  · cases hout : rollbackLocked fuel (hashToHex target) _ name d.store d.refs with
    | none =>
        rw [hout] at h
        cases h
    | some o =>
        rw [hlocked hout]
        rw [hout] at h
        exact h

/-- The flush of the checkpoint puts `/d/f` back where no directory is any more; the commit does
not have it. -/
theorem checkpoint_loses_orphan : ¬ ∀ (m : Mount) (b : Nat) (br : BranchContext) (label : Bytes)
    (order : List Nat) (timestampNs : UInt64),
    Reaches Mount.Init (Restrict Mount.Step Mount.NamesFit) m → m.daemon.branch b = some br →
    br.wt.Closed → br.wt.Storable → (∀ fh, m.daemon.getFh fh ≠ none → fh ∈ order) →
    (m.apply (.checkpoint b label order timestampNs)).daemon.store.collided = false →
    (m.daemon.checkpointBranch b label order timestampNs).1.ok = true →
    ∃ applied shown, (m.apply (.checkpoint b label order timestampNs)).daemon.tree b = some shown ∧
      AllDirty m.daemon b applied ∧ Applied m.daemon b applied br.wt shown ∧
      ∀ m', Reaches (fun x => x = m.apply (.checkpoint b label order timestampNs)) Mount.Step m' →
        m'.RollsBackTo (m.daemon.checkpointBranch b label order timestampNs).1.commit shown := by
  intro hall
  obtain ⟨m, hm, hinit⟩ := exists_freshMount
  obtain ⟨hboth, -, horphan⟩ := dirtyRuns
  rw [hm, Option.all_some, List.all_eq_true] at hboth
  rw [hm, Option.all_some] at horphan
  have hcommon := hboth dirtyOrphan (List.mem_cons_of_mem _ List.mem_cons_self)
  have hreach := Mount.reaches_requests hinit goodPath_dirtyRuns.2
  generalize m.requests dirtyOrphan = m at hcommon horphan hreach
  simp only [Bool.and_eq_true, Bool.not_eq_true', beq_iff_eq] at hcommon horphan
  obtain ⟨⟨hok, hcollided⟩, hkeys, hstorable⟩ := hcommon
  obtain ⟨⟨hnil, hmain⟩, hshown, hlost⟩ := horphan
  obtain ⟨⟨c, brc⟩, hmain, hc0⟩ := (Option.any_eq_true _ _).1 hmain
  rw [beq_iff_eq] at hc0
  simp only at hc0
  subst hc0
  obtain ⟨wt, hwt, hstorable⟩ := (Option.any_eq_true _ _).1 hstorable
  rw [hwt, Option.any_some, List.isEmpty_iff] at hnil
  obtain ⟨br, hbr, rfl⟩ := Option.map_eq_some_iff.1 hwt
  obtain ⟨applied, shown, htree, -, -, hback⟩ := hall m 0 br [] [1] 0 hreach hbr
    (closed_of_liveEntries_nil hnil) (storable_of_check hstorable)
    (fun fh hfh => hkeys ▸ mem_keys_of_getFh hfh) hcollided hok
  obtain ⟨r₉, hr₉, hlost⟩ := (Option.any_eq_true _ _).1 hlost
  -- the rollback right after the checkpoint, with fuel enough for both
  obtain ⟨n, hn⟩ := hback _ (.start rfl) Refs.mainName 0 _ hmain
  obtain ⟨r, hr, -, ⟨wt', hwt', hsame⟩, -⟩ := hn (n + 9) (Nat.le_add_right n 9)
  have hr' := rollbackBranchToCommit_mono (Nat.le_add_left 9 n) hr₉
  have heq : r = r₉ := Option.some_inj.1 (hr.symm.trans hr')
  subst heq
  rw [hwt', Option.any_some, Option.isNone_iff_eq_none] at hlost
  have htree' : (m.daemon.checkpointBranch 0 [] [1] 0).2.tree 0 = some shown := htree
  rw [htree', Option.any_some] at hshown
  obtain ⟨e, he⟩ := Option.isSome_iff_exists.1 hshown
  have hp := hsame [[100], [102]]
  rw [hlost, he] at hp
  cases hp

end Orphan

end ContextFS
