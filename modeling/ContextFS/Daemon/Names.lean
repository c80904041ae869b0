import ContextFS.Branch.Closure
import ContextFS.Daemon.Branches
import ContextFS.Lib.Runs

/-!
# Names that fit the tree format

The kernel and the enumeration of a directory give names that are not empty and at most 255 bytes
long.  Every path that the daemon keeps, in a tree, a handle or an object of the store, is made of
such names, whatever happens.
-/

namespace ContextFS

open Std Lib ObjectStore WorkingTree

/-- The paths a request puts into the tree or a handle. -/
def FuseOp.paths : FuseOp → List FsPath
  | .openFile _ path _ | .create _ path _ | .truncate _ path _ | .unlink _ path | .rmdir _ path
  | .mkdir _ path _ | .symlink _ _ path | .chmod _ path _ => [path]
  | .rename _ source target => [source, target]
  | .read .. | .write .. | .flush .. | .truncateFh .. => []

namespace Daemon

/-- Every path that the daemon keeps fits the tree format. -/
structure GoodNames (d : Daemon) : Prop where
  store : Contents GoodTreeFile d.store
  trees : ∀ b wt, d.tree b = some wt → wt.WellNamed
  handles : ∀ fh s, d.getFh fh = some s → GoodPath s.path

namespace GoodNames

variable {d d' : Daemon}

theorem of_eq (h : d.GoodNames) (hstore : d'.store = d.store) (hbr : d'.branches = d.branches)
    (hfh : d'.fhTable = d.fhTable) : d'.GoodNames where
  store := hstore ▸ h.store
  trees := fun b wt hwt => h.trees b wt (tree_congr hbr b ▸ hwt)
  handles := fun fh s hs => h.handles fh s (by rw [getFh, ← hfh]; exact hs)

theorem withStore (h : d.GoodNames) {s : ObjectStore} (hs : Contents GoodTreeFile s) :
    GoodNames { d with store := s } where
  store := hs
  trees := h.trees
  handles := h.handles

theorem modifyTree (h : d.GoodNames) {b : Nat} {f : WorkingTree → WorkingTree}
    (hf : ∀ wt, d.tree b = some wt → (f wt).WellNamed) : (d.modifyTree b f).GoodNames where
  store := by
    rw [modifyTree_store]
    exact h.store
  trees := by
    intro c wt hwt
    rw [tree_modifyTree] at hwt
    split at hwt
    · obtain ⟨wt₀, hwt₀, rfl⟩ := Option.map_eq_some_iff.1 hwt
      rename_i hb
      exact hf wt₀ (hb ▸ hwt₀)
    · exact h.trees c wt hwt
  handles := by
    intro fh s hs
    rw [getFh_modifyTree] at hs
    exact h.handles fh s hs

theorem modifyFh (h : d.GoodNames) (fh : Nat) {f : FhState → FhState}
    (hf : ∀ s, (f s).path = s.path) : (d.modifyFh fh f).GoodNames where
  store := by
    rw [modifyFh_store]
    exact h.store
  trees := fun b wt hwt => h.trees b wt (tree_congr (modifyFh_branches d fh f) b ▸ hwt)
  handles := by
    intro k s hs
    rw [getFh_modifyFh] at hs
    split at hs
    · obtain ⟨s₀, hs₀, rfl⟩ := Option.map_eq_some_iff.1 hs
      rw [hf]
      exact h.handles _ s₀ hs₀
    · exact h.handles k s hs

theorem allocateFh (h : d.GoodNames) {s : FhState} (hs : GoodPath s.path) :
    (d.allocateFh s).2.GoodNames where
  store := h.store
  trees := h.trees
  handles := by
    intro k s' hs'
    rw [getFh_allocateFh] at hs'
    split at hs'
    · cases hs'
      exact hs
    · exact h.handles k s' hs'

theorem releaseFh (h : d.GoodNames) (fh : Nat) : (d.releaseFh fh).GoodNames where
  store := h.store
  trees := h.trees
  handles := by
    intro k s hs
    rw [getFh_releaseFh] at hs
    split at hs
    · cases hs
    · exact h.handles k s hs

/-- A path with an entry, dead or alive, is good. -/
theorem goodPath_of_lookup (h : d.GoodNames) {b : Nat} {br : BranchContext} {p : FsPath}
    {e : WorkingTreeEntry} (hbr : d.branch b = some br) (he : br.wt.lookup p = some e) :
    GoodPath p :=
  h.trees b br.wt (tree_of_branch hbr) p (lookup_ne_none_of_mem (by simp [he]))

/-- The handles are marked and a branch gets another well-named tree. -/
theorem setTree (h : d.GoodNames) (b : Nat) (br : BranchContext) (hwt : br.wt.WellNamed)
    (hstore : d'.store = d.store) (hbr : d'.branches = d.branches.insert b br)
    (hfh : ∀ fh s, d'.getFh fh = some s → ∃ s₀, d.getFh fh = some s₀ ∧ s.path = s₀.path) :
    d'.GoodNames where
  store := hstore ▸ h.store
  trees := by
    intro c wt hc
    rw [tree_of_branches_insert hbr] at hc
    split at hc
    · cases hc
      exact hwt
    · exact h.trees c wt hc
  handles := by
    intro fh s hs
    obtain ⟨s₀, hs₀, hpath⟩ := hfh fh s hs
    rw [hpath]
    exact h.handles fh s₀ hs₀

theorem invalidated (h : d.GoodNames) {b : Nat} (hstore : d'.store = d.store)
    (hbr : d'.branches = d.branches) (hfh : d'.fhTable = invalidateFhs b d.fhTable) :
    d'.GoodNames where
  store := hstore ▸ h.store
  trees := fun c wt hwt => h.trees c wt (tree_congr hbr c ▸ hwt)
  handles := by
    intro fh s hs
    rw [getFh, hfh, getFh_invalidateFhs] at hs
    obtain ⟨s₀, hs₀, rfl⟩ := Option.map_eq_some_iff.1 hs
    have hpath : (if s₀.branchId = b then { s₀ with stale := true } else s₀).path = s₀.path := by
      split <;> rfl
    rw [hpath]
    exact h.handles fh s₀ hs₀

end GoodNames
end Daemon

/-! ## Requests -/

section Requests

variable {d : Daemon}

open Daemon

theorem Daemon.GoodNames.putBlob (h : d.GoodNames) {b : Nat} {path : FsPath} {kind : EntryKind}
    {mode : UInt32} (hash : Hash) (hpath : GoodPath path) :
    (Daemon.putBlob b path kind mode hash d).2.GoodNames :=
  h.modifyTree fun wt hwt => (h.trees b wt hwt).insert hpath

theorem Daemon.GoodNames.openEmpty (h : d.GoodNames) {b : Nat} {br : BranchContext}
    {path : FsPath} {mode : UInt32} (hash : Hash) (hpath : GoodPath path) :
    (Daemon.openEmpty b br path mode hash d).2.GoodNames := by
  have hput : (d.modifyTree b fun wt => wt.insert path ⟨.blob, hash, mode⟩).GoodNames :=
    h.modifyTree fun wt hwt => (h.trees b wt hwt).insert hpath
  exact hput.allocateFh hpath

theorem wellNamed_insertFlushed {wt : WorkingTree} (h : wt.WellNamed) {path : FsPath}
    (hpath : GoodPath path) (hash : Hash) : (insertFlushed wt path hash).WellNamed :=
  WellNamed.insert h hpath

theorem Daemon.GoodNames.putFlushed (h : d.GoodNames) {fh : Nat} {s : FhState}
    {store : ObjectStore} (hash : Hash) (hpath : GoodPath s.path) :
    (Daemon.putFlushed fh s store hash d).2.GoodNames := by
  unfold Daemon.putFlushed
  split
  · exact h.modifyFh fh fun s => (s.follows_ensureBaseCache store).path
  · have hput : (d.modifyTree s.branchId fun wt => insertFlushed wt s.path hash).GoodNames :=
      h.modifyTree fun wt hwt => wellNamed_insertFlushed (h.trees _ wt hwt) hpath hash
    exact hput.modifyFh fh fun _ => rfl

variable [Blake3]

theorem ObjectStore.Contents.writeBlob {s : ObjectStore} (hs : Contents GoodTreeFile s)
    (data : Bytes) : Contents GoodTreeFile (s.writeBlob data).1 :=
  hs.writeObject (goodTreeFile_of_tag_ne (by decide) _)

/-- A request with good paths keeps the names good. -/
theorem Daemon.GoodNames.request (h : d.GoodNames) {op : FuseOp}
    (hop : ∀ p ∈ op.paths, GoodPath p) : ((op.start d).run d).2.GoodNames := by
  have hwrite : ∀ data, GoodNames { d with store := (d.store.writeBlob data).1 } :=
    fun data => h.withStore (h.store.writeBlob data)
  have hstart := op.started d
  generalize op.start d = critical at hstart ⊢
  cases hstart with
  | refused op e => exact h
  | opened hbr he hk hsize => exact h.allocateFh (h.goodPath_of_lookup hbr he)
  | openTrunc hbr he hk => exact (hwrite []).openEmpty _ (h.goodPath_of_lookup hbr he)
  | create hok hbr => exact (hwrite []).openEmpty _ (hop _ (by simp [FuseOp.paths]))
  | read hs => exact h.modifyFh _ fun s => (s.follows_ensureBaseCache d.store).path
  | write hs => exact h.modifyFh _ fun _ => rfl
  | flushClean hs hclean => exact h
  | flush hs hdirty => exact (hwrite _).putFlushed _ (h.handles _ _ hs.open_)
  | truncateFh hs => exact h.modifyFh _ fun _ => rfl
  | truncate hbr he hk => exact (hwrite _).putBlob _ (h.goodPath_of_lookup hbr he)
  | unlink hbr he hk =>
      exact h.modifyTree fun wt hwt => (h.trees _ wt hwt).remove (h.goodPath_of_lookup hbr he)
  | rmdir hbr he hk hempty =>
      exact h.modifyTree fun wt hwt => (h.trees _ wt hwt).remove (h.goodPath_of_lookup hbr he)
  | mkdir hok hbr he =>
      exact h.modifyTree fun wt hwt => (h.trees _ wt hwt).insert (hop _ (by simp [FuseOp.paths]))
  | renameDir hok hbr he hk =>
      exact h.modifyTree fun wt hwt => (h.trees _ wt hwt).renameDir (hop _ (by simp [FuseOp.paths]))
  | renameEntry hok hbr he hk =>
      exact h.modifyTree fun wt hwt =>
        (h.trees _ wt hwt).renameEntry (hop _ (by simp [FuseOp.paths]))
  | symlink hok hbr he => exact (hwrite _).putBlob _ (hop _ (by simp [FuseOp.paths]))
  | chmod hbr he =>
      exact h.modifyTree fun wt hwt => (h.trees _ wt hwt).insert (h.goodPath_of_lookup hbr he)

end Requests

/-! ## Operations on branches -/

section Branches

variable {d : Daemon}

open Daemon

theorem Daemon.GoodNames.rollback (h : d.GoodNames) {name : Bytes} {target : Hash} {fuel : Nat}
    {r : CommitResult × Daemon} (hr : d.rollbackBranchToCommit name target fuel = some r) :
    r.2.GoodNames := by
  rcases rollbackBranchToCommit_cases hr with ⟨-, hbr, hstore, hfh, -⟩ | ⟨b, br, o, -, ho, hinv, rfl⟩
  · exact h.of_eq hstore hbr hfh
  · have hwt : o.wt.WellNamed := by
      rcases rollbackLocked_cases ho with ⟨-, hno, -⟩ | ⟨cd, -, -, hrebuild, -⟩
      · rw [hno] at hinv
        cases hinv
      · exact (closed_rebuildWorkingTree h.store hrebuild).2
    have hmarked : GoodNames { d with fhTable := invalidateFhs b d.fhTable } :=
      h.invalidated rfl rfl rfl
    exact hmarked.setTree b { br with wt := o.wt } hwt rfl rfl fun _ s hs => ⟨s, hs, rfl⟩

theorem Daemon.GoodNames.createBranch (h : d.GoodNames) (name source : Bytes) :
    (d.createBranch name source).2.GoodNames := by
  rcases createBranch_cases d name source with
    ⟨next, refs, heq⟩ | ⟨b, br, commit, refs, hname, -, -, -, heq⟩
  · rw [heq]
    exact h.of_eq rfl rfl rfl
  · rw [heq]
    refine h.setTree d.nextBranchId ⟨name, br.wt⟩ ?_ rfl rfl fun _ s hs => ⟨s, hs, rfl⟩
    exact h.trees b br.wt (tree_of_branch (branchByName_eq_some hname).1)

theorem Daemon.GoodNames.deleteBranch (h : d.GoodNames) (name : Bytes) (routed : Bool) :
    (d.deleteBranch name routed).2.GoodNames := by
  rcases deleteBranch_cases d name routed with ⟨refs, heq⟩ | ⟨b, br, refs, -, -, heq⟩
  · rw [heq]
    exact h.of_eq rfl rfl rfl
  · rw [heq]
    have hmarked : GoodNames { d with refs := refs, fhTable := invalidateFhs b d.fhTable } :=
      h.invalidated rfl rfl rfl
    refine ⟨hmarked.store, fun c wt hwt => ?_, hmarked.handles⟩
    refine h.trees c wt ?_
    unfold tree branch at hwt ⊢
    simp only [ExtTreeMap.getElem?_erase] at hwt
    split at hwt
    · cases hwt
    · exact hwt

/-- The trees that a merge loads are closed and well named, and so is what it makes of them. -/
theorem wellNamed_loadedMerge (h : d.GoodNames) {fuel : Nat} {baseCommit sourceCp targetCp : Hash}
    {base source wt : WorkingTree}
    (hbase : loadCommitTree d.store fuel baseCommit = some (.ok base))
    (hsource : loadCommitTree d.store fuel sourceCp = some (.ok source))
    (htarget : loadCommitTree d.store fuel targetCp = some (.ok wt))
    (hok : (mergeTrees base source wt).ok = true) :
    (mergeTrees base source wt).merged.Closed ∧ (mergeTrees base source wt).merged.WellNamed := by
  have hall : ∀ t ∈ [base, source, wt], t.Closed ∧ t.WellNamed := by
    intro t ht
    simp only [List.mem_cons, List.not_mem_nil, or_false] at ht
    rcases ht with rfl | rfl | rfl
    · exact closed_loadCommitTree h.store hbase
    · exact closed_loadCommitTree h.store hsource
    · exact closed_loadCommitTree h.store htarget
  exact ⟨closed_mergeTrees hok fun t ht => (hall t ht).1,
    wellNamed_mergeTrees hok fun t ht => (hall t ht).2⟩

variable [Blake3]

/-- The flush of a branch keeps names good. -/
theorem Daemon.GoodNames.flushFhs (h : d.GoodNames) {b : Nat} {br : BranchContext}
    (hbr : d.branch b = some br) (order : List Nat) :
    let f := ContextFS.flushFhs b order (d.store, d.fhTable, br.wt)
    Contents GoodTreeFile f.2.1 ∧ f.2.2.2.WellNamed ∧
      ∀ (fh : Nat) (s : FhState), f.2.2.1[fh]? = some s → GoodPath s.path := by
  have hinsert : ∀ {fhs : FhTable} {fh : Nat} {s' : FhState},
      (∀ (fh : Nat) (s : FhState), fhs[fh]? = some s → GoodPath s.path) → GoodPath s'.path →
        ∀ (k : Nat) (s : FhState), (fhs.insert fh s')[k]? = some s → GoodPath s.path := by
    intro fhs fh s' hfhs hs' k s hs
    rw [ExtTreeMap.getElem?_insert] at hs
    split at hs
    · cases hs
      exact hs'
    · exact hfhs k s hs
  refine flushFhs_induction (I := fun store fhs wt => Contents GoodTreeFile store ∧ wt.WellNamed ∧
    ∀ (fh : Nat) (s : FhState), fhs[fh]? = some s → GoodPath s.path) ?_ ?_ order
    ⟨h.store, h.trees b br.wt (tree_of_branch hbr), h.handles⟩
  · rintro store fhs wt fh s ⟨hstore, hwt, hfhs⟩ hs -
    refine ⟨hstore.writeBlob _, hwt, hinsert hfhs ?_⟩
    rw [(s.follows_ensureBaseCache store).path]
    exact hfhs fh s hs
  · rintro store fhs wt fh s ⟨hstore, hwt, hfhs⟩ hs - -
    exact ⟨hstore.writeBlob _, wellNamed_insertFlushed hwt (hfhs fh s hs) _,
      hinsert hfhs (hfhs fh s hs)⟩

theorem Daemon.GoodNames.checkpointBranch (h : d.GoodNames) (b : Nat) (label : Bytes)
    (order : List Nat) (timestampNs : UInt64) :
    (d.checkpointBranch b label order timestampNs).2.GoodNames := by
  cases hbr : d.branch b with
  | none =>
      rw [checkpointBranch_of_none hbr]
      exact h
  | some br =>
      obtain ⟨hstore, hwt, hfhs⟩ := h.flushFhs hbr order
      rw [checkpointBranch_eq hbr]
      refine ⟨?_, fun c wt hc => ?_, hfhs⟩
      · simp only [checkpointLocked_store]
        split
        · exact contents_goodTreeFile_publishCommit hwt hstore
        · exact hstore
      · rw [tree_of_branches_insert (d := d) rfl] at hc
        split at hc
        · cases hc
          exact hwt
        · exact h.trees c wt hc

theorem Daemon.GoodNames.mergeCommits (h : d.GoodNames) {sourceName : Bytes} {target : Nat}
    {targetBr : BranchContext} {sourceCp targetCp : Hash} {args : MergeArgs}
    {r : BranchMergeResult × Daemon}
    (hr : d.mergeCommits sourceName target targetBr sourceCp targetCp args = some r) :
    r.2.GoodNames := by
  cases mergeCommits_outcome hr with
  | failed r hr => exact h
  | unpublished refs r hbase hsource htarget hok hr =>
      have hwt := (wellNamed_loadedMerge h hbase hsource htarget hok).2
      exact (h.withStore (contents_goodTreeFile_publishCommit hwt h.store)).of_eq rfl rfl rfl
  | @published baseCommit base source wt info commit refs hancestor hbase hsource htarget hok
      hcommit hrefs =>
      have hwt := (wellNamed_loadedMerge h hbase hsource htarget hok).2
      have hstore : Contents GoodTreeFile (publishCommit info (mergeTrees base source wt).merged
          [targetCp, sourceCp] d.store).2 := contents_goodTreeFile_publishCommit hwt h.store
      generalize (publishCommit info (mergeTrees base source wt).merged [targetCp, sourceCp]
        d.store).2 = store at hstore ⊢
      have hmarked : GoodNames { d with
          store := store
          fhTable := invalidateFhs target d.fhTable } :=
        (h.withStore hstore).invalidated rfl rfl rfl
      exact hmarked.setTree target { targetBr with wt := (mergeTrees base source wt).merged } hwt rfl rfl
        fun _ s hs => ⟨s, hs, rfl⟩

theorem Daemon.GoodNames.mergeBranch (h : d.GoodNames) {sourceName targetName : Bytes}
    {args : MergeArgs} {r : BranchMergeResult × Daemon}
    (hr : d.mergeBranch sourceName targetName args = some r) : r.2.GoodNames := by
  cases mergeBranch_outcome hr with
  | refused r hr => exact h
  | sourceFailed r hsource htarget hne hcp hr =>
      subst hcp
      exact h.checkpointBranch _ _ _ _
  | targetFailed r hsource htarget hne hcp hok hcp' hr =>
      subst hcp hcp'
      exact (h.checkpointBranch _ _ _ _).checkpointBranch _ _ _ _
  | merged hsource htarget hne hcp hok hcp' hok' hr =>
      subst hcp hcp'
      exact ((h.checkpointBranch _ _ _ _).checkpointBranch _ _ _ _).mergeCommits hr

end Branches

/-! ## Filling the tree of main -/

section Fill

variable {wt : WorkingTree}

theorem wellNamed_insertSource (h : wt.WellNamed) {p : FsPath} (hp : GoodPath p)
    (e : WorkingTreeEntry) : (wt.insertSource p e).WellNamed :=
  wellNamed_congr (WellNamed.insert (e := e) h hp) fun q => lookupRaw_insertSource wt p q e

variable [Blake3] {store : ObjectStore}

/-- An ingested entry keeps the names good. -/
theorem goodNames_ingestEntry (hs : Contents GoodTreeFile store) (h : wt.WellNamed) {p : FsPath}
    (hp : GoodPath p) (src : SourceEntry) :
    Contents GoodTreeFile (ingestEntry p src store wt).2.1 ∧
      (ingestEntry p src store wt).2.2.WellNamed := by
  have hblob : ∀ kind mode data text,
      Contents GoodTreeFile (insertBlob p kind mode data text store wt).2.1 ∧
        (insertBlob p kind mode data text store wt).2.2.WellNamed := by
    intro kind mode data text
    unfold insertBlob
    simp only
    split
    · exact ⟨hs.writeBlob data, h⟩
    · exact ⟨hs.writeBlob data, wellNamed_insertSource h hp _⟩
  cases src with
  | directory perms => exact ⟨hs, wellNamed_insertSource h hp _⟩
  | symlink perms target => exact hblob _ _ _ _
  | file perms data => exact hblob _ _ _ _
  | _ => exact ⟨hs, h⟩

theorem goodNames_ingestMissing (source : Source) {missing : List FsPath}
    (hmissing : ∀ q ∈ missing, GoodPath q) (hs : Contents GoodTreeFile store) (h : wt.WellNamed) :
    Contents GoodTreeFile (ingestMissing source missing store wt).2.1 ∧
      (ingestMissing source missing store wt).2.2.WellNamed := by
  induction missing generalizing store wt with
  | nil => exact ⟨hs, h⟩
  | cons q rest ih =>
      have hrest := fun p hp => hmissing p (List.mem_cons_of_mem q hp)
      obtain ⟨hs', h'⟩ := goodNames_ingestEntry hs h (hmissing q List.mem_cons_self) (source q)
      unfold ingestMissing
      split
      · split
        · exact ⟨hs, h⟩
        · exact ih hrest hs h
      · split
        · exact ⟨hs, h⟩
        · split
          · rename_i heq
            rw [heq] at hs' h'
            exact ih hrest hs' h'
          · rename_i heq
            rw [heq] at hs' h'
            exact ⟨hs', h'⟩

omit [Blake3] in
theorem mem_missingPaths {paths missing : List FsPath} (h : missingPaths wt paths = some missing)
    {q : FsPath} (hq : q ∈ missing) : q ∈ paths ∧ wt.lookupRaw q = none := by
  induction paths generalizing missing with
  | nil =>
      cases h
      cases hq
  | cons p above ih =>
      unfold missingPaths at h
      split at h
      · split at h
        · cases h
        · cases h
          cases hq
      · rename_i hnone
        obtain ⟨missing', hm, rfl⟩ := Option.map_eq_some_iff.1 h
        rcases List.mem_append.1 hq with hq | hq
        · obtain ⟨hmem, hraw⟩ := ih hm hq
          exact ⟨List.mem_cons_of_mem p hmem, hraw⟩
        · rw [List.mem_singleton.1 hq]
          exact ⟨List.mem_cons_self, hnone⟩

omit [Blake3] in
theorem mem_upwards {path q : FsPath} : q ∈ upwards path ↔ q <+: path ∧ q ≠ [] := by
  simp [upwards, List.mem_inits]

theorem goodNames_ensurePath (source : Source) {path : FsPath} (hpath : GoodPath path)
    (hs : Contents GoodTreeFile store) (h : wt.WellNamed) :
    Contents GoodTreeFile (ensurePath source path store wt).2.1 ∧
      (ensurePath source path store wt).2.2.WellNamed := by
  unfold ensurePath
  split
  · exact ⟨hs, h⟩
  · rename_i missing hm
    refine goodNames_ingestMissing source (fun q hq n hn => ?_) hs h
    exact hpath n ((mem_upwards.1 (mem_missingPaths hm hq).1).1.subset hn)

/-- Every directory the walk has still to look at, and every name, is good. -/
def Walker.GoodNames : Walker → Prop
  | .stopped => True
  | .running queue current => (∀ dir ∈ queue, GoodPath dir) ∧
      ∀ dir names, current = some (dir, names) → GoodPath dir ∧ ∀ n ∈ names, GoodName n

theorem goodNames_walkStep {w : Walker} (hw : w.GoodNames) {listing : Option (List Name)}
    (hlisting : ∀ names, listing = some names → ∀ n ∈ names, GoodName n) (src : SourceEntry)
    (hs : Contents GoodTreeFile store) (h : wt.WellNamed) :
    let r := walkStep w listing src store wt
    r.1.GoodNames ∧ Contents GoodTreeFile r.2.1 ∧ r.2.2.WellNamed := by
  unfold walkStep
  split
  · exact ⟨hw, hs, h⟩
  · rename_i queue dir name rest
    obtain ⟨hqueue, hcurrent⟩ := hw
    obtain ⟨hdir, hnames⟩ := hcurrent dir (name :: rest) rfl
    -- the next entry of the listing has a good path
    have hchild : GoodPath (dir ++ [name]) := by
      intro n hn
      rcases List.mem_append.1 hn with hn | hn
      · exact hdir n hn
      · exact hnames n (List.mem_singleton.1 hn ▸ List.mem_cons_self)
    have hpushed : ∀ p ∈ queue ++ [dir ++ [name]], GoodPath p := by
      intro p hp
      rcases List.mem_append.1 hp with hp | hp
      · exact hqueue p hp
      · exact List.mem_singleton.1 hp ▸ hchild
    have hnext : ∀ q : List FsPath, (∀ p ∈ q, GoodPath p) →
        (Walker.running q (some (dir, rest))).GoodNames := by
      refine fun q hq => ⟨hq, fun dir' names' heq => ?_⟩
      cases heq
      exact ⟨hdir, fun n hn => hnames n (List.mem_cons_of_mem name hn)⟩
    have hqueued : ∀ p ∈ (if src.isDirectory then queue ++ [dir ++ [name]] else queue),
        GoodPath p := by
      split
      · exact hpushed
      · exact hqueue
    obtain ⟨hs', h'⟩ := goodNames_ingestEntry hs h hchild src
    unfold walkChild
    simp only
    split
    · exact ⟨hnext queue hqueue, hs, h⟩
    split
    · exact ⟨trivial, hs, h⟩
    · exact ⟨trivial, hs, h⟩
    · refine ⟨hnext _ ?_, hs, h⟩
      split
      · exact hqueued
      · exact hqueue
    · split
      · rename_i heq
        rw [heq] at hs' h'
        exact ⟨hnext _ hqueued, hs', h'⟩
      · rename_i heq
        rw [heq] at hs' h'
        exact ⟨hnext queue hqueue, hs', h'⟩
      · rename_i heq
        rw [heq] at hs' h'
        exact ⟨trivial, hs', h'⟩
  · refine ⟨⟨hw.1, fun _ _ heq => (by cases heq)⟩, hs, h⟩
  -- the next directory of the queue is listed
  · rename_i dir queue
    split
    · exact ⟨trivial, hs, h⟩
    · rename_i names
      refine ⟨⟨fun p hp => hw.1 p (List.mem_cons_of_mem dir hp), fun dir' names' heq => ?_⟩, hs, h⟩
      cases heq
      exact ⟨hw.1 dir List.mem_cons_self, hlisting names rfl⟩
  · exact ⟨trivial, hs, wellNamed_congr h fun p => lookupRaw_foldIntoBase wt p⟩

end Fill
/-! ## The start of a daemon -/

section Start

open Daemon

theorem goodNames_loadPersistedBranches {fuel : Nat} {names : List Bytes} {d d' : Daemon}
    (h : d.GoodNames) (hl : loadPersistedBranches fuel names d = some d') : d'.GoodNames := by
  induction names generalizing d with
  | nil =>
      cases hl
      exact h
  | cons name names ih =>
      unfold loadPersistedBranches at hl
      have hskip : GoodNames { d with nextBranchId := d.nextBranchId + 1 } := h.of_eq rfl rfl rfl
      split at hl
      · exact ih h hl
      simp only at hl
      split at hl
      · cases hl
      · exact ih hskip hl
      rename_i wt hwt
      have hnamed : wt.WellNamed := by
        unfold rebuildBranchFromRef at hwt
        split at hwt
        · cases hwt
        · exact (closed_loadCommitTree h.store hwt).2
      split at hl
      · exact ih hskip hl
      · refine ih (hskip.setTree d.nextBranchId ⟨name, wt⟩ hnamed ?_ ?_ ?_) hl
        · rfl
        · rfl
        · exact fun _ s hs => ⟨s, hs, rfl⟩

variable [Blake3]

theorem contents_writeInitialCommit {d : Daemon} (hs : Contents GoodTreeFile d.store)
    (timestampNs : UInt64) :
    Contents GoodTreeFile (d.writeInitialCommit timestampNs).2.store := by
  have hser := contents_goodTreeFile_serialize (s := d.store) wellNamed_empty hs
  have hwrite := fun body => hser.writeObject
    (goodTreeFile_of_tag_ne (show ObjectTag.commit ≠ .tree by decide) body)
  unfold writeInitialCommit
  simp only
  split
  · exact hser
  split
  · exact hwrite _
  have hdrain := (hwrite (serializeCommit ((d.commitMeta (asciiBytes "initial")
    timestampNs).commitData (serializeWorkingTree {} d.store).root []))).interleave
  generalize hp : drainPending _ = p at *
  have hp₂ : Contents GoodTreeFile p.2 := by
    rw [← hp]
    exact hdrain.of_eq rfl rfl
  have hfsync := hp₂.fsyncObjects p.1
  split
  · rename_i s heq
    rw [heq] at hfsync
    exact hfsync.of_eq rfl rfl
  · rename_i s heq
    rw [heq] at hfsync
    have hdirs := hfsync.fsyncShardDirs p.1
    split
    · rename_i s' heq'
      rw [heq'] at hdirs
      exact hdirs.of_eq rfl rfl
    · rename_i s' heq'
      rw [heq'] at hdirs
      exact hdirs

/-- A daemon that starts on a store with good tree objects has good names. -/
theorem goodNames_initializeDaemon {d d' : Daemon} {timestampNs : UInt64} {fuel : Nat} {ok : Bool}
    (hs : Contents GoodTreeFile d.store)
    (h : d.initializeDaemon timestampNs fuel = some (ok, d')) : d'.GoodNames := by
  have hempty : ∀ d₀ : Daemon, Contents GoodTreeFile d₀.store →
      d₀.branches = (∅ : ExtTreeMap Nat BranchContext).insert 0 ⟨Refs.mainName, {}⟩ →
        d₀.fhTable = ∅ → d₀.GoodNames := by
    intro d₀ hs₀ hbr hfh
    refine ⟨hs₀, fun b wt hwt => ?_, fun fh s hs => by simp [getFh, hfh] at hs⟩
    unfold tree branch at hwt
    rw [hbr, ExtTreeMap.getElem?_insert] at hwt
    split at hwt
    · cases hwt
      exact wellNamed_empty
    · simp at hwt
  have hload : ∀ d₁ : Daemon, d₁.GoodNames →
      (loadPersistedBranches fuel (d₁.refs.listRefs.toOption.getD []) d₁).map
        (fun d => (true, d)) = some (ok, d') → d'.GoodNames := by
    intro d₁ h₁ hl
    obtain ⟨d₂, hl₂, heq⟩ := Option.map_eq_some_iff.1 hl
    cases heq
    exact goodNames_loadPersistedBranches h₁ hl₂
  unfold initializeDaemon at h
  simp only at h
  split at h
  · generalize hd₀ : Daemon.mk _ _ _ _ _ _ _ _ = d₀ at h
    obtain ⟨hbr, hfh, -⟩ := writeInitialCommit_spec d₀ timestampNs
    have hs₀ : Contents GoodTreeFile d₀.store := by
      rw [← hd₀]
      exact hs.of_eq rfl rfl
    have h₁ : (d₀.writeInitialCommit timestampNs).2.GoodNames :=
      hempty _ (contents_writeInitialCommit hs₀ timestampNs) (hbr.trans (by rw [← hd₀]))
        (hfh.trans (by rw [← hd₀]))
    split at h
    · rename_i d₁ hw
      cases h
      rw [hw] at h₁
      exact h₁
    · rename_i d₁ hw
      rw [hw] at h₁
      exact hload d₁ h₁ h
  · split at h
    · cases h
    · cases h
      refine hempty _ ?_ rfl rfl
      exact hs.of_eq rfl rfl
    · rename_i wt hwt
      refine hload _ (GoodNames.modifyTree (hempty _ ?_ rfl rfl) fun _ _ => ?_) h
      · exact hs.of_eq rfl rfl
      unfold rebuildBranchFromRef at hwt
      split at hwt
      · cases hwt
      · refine (closed_loadCommitTree ?_ hwt).2
        exact hs.of_eq rfl rfl

end Start

/-! ## Runs -/

namespace Mount

open Daemon

/-- Every path of the daemon and of its walk fits the tree format. -/
structure GoodNames (m : Mount) : Prop where
  daemon : m.daemon.GoodNames
  walker : m.walker.GoodNames

/-- The names in an event fit the tree format. -/
def NamesFit (_ : Mount) : MountEvent → Mount → Prop
  | .request op, _ => ∀ p ∈ op.paths, GoodPath p
  | .ensurePath _ path, _ => GoodPath path
  | .walk listing _, _ => ∀ names, listing = some names → ∀ n ∈ names, GoodName n
  | _, _ => True

theorem GoodNames.setMain {m : Mount} (h : m.GoodNames) {store : ObjectStore} {wt : WorkingTree}
    (hs : Contents GoodTreeFile store) (hwt : wt.WellNamed) : (m.setMain store wt).GoodNames where
  daemon := (h.daemon.modifyTree fun _ _ => hwt).withStore hs
  walker := h.walker

/-- A daemon that has started, with a new walk. -/
theorem goodNames_started {d : Daemon} (h : d.GoodNames) :
    GoodNames { daemon := d.modifyTree 0 WorkingTree.beginSourceWalk, walker := .start } := by
  refine ⟨h.modifyTree fun wt hwt => ?_, fun dir hdir => ?_, fun _ _ heq => (by cases heq)⟩
  · exact wellNamed_congr (h.trees 0 wt hwt) fun p => lookupRaw_beginSourceWalk wt p
  · rw [List.mem_singleton.1 hdir]
    exact fun n hn => (by cases hn)

variable [Blake3]

/-- A daemon that has just started on a store with good tree objects. -/
def Init (m : Mount) : Prop :=
  ∃ d timestampNs fuel d', Contents GoodTreeFile d.store ∧
    initializeDaemon d timestampNs fuel = some (true, d') ∧
    m = { daemon := d'.modifyTree 0 WorkingTree.beginSourceWalk, walker := .start }

/-- The names stay good over a run in which the names in all events are. -/
theorem GoodNames.apply {m : Mount} (h : m.GoodNames) {ev : MountEvent}
    (hev : m.NamesFit ev (m.apply ev)) : (m.apply ev).GoodNames := by
  cases ev with
  | request op => exact ⟨h.daemon.request hev, h.walker⟩
  | release fh =>
      have hflush : (((FuseOp.flush fh).start m.daemon).run m.daemon).2.GoodNames :=
        h.daemon.request fun p hp => (by cases hp)
      exact ⟨hflush.releaseFh fh, h.walker⟩
  | ensurePath source path =>
      show (m.ensure source path).GoodNames
      unfold ensure
      split
      · exact h
      · rename_i wt hwt
        obtain ⟨hs, hnamed⟩ :=
          goodNames_ensurePath source hev h.daemon.store (h.daemon.trees 0 wt hwt)
        exact h.setMain hs hnamed
  | walk listing src =>
      show (m.walk listing src).GoodNames
      unfold walk
      split
      · exact h
      · rename_i wt hwt
        obtain ⟨hw, hs, hnamed⟩ :=
          goodNames_walkStep h.walker hev src h.daemon.store (h.daemon.trees 0 wt hwt)
        exact ⟨(h.setMain hs hnamed).daemon, hw⟩
  | stopWalk => exact ⟨h.daemon, trivial⟩
  | checkpoint b label order timestampNs => exact ⟨h.daemon.checkpointBranch _ _ _ _, h.walker⟩
  | rollback name target fuel =>
      simp only [Mount.apply]
      split
      · exact h
      · rename_i r hr
        exact ⟨h.daemon.rollback hr, h.walker⟩
  | createBranch name source => exact ⟨h.daemon.createBranch _ _, h.walker⟩
  | deleteBranch name routed => exact ⟨h.daemon.deleteBranch _ _, h.walker⟩
  | merge source target args =>
      simp only [Mount.apply]
      split
      · exact h
      · rename_i r hr
        exact ⟨h.daemon.mergeBranch hr, h.walker⟩
  | restart sessionId timestampNs fuel =>
      show (m.restart sessionId timestampNs fuel).GoodNames
      unfold restart
      split
      -- nothing but the store outlives a restart
      · rename_i d hd
        have hs : Contents GoodTreeFile
            ({ m.daemon with sessionId := sessionId, policyVersion := 1 } : Daemon).store :=
          h.daemon.store
        exact goodNames_started (goodNames_initializeDaemon hs hd)
      · exact h
  | disk faults refFaults =>
      exact ⟨⟨h.daemon.store.of_eq rfl rfl, h.daemon.trees, h.daemon.handles⟩, h.walker⟩

theorem GoodNames.init {m : Mount} (h : Init m) : m.GoodNames := by
  obtain ⟨d, timestampNs, fuel, d', hs, hd, rfl⟩ := h
  exact goodNames_started (goodNames_initializeDaemon hs hd)

/-- In every state reached by events with names that fit, all names do. -/
theorem goodNames_of_reaches {m : Mount} (h : Reaches Init (Restrict Step NamesFit) m) :
    m.GoodNames := by
  refine h.invariant (fun _ => GoodNames.init) ?_
  rintro m ev m' hgood ⟨rfl, hfit⟩
  exact hgood.apply hfit

end Mount
end ContextFS
