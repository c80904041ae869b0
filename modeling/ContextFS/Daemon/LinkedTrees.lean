import ContextFS.Daemon.Names

/-!
# Live paths stay linked to the root

No mutator looks at the directory its path is in.  A tree stays closed over a run as long as every
step that puts something at a path finds a live directory there; the places where the code itself
does not see to it are the flush of a handle, whatever the reason of the flush, and the bootstrap.
-/

namespace ContextFS

open Std Lib ObjectStore WorkingTree

/-! ## What a step needs -/

/-- What the source has there can be ingested. -/
def SourceEntry.isEntry : SourceEntry → Bool
  | .directory _ | .symlink .. | .file .. => true
  | _ => false

/-- Every path that `ensure_path` ingests has a live directory above it, or gets one. -/
def EnsureLinks (source : Source) (path : FsPath) (wt : WorkingTree) : Prop :=
  ∀ q, q <+: path → q ≠ [] → wt.lookupRaw q = none → (source q).isEntry = true →
    wt.HasParent q ∨ wt.lookupRaw q.dropLast = none ∧ (source q.dropLast).isDirectory = true

/-- The child that the walk ingests next has a live directory above it. -/
def Walker.Links (src : SourceEntry) (wt : WorkingTree) : Walker → Prop
  | .running _ (some (dir, name :: _)) =>
      wt.lookupRaw (dir ++ [name]) = none → src.isEntry = true → wt.HasParent (dir ++ [name])
  | _ => True

namespace Daemon

/-- The content of the handle fits where it was opened. -/
def FlushLinks (d : Daemon) (fh : Nat) : Prop :=
  ∀ s br, UsableFh d fh s br → s.writeBuf.isDirty = true → br.wt.LeafFits s.path

/-- The contents of all dirty handles of the branch fit where they were opened, and none of these
paths is above another. -/
structure AllFlushesLink (d : Daemon) (b : Nat) : Prop where
  fits : ∀ wt fh s, d.tree b = some wt → d.getFh fh = some s → s.needsFlush b = true →
    wt.LeafFits s.path
  apart : ∀ fh s fh' s', d.getFh fh = some s → d.getFh fh' = some s' → s.needsFlush b = true →
    s'.needsFlush b = true → s.path <+: s'.path → s.path = s'.path

/-- The request finds a live directory where it puts something, and leaves nothing live without
one. -/
def Links (d : Daemon) : FuseOp → Prop
  | .create b path _ => ∀ wt, refuseMutation path .eacces = none → d.tree b = some wt →
      wt.LeafFits path
  | .mkdir b path _ | .symlink b _ path => ∀ wt, refuseMutation path .eacces = none →
      d.tree b = some wt → wt.lookup path = none → wt.HasParent path
  | .rename b source target => ∀ wt e, d.tree b = some wt → wt.lookup source = some e →
      (e.kind = .tree → wt.SubtreeFits source target) ∧
        (e.kind ≠ .tree → (wt.remove source).LeafFits target)
  | .flush fh => d.FlushLinks fh
  | _ => True

/-- Every branch has a closed tree. -/
def ClosedTrees (d : Daemon) : Prop := ∀ b wt, d.tree b = some wt → wt.Closed

/-! ## Requests -/

section Requests

variable {d d' : Daemon}

theorem ClosedTrees.of_branches (h : d.ClosedTrees) (hbr : d'.branches = d.branches) :
    d'.ClosedTrees :=
  fun b wt hwt => h b wt (tree_congr hbr b ▸ hwt)

theorem ClosedTrees.modifyTree (h : d.ClosedTrees) {b : Nat} {f : WorkingTree → WorkingTree}
    (hf : ∀ wt, d.tree b = some wt → (f wt).Closed) : (d.modifyTree b f).ClosedTrees := by
  intro c wt hwt
  rw [tree_modifyTree] at hwt
  split at hwt
  · obtain ⟨wt₀, hwt₀, rfl⟩ := Option.map_eq_some_iff.1 hwt
    rename_i hb
    exact hf wt₀ (hb ▸ hwt₀)
  · exact h c wt hwt

theorem ClosedTrees.setTree (h : d.ClosedTrees) {b : Nat} (br : BranchContext)
    (hwt : br.wt.Closed) (hbr : d'.branches = d.branches.insert b br) : d'.ClosedTrees := by
  intro c wt hc
  rw [tree_of_branches_insert hbr] at hc
  split at hc
  · cases hc
    exact hwt
  · exact h c wt hc

theorem ClosedTrees.modifyFh (h : d.ClosedTrees) (fh : Nat) (f : FhState → FhState) :
    (d.modifyFh fh f).ClosedTrees :=
  h.of_branches (modifyFh_branches d fh f)

theorem ClosedTrees.putBlob (h : d.ClosedTrees) {b : Nat} {path : FsPath} {kind : EntryKind}
    {mode : UInt32} {hash : Hash}
    (hput : ∀ wt, d.tree b = some wt → (wt.insert path ⟨kind, hash, mode⟩).Closed) :
    (Daemon.putBlob b path kind mode hash d).2.ClosedTrees :=
  h.modifyTree hput

theorem ClosedTrees.openEmpty (h : d.ClosedTrees) {b : Nat} {br : BranchContext} {path : FsPath}
    {mode : UInt32} {hash : Hash}
    (hput : ∀ wt, d.tree b = some wt → (wt.insert path ⟨.blob, hash, mode⟩).Closed) :
    (Daemon.openEmpty b br path mode hash d).2.ClosedTrees := by
  have hmod := h.modifyTree hput
  exact hmod.of_branches rfl

theorem closed_insertFlushed {wt : WorkingTree} (h : wt.Closed) {path : FsPath}
    (hfit : wt.LeafFits path) (hash : Hash) : (insertFlushed wt path hash).Closed :=
  Closed.insert_leaf h (by simp) hfit

theorem ClosedTrees.putFlushed (h : d.ClosedTrees) {fh : Nat} {s : FhState} {store : ObjectStore}
    {hash : Hash} (hfit : ∀ wt, d.tree s.branchId = some wt → wt.LeafFits s.path) :
    (Daemon.putFlushed fh s store hash d).2.ClosedTrees := by
  unfold Daemon.putFlushed
  split
  · exact h.modifyFh fh _
  · have hput : (d.modifyTree s.branchId fun wt => insertFlushed wt s.path hash).ClosedTrees :=
      h.modifyTree fun wt hwt => closed_insertFlushed (h _ wt hwt) (hfit wt hwt) hash
    exact hput.modifyFh fh _

variable [Blake3]

/-- A request that finds its places keeps the trees closed. -/
theorem ClosedTrees.request (h : d.ClosedTrees) {op : FuseOp} (hop : d.Links op) :
    ((op.start d).run d).2.ClosedTrees := by
  have hwrite : ∀ data, ClosedTrees { d with store := (d.store.writeBlob data).1 } :=
    fun data => h.of_branches rfl
  have hthe : ∀ {b : Nat} {br : BranchContext} {wt : WorkingTree}, d.branch b = some br →
      d.tree b = some wt → wt = br.wt := by
    intro b br wt hbr hwt
    rw [tree_of_branch hbr] at hwt
    exact (Option.some_inj.1 hwt).symm
  -- an entry that keeps its kind keeps the tree closed
  have hsame : ∀ {b : Nat} {br : BranchContext} {path : FsPath} {e e' : WorkingTreeEntry},
      d.branch b = some br → br.wt.lookup path = some e → e'.kind = e.kind →
        ∀ wt, d.tree b = some wt → (wt.insert path e').Closed := by
    intro b br path e e' hbr he hk wt hwt
    rw [← hthe hbr hwt] at he
    exact (h b wt hwt).insert_same he hk
  have hstart := op.started d
  generalize op.start d = critical at hstart ⊢
  cases hstart with
  | refused op e => exact h
  | opened hbr he hk hsize => exact h.of_branches rfl
  | openTrunc hbr he hk => exact (hwrite []).openEmpty (hsame hbr he hk.symm)
  | create hok hbr =>
      exact (hwrite []).openEmpty fun wt hwt =>
        (h _ wt hwt).insert_leaf (by simp) (hop wt hok hwt)
  | read hs => exact h.modifyFh _ _
  | write hs => exact h.modifyFh _ _
  | flushClean hs hclean => exact h
  -- the path of the handle may have lost its parent, which `hop` excludes
  | flush hs hdirty =>
      exact (hwrite _).putFlushed fun wt hwt => hthe hs.branch hwt ▸ hop _ _ hs hdirty
  | truncateFh hs => exact h.modifyFh _ _
  | truncate hbr he hk => exact (hwrite _).putBlob (hsame hbr he hk.symm)
  | unlink hbr he hk =>
      exact h.modifyTree fun wt hwt => (h _ wt hwt).remove_leaf (hthe hbr hwt ▸ he) hk
  | rmdir hbr he hk hempty =>
      exact h.modifyTree fun wt hwt =>
        (h _ wt hwt).remove fun _ => (h _ wt hwt).bareBelow_of_listDir (hthe hbr hwt ▸ hempty)
  | mkdir hok hbr he =>
      exact h.modifyTree fun wt hwt =>
        (h _ wt hwt).insert_dir rfl (hop wt hok hwt (hthe hbr hwt ▸ he))
  | @renameDir _ source _ _ e hok hbr he hk =>
      refine h.modifyTree fun wt hwt => ?_
      rw [← hthe hbr hwt] at he
      exact (h _ wt hwt).renameDir ⟨e, he, hk⟩ ((hop wt e hwt he).1 hk)
  | renameEntry hok hbr he hk =>
      refine h.modifyTree fun wt hwt => ?_
      rw [← hthe hbr hwt] at he
      exact (h _ wt hwt).renameEntry he hk ((hop wt _ hwt he).2 hk)
  | @symlink _ _ path _ hok hbr he =>
      refine (hwrite _).putBlob fun wt hwt => ?_
      have hnone : wt.lookup path = none := hthe hbr hwt ▸ he
      have hparent := hop wt hok hwt hnone
      by_cases hp : path = []
      · subst hp
        exact (h _ wt hwt).insert_root (by simp)
      · exact (h _ wt hwt).insert_leaf (by simp)
          ((h _ wt hwt).leafFits_of_absent hp hnone hparent)
  | chmod hbr he => exact h.modifyTree (hsame hbr he rfl)

end Requests

/-! ## Operations on branches -/

section Branches

variable {d : Daemon} [Blake3]

/-- Dirty handles of a flushed table are dirty handles of the old one, at the same paths. -/
theorem dirty_of_flushFhs (b c : Nat) (order : List Nat) (store : ObjectStore) (fhs : FhTable)
    (wt : WorkingTree) : ∀ (fh : Nat) s, (flushFhs b order (store, fhs, wt)).2.2.1[fh]? = some s →
      s.needsFlush c = true → ∃ s₀, fhs[fh]? = some s₀ ∧ s₀.needsFlush c = true ∧ s.path = s₀.path := by
  refine flushFhs_induction (I := fun _ fhs' _ => ∀ (fh : Nat) s, fhs'[fh]? = some s →
    s.needsFlush c = true → ∃ s₀, fhs[fh]? = some s₀ ∧ s₀.needsFlush c = true ∧ s.path = s₀.path)
    ?_ ?_ order fun fh s hs hdirty => ⟨s, hs, hdirty, rfl⟩
  · intro store fhs' wt fh s hold hs hneeds k s' hk hdirty
    rw [ExtTreeMap.getElem?_insert] at hk
    split at hk
    · rename_i heq
      cases hk
      obtain ⟨hpath', hbranch, hstale, hbuf, -⟩ := s.ensureBaseCache_spec store
      rw [Std.compare_eq_iff_eq] at heq
      subst heq
      rw [FhState.needsFlush, hbranch, hstale, hbuf] at hdirty
      obtain ⟨s₀, hs₀, hdirty₀, hpath⟩ := hold fh s hs hdirty
      exact ⟨s₀, hs₀, hdirty₀, hpath'.trans hpath⟩
    · exact hold k s' hk hdirty
  · intro store fhs' wt fh s hold hs hneeds hz k s' hk hdirty
    rw [ExtTreeMap.getElem?_insert] at hk
    split at hk
    · cases hk
      simp at hdirty
    · exact hold k s' hk hdirty

/-- A flush of a branch whose dirty contents fit keeps its tree closed. -/
theorem closed_flushFhs (h : d.ClosedTrees) {b : Nat} {br : BranchContext}
    (hbr : d.branch b = some br) (hlinks : d.AllFlushesLink b) (order : List Nat) :
    (flushFhs b order (d.store, d.fhTable, br.wt)).2.2.2.Closed := by
  have htree := tree_of_branch hbr
  refine (flushFhs_induction (I := fun _ fhs wt => wt.Closed ∧ ∀ (fh : Nat) s, fhs[fh]? = some s →
    s.needsFlush b = true → (∃ s₀, d.getFh fh = some s₀ ∧ s₀.needsFlush b = true ∧
      s.path = s₀.path) ∧ wt.LeafFits s.path) ?_ ?_ order ⟨h b br.wt htree, ?_⟩).1
  · rintro store fhs wt fh s ⟨hclosed, hdirty⟩ hs hneeds
    refine ⟨hclosed, fun k s' hk hneeds' => ?_⟩
    rw [ExtTreeMap.getElem?_insert] at hk
    split at hk
    · rename_i heq
      cases hk
      rw [Std.compare_eq_iff_eq] at heq
      subst heq
      rw [(s.follows_ensureBaseCache store).path]
      exact hdirty fh s hs hneeds
    · exact hdirty k s' hk hneeds'
  · rintro store fhs wt fh s ⟨hclosed, hdirty⟩ hs hneeds -
    obtain ⟨⟨s₀, hs₀, hneeds₀, hpath₀⟩, hfit⟩ := hdirty fh s hs hneeds
    refine ⟨closed_insertFlushed hclosed hfit _, fun k s' hk hneeds' => ?_⟩
    rw [ExtTreeMap.getElem?_insert] at hk
    split at hk
    · cases hk
      simp at hneeds'
    obtain ⟨⟨s₁, hs₁, hneeds₁, hpath₁⟩, hfit'⟩ := hdirty k s' hk hneeds'
    refine ⟨⟨s₁, hs₁, hneeds₁, hpath₁⟩, ?_⟩
    -- the file that was put at the one path is neither above nor below the other
    have happart : ∀ {p q : FsPath}, (p = s.path ∧ q = s'.path ∨ p = s'.path ∧ q = s.path) →
        p <+: q → p = q := by
      rintro p q (⟨rfl, rfl⟩ | ⟨rfl, rfl⟩) hpq
      · rw [hpath₀, hpath₁] at hpq ⊢
        exact hlinks.apart fh s₀ k s₁ hs₀ hs₁ hneeds₀ hneeds₁ hpq
      · rw [hpath₀, hpath₁] at hpq ⊢
        exact hlinks.apart k s₁ fh s₀ hs₁ hs₀ hneeds₁ hneeds₀ hpq
    generalize (store.writeBlob (s.flushData store)).2 = hash
    have hlookup : ∀ q, q ≠ s.path → (insertFlushed wt s.path hash).lookup q = wt.lookup q :=
      fun q hq => (lookup_insert_spec (by simp) q).2 hq
    constructor
    · rcases hfit'.parent with hroot | ⟨e, he, hdir⟩
      · exact Or.inl hroot
      · by_cases heq : s'.path.dropLast = s.path
        · refine Or.inl ?_
          have hsame := happart (Or.inl ⟨rfl, rfl⟩) (heq ▸ List.dropLast_prefix s'.path)
          by_contra hne
          rw [hsame] at heq
          exact dropLast_ne (fun hnil => hne (by rw [hnil]; rfl)) heq
        · exact Or.inr ⟨e, (hlookup _ heq).trans he, hdir⟩
    · intro q hq hne
      by_cases heq : q = s.path
      · exact absurd (happart (Or.inr ⟨rfl, heq⟩) hq).symm hne
      · exact (hlookup q heq).trans (hfit'.bare q hq hne)
  · intro fh s hs hneeds
    exact ⟨⟨s, hs, hneeds, rfl⟩, hlinks.fits br.wt fh s htree hs hneeds⟩

theorem ClosedTrees.checkpointBranch (h : d.ClosedTrees) {b : Nat} (hlinks : d.AllFlushesLink b)
    (label : Bytes) (order : List Nat) (timestampNs : UInt64) :
    (d.checkpointBranch b label order timestampNs).2.ClosedTrees := by
  cases hbr : d.branch b with
  | none =>
      rw [checkpointBranch_of_none hbr]
      exact h
  | some br =>
      rw [checkpointBranch_eq hbr]
      exact h.setTree { br with wt := _ } (closed_flushFhs h hbr hlinks order) rfl

/-- A checkpoint of one branch leaves the tree and the dirty handles of another. -/
theorem AllFlushesLink.checkpointBranch {b c : Nat} (h : d.AllFlushesLink c) (hne : b ≠ c)
    (label : Bytes) (order : List Nat) (timestampNs : UInt64) :
    (d.checkpointBranch b label order timestampNs).2.AllFlushesLink c := by
  cases hbr : d.branch b with
  | none =>
      rw [checkpointBranch_of_none hbr]
      exact h
  | some br =>
      rw [checkpointBranch_eq hbr]
      have hold := dirty_of_flushFhs b c order d.store d.fhTable br.wt
      constructor
      · intro wt fh s hwt hs hneeds
        rw [tree_of_branches_insert (d := d) rfl, if_neg hne] at hwt
        obtain ⟨s₀, hs₀, hneeds₀, hpath⟩ := hold fh s hs hneeds
        rw [hpath]
        exact h.fits wt fh s₀ hwt hs₀ hneeds₀
      · intro fh s fh' s' hs hs' hneeds hneeds' hpre
        obtain ⟨s₀, hs₀, hneeds₀, hpath⟩ := hold fh s hs hneeds
        obtain ⟨s₁, hs₁, hneeds₁, hpath'⟩ := hold fh' s' hs' hneeds'
        rw [hpath, hpath'] at hpre ⊢
        exact h.apart fh s₀ fh' s₁ hs₀ hs₁ hneeds₀ hneeds₁ hpre

omit [Blake3] in
theorem ClosedTrees.rollback (h : d.ClosedTrees) (hs : Contents GoodTreeFile d.store)
    {name : Bytes} {target : Hash} {fuel : Nat} {r : CommitResult × Daemon}
    (hr : d.rollbackBranchToCommit name target fuel = some r) : r.2.ClosedTrees := by
  rcases rollbackBranchToCommit_cases hr with ⟨-, hbr, -⟩ | ⟨b, br, o, -, ho, hinv, rfl⟩
  · exact h.of_branches hbr
  · have hwt : o.wt.Closed := by
      rcases rollbackLocked_cases ho with ⟨-, hno, -⟩ | ⟨cd, -, -, hrebuild, -⟩
      · rw [hno] at hinv
        cases hinv
      · exact (closed_rebuildWorkingTree hs hrebuild).1
    exact h.setTree { br with wt := o.wt } hwt rfl

omit [Blake3] in
theorem ClosedTrees.createBranch (h : d.ClosedTrees) (name source : Bytes) :
    (d.createBranch name source).2.ClosedTrees := by
  rcases createBranch_cases d name source with
    ⟨next, refs, heq⟩ | ⟨b, br, commit, refs, hname, -, -, -, heq⟩
  · rw [heq]
    exact h.of_branches rfl
  · rw [heq]
    have hclosed := h b br.wt (tree_of_branch (branchByName_eq_some hname).1)
    exact h.setTree ⟨name, br.wt⟩ hclosed rfl

omit [Blake3] in
theorem ClosedTrees.deleteBranch (h : d.ClosedTrees) (name : Bytes) (routed : Bool) :
    (d.deleteBranch name routed).2.ClosedTrees := by
  rcases deleteBranch_cases d name routed with ⟨refs, heq⟩ | ⟨b, br, refs, -, -, heq⟩
  · rw [heq]
    exact h.of_branches rfl
  · rw [heq]
    intro c wt hwt
    refine h c wt ?_
    unfold tree branch at hwt ⊢
    simp only [ExtTreeMap.getElem?_erase] at hwt
    split at hwt
    · cases hwt
    · exact hwt

theorem ClosedTrees.mergeCommits (h : d.ClosedTrees) (hs : Contents GoodTreeFile d.store)
    {sourceName : Bytes} {target : Nat} {targetBr : BranchContext} {sourceCp targetCp : Hash}
    {args : MergeArgs} {r : BranchMergeResult × Daemon}
    (hr : d.mergeCommits sourceName target targetBr sourceCp targetCp args = some r) :
    r.2.ClosedTrees := by
  cases mergeCommits_outcome hr with
  | failed r hr => exact h
  | unpublished refs r hbase hsource htarget hok hr => exact h.of_branches rfl
  | @published baseCommit base source wt info commit refs hancestor hbase hsource htarget hok
      hcommit hrefs =>
      have hclosed : (mergeTrees base source wt).merged.Closed := by
        refine closed_mergeTrees hok fun t ht => ?_
        simp only [List.mem_cons, List.not_mem_nil, or_false] at ht
        rcases ht with rfl | rfl | rfl
        · exact (closed_loadCommitTree hs hbase).1
        · exact (closed_loadCommitTree hs hsource).1
        · exact (closed_loadCommitTree hs htarget).1
      exact h.setTree { targetBr with wt := (mergeTrees base source wt).merged } hclosed rfl

theorem ClosedTrees.mergeBranch (h : d.ClosedTrees) (hnames : d.GoodNames)
    {sourceName targetName : Bytes} {args : MergeArgs} {r : BranchMergeResult × Daemon}
    (hlinks : ∀ name b br, name = sourceName ∨ name = targetName →
      d.branchByName name = some (b, br) → d.AllFlushesLink b)
    (hr : d.mergeBranch sourceName targetName args = some r) : r.2.ClosedTrees := by
  cases mergeBranch_outcome hr with
  | refused r hr => exact h
  | sourceFailed r hsource htarget hne hcp hr =>
      subst hcp
      exact h.checkpointBranch (hlinks _ _ _ (Or.inl rfl) hsource) _ _ _
  | targetFailed r hsource htarget hne hcp hok hcp' hr =>
      subst hcp hcp'
      have hlinks' := hlinks _ _ _ (Or.inr rfl) htarget
      exact (h.checkpointBranch (hlinks _ _ _ (Or.inl rfl) hsource) _ _ _).checkpointBranch
        (hlinks'.checkpointBranch hne _ _ _) _ _ _
  | merged hsource htarget hne hcp hok hcp' hok' hr =>
      subst hcp hcp'
      have hlinks' := hlinks _ _ _ (Or.inr rfl) htarget
      exact ClosedTrees.mergeCommits
        ((h.checkpointBranch (hlinks _ _ _ (Or.inl rfl) hsource) _ _ _).checkpointBranch
          (hlinks'.checkpointBranch hne _ _ _) _ _ _)
        ((hnames.checkpointBranch _ _ _ _).checkpointBranch _ _ _ _).store hr

end Branches

/-! ## The start of a daemon -/

section Start

theorem closedTrees_loadPersistedBranches {fuel : Nat} {names : List Bytes} {d d' : Daemon}
    (h : d.ClosedTrees) (hs : Contents GoodTreeFile d.store)
    (hl : loadPersistedBranches fuel names d = some d') : d'.ClosedTrees := by
  induction names generalizing d with
  | nil =>
      cases hl
      exact h
  | cons name names ih =>
      unfold loadPersistedBranches at hl
      have hskip : ClosedTrees { d with nextBranchId := d.nextBranchId + 1 } := h.of_branches rfl
      split at hl
      · exact ih h hs hl
      simp only at hl
      split at hl
      · cases hl
      · exact ih hskip hs hl
      rename_i wt hwt
      have hclosed : wt.Closed := by
        unfold rebuildBranchFromRef at hwt
        split at hwt
        · cases hwt
        · exact (closed_loadCommitTree hs hwt).1
      split at hl
      · exact ih hskip hs hl
      · refine ih ?_ ?_ hl
        · exact hskip.setTree ⟨name, wt⟩ hclosed rfl
        · exact hs

variable [Blake3]

/-- A daemon that starts on a store with good tree objects has closed trees. -/
theorem closedTrees_initializeDaemon {d d' : Daemon} {timestampNs : UInt64} {fuel : Nat} {ok : Bool}
    (hs : Contents GoodTreeFile d.store)
    (h : d.initializeDaemon timestampNs fuel = some (ok, d')) : d'.ClosedTrees := by
  have hempty : ∀ d₀ : Daemon,
      d₀.branches = (∅ : ExtTreeMap Nat BranchContext).insert 0 ⟨Refs.mainName, {}⟩ →
        d₀.ClosedTrees := by
    intro d₀ hbr b wt hwt
    unfold tree branch at hwt
    rw [hbr, ExtTreeMap.getElem?_insert] at hwt
    split at hwt
    · cases hwt
      exact closed_empty
    · simp at hwt
  have hload : ∀ d₁ : Daemon, d₁.ClosedTrees → Contents GoodTreeFile d₁.store →
      (loadPersistedBranches fuel (d₁.refs.listRefs.toOption.getD []) d₁).map
        (fun d => (true, d)) = some (ok, d') → d'.ClosedTrees := by
    intro d₁ h₁ hs₁ hl
    obtain ⟨d₂, hl₂, heq⟩ := Option.map_eq_some_iff.1 hl
    cases heq
    exact closedTrees_loadPersistedBranches h₁ hs₁ hl₂
  unfold initializeDaemon at h
  simp only at h
  split at h
  -- a new repository: `main` is an empty tree
  · generalize hd₀ : Daemon.mk _ _ _ _ _ _ _ _ = d₀ at h
    obtain ⟨hbr, -⟩ := writeInitialCommit_spec d₀ timestampNs
    have hs₀ : Contents GoodTreeFile d₀.store := by
      rw [← hd₀]
      exact hs.of_eq rfl rfl
    have h₁ : (d₀.writeInitialCommit timestampNs).2.ClosedTrees :=
      hempty _ (hbr.trans (by rw [← hd₀]))
    have hs₁ := contents_writeInitialCommit hs₀ timestampNs
    split at h
    · rename_i d₁ hw
      cases h
      rw [hw] at h₁
      exact h₁
    · rename_i d₁ hw
      rw [hw] at h₁ hs₁
      exact hload d₁ h₁ hs₁ h
  · split at h
    · cases h
    · cases h
      exact hempty _ rfl
    -- `main` is loaded from its ref, and what the store holds is closed
    · rename_i wt hwt
      have hs' : ∀ d₀ : Daemon, d₀.store = { d.store with pending := ∅, lastError := "" } →
          Contents GoodTreeFile d₀.store := by
        intro d₀ heq
        rw [heq]
        exact hs.of_eq rfl rfl
      refine hload _ (ClosedTrees.modifyTree (hempty _ rfl) fun _ _ => ?_) ?_ h
      · unfold rebuildBranchFromRef at hwt
        split at hwt
        · cases hwt
        · exact (closed_loadCommitTree (hs' _ rfl) hwt).1
      · rw [modifyTree_store]
        exact hs' _ rfl

end Start
end Daemon

/-! ## Filling the tree of main -/

section Fill

variable {wt : WorkingTree} [Blake3] {store : ObjectStore}

omit [Blake3] in
theorem closed_insertSource (h : wt.Closed) {p : FsPath} (hp : p ≠ []) (hnone : wt.lookup p = none)
    (hparent : wt.HasParent p) {e : WorkingTreeEntry} (he : e.kind ≠ .deleted) :
    (wt.insertSource p e).Closed := by
  have hfit := h.leafFits_of_absent hp hnone hparent
  exact closed_congr (h.insert_leaf he hfit) fun q =>
    lookup_congr (lookupRaw_insertSource wt p q e)

/-- What one ingestion does to the tree: nothing, or an entry where there was none. -/
theorem ingestEntry_cases (p : FsPath) (src : SourceEntry) (store : ObjectStore)
    (wt : WorkingTree) :
    ((ingestEntry p src store wt).1 ≠ .inserted ∧ (ingestEntry p src store wt).2.2 = wt) ∨
      src.isEntry = true ∧ (ingestEntry p src store wt).1 = .inserted ∧
        ∃ e, e.kind ≠ .deleted ∧ (src.isDirectory = true → e.kind = .tree) ∧
          (ingestEntry p src store wt).2.2 = wt.insertSource p e := by
  have hblob : ∀ kind mode data text, src.isEntry = true → src.isDirectory = false →
      kind ≠ .deleted → ingestEntry p src store wt = insertBlob p kind mode data text store wt →
      ((ingestEntry p src store wt).1 ≠ .inserted ∧ (ingestEntry p src store wt).2.2 = wt) ∨
        src.isEntry = true ∧ (ingestEntry p src store wt).1 = .inserted ∧
          ∃ e, e.kind ≠ .deleted ∧ (src.isDirectory = true → e.kind = .tree) ∧
            (ingestEntry p src store wt).2.2 = wt.insertSource p e := by
    intro kind mode data text hentry hfile hkind heq
    rw [heq]
    unfold insertBlob
    simp only
    split
    · exact Or.inl ⟨by simp, rfl⟩
    · refine Or.inr ⟨hentry, rfl, _, hkind, fun hdir => ?_, rfl⟩
      rw [hfile] at hdir
      cases hdir
  cases src with
  | directory perms => exact Or.inr ⟨rfl, rfl, _, by simp, fun _ => rfl, rfl⟩
  | symlink perms target => exact hblob _ _ _ _ rfl rfl (by simp) rfl
  | file perms data => exact hblob _ _ _ _ rfl rfl (by simp) rfl
  | missing => exact Or.inl ⟨by simp [ingestEntry], rfl⟩
  | unsupported => exact Or.inl ⟨by simp [ingestEntry], rfl⟩
  | failed text => exact Or.inl ⟨by simp [ingestEntry], rfl⟩

theorem closed_ingestEntry (h : wt.Closed) {p : FsPath} (hp : p ≠ [])
    (hnone : wt.lookupRaw p = none) {src : SourceEntry}
    (hparent : src.isEntry = true → wt.HasParent p) :
    (ingestEntry p src store wt).2.2.Closed := by
  rcases ingestEntry_cases p src store wt with ⟨-, heq⟩ | ⟨hentry, -, e, he, -, heq⟩
  · rw [heq]
    exact h
  · rw [heq]
    have hlive : wt.lookup p = none := by simp [lookup, hnone]
    exact closed_insertSource h hp hlive (hparent hentry) he

omit [Blake3] in
theorem upwards_append_singleton (p : FsPath) (n : Name) :
    upwards (p ++ [n]) = (p ++ [n]) :: upwards p := by
  rw [upwards, upwards, List.inits_append]
  simp

omit [Blake3] in
/-- The missing paths: each is longer than the one before, and the parent of each is the root, has
an entry, or is missing too. -/
theorem missingPaths_chain {p : FsPath} {missing : List FsPath}
    (h : missingPaths wt (upwards p) = some missing) :
    (∀ q ∈ missing, q <+: p ∧ q ≠ [] ∧ wt.lookupRaw q = none ∧
      (q.dropLast = [] ∨ wt.lookupRaw q.dropLast ≠ none ∨ q.dropLast ∈ missing)) ∧
      missing.Pairwise (fun q r => q.length < r.length) ∧
      (p ≠ [] → wt.lookupRaw p = none → p ∈ missing) := by
  induction p using List.reverseRecOn generalizing missing with
  | nil =>
      cases h
      exact ⟨fun q hq => (by cases hq), .nil, fun hp => absurd rfl hp⟩
  | append_singleton p n ih =>
      rw [upwards_append_singleton, missingPaths] at h
      split at h
      · rename_i e he
        split at h
        · cases h
        · cases h
          refine ⟨fun q hq => (by cases hq), .nil, fun _ hnone => ?_⟩
          rw [he] at hnone
          cases hnone
      rename_i hnone
      obtain ⟨above, habove, rfl⟩ := Option.map_eq_some_iff.1 h
      obtain ⟨hchain, hsorted, hself⟩ := ih habove
      have hne : p ++ [n] ≠ [] := by simp
      refine ⟨fun q hq => ?_, ?_, fun _ _ => List.mem_append_right _ (List.mem_singleton_self _)⟩
      · rcases List.mem_append.1 hq with hold | hnew
        · obtain ⟨hpre, hq0, hraw, hparent⟩ := hchain q hold
          refine ⟨hpre.trans (List.prefix_append p [n]), hq0, hraw, ?_⟩
          exact hparent.imp_right fun hp => hp.imp_right fun hin => List.mem_append_left _ hin
        · rw [List.mem_singleton.1 hnew, List.dropLast_concat]
          refine ⟨List.prefix_refl _, hne, hnone, ?_⟩
          by_cases hp : p = []
          · exact Or.inl hp
          · by_cases hraw : wt.lookupRaw p = none
            · exact Or.inr (Or.inr (List.mem_append_left _ (hself hp hraw)))
            · exact Or.inr (Or.inl hraw)
      · rw [List.pairwise_append]
        refine ⟨hsorted, List.pairwise_singleton _ _, fun q hq r hr => ?_⟩
        rw [List.mem_singleton.1 hr]
        have hlen := (hchain q hq).1.length_le
        simp only [List.length_append, List.length_singleton]
        omega

/-- The second loop of `ensure_path`: every path finds its parent, or it was just ingested. -/
theorem closed_ingestMissing (source : Source) {missing : List FsPath} (h : wt.Closed)
    (hsorted : missing.Pairwise fun q r => q.length < r.length)
    (hnone : ∀ q ∈ missing, q ≠ [] ∧ wt.lookupRaw q = none)
    (hready : ∀ q ∈ missing, (source q).isEntry = true → wt.HasParent q ∨
      q.dropLast ∈ missing ∧ (source q.dropLast).isDirectory = true) :
    (ingestMissing source missing store wt).2.2.Closed := by
  induction missing generalizing store wt with
  | nil => exact h
  | cons q rest ih =>
      obtain ⟨hq, hraw⟩ := hnone q List.mem_cons_self
      obtain ⟨hshorter, hrest⟩ := List.pairwise_cons.1 hsorted
      -- the first path is the shortest, so its parent is not among the others
      have hparent : (source q).isEntry = true → wt.HasParent q := by
        intro hentry
        rcases hready q List.mem_cons_self hentry with hp | ⟨hin, -⟩
        · exact hp
        · have hlen : q.dropLast.length < q.length := by
            have hpos := List.length_pos_iff.2 hq
            rw [List.length_dropLast]
            omega
          rcases List.mem_cons.1 hin with heq | hin
          · exact absurd heq (dropLast_ne hq)
          · have hlonger := hshorter _ hin
            omega
      rw [ingestMissing, hraw]
      simp only
      split
      · exact h
      have hcases := ingestEntry_cases q (source q) store wt
      generalize ingestEntry q (source q) store wt = out at hcases ⊢
      obtain ⟨res, store', wt'⟩ := out
      simp only at hcases
      rcases hcases with ⟨hno, rfl⟩ | ⟨hentry, rfl, e, he, hdir, rfl⟩
      · split
        · rename_i heq
          cases heq
          exact absurd rfl hno
        · rename_i heq
          cases heq
          exact h
      · have hlive : wt.lookup q = none := by simp [lookup, hraw]
        have hother : ∀ r, r ≠ q → (wt.insertSource q e).lookupRaw r = wt.lookupRaw r := by
          intro r hr
          rw [lookupRaw_insertSource, lookupRaw_insert, if_neg (Ne.symm hr)]
        have hself : (wt.insertSource q e).lookup q = some e := by
          rw [lookup_eq_some, lookupRaw_insertSource, lookupRaw_insert, if_pos rfl]
          exact ⟨rfl, he⟩
        refine ih (closed_insertSource h hq hlive (hparent hentry) he) hrest (fun r hr => ?_)
          fun r hr hr' => ?_
        · obtain ⟨hr0, hrraw⟩ := hnone r (List.mem_cons_of_mem q hr)
          refine ⟨hr0, (hother r ?_).trans hrraw⟩
          rintro rfl
          exact absurd (hshorter r hr) (Nat.lt_irrefl _)
        · rcases hready r (List.mem_cons_of_mem q hr) hr' with hp | ⟨hin, hd⟩
          · refine Or.inl (hp.imp_right ?_)
            rintro ⟨d, hd, hisdir⟩
            have hne : r.dropLast ≠ q := by
              intro heq
              rw [heq, hlive] at hd
              cases hd
            exact ⟨d, (lookup_congr (hother _ hne)).trans hd, hisdir⟩
          · rcases List.mem_cons.1 hin with heq | hin
            · rw [heq] at hd
              refine Or.inl (Or.inr ⟨e, ?_, hdir hd⟩)
              rw [heq]
              exact hself
            · exact Or.inr ⟨hin, hd⟩

theorem closed_ensurePath (source : Source) {path : FsPath} (h : wt.Closed)
    (hlinks : EnsureLinks source path wt) :
    (ensurePath source path store wt).2.2.Closed := by
  unfold ensurePath
  split
  · exact h
  · rename_i missing hm
    obtain ⟨hchain, hsorted, -⟩ := missingPaths_chain hm
    refine closed_ingestMissing source h hsorted (fun q hq => ?_) fun q hq hentry => ?_
    · obtain ⟨-, hq0, hraw, -⟩ := hchain q hq
      exact ⟨hq0, hraw⟩
    · obtain ⟨hpre, hq0, hraw, hparent⟩ := hchain q hq
      rcases hlinks q hpre hq0 hraw hentry with hp | ⟨hnone, hdir⟩
      · exact Or.inl hp
      · rcases hparent with hroot | hsome | hin
        · exact Or.inl (Or.inl hroot)
        · exact absurd hnone hsome
        · exact Or.inr ⟨hin, hdir⟩

theorem closed_walkStep {w : Walker} {listing : Option (List Name)} {src : SourceEntry}
    (h : wt.Closed) (hlinks : w.Links src wt) : (walkStep w listing src store wt).2.2.Closed := by
  unfold walkStep
  split
  · exact h
  · rename_i queue dir name rest
    have hne : dir ++ [name] ≠ [] := by simp
    have hchild : wt.lookupRaw (dir ++ [name]) = none →
        (ingestEntry (dir ++ [name]) src store wt).2.2.Closed :=
      fun hnone => closed_ingestEntry h hne hnone (hlinks hnone)
    unfold walkChild
    simp only
    split
    · exact h
    split
    · exact h
    · exact h
    · exact h
    · rename_i hnone
      have hc := hchild hnone
      split
      · rename_i heq
        rw [heq] at hc
        exact hc
      · rename_i heq
        rw [heq] at hc
        exact hc
      · rename_i heq
        rw [heq] at hc
        exact hc
  · exact h
  · split
    · exact h
    · exact h
  · exact closed_congr h fun p => lookup_congr (lookupRaw_foldIntoBase wt p)

end Fill

/-! ## Runs -/

namespace Mount

open Daemon

variable [Blake3]

/-- Everything a step puts into a tree, it puts into a live directory. -/
def StaysLinked (m : Mount) (ev : MountEvent) (m' : Mount) : Prop :=
  m.NamesFit ev m' ∧
    match ev with
    | .request op => m.daemon.Links op
    | .release fh => m.daemon.FlushLinks fh
    | .ensurePath source path => ∀ wt, m.daemon.tree 0 = some wt → EnsureLinks source path wt
    | .walk _ src => ∀ wt, m.daemon.tree 0 = some wt → m.walker.Links src wt
    | .checkpoint b _ _ _ => m.daemon.AllFlushesLink b
    | .merge source target _ => ∀ name b br, name = source ∨ name = target →
        m.daemon.branchByName name = some (b, br) → m.daemon.AllFlushesLink b
    | _ => True

/-- Whatever is live is linked to the root, and serialised with content it is found again. -/
def LinkedTrees (m : Mount) : Prop :=
  ∀ b wt, m.daemon.tree b = some wt → wt.Closed ∧
    ∀ s : ObjectStore, (∀ dir, (childrenOf wt dir).length < 2 ^ 32) →
      (serializeWorkingTree wt s).root ≠ zeroHash →
      (serializeWorkingTree wt s).store.collided = false →
      ∀ p e, p ≠ [] → wt.lookup p = some e → e.isNullLeaf = false →
        ∃ e', InTree (serializeWorkingTree wt s).store (serializeWorkingTree wt s).root p e' ∧
          SameView e e'

omit [Blake3] in
theorem closedTrees_setMain {m : Mount} (h : m.daemon.ClosedTrees) {store : ObjectStore}
    {wt : WorkingTree} (hwt : wt.Closed) : (m.setMain store wt).daemon.ClosedTrees := by
  have hmod : (m.daemon.modifyTree 0 fun _ => wt).ClosedTrees := h.modifyTree fun _ _ => hwt
  exact hmod.of_branches rfl

omit [Blake3] in
theorem closedTrees_started {d : Daemon} (h : d.ClosedTrees) :
    (d.modifyTree 0 WorkingTree.beginSourceWalk).ClosedTrees :=
  h.modifyTree fun wt hwt =>
    closed_congr (h 0 wt hwt) fun p => lookup_congr (lookupRaw_beginSourceWalk wt p)

/-- One step under the condition keeps every tree closed. -/
theorem closedTrees_apply {m : Mount} (h : m.daemon.ClosedTrees) (hnames : m.GoodNames)
    {ev : MountEvent} (hev : m.StaysLinked ev (m.apply ev)) :
    (m.apply ev).daemon.ClosedTrees := by
  obtain ⟨-, hev⟩ := hev
  cases ev with
  | request op => exact h.request hev
  | release fh =>
      have hflush : (((FuseOp.flush fh).start m.daemon).run m.daemon).2.ClosedTrees := h.request hev
      exact hflush.of_branches rfl
  | ensurePath source path =>
      show (m.ensure source path).daemon.ClosedTrees
      unfold ensure
      split
      · exact h
      · rename_i wt hwt
        exact closedTrees_setMain h (closed_ensurePath source (h 0 wt hwt) (hev wt hwt))
  | walk listing src =>
      show (m.walk listing src).daemon.ClosedTrees
      unfold walk
      split
      · exact h
      · rename_i wt hwt
        exact closedTrees_setMain h (closed_walkStep (h 0 wt hwt) (hev wt hwt))
  | stopWalk => exact h
  | checkpoint b label order timestampNs => exact h.checkpointBranch hev _ _ _
  | rollback name target fuel =>
      simp only [Mount.apply]
      split
      · exact h
      · rename_i r hr
        exact h.rollback hnames.daemon.store hr
  | createBranch name source => exact h.createBranch _ _
  | deleteBranch name routed => exact h.deleteBranch _ _
  | merge source target args =>
      simp only [Mount.apply]
      split
      · exact h
      · rename_i r hr
        exact h.mergeBranch hnames.daemon hev hr
  | restart sessionId timestampNs fuel =>
      show (m.restart sessionId timestampNs fuel).daemon.ClosedTrees
      unfold restart
      split
      · rename_i d hd
        have hs : Contents GoodTreeFile
            ({ m.daemon with sessionId := sessionId, policyVersion := 1 } : Daemon).store :=
          hnames.daemon.store
        exact closedTrees_started (closedTrees_initializeDaemon hs hd)
      · exact h
  | disk faults refFaults => exact h.of_branches rfl

/-- In every run in which every step puts what it puts into a live directory, and with names that
fit, every live path has live directories above it, and serialisation finds every entry with
content. -/
theorem linkedTrees_of_reaches {m : Mount} (h : Reaches Init (Restrict Step StaysLinked) m) :
    m.LinkedTrees := by
  have hboth : m.daemon.ClosedTrees ∧ m.GoodNames := by
    refine h.invariant (I := fun m => m.daemon.ClosedTrees ∧ m.GoodNames)
      (fun m hinit => ⟨?_, GoodNames.init hinit⟩) ?_
    · obtain ⟨d, timestampNs, fuel, d', hs, hd, rfl⟩ := hinit
      exact closedTrees_started (closedTrees_initializeDaemon hs hd)
    · rintro m ev m' ⟨hclosed, hnames⟩ ⟨rfl, hev⟩
      exact ⟨closedTrees_apply hclosed hnames hev, hnames.apply hev.1⟩
  intro b wt hwt
  have hclosed := hboth.1 b wt hwt
  refine ⟨hclosed, fun s hsize hok hc p e hp he hnull => ?_⟩
  exact hclosed.exists_inTree_serialize (hboth.2.daemon.trees b wt hwt) hsize hok hc hp he hnull

end Mount

/-! ## A flush after its directory was renamed -/

section RenamedAway

local instance mountDigest : Blake3 := foldDigest

/-- A daemon on an empty store. -/
def freshMount : Option Mount :=
  (Daemon.initializeDaemon {} 0 9).map fun r =>
    { daemon := r.2.modifyTree 0 WorkingTree.beginSourceWalk, walker := .start }

/-- `/d/f` is written through a handle that is flushed after `/d` was renamed to `/e`. -/
def renamedAway : List MountEvent :=
  [.request (.mkdir 0 [[100]] 0o755), .request (.create 0 [[100], [102]] 0o644),
    .request (.write 1 0 [7]), .request (.rename 0 [[100]] [[101]]), .request (.flush 1)]

theorem exists_freshMount : ∃ m, freshMount = some m ∧ m.Init := by
  have hok : (Daemon.initializeDaemon {} 0 9).any (fun r => r.1) = true := by decide +kernel
  obtain ⟨⟨ok, d⟩, hr, rfl⟩ := (Option.any_eq_true _ _).1 hok
  have hempty : Contents GoodTreeFile ({} : Daemon).store := by
    refine ⟨fun {h f} hf => ?_, fun batch hbatch => ?_⟩
    · change (∅ : ExtTreeMap Hash ObjectFile)[h]? = some f at hf
      simp at hf
    · cases hbatch
  exact ⟨_, by rw [freshMount, hr]; rfl, {}, 0, 9, d, hempty, hr, rfl⟩

/-- The same, with the flush before the rename. -/
def flushedFirst : List FuseOp :=
  [.mkdir 0 [[100]] 0o755, .create 0 [[100], [102]] 0o644, .write 1 0 [7], .flush 1,
    .rename 0 [[100]] [[101]]]

/-- A test that a request leaves every live path linked; some are not looked into. -/
def linksNow (d : Daemon) : FuseOp → Bool
  | .create b path _ => (d.tree b).all fun wt => decide (wt.LeafFits path)
  | .mkdir b path _ => (d.tree b).all fun wt => decide (wt.HasParent path)
  | .write _ _ _ => true
  | .flush fh => (d.getFh fh).all fun s => (d.branch s.branchId).all fun br =>
      decide (br.wt.LeafFits s.path)
  | .rename b source target => (d.tree b).all fun wt =>
      (wt.lookup source).any (fun e => e.kind = .tree) &&
        decide (¬ source <+: target ∧ ¬ target <+: source ∧ wt.HasParent target) &&
          wt.liveEntries.all fun pe => decide (¬ target <+: pe.1)
  | _ => false

theorem links_of_linksNow {d : Daemon} {op : FuseOp} (h : linksNow d op = true) : d.Links op := by
  cases op with
  | create b path mode =>
      intro wt _ hwt
      simp only [linksNow, hwt, Option.all_some] at h
      exact of_decide_eq_true h
  | mkdir b path mode =>
      intro wt _ hwt _
      simp only [linksNow, hwt, Option.all_some] at h
      exact of_decide_eq_true h
  | write fh offset data => trivial
  | flush fh =>
      intro s br hs _
      simp only [linksNow, hs.open_, hs.branch, Option.all_some] at h
      exact of_decide_eq_true h
  | rename b source target =>
      intro wt e hwt he
      simp only [linksNow, hwt, he, Option.all_some, Option.any_some, Bool.and_eq_true,
        decide_eq_true_eq, List.all_eq_true] at h
      obtain ⟨⟨hk, hinto, honto, hparent⟩, hbare⟩ := h
      exact ⟨fun _ => .of_bare hinto honto hparent hbare, fun hne => absurd hk hne⟩
  | openFile b path trunc => cases h
  | read fh offset size => cases h
  | truncateFh path fh length => cases h
  | truncate b path length => cases h
  | unlink b path => cases h
  | rmdir b path => cases h
  | symlink b target path => cases h
  | chmod b path mode => cases h

/-- The test for one request after the other. -/
def linksAlong : List FuseOp → Mount → Bool
  | [], _ => true
  | op :: ops, m => linksNow m.daemon op && decide (∀ p ∈ op.paths, GoodPath p) &&
      linksAlong ops (m.apply (.request op))

theorem reaches_of_linksAlong {ops : List FuseOp} {m : Mount}
    (hr : Reaches Mount.Init (Restrict Mount.Step Mount.StaysLinked) m)
    (h : linksAlong ops m = true) : Reaches Mount.Init (Restrict Mount.Step Mount.StaysLinked)
      (ops.foldl (fun m op => m.apply (.request op)) m) := by
  induction ops generalizing m with
  | nil => exact hr
  | cons op ops ih =>
      simp only [linksAlong, Bool.and_eq_true, decide_eq_true_eq] at h
      obtain ⟨⟨hlinks, hnames⟩, hrest⟩ := h
      exact ih (.step hr ⟨rfl, hnames, links_of_linksNow hlinks⟩) hrest

/-- Every request of `flushedFirst` meets the condition, and `/e/f` has its content. -/
theorem linkedTrees_of_reaches_flushedFirst : ∃ m : Mount, m.LinkedTrees ∧
    (m.daemon.tree 0).any (fun wt => (wt.lookup [[101], [102]]).any fun e =>
      m.daemon.store.readBlob e.hash == some [7]) = true := by
  obtain ⟨m, hm, hinit⟩ := exists_freshMount
  have hrun : freshMount.any (fun m => linksAlong flushedFirst m &&
      ((flushedFirst.foldl (fun m op => m.apply (.request op)) m).daemon.tree 0).any fun wt =>
        (wt.lookup [[101], [102]]).any fun e =>
          (flushedFirst.foldl (fun m op => m.apply (.request op)) m).daemon.store.readBlob e.hash ==
            some [7]) = true := by decide +kernel
  rw [hm, Option.any_some, Bool.and_eq_true] at hrun
  exact ⟨_, Mount.linkedTrees_of_reaches (reaches_of_linksAlong (.start hinit) hrun.1), hrun.2⟩

/-- The flush puts `/d/f` where no directory is any more. -/
theorem reaches_unlinked : ¬ ∀ m : Mount, Reaches Mount.Init Mount.Step m →
    ∀ b wt, m.daemon.tree b = some wt → wt.Closed := by
  intro hall
  obtain ⟨m, hm, hinit⟩ := exists_freshMount
  have hreach : ∀ (evs : List MountEvent) (m : Mount), Reaches Mount.Init Mount.Step m →
      Reaches Mount.Init Mount.Step (evs.foldl Mount.apply m) := by
    intro evs
    induction evs with
    | nil => exact fun _ h => h
    | cons ev evs ih => exact fun m h => ih (m.apply ev) (.step h rfl)
  have hrun : (freshMount.map fun m => renamedAway.foldl Mount.apply m).any (fun m =>
      (m.daemon.tree 0).any fun wt => (wt.lookup [[100], [102]]).isSome &&
        (wt.lookup [[100]]).isNone) = true := by decide +kernel
  rw [hm, Option.map_some, Option.any_some] at hrun
  obtain ⟨wt, hwt, hlost⟩ := (Option.any_eq_true _ _).1 hrun
  rw [Bool.and_eq_true, Option.isNone_iff_eq_none] at hlost
  obtain ⟨e, he⟩ := Option.isSome_iff_exists.1 hlost.1
  obtain ⟨d, hd, -⟩ := hall _ (hreach renamedAway m (.start hinit)) 0 wt hwt _ e he [[100]]
    ⟨[[102]], rfl⟩ (by decide) (by decide)
  rw [hlost.2] at hd
  cases hd

end RenamedAway

end ContextFS
