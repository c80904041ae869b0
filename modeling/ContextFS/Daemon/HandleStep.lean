import ContextFS.Daemon.PublishStep

/-!
# What happens to an open handle

A handle keeps its path and its branch as long as it is open, a stale handle stays stale, and
the number of a handle is not used again.  `FhKept` says so for every operation of the daemon.
-/

namespace ContextFS

open Std Lib ObjectStore WorkingTree

/-- `s'` is what became of the handle `s`. -/
structure FhState.Follows (s s' : FhState) : Prop where
  path : s'.path = s.path
  branchId : s'.branchId = s.branchId
  stale : s.stale = true → s'.stale = true

theorem FhState.Follows.refl (s : FhState) : s.Follows s := ⟨rfl, rfl, id⟩

theorem FhState.Follows.trans {s₁ s₂ s₃ : FhState} (h : s₁.Follows s₂) (h' : s₂.Follows s₃) :
    s₁.Follows s₃ :=
  ⟨h'.path.trans h.path, h'.branchId.trans h.branchId, fun hs => h'.stale (h.stale hs)⟩

theorem FhState.follows_ensureBaseCache (s : FhState) (store : ObjectStore) :
    s.Follows (s.ensureBaseCache store) := by
  obtain ⟨hp, hb, hs, -⟩ := s.ensureBaseCache_spec store
  exact ⟨hp, hb, fun h => hs.trans h⟩

theorem FhState.follows_flushed (s : FhState) (h : Hash) (data : Bytes) :
    s.Follows (s.flushed h data) := ⟨rfl, rfl, id⟩

/-- The handles stay open, and every handle of the later daemon that is not new was open
before. -/
structure FhKept (d d' : Daemon) : Prop where
  next_le : d.nextFhId ≤ d'.nextFhId
  stays : ∀ fh, d.getFh fh ≠ none → d'.getFh fh ≠ none
  kept : ∀ (fh : Nat) (s' : FhState), d'.getFh fh = some s' → fh < d.nextFhId →
    ∃ s, d.getFh fh = some s ∧ s.Follows s'

/-- The open handles have numbers that were given out. -/
def FhBounded (d : Daemon) : Prop := ∀ fh s, d.getFh fh = some s → fh < d.nextFhId

namespace FhKept

variable {d d' d'' : Daemon}

theorem refl (d : Daemon) : FhKept d d :=
  ⟨Nat.le_refl _, fun _ h => h, fun _ s' hs _ => ⟨s', hs, .refl s'⟩⟩

theorem trans (h : FhKept d d') (h' : FhKept d' d'') : FhKept d d'' where
  next_le := Nat.le_trans h.next_le h'.next_le
  stays := fun fh hfh => h'.stays fh (h.stays fh hfh)
  kept := by
    intro fh s'' hs'' hlt
    obtain ⟨s', hs', hf'⟩ := h'.kept fh s'' hs'' (Nat.lt_of_lt_of_le hlt h.next_le)
    obtain ⟨s, hs, hf⟩ := h.kept fh s' hs' hlt
    exact ⟨s, hs, hf.trans hf'⟩

/-- Whatever leaves the handle table alone keeps the handles. -/
theorem of_eq (hfh : d'.fhTable = d.fhTable) (hnext : d'.nextFhId = d.nextFhId) :
    FhKept d d' where
  next_le := Nat.le_of_eq hnext.symm
  stays := fun fh h => by simpa [Daemon.getFh, hfh] using h
  kept := fun fh s' hs' _ => ⟨s', by simpa [Daemon.getFh, hfh] using hs', .refl s'⟩

theorem modifyTree (d : Daemon) (b : Nat) (f : WorkingTree → WorkingTree) :
    FhKept d (d.modifyTree b f) := .of_eq (by simp) (by simp)

theorem modifyFh (d : Daemon) (fh : Nat) {f : FhState → FhState}
    (hf : ∀ s : FhState, s.Follows (f s)) :
    FhKept d (d.modifyFh fh f) where
  next_le := by simp
  stays := by
    intro k hk
    rw [Daemon.getFh_modifyFh]
    split
    · simpa using hk
    · exact hk
  kept := by
    intro k s' hs' _
    rw [Daemon.getFh_modifyFh] at hs'
    split at hs'
    · obtain ⟨s, hs, rfl⟩ := Option.map_eq_some_iff.1 hs'
      exact ⟨s, hs, hf s⟩
    · exact ⟨s', hs', .refl s'⟩

theorem allocateFh (d : Daemon) (s : FhState) : FhKept d (d.allocateFh s).2 where
  next_le := Nat.le_succ _
  stays := by
    intro k hk
    rw [Daemon.getFh_allocateFh]
    split
    · exact Option.some_ne_none s
    · exact hk
  kept := by
    intro k s' hs' hlt
    rw [Daemon.getFh_allocateFh, if_neg (by omega)] at hs'
    exact ⟨s', hs', .refl s'⟩

theorem invalidate {b : Nat} (hfh : d'.fhTable = invalidateFhs b d.fhTable)
    (hnext : d'.nextFhId = d.nextFhId) : FhKept d d' where
  next_le := Nat.le_of_eq hnext.symm
  stays := by
    intro k hk
    unfold Daemon.getFh at hk ⊢
    rw [hfh, Daemon.getFh_invalidateFhs]
    simpa using hk
  kept := by
    intro k s' hs' _
    unfold Daemon.getFh at hs' ⊢
    rw [hfh, Daemon.getFh_invalidateFhs] at hs'
    obtain ⟨s, hs, rfl⟩ := Option.map_eq_some_iff.1 hs'
    refine ⟨s, hs, ?_⟩
    split
    · exact ⟨rfl, rfl, fun _ => rfl⟩
    · exact .refl s

end FhKept

namespace FhBounded

variable {d d' : Daemon}

theorem allocateFh (h : FhBounded d) (s : FhState) : FhBounded (d.allocateFh s).2 := by
  intro k s' hs'
  rw [Daemon.getFh_allocateFh] at hs'
  show k < d.nextFhId + 1
  split at hs'
  · omega
  · exact Nat.lt_succ_of_lt (h k s' hs')

/-- Without a new number no handle appears. -/
theorem of_subset (h : FhBounded d) (hnext : d.nextFhId ≤ d'.nextFhId)
    (hsub : ∀ fh, d'.getFh fh ≠ none → d.getFh fh ≠ none) : FhBounded d' := by
  intro k s' hs'
  obtain ⟨s, hs⟩ := Option.ne_none_iff_exists'.1 (hsub k (by simp [hs']))
  exact Nat.lt_of_lt_of_le (h k s hs) hnext

end FhBounded

/-- What an operation without an opening does to the handles: no number is given out. -/
structure FhQuiet (d d' : Daemon) : Prop extends FhKept d d' where
  next_eq : d'.nextFhId = d.nextFhId
  subset : ∀ fh, d'.getFh fh ≠ none → d.getFh fh ≠ none

namespace FhQuiet

variable {d d' d'' : Daemon}

theorem refl (d : Daemon) : FhQuiet d d := ⟨.refl d, rfl, fun _ h => h⟩

theorem trans (h : FhQuiet d d') (h' : FhQuiet d' d'') : FhQuiet d d'' :=
  ⟨h.toFhKept.trans h'.toFhKept, h'.next_eq.trans h.next_eq,
    fun fh hfh => h.subset fh (h'.subset fh hfh)⟩

theorem of_eq (hfh : d'.fhTable = d.fhTable) (hnext : d'.nextFhId = d.nextFhId) :
    FhQuiet d d' :=
  ⟨.of_eq hfh hnext, hnext, fun fh h => by simpa [Daemon.getFh, hfh] using h⟩

theorem modifyTree (d : Daemon) (b : Nat) (f : WorkingTree → WorkingTree) :
    FhQuiet d (d.modifyTree b f) := .of_eq (by simp) (by simp)

theorem modifyFh (d : Daemon) (fh : Nat) {f : FhState → FhState}
    (hf : ∀ s : FhState, s.Follows (f s)) :
    FhQuiet d (d.modifyFh fh f) where
  toFhKept := .modifyFh d fh hf
  next_eq := by simp
  subset := by
    intro k hk
    rw [Daemon.getFh_modifyFh] at hk
    split at hk
    · intro hn
      exact hk (by simp [hn])
    · exact hk

theorem invalidate {b : Nat} (hfh : d'.fhTable = invalidateFhs b d.fhTable)
    (hnext : d'.nextFhId = d.nextFhId) : FhQuiet d d' where
  toFhKept := .invalidate hfh hnext
  next_eq := hnext
  subset := by
    intro k hk hn
    refine hk ?_
    unfold Daemon.getFh at hn ⊢
    rw [hfh, Daemon.getFh_invalidateFhs, hn]
    rfl

theorem bounded (h : FhQuiet d d') (hb : FhBounded d) : FhBounded d' :=
  hb.of_subset h.next_le h.subset

/-- One handle of the table replaced by what became of it. -/
theorem insert {fh : Nat} {s s' : FhState} (hs : d.getFh fh = some s) (hf : s.Follows s')
    (hfh : d'.fhTable = d.fhTable.insert fh s') (hnext : d'.nextFhId = d.nextFhId) :
    FhQuiet d d' := by
  have hget : ∀ k, d'.getFh k = if fh = k then some s' else d.getFh k := by
    intro k
    unfold Daemon.getFh
    rw [hfh, ExtTreeMap.getElem?_insert]
    by_cases hk : fh = k
    · simp [hk]
    · simp [hk]
  refine ⟨⟨Nat.le_of_eq hnext.symm, fun k hk => ?_, fun k s'' hk _ => ?_⟩, hnext, fun k hk => ?_⟩
  · rw [hget]
    split
    · exact Option.some_ne_none s'
    · exact hk
  · rw [hget] at hk
    split at hk
    · rename_i heq
      subst heq
      cases hk
      exact ⟨s, hs, hf⟩
    · exact ⟨s'', hk, .refl s''⟩
  · rw [hget] at hk
    split at hk
    · rename_i heq
      subst heq
      simp [hs]
    · exact hk

end FhQuiet

section Operations

variable [Blake3] {d : Daemon}

/-- A request opens at most one handle and leaves the others to themselves. -/
theorem FuseOp.fhKept (d : Daemon) (op : FuseOp) :
    FhKept d ((op.start d).run d).2 ∧ (FhBounded d → FhBounded ((op.start d).run d).2) := by
  have hquiet : ∀ {d' : Daemon}, FhQuiet d d' → FhKept d d' ∧ (FhBounded d → FhBounded d') :=
    fun h => ⟨h.toFhKept, h.bounded⟩
  have hstore : ∀ w : ObjectStore × Hash, FhQuiet d { d with store := w.1 } :=
    fun w => .of_eq rfl rfl
  have hput : ∀ (d₀ : Daemon) (b : Nat) (path : FsPath) (kind : EntryKind) (mode : UInt32)
      (h : Hash), FhQuiet d d₀ → FhQuiet d (Daemon.putBlob b path kind mode h d₀).2 :=
    fun d₀ b path kind mode h h₀ =>
      h₀.trans (.modifyTree d₀ b fun wt => wt.insert path ⟨kind, h, mode⟩)
  have htree : ∀ (b : Nat) (f : WorkingTree → WorkingTree),
      FhKept d ((Critical.reply (.ok .ok) (d.modifyTree b f)).run d).2 ∧
        (FhBounded d → FhBounded ((Critical.reply (.ok .ok) (d.modifyTree b f)).run d).2) :=
    fun b f => hquiet (.modifyTree d b f)
  have hopen : ∀ (w : ObjectStore × Hash) (b : Nat) (br : BranchContext) (path : FsPath)
      (mode : UInt32), FhKept d (Daemon.openEmpty b br path mode w.2 { d with store := w.1 }).2 ∧
        (FhBounded d →
          FhBounded (Daemon.openEmpty b br path mode w.2 { d with store := w.1 }).2) := by
    intro w b br path mode
    have h₁ := (hstore w).trans (.modifyTree { d with store := w.1 } b
      fun wt => wt.insert path ⟨.blob, w.2, mode⟩)
    exact ⟨h₁.toFhKept.trans (.allocateFh _ _), fun hb => (h₁.bounded hb).allocateFh _⟩
  have hstart := op.started d
  generalize op.start d = critical at hstart ⊢
  cases hstart with
  | refused op e => exact hquiet (.refl d)
  | opened hbr he hk hsize =>
      exact ⟨.allocateFh d _, fun hb => hb.allocateFh _⟩
  | openTrunc hbr he hk => exact hopen _ _ _ _ _
  | create hok hbr => exact hopen _ _ _ _ _
  | read hs => exact hquiet (.modifyFh d _ fun s => s.follows_ensureBaseCache d.store)
  | write hs => exact hquiet (.modifyFh d _ fun s => ⟨rfl, rfl, id⟩)
  | flushClean hs hclean => exact hquiet (.refl d)
  | flush hs hdirty =>
      refine hquiet ?_
      simp only [Critical.run, Daemon.putFlushed]
      split
      · exact (hstore _).trans (.modifyFh _ _ fun s => s.follows_ensureBaseCache d.store)
      · exact ((hstore _).trans (.modifyTree _ _ _)).trans
          (.modifyFh _ _ fun s => s.follows_flushed _ _)
  | truncateFh hs => exact hquiet (.modifyFh d _ fun s => ⟨rfl, rfl, id⟩)
  | truncate hbr he hk => exact hquiet (hput _ _ _ _ _ _ (hstore _))
  | unlink hbr he hk => exact htree _ _
  | rmdir hbr he hk hempty => exact htree _ _
  | mkdir hok hbr he => exact htree _ _
  | renameDir hok hbr he hk => exact htree _ _
  | renameEntry hok hbr he hk => exact htree _ _
  | symlink hok hbr he => exact hquiet (hput _ _ _ _ _ _ (hstore _))
  | chmod hbr he => exact htree _ _

/-- A flush of all dirty handles of a branch leaves every handle what it was. -/
theorem fhQuiet_flushFhs (b : Nat) (order : List Nat) (wt : WorkingTree) {d' : Daemon}
    (hfh : d'.fhTable = (flushFhs b order (d.store, d.fhTable, wt)).2.2.1)
    (hnext : d'.nextFhId = d.nextFhId) : FhQuiet d d' := by
  have hall : FhQuiet d
      { d with fhTable := (flushFhs b order (d.store, d.fhTable, wt)).2.2.1 } := by
    refine flushFhs_induction (I := fun _ fhs _ => FhQuiet d { d with fhTable := fhs })
      ?_ ?_ order (.refl d)
    · intro store fhs wt fh s h hs _
      have hs' : ({ d with fhTable := fhs } : Daemon).getFh fh = some s := hs
      exact h.trans (.insert hs' (s.follows_ensureBaseCache store) rfl rfl)
    · intro store fhs wt fh s h hs _ _
      have hs' : ({ d with fhTable := fhs } : Daemon).getFh fh = some s := hs
      exact h.trans (.insert hs' (s.follows_flushed _ _) rfl rfl)
  exact hall.trans (.of_eq hfh hnext)

theorem fhQuiet_checkpointBranch (d : Daemon) (b : Nat) (label : Bytes) (order : List Nat)
    (timestampNs : UInt64) : FhQuiet d (d.checkpointBranch b label order timestampNs).2 := by
  cases hbr : d.branch b with
  | none =>
      rw [Daemon.checkpointBranch_of_none hbr]
      exact .refl d
  | some br =>
      rw [Daemon.checkpointBranch_eq hbr]
      exact fhQuiet_flushFhs b order br.wt rfl rfl

omit [Blake3] in
theorem fhQuiet_rollback {name : Bytes} {target : Hash} {fuel : Nat} {r : CommitResult × Daemon}
    (h : d.rollbackBranchToCommit name target fuel = some r) : FhQuiet d r.2 := by
  rcases Daemon.rollbackBranchToCommit_cases h with ⟨-, -, -, hfh, -, hnext⟩ | ⟨b, br, o, -, -, -, rfl⟩
  · exact .of_eq hfh hnext
  · exact .invalidate rfl rfl

omit [Blake3] in
theorem fhQuiet_createBranch (d : Daemon) (name source : Bytes) :
    FhQuiet d (d.createBranch name source).2 := by
  rcases Daemon.createBranch_cases d name source with
    ⟨next, refs, h⟩ | ⟨b, br, commit, refs, -, -, -, -, h⟩
  · rw [h]
    exact .of_eq rfl rfl
  · rw [h]
    exact .of_eq rfl rfl

omit [Blake3] in
theorem fhQuiet_deleteBranch (d : Daemon) (name : Bytes) (routed : Bool) :
    FhQuiet d (d.deleteBranch name routed).2 := by
  rcases Daemon.deleteBranch_cases d name routed with ⟨refs, h⟩ | ⟨b, br, refs, -, -, h⟩
  · rw [h]
    exact .of_eq rfl rfl
  · rw [h]
    exact .invalidate rfl rfl

theorem fhQuiet_mergeCommits {sourceName : Bytes} {target : Nat} {targetBr : BranchContext}
    {sourceCp targetCp : Hash} {args : Daemon.MergeArgs} {r : BranchMergeResult × Daemon}
    (h : d.mergeCommits sourceName target targetBr sourceCp targetCp args = some r) :
    FhQuiet d r.2 := by
  cases Daemon.mergeCommits_outcome h with
  | failed r hr => exact .refl d
  | unpublished refs r hbase hsource htarget hok hr => exact .of_eq rfl rfl
  | published hancestor hbase hsource htarget hok hcommit hrefs => exact .invalidate rfl rfl

theorem fhQuiet_mergeBranch {sourceName targetName : Bytes} {args : Daemon.MergeArgs}
    {r : BranchMergeResult × Daemon} (h : d.mergeBranch sourceName targetName args = some r) :
    FhQuiet d r.2 := by
  cases Daemon.mergeBranch_outcome h with
  | refused r hr => exact .refl d
  | sourceFailed r hsource htarget hne hcp hr =>
      subst hcp
      exact fhQuiet_checkpointBranch d _ _ _ _
  | targetFailed r hsource htarget hne hcp hok hcp' hr =>
      subst hcp hcp'
      exact (fhQuiet_checkpointBranch d _ _ _ _).trans (fhQuiet_checkpointBranch _ _ _ _ _)
  | merged hsource htarget hne hcp hok hcp' hok' hr =>
      subst hcp hcp'
      exact ((fhQuiet_checkpointBranch d _ _ _ _).trans
        (fhQuiet_checkpointBranch _ _ _ _ _)).trans (fhQuiet_mergeCommits hr)

end Operations

/-! ## Which branches and trees a request touches -/

section Branches

namespace Daemon

theorem branch_modifyTree_eq_none (d : Daemon) (b c : Nat) (f : WorkingTree → WorkingTree) :
    (d.modifyTree b f).branch c = none ↔ d.branch c = none := by
  unfold modifyTree branch
  cases hb : d.branches[b]? with
  | none => rfl
  | some br =>
      by_cases hbc : b = c
      · subst hbc
        simp [hb]
      · simp [ExtTreeMap.getElem?_insert, hbc]

theorem tree_modifyTree_of_ne (d : Daemon) {b c : Nat} (f : WorkingTree → WorkingTree)
    (h : c ≠ b) : (d.modifyTree b f).tree c = d.tree c := by
  rw [tree_modifyTree, if_neg (Ne.symm h)]

end Daemon

/-- `d'` has the branches of `d`, and only the tree of `b` may differ. -/
structure OnlyTree (b : Nat) (d d' : Daemon) : Prop where
  branches : ∀ c, d'.branch c = none ↔ d.branch c = none
  trees : ∀ c, c ≠ b → d'.tree c = d.tree c
  next_eq : d'.nextBranchId = d.nextBranchId
  refs_eq : d'.refs = d.refs

namespace OnlyTree

variable {b : Nat} {d d' d'' : Daemon}

theorem of_eq (hbr : d'.branches = d.branches) (hnext : d'.nextBranchId = d.nextBranchId)
    (hrefs : d'.refs = d.refs) : OnlyTree b d d' where
  branches := fun c => by rw [Daemon.branch, Daemon.branch, hbr]
  trees := fun c _ => Daemon.tree_congr hbr c
  next_eq := hnext
  refs_eq := hrefs

theorem trans (h : OnlyTree b d d') (h' : OnlyTree b d' d'') : OnlyTree b d d'' where
  branches := fun c => (h'.branches c).trans (h.branches c)
  trees := fun c hc => (h'.trees c hc).trans (h.trees c hc)
  next_eq := h'.next_eq.trans h.next_eq
  refs_eq := h'.refs_eq.trans h.refs_eq

theorem modifyTree (d : Daemon) (b : Nat) (f : WorkingTree → WorkingTree) :
    OnlyTree b d (d.modifyTree b f) where
  branches := fun c => d.branch_modifyTree_eq_none b c f
  trees := fun c hc => d.tree_modifyTree_of_ne f hc
  next_eq := by
    unfold Daemon.modifyTree
    split <;> rfl
  refs_eq := by simp

theorem modifyFh (b : Nat) (d : Daemon) (fh : Nat) (f : FhState → FhState) :
    OnlyTree b d (d.modifyFh fh f) := by
  refine .of_eq (by simp) ?_ (by simp)
  unfold Daemon.modifyFh
  split <;> rfl

end OnlyTree

variable [Blake3]

/-- A request touches the tree of the branch whose lock it takes, if any. -/
theorem FuseOp.onlyTree (d : Daemon) (op : FuseOp) {b : Nat} (hb : ∀ b', op.lock d = some b' → b' = b) :
    OnlyTree b d ((op.start d).run d).2 := by
  have hrefl : OnlyTree b d d := .of_eq rfl rfl rfl
  have hstore : ∀ w : ObjectStore × Hash, OnlyTree b d { d with store := w.1 } :=
    fun w => .of_eq rfl rfl rfl
  have hput : ∀ (w : ObjectStore × Hash) (b' : Nat) (path : FsPath) (kind : EntryKind)
      (mode : UInt32), b' = b →
      OnlyTree b d (Daemon.putBlob b' path kind mode w.2 { d with store := w.1 }).2 := by
    rintro w b' path kind mode rfl
    exact (hstore w).trans (.modifyTree _ _ fun wt => wt.insert path ⟨kind, w.2, mode⟩)
  have hopen : ∀ (w : ObjectStore × Hash) (b' : Nat) (br : BranchContext) (path : FsPath)
      (mode : UInt32), b' = b →
      OnlyTree b d (Daemon.openEmpty b' br path mode w.2 { d with store := w.1 }).2 := by
    rintro w b' br path mode rfl
    have h₁ := (hstore w).trans (.modifyTree { d with store := w.1 } b'
      fun wt => wt.insert path ⟨.blob, w.2, mode⟩)
    exact h₁.trans (.of_eq rfl rfl rfl)
  have htree : ∀ (b' : Nat) (f : WorkingTree → WorkingTree), b' = b →
      OnlyTree b d ((Critical.reply (.ok .ok) (d.modifyTree b' f)).run d).2 := by
    rintro b' f rfl
    exact .modifyTree d b' f
  have hfh : ∀ {fh : Nat} {s : FhState}, d.getFh fh = some s →
      FuseOp.fhBranch d fh = some s.branchId := by
    intro fh s hs
    simp [FuseOp.fhBranch, hs]
  -- a request changes the tree of the branch it locks, or none
  have hstart := op.started d
  generalize op.start d = critical at hstart ⊢
  cases hstart with
  | refused op e => exact hrefl
  | opened hbr he hk hsize => exact .of_eq rfl rfl rfl
  | openTrunc hbr he hk => exact hopen _ _ _ _ _ (hb _ rfl)
  | create hok hbr => exact hopen _ _ _ _ _ (hb _ rfl)
  | read hs => exact .modifyFh b d _ _
  | write hs => exact .modifyFh b d _ _
  | flushClean hs hclean => exact hrefl
  | @flush _ s _ hs hdirty =>
      have hsb := hb _ (hfh hs.open_)
      simp only [Critical.run, Daemon.putFlushed]
      split
      · exact (hstore _).trans (.modifyFh b _ _ _)
      · have h₁ := (hstore (d.store.writeBlob (s.flushData d.store))).trans
          (.modifyTree _ b fun wt => insertFlushed wt s.path
            (d.store.writeBlob (s.flushData d.store)).2)
        rw [hsb]
        exact h₁.trans (.modifyFh b _ _ _)
  | truncateFh hs => exact .modifyFh b d _ _
  | truncate hbr he hk => exact hput _ _ _ _ _ (hb _ rfl)
  | unlink hbr he hk => exact htree _ _ (hb _ rfl)
  | rmdir hbr he hk hempty => exact htree _ _ (hb _ rfl)
  | mkdir hok hbr he => exact htree _ _ (hb _ rfl)
  | renameDir hok hbr he hk => exact htree _ _ (hb _ rfl)
  | renameEntry hok hbr he hk => exact htree _ _ (hb _ rfl)
  | symlink hok hbr he => exact hput _ _ _ _ _ (hb _ rfl)
  | chmod hbr he => exact htree _ _ (hb _ rfl)

/-- A handle that a request opens belongs to the branch whose lock was held. -/
theorem FuseOp.opened_handle (d : Daemon) (op : FuseOp) (hbound : FhBounded d) {fh : Nat}
    {s : FhState} (hs : ((op.start d).run d).2.getFh fh = some s) (hnew : d.nextFhId ≤ fh) :
    fh = d.nextFhId ∧ op.lock d = some s.branchId ∧ d.branch s.branchId ≠ none ∧
      s.stale = false := by
  -- a step that allocates nothing has no handle from `nextFhId` on
  have hquiet : ∀ {d' : Daemon}, FhQuiet d d' → d'.getFh fh = some s → False := by
    intro d' h hs
    have hlt := h.bounded hbound fh s hs
    rw [h.next_eq] at hlt
    omega
  have hstore : ∀ w : ObjectStore × Hash, FhQuiet d { d with store := w.1 } :=
    fun w => .of_eq rfl rfl
  have hput : ∀ (w : ObjectStore × Hash) (b : Nat) (path : FsPath) (kind : EntryKind)
      (mode : UInt32),
      (Daemon.putBlob b path kind mode w.2 { d with store := w.1 }).2.getFh fh = some s → False := by
    intro w b path kind mode
    have h₁ := (hstore w).trans (.modifyTree { d with store := w.1 } b
      fun wt => wt.insert path ⟨kind, w.2, mode⟩)
    exact hquiet h₁
  have hmodify : ∀ (fh' : Nat) (f : FhState → FhState), (∀ t : FhState, t.Follows (f t)) →
      (d.modifyFh fh' f).getFh fh = some s → False :=
    fun fh' f hf => hquiet (.modifyFh d fh' hf)
  have htree : ∀ (b : Nat) (f : WorkingTree → WorkingTree),
      ((Critical.reply (.ok .ok) (d.modifyTree b f)).run d).2.getFh fh = some s → False :=
    fun b f => hquiet (.modifyTree d b f)
  -- a step that allocates has one, which is what was put there
  have hget : ∀ (d₀ : Daemon) (s₀ : FhState), d₀.nextFhId = d.nextFhId →
      (∀ k, d₀.getFh k = d.getFh k) → (d₀.allocateFh s₀).2.getFh fh = some s →
        fh = d.nextFhId ∧ s₀ = s := by
    intro d₀ s₀ hnext hsame h
    rw [Daemon.getFh_allocateFh, hnext, hsame] at h
    split at h
    · rename_i heq
      exact ⟨heq.symm, Option.some.inj h⟩
    · have hlt := hbound fh s h
      omega
  have hopen : ∀ (w : ObjectStore × Hash) {b : Nat} {br : BranchContext} (path : FsPath)
      (mode : UInt32), d.branch b = some br →
      (Daemon.openEmpty b br path mode w.2 { d with store := w.1 }).2.getFh fh = some s →
        fh = d.nextFhId ∧ some b = some s.branchId ∧ d.branch s.branchId ≠ none ∧
          s.stale = false := by
    intro w b br path mode hbr h
    obtain ⟨hfh, rfl⟩ := hget _ _ (by simp) (by simp [Daemon.getFh]) h
    refine ⟨hfh, rfl, ?_, rfl⟩
    show d.branch b ≠ none
    simp [hbr]
  -- only opening and creating allocate
  have hstart := op.started d
  generalize op.start d = critical at hstart hs
  cases hstart with
  | refused op e => exact (hquiet (.refl d) hs).elim
  | opened hbr he hk hsize =>
      obtain ⟨hfh, rfl⟩ := hget d _ rfl (fun _ => rfl) hs
      exact ⟨hfh, rfl, fun h => by simp [Daemon.newFh, hbr] at h, rfl⟩
  | openTrunc hbr he hk => exact hopen _ _ _ hbr hs
  | create hok hbr => exact hopen _ _ _ hbr hs
  | read hu => exact (hmodify _ _ (fun t => t.follows_ensureBaseCache d.store) hs).elim
  | write hu =>
      refine (hmodify _ (fun t => { t with writeBuf := t.writeBuf.write _ _ }) ?_ hs).elim
      exact fun t => ⟨rfl, rfl, id⟩
  | flushClean hu hclean => exact (hquiet (.refl d) hs).elim
  | flush hu hdirty =>
      simp only [Critical.run, Daemon.putFlushed] at hs
      split at hs
      · exact (hquiet ((hstore _).trans
          (.modifyFh _ _ fun s => s.follows_ensureBaseCache d.store)) hs).elim
      · exact (hquiet (((hstore _).trans (.modifyTree _ _ _)).trans
          (.modifyFh _ _ fun s => s.follows_flushed _ _)) hs).elim
  | truncateFh hu =>
      refine (hmodify _ (fun t => { t with writeBuf := t.writeBuf.truncate _ }) ?_ hs).elim
      exact fun t => ⟨rfl, rfl, id⟩
  | truncate hbr he hk => exact (hput _ _ _ _ _ hs).elim
  | unlink hbr he hk => exact (htree _ _ hs).elim
  | rmdir hbr he hk hempty => exact (htree _ _ hs).elim
  | mkdir hok hbr he => exact (htree _ _ hs).elim
  | renameDir hok hbr he hk => exact (htree _ _ hs).elim
  | renameEntry hok hbr he hk => exact (htree _ _ hs).elim
  | symlink hok hbr he => exact (hput _ _ _ _ _ hs).elim
  | chmod hbr he => exact (htree _ _ hs).elim

end Branches

end ContextFS
