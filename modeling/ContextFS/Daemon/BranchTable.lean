import ContextFS.Daemon.Recovery

/-!
# The table of branches

Branches come from `branch.create`, which checks the name, and from the refs that a daemon finds
when it starts.  However they come and go, `main` is branch 0, every other name is one that
`branch.create` would take, and no two branches have the same name.
-/

namespace ContextFS

open Std Lib

/-- A name that a branch can have. -/
def BranchName (name : Bytes) : Prop := name = Refs.mainName ∨ isValidBranchName name = true

namespace Daemon

/-- The name of a branch. -/
def nameOf (d : Daemon) (b : Nat) : Option Bytes := (d.branch b).map (·.name)

/-- The table of branches is in order. -/
structure TableOk (d : Daemon) : Prop where
  main : d.nameOf 0 = some Refs.mainName
  names : ∀ {b name}, d.nameOf b = some name → BranchName name
  distinct : ∀ {b b' name}, d.nameOf b = some name → d.nameOf b' = some name → b = b'
  bounded : ∀ {b name}, d.nameOf b = some name → b < d.nextBranchId

/-- The branches keep their names. -/
structure SameNames (d d' : Daemon) : Prop where
  nameOf : ∀ b, d'.nameOf b = d.nameOf b
  next : d.nextBranchId ≤ d'.nextBranchId

variable {d d' d'' : Daemon}

theorem nameOf_of_branch {b : Nat} {br : BranchContext} (h : d.branch b = some br) :
    d.nameOf b = some br.name := by
  rw [nameOf, h]
  rfl

/-! ## What keeps the names -/

namespace SameNames

theorem refl (d : Daemon) : SameNames d d := ⟨fun _ => rfl, Nat.le_refl _⟩

theorem trans (h : SameNames d d') (h' : SameNames d' d'') : SameNames d d'' :=
  ⟨fun b => (h'.nameOf b).trans (h.nameOf b), h.next.trans h'.next⟩

theorem of_eq (hbr : d'.branches = d.branches) (hnext : d.nextBranchId ≤ d'.nextBranchId) :
    SameNames d d' :=
  ⟨fun b => by rw [Daemon.nameOf, Daemon.nameOf, branch, branch, hbr], hnext⟩

/-- A branch replaced by another state of it. -/
theorem replace {b : Nat} {br : BranchContext} {name : Bytes} (hname : d.nameOf b = some name)
    (hbr : d'.branches = d.branches.insert b br) (hsame : br.name = name)
    (hnext : d'.nextBranchId = d.nextBranchId) : SameNames d d' := by
  refine ⟨fun c => ?_, Nat.le_of_eq hnext.symm⟩
  rw [Daemon.nameOf, branch_insert d b br c hbr]
  split
  · rename_i hc
    rw [← hc, hname, ← hsame]
    rfl
  · rfl

theorem modifyTree (d : Daemon) (b : Nat) (f : WorkingTree → WorkingTree) :
    SameNames d (d.modifyTree b f) := by
  unfold Daemon.modifyTree
  split
  · exact .refl d
  · rename_i br hbr
    exact .replace (nameOf_of_branch hbr) rfl rfl rfl

theorem modifyFh (d : Daemon) (fh : Nat) (f : FhState → FhState) :
    SameNames d (d.modifyFh fh f) := by
  unfold Daemon.modifyFh
  split
  · exact .refl d
  · exact .of_eq rfl (Nat.le_refl _)

theorem tableOk (h : SameNames d d') (hok : d.TableOk) : d'.TableOk where
  main := (h.nameOf 0).trans hok.main
  names := fun hb => hok.names ((h.nameOf _).symm.trans hb)
  distinct := fun hb hb' =>
    hok.distinct ((h.nameOf _).symm.trans hb) ((h.nameOf _).symm.trans hb')
  bounded := fun hb => (hok.bounded ((h.nameOf _).symm.trans hb)).trans_le h.next

end SameNames

section Requests

variable [Blake3]

/-- A request adds, removes and renames no branch. -/
theorem sameNames_request (d : Daemon) (op : FuseOp) : SameNames d ((op.start d).run d).2 := by
  have hstore : ∀ w : ObjectStore × Hash, SameNames d { d with store := w.1 } :=
    fun _ => .of_eq rfl (Nat.le_refl _)
  have hput : ∀ (w : ObjectStore × Hash) (b : Nat) (path : FsPath) (kind : EntryKind)
      (mode : UInt32), SameNames d (Daemon.putBlob b path kind mode w.2 { d with store := w.1 }).2 :=
    fun w b path kind mode => (hstore w).trans (.modifyTree { d with store := w.1 } b
      fun wt => wt.insert path ⟨kind, w.2, mode⟩)
  have hopen : ∀ (w : ObjectStore × Hash) (b : Nat) (br : BranchContext) (path : FsPath)
      (mode : UInt32), SameNames d (Daemon.openEmpty b br path mode w.2 { d with store := w.1 }).2 := by
    intro w b br path mode
    have h := (hstore w).trans (.modifyTree { d with store := w.1 } b
      fun wt => wt.insert path ⟨.blob, w.2, mode⟩)
    exact h.trans (.of_eq rfl (Nat.le_refl _))
  have htree : ∀ (b : Nat) (f : WorkingTree → WorkingTree),
      SameNames d ((Critical.reply (.ok .ok) (d.modifyTree b f)).run d).2 :=
    fun b f => .modifyTree d b f
  have hstart := op.started d
  generalize op.start d = critical at hstart ⊢
  cases hstart with
  | refused op e => exact .refl d
  | opened hbr he hk hsize => exact .of_eq rfl (Nat.le_refl _)
  | openTrunc hbr he hk => exact hopen _ _ _ _ _
  | create hok hbr => exact hopen _ _ _ _ _
  | read hs => exact .modifyFh d _ _
  | write hs => exact .modifyFh d _ _
  | flushClean hs hclean => exact .refl d
  | flush hs hdirty =>
      simp only [Critical.run, Daemon.putFlushed]
      split
      · exact (hstore _).trans (.modifyFh _ _ _)
      · exact ((hstore _).trans (.modifyTree _ _ _)).trans (.modifyFh _ _ _)
  | truncateFh hs => exact .modifyFh d _ _
  | truncate hbr he hk => exact hput _ _ _ _ _
  | symlink hok hbr he => exact hput _ _ _ _ _
  | _ => exact htree _ _

end Requests

/-! ## Operations on branches -/

theorem sameNames_checkpointBranch [Blake3] (d : Daemon) (b : Nat) (label : Bytes)
    (order : List Nat) (timestampNs : UInt64) :
    SameNames d (d.checkpointBranch b label order timestampNs).2 := by
  cases hbr : d.branch b with
  | none =>
      rw [checkpointBranch_of_none hbr]
      exact .refl d
  | some br =>
      rw [checkpointBranch_eq hbr]
      exact .replace (nameOf_of_branch hbr) rfl rfl rfl

theorem sameNames_rollback {name : Bytes} {target : Hash} {fuel : Nat}
    {r : CommitResult × Daemon} (h : d.rollbackBranchToCommit name target fuel = some r) :
    SameNames d r.2 := by
  have hnext : r.2.nextBranchId = d.nextBranchId := (branchesKept_rollback h).1.next_eq
  rcases rollbackBranchToCommit_cases h with ⟨-, hbr, -⟩ | ⟨b, br, o, hname, -, -, rfl⟩
  · exact .of_eq hbr (Nat.le_of_eq hnext.symm)
  · exact .replace (nameOf_of_branch (branchByName_eq_some hname).1) rfl rfl rfl

section Merge

variable [Blake3]

theorem sameNames_mergeCommits {sourceName : Bytes} {target : Nat} {targetBr : BranchContext}
    {sourceCp targetCp : Hash} {args : MergeArgs} {r : BranchMergeResult × Daemon}
    (hname : d.nameOf target = some targetBr.name)
    (h : d.mergeCommits sourceName target targetBr sourceCp targetCp args = some r) :
    SameNames d r.2 := by
  cases mergeCommits_outcome h with
  | failed r hr => exact .refl d
  | unpublished refs r hbase hsource htarget hok hr => exact .of_eq rfl (Nat.le_refl _)
  | published hancestor hbase hsource htarget hok hcommit hrefs => exact .replace hname rfl rfl rfl

theorem sameNames_mergeBranch {sourceName targetName : Bytes} {args : MergeArgs}
    {r : BranchMergeResult × Daemon} (h : d.mergeBranch sourceName targetName args = some r) :
    SameNames d r.2 := by
  cases mergeBranch_outcome h with
  | refused r hr => exact .refl d
  | sourceFailed r hsource htarget hne hcp hr =>
      subst hcp
      exact sameNames_checkpointBranch d _ _ _ _
  | targetFailed r hsource htarget hne hcp hok hcp' hr =>
      subst hcp hcp'
      exact (sameNames_checkpointBranch d _ _ _ _).trans (sameNames_checkpointBranch _ _ _ _ _)
  | @merged source target sourceBr targetBr cp cp' r hsource htarget hne hcp hok hcp' hok' hr =>
      have hfirst : SameNames d cp.2 := by
        rw [← hcp]
        exact sameNames_checkpointBranch d _ _ _ _
      have hsecond : SameNames cp.2 cp'.2 := by
        rw [← hcp']
        exact sameNames_checkpointBranch cp.2 _ _ _ _
      have hkept := hfirst.trans hsecond
      have hname := nameOf_of_branch (branchByName_eq_some htarget).1
      exact hkept.trans (sameNames_mergeCommits ((hkept.nameOf _).trans hname) hr)

end Merge

/-! ## Branches that come and go -/

theorem TableOk.of_eq (h : d.TableOk) (hbr : d'.branches = d.branches)
    (hnext : d.nextBranchId ≤ d'.nextBranchId) : d'.TableOk :=
  (SameNames.of_eq hbr hnext).tableOk h

theorem TableOk.modifyTree (h : d.TableOk) (b : Nat) (f : WorkingTree → WorkingTree) :
    (d.modifyTree b f).TableOk :=
  (SameNames.modifyTree d b f).tableOk h

/-- No branch has the name. -/
theorem nameOf_ne_of_branchByName (h : d.branchByName name = none) (b : Nat) :
    d.nameOf b ≠ some name := by
  intro hb
  obtain ⟨br, hbr, hname⟩ := Option.map_eq_some_iff.1 hb
  exact branchByName_eq_none_iff.1 h b br hbr hname

/-- A branch that comes in under the next id and a new name. -/
theorem TableOk.add (h : d.TableOk) {br : BranchContext} (hbr : d'.branches =
      d.branches.insert d.nextBranchId br) (hnext : d'.nextBranchId = d.nextBranchId + 1)
    (hname : BranchName br.name) (hnew : d.branchByName br.name = none) : d'.TableOk := by
  have hnames : ∀ b name, d'.nameOf b = some name →
      (b = d.nextBranchId ∧ name = br.name) ∨ (b ≠ d.nextBranchId ∧ d.nameOf b = some name) := by
    intro b name hb
    rw [nameOf, branch_insert d d.nextBranchId br b hbr] at hb
    split at hb
    · rename_i heq
      exact Or.inl ⟨heq.symm, (Option.some.inj hb).symm⟩
    · rename_i hne
      exact Or.inr ⟨Ne.symm hne, hb⟩
  -- the new name is no other branch's, and the new id is above all others
  have hfresh := nameOf_ne_of_branchByName hnew
  refine ⟨?_, fun {b name} hb => ?_, fun {b b' name} hb hb' => ?_, fun {b name} hb => ?_⟩
  · have hlt := h.bounded h.main
    rw [nameOf, branch_insert d d.nextBranchId br 0 hbr, if_neg (by omega)]
    exact h.main
  · rcases hnames b name hb with ⟨-, rfl⟩ | ⟨-, hb⟩
    · exact hname
    · exact h.names hb
  · rcases hnames b name hb with ⟨rfl, rfl⟩ | ⟨-, hb⟩
    · rcases hnames b' _ hb' with ⟨rfl, -⟩ | ⟨-, hb'⟩
      · rfl
      · exact absurd hb' (hfresh b')
    · rcases hnames b' name hb' with ⟨rfl, rfl⟩ | ⟨-, hb'⟩
      · exact absurd hb (hfresh b)
      · exact h.distinct hb hb'
  · rw [hnext]
    rcases hnames b name hb with ⟨rfl, -⟩ | ⟨-, hb⟩
    · exact Nat.lt_succ_self _
    · exact (h.bounded hb).trans (Nat.lt_succ_self _)

theorem TableOk.createBranch (h : d.TableOk) {name : Bytes} (source : Bytes)
    (hname : isValidBranchName name = true) : (d.createBranch name source).2.TableOk := by
  have hnext : d.nextBranchId ≤ (d.createBranch name source).2.nextBranchId := by
    unfold Daemon.createBranch
    split
    · exact Nat.le_refl _
    split
    · exact Nat.le_refl _
    simp only
    split
    · exact Nat.le_succ _
    split
    · exact Nat.le_succ _
    · exact Nat.le_succ _
  rcases createBranch_cases d name source with
    ⟨next, refs, heq⟩ | ⟨b, br, commit, refs, -, hnone, -, -, heq⟩
  · refine h.of_eq ?_ hnext
    rw [heq]
  · rw [heq]
    exact h.add rfl rfl (Or.inr hname) hnone

theorem TableOk.deleteBranch (h : d.TableOk) (name : Bytes) (routed : Bool) :
    (d.deleteBranch name routed).2.TableOk := by
  rcases deleteBranch_cases d name routed with ⟨refs, heq⟩ | ⟨b, br, refs, hfound, hmain, heq⟩
  · rw [heq]
    exact h.of_eq rfl (Nat.le_refl _)
  · rw [heq]
    generalize hd' : Daemon.mk _ _ _ _ _ _ _ _ = d'
    obtain ⟨hbr, hbrname⟩ := branchByName_eq_some hfound
    have hbname : d.nameOf b = some name := by rw [nameOf_of_branch hbr, hbrname]
    have hnameOf : ∀ c, d'.nameOf c = if b = c then none else d.nameOf c := by
      intro c
      rw [← hd']
      by_cases hc : b = c
      · simp [nameOf, branch, hc]
      · simp [nameOf, branch, ExtTreeMap.getElem?_erase, hc]
    have hold : ∀ {c name'}, d'.nameOf c = some name' → d.nameOf c = some name' := by
      intro c name' hc
      rw [hnameOf] at hc
      split at hc
      · cases hc
      · exact hc
    refine ⟨?_, fun hc => h.names (hold hc), fun hc hc' => h.distinct (hold hc) (hold hc'),
      fun hc => ?_⟩
    · -- `main` is not deleted
      have hne : b ≠ 0 := by
        rintro rfl
        exact hmain (Option.some.inj (hbname.symm.trans h.main))
      rw [hnameOf, if_neg hne]
      exact h.main
    · rw [← hd']
      exact h.bounded (hold hc)

/-! ## The start of a daemon -/

theorem TableOk.loadPersistedBranches (h : d.TableOk) {fuel : Nat} {names : List Bytes}
    (hl : loadPersistedBranches fuel names d = some d') : d'.TableOk := by
  induction names generalizing d with
  | nil =>
      cases hl
      exact h
  | cons name names ih =>
      unfold Daemon.loadPersistedBranches at hl
      have hskip : TableOk { d with nextBranchId := d.nextBranchId + 1 } :=
        h.of_eq rfl (Nat.le_succ _)
      split at hl
      · exact ih h hl
      rename_i hcheck
      -- a ref whose name is not valid was skipped
      have hvalid : isValidBranchName name = true := by
        simp only [Bool.or_eq_true, decide_eq_true_eq, Bool.not_eq_true', not_or,
          Bool.not_eq_false] at hcheck
        exact hcheck.2
      simp only at hl
      split at hl
      · cases hl
      · exact ih hskip hl
      rename_i wt hwt
      split at hl
      · exact ih hskip hl
      · rename_i hnone
        change ¬(d.branchByName name).isSome = true at hnone
        have hnew : d.branchByName name = none := by simpa using hnone
        have hadd : TableOk { d with
            nextBranchId := d.nextBranchId + 1
            branches := d.branches.insert d.nextBranchId ⟨name, wt⟩ } :=
          h.add rfl rfl (Or.inr hvalid) hnew
        exact ih hadd hl

/-- A daemon that knows only `main`. -/
theorem tableOk_of_main (hbr : d.branches = (∅ : ExtTreeMap Nat BranchContext).insert 0
    ⟨Refs.mainName, wt⟩) (hnext : d.nextBranchId = 1) : d.TableOk := by
  have hnameOf : ∀ b, d.nameOf b = if 0 = b then some Refs.mainName else none := by
    intro b
    by_cases hb : 0 = b
    · simp [nameOf, branch, hbr, hb]
    · simp [nameOf, branch, hbr, hb]
  have hzero : ∀ {b name}, d.nameOf b = some name → b = 0 ∧ name = Refs.mainName := by
    intro b name hb
    rw [hnameOf] at hb
    split at hb
    · rename_i heq
      exact ⟨heq.symm, (Option.some.inj hb).symm⟩
    · cases hb
  refine ⟨hnameOf 0, fun hb => Or.inl (hzero hb).2, fun hb hb' => ?_, fun hb => ?_⟩
  · rw [(hzero hb).1, (hzero hb').1]
  · rw [(hzero hb).1, hnext]
    exact Nat.one_pos

theorem tableOk_initializeDaemon [Blake3] {timestampNs : UInt64} {fuel : Nat} {ok : Bool}
    (h : d.initializeDaemon timestampNs fuel = some (ok, d')) : d'.TableOk := by
  have hload : ∀ d₁ : Daemon, d₁.TableOk →
      (Daemon.loadPersistedBranches fuel (d₁.refs.listRefs.toOption.getD []) d₁).map
        (fun d => (true, d)) = some (ok, d') → d'.TableOk := by
    intro d₁ h₁ hl
    obtain ⟨d₂, hl₂, heq⟩ := Option.map_eq_some_iff.1 hl
    cases heq
    exact h₁.loadPersistedBranches hl₂
  unfold Daemon.initializeDaemon at h
  simp only at h
  split at h
  · generalize hd₀ : Daemon.mk _ _ _ _ _ _ _ _ = d₀ at h
    obtain ⟨hbr, -, hnext⟩ := writeInitialCommit_spec d₀ timestampNs
    have h₁ : (d₀.writeInitialCommit timestampNs).2.TableOk :=
      tableOk_of_main (hbr.trans (by rw [← hd₀])) (hnext.trans (by rw [← hd₀]))
    split at h
    · rename_i d₁ hw
      cases h
      rw [hw] at h₁
      exact h₁
    · rename_i d₁ hw
      rw [hw] at h₁
      exact hload d₁ h₁ h
  · split at h
    · cases h
    · cases h
      exact tableOk_of_main rfl rfl
    · rename_i wt hwt
      exact hload _ (TableOk.modifyTree (tableOk_of_main rfl rfl) 0 _) h

end Daemon

/-! ## Runs -/

namespace Mount

open Daemon

/-- `branch.create` takes only valid names. -/
def NamesChecked (_ : Mount) : MountEvent → Mount → Prop
  | .createBranch name _, _ => isValidBranchName name = true
  | _, _ => True

variable [Blake3]

theorem tableOk_apply {m : Mount} (h : m.daemon.TableOk) {ev : MountEvent}
    (hev : m.NamesChecked ev (m.apply ev)) : (m.apply ev).daemon.TableOk := by
  cases ev with
  | request op => exact (sameNames_request m.daemon op).tableOk h
  | release fh =>
      have hflush := (sameNames_request m.daemon (.flush fh)).tableOk h
      exact hflush.of_eq rfl (Nat.le_refl _)
  | ensurePath source path =>
      show (m.ensure source path).daemon.TableOk
      unfold ensure
      split
      · exact h
      · exact (h.modifyTree 0 _).of_eq rfl (Nat.le_refl _)
  | walk listing src =>
      show (m.walk listing src).daemon.TableOk
      unfold walk
      split
      · exact h
      · exact (h.modifyTree 0 _).of_eq rfl (Nat.le_refl _)
  | stopWalk => exact h
  | checkpoint b label order timestampNs =>
      exact (sameNames_checkpointBranch _ _ _ _ _).tableOk h
  | rollback name target fuel =>
      simp only [Mount.apply]
      split
      · exact h
      · rename_i r hr
        exact (sameNames_rollback hr).tableOk h
  | createBranch name source => exact h.createBranch source hev
  | deleteBranch name routed => exact h.deleteBranch name routed
  | merge source target args =>
      simp only [Mount.apply]
      split
      · exact h
      · rename_i r hr
        exact (sameNames_mergeBranch hr).tableOk h
  | restart sessionId timestampNs fuel =>
      show (m.restart sessionId timestampNs fuel).daemon.TableOk
      unfold restart
      split
      · rename_i d hd
        exact (tableOk_initializeDaemon hd).modifyTree 0 _
      · exact h
  | disk faults refFaults => exact h.of_eq rfl (Nat.le_refl _)

/-- Whatever happens, the table of branches is in order. -/
theorem tableOk_of_reaches {m : Mount} (h : Reaches Init (Restrict Step NamesChecked) m) :
    m.daemon.TableOk := by
  refine h.invariant (I := fun m => m.daemon.TableOk) ?_ ?_
  · rintro m ⟨d, timestampNs, fuel, d', -, hd, rfl⟩
    exact (tableOk_initializeDaemon hd).modifyTree 0 _
  · rintro m ev m' hok ⟨rfl, hev⟩
    exact tableOk_apply hok hev

end Mount
end ContextFS
