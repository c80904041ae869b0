import ContextFS.Daemon.RollsBack

/-!
# A restart brings a checkpoint back

The process may end at any moment between two operations.  What it loses is what was not committed:
the next process finds every branch whose ref can be read, and shows of it what the commit of the
ref shows.  So what was checkpointed on a branch outlives any run that leaves the branch's ref, and
the restart after it.
-/

namespace ContextFS

open Std Lib ObjectStore WorkingTree

section Recovery

/-- The ref of the branch names a commit that shows `shown`. -/
def Daemon.Saved (d : Daemon) (name : Bytes) (shown : WorkingTree) : Prop :=
  ∃ commit, d.refs.readRef name = some commit ∧ CommitShows d.store commit shown

/-- There is a branch of the name, and every such branch shows `shown`. -/
structure Daemon.Shows (d : Daemon) (name : Bytes) (shown : WorkingTree) : Prop where
  found : ∃ b br, d.branch b = some br ∧ br.name = name
  same : ∀ b br, d.branch b = some br → br.name = name → br.wt.SameLive shown

namespace Daemon

variable {d d' : Daemon} {name : Bytes} {shown : WorkingTree}

theorem Saved.of_eq (h : d.Saved name shown) (he : Extends d.store d'.store)
    (hrefs : d'.refs.readRef name = d.refs.readRef name) : d'.Saved name shown := by
  obtain ⟨commit, hcommit, hshows⟩ := h
  exact ⟨commit, hrefs.trans hcommit, hshows.mono he⟩

/-- A commit that is loaded gives what it shows, whatever fuel was enough. -/
theorem sameLive_of_rebuildBranchFromRef (h : d.Saved name shown) (fuel : Nat) :
    (∀ err, d.rebuildBranchFromRef name fuel ≠ some (.error err)) ∧
      ∀ wt, d.rebuildBranchFromRef name fuel = some (.ok wt) → wt.SameLive shown := by
  obtain ⟨commit, hcommit, -, cd, hread, hrebuild⟩ := h
  obtain ⟨n, wt', hsame, hm⟩ := hrebuild {}
  -- whatever this fuel gives, the fuel of the commit's rebuild gives too
  have hall : ∀ res, rebuildWorkingTree fuel cd.treeHash d.store {} = some res → res = .ok wt' := by
    intro res hres
    have hmore : rebuildWorkingTree (n + fuel) cd.treeHash d.store {} = some res := by
      unfold rebuildWorkingTree at hres ⊢
      cases hloop : rebuildLoop d.store fuel [(cd.treeHash, [])] ∅ with
      | none =>
          rw [hloop] at hres
          cases hres
      | some out =>
          rw [rebuildLoop_mono (Nat.le_add_left fuel n) hloop]
          rw [hloop] at hres
          exact hres
    rw [hm _ (Nat.le_add_right n fuel)] at hmore
    exact (Option.some_inj.1 hmore).symm
  have hload : d.rebuildBranchFromRef name fuel = loadCommitTree d.store fuel commit := by
    rw [rebuildBranchFromRef, hcommit]
  rw [hload]
  unfold loadCommitTree
  rw [readCommitData_eq.2 hread]
  simp only
  constructor
  · intro err herr
    split at herr
    · cases herr
    · rename_i hres
      cases hall _ hres
    · cases herr
  · intro wt hwt
    split at hwt
    · cases hwt
    · cases hwt
    · rename_i hres
      cases hwt
      cases hall _ hres
      exact hsame

/-! ## Loading the branches -/

theorem Shows.branchByName (h : d.Shows name shown) :
    ∃ b br, d.branchByName name = some (b, br) ∧ br.wt.SameLive shown := by
  obtain ⟨b, br, hbr, hname⟩ := h.found
  have hsome : (d.branchByName name).isSome = true := by
    unfold Daemon.branchByName
    rw [List.find?_isSome]
    exact ⟨(b, br), ExtTreeMap.mem_toList_iff_getElem?_eq_some.2 hbr, by simpa using hname⟩
  obtain ⟨⟨c, brc⟩, hc⟩ := Option.isSome_iff_exists.1 hsome
  obtain ⟨hbrc, hnamec⟩ := branchByName_eq_some hc
  exact ⟨c, brc, hc, h.same c brc hbrc hnamec⟩

/-- A branch that is added under another name changes nothing for this one. -/
theorem Shows.insert (h : d.Shows name shown) (hb : d.BranchBounded) {br : BranchContext}
    (hname : br.name ≠ name) (hbr : d'.branches = d.branches.insert d.nextBranchId br) :
    d'.Shows name shown where
  found := by
    obtain ⟨b, brb, hbrb, hnameb⟩ := h.found
    have hlt := hb b (hbrb ▸ Option.some_ne_none brb)
    refine ⟨b, brb, ?_, hnameb⟩
    rw [branch_insert d d.nextBranchId br b hbr, if_neg (by omega)]
    exact hbrb
  same := by
    intro b brb hbrb hnameb
    rw [branch_insert d d.nextBranchId br b hbr] at hbrb
    split at hbrb
    · cases hbrb
      exact absurd hnameb hname
    · exact h.same b brb hbrb hnameb

theorem branchByName_eq_none_iff : d.branchByName name = none ↔
    ∀ b br, d.branch b = some br → br.name ≠ name := by
  unfold Daemon.branchByName
  rw [List.find?_eq_none]
  constructor
  · intro h b br hbr
    have hne := h (b, br) (ExtTreeMap.mem_toList_iff_getElem?_eq_some.2 hbr)
    simpa using hne
  · rintro h ⟨b, br⟩ hbr
    have hne := h b br (ExtTreeMap.mem_toList_iff_getElem?_eq_some.1 hbr)
    simpa using hne

/-- Loading the rest leaves a branch that is there. -/
theorem Shows.loadPersistedBranches (h : d.Shows name shown) (hb : d.BranchBounded) {fuel : Nat}
    {names : List Bytes} (hl : Daemon.loadPersistedBranches fuel names d = some d') :
    d'.Shows name shown := by
  induction names generalizing d with
  | nil =>
      cases hl
      exact h
  | cons other names ih =>
      have hskip : ({ d with nextBranchId := d.nextBranchId + 1 } : Daemon).BranchBounded :=
        hb.of_branches rfl (Nat.le_succ _)
      have hshows : ({ d with nextBranchId := d.nextBranchId + 1 } : Daemon).Shows name shown :=
        ⟨h.found, h.same⟩
      unfold Daemon.loadPersistedBranches at hl
      split at hl
      · exact ih h hb hl
      simp only at hl
      split at hl
      · cases hl
      · exact ih hshows hskip hl
      rename_i wt _
      split at hl
      · exact ih hshows hskip hl
      · rename_i hnew
        have hne : other ≠ name := by
          rintro rfl
          obtain ⟨b, br, hfound, -⟩ := hshows.branchByName
          simp [hfound] at hnew
        exact ih (h.insert hb hne rfl) (hb.insert ⟨other, wt⟩ rfl rfl) hl

/-- A branch with a saved commit is loaded under its name. -/
theorem Saved.loadPersistedBranches (h : d.Saved name shown) (hb : d.BranchBounded)
    (hnone : d.branchByName name = none) (hmain : name ≠ Refs.mainName)
    (hvalid : isValidBranchName name = true) {fuel : Nat} {names : List Bytes}
    (hmem : name ∈ names) (hl : Daemon.loadPersistedBranches fuel names d = some d') :
    d'.Shows name shown := by
  induction names generalizing d with
  | nil => cases hmem
  | cons other names ih =>
      have hskip : ({ d with nextBranchId := d.nextBranchId + 1 } : Daemon).BranchBounded :=
        hb.of_branches rfl (Nat.le_succ _)
      have hsaved : ({ d with nextBranchId := d.nextBranchId + 1 } : Daemon).Saved name shown :=
        h.of_eq (.refl _) rfl
      have hnone' : ({ d with nextBranchId := d.nextBranchId + 1 } : Daemon).branchByName name =
          none := hnone
      unfold Daemon.loadPersistedBranches at hl
      by_cases heq : other = name
      -- the branch itself: its tree is rebuilt from the ref and shows what was saved
      · subst heq
        rw [if_neg (by simp [hmain, hvalid])] at hl
        simp only at hl
        obtain ⟨hnoerr, hsame⟩ := sameLive_of_rebuildBranchFromRef hsaved fuel
        split at hl
        · cases hl
        · rename_i hres
          exact absurd hres (hnoerr _)
        rename_i wt hres
        rw [if_neg (by simp [hnone'])] at hl
        have hshows : ({ d with
            nextBranchId := d.nextBranchId + 1
            branches := d.branches.insert d.nextBranchId ⟨other, wt⟩ } : Daemon).Shows other
              shown := by
          have hget : ∀ c, ({ d with
              nextBranchId := d.nextBranchId + 1
              branches := d.branches.insert d.nextBranchId ⟨other, wt⟩ } : Daemon).branch c =
                if d.nextBranchId = c then some ⟨other, wt⟩ else d.branch c :=
            fun c => branch_insert d d.nextBranchId ⟨other, wt⟩ c rfl
          constructor
          · exact ⟨d.nextBranchId, ⟨other, wt⟩, (hget d.nextBranchId).trans (if_pos rfl), rfl⟩
          · intro b br hbr hname
            rw [hget b] at hbr
            split at hbr
            · cases hbr
              exact hsame wt hres
            · exact absurd hname (branchByName_eq_none_iff.1 hnone b br hbr)
        exact hshows.loadPersistedBranches (hb.insert ⟨other, wt⟩ rfl rfl) hl
      -- another branch, loaded or skipped
      · have hmem' : name ∈ names := by
          rcases List.mem_cons.1 hmem with rfl | hin
          · exact absurd rfl heq
          · exact hin
        split at hl
        · exact ih h hb hnone hmem' hl
        simp only at hl
        split at hl
        · cases hl
        · exact ih hsaved hskip hnone' hmem' hl
        rename_i wt _
        split at hl
        · exact ih hsaved hskip hnone' hmem' hl
        · have hsaved' : ({ d with
              nextBranchId := d.nextBranchId + 1
              branches := d.branches.insert d.nextBranchId ⟨other, wt⟩ } : Daemon).Saved name
                shown := h.of_eq (.refl _) rfl
          refine ih hsaved' (hb.insert ⟨other, wt⟩ rfl rfl) ?_ hmem' hl
          rw [branchByName_eq_none_iff] at hnone ⊢
          intro b br hbr
          rw [branch_insert d d.nextBranchId ⟨other, wt⟩ b rfl] at hbr
          split at hbr
          · cases hbr
            exact heq
          · exact hnone b br hbr

variable [Blake3]

/-- The first half of `initialize` leaves the refs of the other branches and the errors of their
enumeration. -/
theorem writeInitialCommit_refs (d : Daemon) (timestampNs : UInt64) :
    (d.writeInitialCommit timestampNs).2.refs.listError = d.refs.listError ∧
      ∀ name, name ≠ Refs.mainName →
        (d.writeInitialCommit timestampNs).2.refs.readRef name = d.refs.readRef name := by
  unfold writeInitialCommit
  simp only
  split
  · exact ⟨rfl, fun _ _ => rfl⟩
  split
  · exact ⟨rfl, fun _ _ => rfl⟩
  split
  · exact ⟨rfl, fun _ _ => rfl⟩
  split
  · exact ⟨rfl, fun _ _ => rfl⟩
  exact ⟨Refs.listError_writeRef _ _ _, fun _ hne => readRef_writeRef_of_ne _ _ hne⟩

theorem writeInitialCommit_none (d : Daemon) (timestampNs : UInt64) {name : Bytes}
    (h : d.branchByName name = none) :
    (d.writeInitialCommit timestampNs).2.branchByName name = none := by
  unfold Daemon.branchByName
  rw [(writeInitialCommit_spec d timestampNs).1]
  exact h

/-- A daemon that has no branch but `main`. -/
def MainOnly (d : Daemon) (wt : WorkingTree) : Prop :=
  ∀ c, d.branch c = if 0 = c then some ⟨Refs.mainName, wt⟩ else none

section MainOnly

variable {d : Daemon} {wt : WorkingTree} {name : Bytes}

omit [Blake3] in
theorem MainOnly.branchByName_eq_none (h : d.MainOnly wt) (hne : name ≠ Refs.mainName) :
    d.branchByName name = none := by
  rw [branchByName_eq_none_iff]
  intro b br hbr
  rw [h] at hbr
  split at hbr
  · cases hbr
    exact Ne.symm hne
  · cases hbr

omit [Blake3] in
theorem MainOnly.setTree (h : d.MainOnly wt) (wt' : WorkingTree) :
    (d.modifyTree 0 fun _ => wt').MainOnly wt' := by
  intro c
  have hzero : d.branches[0]? = some ⟨Refs.mainName, wt⟩ := h 0
  simp only [modifyTree, hzero, branch, ExtTreeMap.getElem?_insert, Std.compare_eq_iff_eq]
  split
  · rfl
  · rename_i hc
    exact (h c).trans (if_neg hc)

omit [Blake3] in
theorem MainOnly.shows (h : d.MainOnly wt) {shown : WorkingTree} (hsame : wt.SameLive shown) :
    d.Shows Refs.mainName shown := by
  refine ⟨⟨0, _, (h 0).trans (if_pos rfl), rfl⟩, fun b br hbr _ => ?_⟩
  rw [h] at hbr
  split at hbr
  · cases hbr
    exact hsame
  · cases hbr

end MainOnly

omit [Blake3] in
/-- Every ref is found when the directory can be listed. -/
theorem mem_listRefs_of_readRef {refs : Refs} (hlist : refs.listError = none) {name : Bytes}
    (hread : refs.readRef name ≠ none) : name ∈ refs.listRefs.toOption.getD [] := by
  have hfile : refs.files[name]? ≠ none := by
    intro hfile
    unfold Refs.readRef at hread
    rw [hfile] at hread
    exact hread rfl
  simp only [Refs.listRefs, hlist, Except.toOption, Option.getD_some, ExtTreeMap.mem_keys,
    ExtTreeMap.mem_iff_isSome_getElem?]
  exact Option.isSome_iff_ne_none.2 hfile

omit [Blake3] in
/-- The end of `initialize`: the branches are loaded into a daemon that has `main`. -/
theorem Saved.loadListed {d d' : Daemon} {name : Bytes} {shown : WorkingTree}
    (h : d.Saved name shown) (hlist : d.refs.listError = none)
    (hname : name = Refs.mainName ∨ isValidBranchName name = true) (hb : d.BranchBounded)
    (hmain : name = Refs.mainName ∧ d.Shows name shown ∨
      name ≠ Refs.mainName ∧ d.branchByName name = none) {fuel : Nat}
    (hl : (Daemon.loadPersistedBranches fuel (d.refs.listRefs.toOption.getD []) d).map
      (fun d => (true, d)) = some (true, d')) : d'.Shows name shown := by
  obtain ⟨d₂, hl₂, heq⟩ := Option.map_eq_some_iff.1 hl
  cases heq
  rcases hmain with ⟨-, hshows⟩ | ⟨hne, hnone⟩
  · exact hshows.loadPersistedBranches hb hl₂
  · have hread : d.refs.readRef name ≠ none := by
      obtain ⟨commit, hcommit, -⟩ := h
      exact hcommit ▸ Option.some_ne_none commit
    exact h.loadPersistedBranches hb hnone hne (hname.resolve_left hne)
      (mem_listRefs_of_readRef hlist hread) hl₂

/-- A start that succeeds brings back every branch whose commit can be read. -/
theorem Saved.initializeDaemon {d d' : Daemon} {name : Bytes} {shown : WorkingTree}
    (h : d.Saved name shown) (hlist : d.refs.listError = none)
    (hname : name = Refs.mainName ∨ isValidBranchName name = true) {timestampNs : UInt64}
    {fuel : Nat} (hi : d.initializeDaemon timestampNs fuel = some (true, d')) :
    d'.Shows name shown := by
  generalize hd₀ : ({
    store := { d.store with pending := ∅, lastError := "" }
    refs := d.refs
    branches := (∅ : ExtTreeMap Nat BranchContext).insert 0 ⟨Refs.mainName, {}⟩
    sessionId := d.sessionId
    policyVersion := d.policyVersion } : Daemon) = d₀
  have hsaved : d₀.Saved name shown := by
    rw [← hd₀]
    exact h.of_eq (.of_objects_eq rfl rfl) rfl
  have honly : d₀.MainOnly {} := by
    intro c
    rw [← hd₀, branch, ExtTreeMap.getElem?_insert]
    simp
  have hb : d₀.BranchBounded := by
    intro c hc
    rw [honly] at hc
    split at hc
    · rw [← hd₀]
      simp only
      omega
    · exact absurd rfl hc
  have hrefs₀ : d.refs = d₀.refs := by rw [← hd₀]
  have hlist₀ : d₀.refs.listError = none := hrefs₀ ▸ hlist
  unfold Daemon.initializeDaemon at hi
  rw [hd₀] at hi
  simp only at hi
  split at hi
  · rename_i hread
    -- a new `main` is written, so the branch is another one
    have hne : name ≠ Refs.mainName := by
      rintro rfl
      obtain ⟨commit, hcommit, -⟩ := h
      rw [hrefs₀] at hcommit
      rw [hcommit] at hread
      cases hread
    obtain ⟨hbr, -, hnext⟩ := writeInitialCommit_spec d₀ timestampNs
    obtain ⟨hlist₁, hrefs₁⟩ := writeInitialCommit_refs d₀ timestampNs
    have hsaved₁ := hsaved.of_eq (extends_writeInitialCommit d₀ timestampNs) (hrefs₁ name hne)
    have hb₁ : (d₀.writeInitialCommit timestampNs).2.BranchBounded :=
      hb.of_branches hbr (Nat.le_of_eq hnext.symm)
    have hnone₁ := writeInitialCommit_none d₀ timestampNs (honly.branchByName_eq_none hne)
    split at hi
    · cases hi
    · rename_i d₁ hw
      rw [hw] at hb₁ hsaved₁ hlist₁ hnone₁
      exact hsaved₁.loadListed (hlist₁.trans hlist₀) hname hb₁ (Or.inr ⟨hne, hnone₁⟩) hi
  -- `main` is rebuilt from its ref
  · split at hi
    · cases hi
    · cases hi
    · rename_i wt hwt
      have hb₁ : (d₀.modifyTree 0 fun _ => wt).BranchBounded := by
        intro c hc
        rw [Ne, branch_modifyTree_eq_none] at hc
        have hlt := hb c hc
        rwa [modifyTree_nextBranchId]
      have hsaved₁ : (d₀.modifyTree 0 fun _ => wt).Saved name shown :=
        hsaved.of_eq (by rw [modifyTree_store]) (by rw [modifyTree_refs])
      have honly₁ := honly.setTree wt
      refine hsaved₁.loadListed (by rw [modifyTree_refs]; exact hlist₀) hname hb₁ ?_ hi
      by_cases hmain : name = Refs.mainName
      · subst hmain
        exact Or.inl ⟨rfl, honly₁.shows ((sameLive_of_rebuildBranchFromRef hsaved fuel).2 wt hwt)⟩
      · exact Or.inr ⟨hmain, honly₁.branchByName_eq_none hmain⟩

end Daemon

/-! ## Runs that leave the ref -/

namespace Mount

open Daemon

variable [Blake3] {name : Bytes} {shown : WorkingTree}

/-- The event does not move the ref of the branch. -/
def Spares (name : Bytes) (m : Mount) : MountEvent → Mount → Prop
  | .checkpoint b _ _ _, _ => ∀ br, m.daemon.branch b = some br → br.name ≠ name
  | .rollback other _ _, _ | .createBranch other _, _ | .deleteBranch other _, _ => other ≠ name
  | .merge source target _, _ => source ≠ name ∧ target ≠ name
  | _, _ => True

theorem refs_request (d : Daemon) (op : FuseOp) : ((op.start d).run d).2.refs = d.refs :=
  (op.onlyTree d (b := (op.lock d).getD 0) fun b hb => by rw [hb]; rfl).refs_eq

omit [Blake3] in
theorem readRef_rollback {d : Daemon} {other : Bytes} {target : Hash} {fuel : Nat}
    {r : CommitResult × Daemon} (h : d.rollbackBranchToCommit other target fuel = some r)
    (hne : name ≠ other) : r.2.refs.readRef name = d.refs.readRef name := by
  rcases rollbackBranchToCommit_cases h with ⟨-, -, -, -, hrefs, -⟩ | ⟨b, br, o, -, ho, -, rfl⟩
  · rw [hrefs]
  · rcases rollbackLocked_cases ho with ⟨-, -, hrefs, -⟩ | ⟨cd, -, -, -, -, hrefs, -⟩
    · simp only [hrefs]
    · simp only [hrefs]
      exact readRef_writeRef_of_ne _ _ hne

omit [Blake3] in
theorem readRef_createBranch (d : Daemon) {other : Bytes} (source : Bytes) (hne : name ≠ other) :
    (d.createBranch other source).2.refs.readRef name = d.refs.readRef name := by
  unfold createBranch
  split
  · rfl
  split
  · rfl
  simp only
  split
  · rfl
  · rename_i commit _
    have hother := readRef_writeRef_of_ne d.refs commit hne
    split
    · rename_i refs hw
      rw [hw] at hother
      exact hother
    · rename_i refs hw
      rw [hw] at hother
      exact hother

omit [Blake3] in
theorem readRef_removeRef_of_ne (refs : Refs) {other : Bytes} (hne : name ≠ other) :
    (refs.removeRef other).2.readRef name = refs.readRef name := by
  have hfiles := Refs.nextFault_files refs
  have herase : ∀ r : Refs, r.files = refs.files →
      ({ r with files := r.files.erase other } : Refs).readRef name = refs.readRef name := by
    intro r hr
    unfold Refs.readRef
    rw [ExtTreeMap.getElem?_erase, if_neg (by simpa using Ne.symm hne), hr]
  have hsame : ∀ r : Refs, r.files = refs.files → r.readRef name = refs.readRef name := by
    intro r hr
    unfold Refs.readRef
    rw [hr]
  unfold Refs.removeRef
  split
  · rfl
  split <;> rename_i r hfault <;> rw [hfault] at hfiles
  · exact hsame r hfiles
  · exact herase r hfiles
  · split
    · exact herase r hfiles
    · exact hsame r hfiles

omit [Blake3] in
theorem readRef_deleteBranch (d : Daemon) {other : Bytes} (routed : Bool) (hne : name ≠ other) :
    (d.deleteBranch other routed).2.refs.readRef name = d.refs.readRef name := by
  have hother := readRef_removeRef_of_ne d.refs hne
  unfold deleteBranch
  split
  · rfl
  split
  · rfl
  split
  · rfl
  split
  · rename_i refs hw
    rw [hw] at hother
    exact hother
  · rename_i refs hw
    rw [hw] at hother
    exact hother

theorem readRef_mergeBranch {d : Daemon} {source target : Bytes} {args : MergeArgs}
    {r : BranchMergeResult × Daemon} (h : d.mergeBranch source target args = some r)
    (hsource : name ≠ source) (htarget : name ≠ target) :
    r.2.refs.readRef name = d.refs.readRef name := by
  have hcheckpoint : ∀ {d : Daemon} {b : Nat} {br : BranchContext} {label : Bytes}
      {order : List Nat} {timestampNs : UInt64}, d.branch b = some br → br.name ≠ name →
      (d.checkpointBranch b label order timestampNs).2.refs.readRef name = d.refs.readRef name :=
    fun hbr hne => (checkpointBranch_spec hbr _ _ _).refs name (Ne.symm hne)
  have hsecond : ∀ {d : Daemon} {b : Nat} {br : BranchContext} {label : Bytes}
      {order : List Nat} {timestampNs : UInt64} {c : Nat} {brc : BranchContext},
      d.branch b = some br → br.name ≠ name → d.branch c = some brc → brc.name ≠ name → b ≠ c →
      ∀ {label' : Bytes} {order' : List Nat} {timestampNs' : UInt64},
        ((d.checkpointBranch b label order timestampNs).2.checkpointBranch c label' order'
          timestampNs').2.refs.readRef name = d.refs.readRef name := by
    intro d b br label order timestampNs c brc hbr hne hbrc hnec hbc label' order' timestampNs'
    have hbrc' := (checkpointBranch_spec hbr label order timestampNs).branches c (Ne.symm hbc)
    rw [hcheckpoint (hbrc'.trans hbrc) hnec]
    exact hcheckpoint hbr hne
  cases mergeBranch_outcome h with
  | refused r hr => rfl
  | sourceFailed r hs ht hne hcp hr =>
      obtain ⟨hbr, hname⟩ := branchByName_eq_some hs
      subst hcp
      exact hcheckpoint hbr (hname ▸ Ne.symm hsource)
  | targetFailed r hs ht hne hcp hok hcp' hr =>
      obtain ⟨hbr, hname⟩ := branchByName_eq_some hs
      obtain ⟨hbrt, hnamet⟩ := branchByName_eq_some ht
      subst hcp hcp'
      exact hsecond hbr (hname ▸ Ne.symm hsource) hbrt (hnamet ▸ Ne.symm htarget) hne
  | merged hs ht hne hcp hok hcp' hok' hr =>
      obtain ⟨hbr, hname⟩ := branchByName_eq_some hs
      obtain ⟨hbrt, hnamet⟩ := branchByName_eq_some ht
      subst hcp hcp'
      rw [mergeCommits_refs hr name (hnamet ▸ htarget)]
      exact hsecond hbr (hname ▸ Ne.symm hsource) hbrt (hnamet ▸ Ne.symm htarget) hne

/-- A start writes at most the ref of `main`, and only when that cannot be read. -/
theorem readRef_initializeDaemon (name : Bytes) {d d' : Daemon} {timestampNs : UInt64} {fuel : Nat}
    {ok : Bool}
    (h : d.initializeDaemon timestampNs fuel = some (ok, d'))
    (hmain : name = Refs.mainName → d.refs.readRef name ≠ none) :
    d'.refs.readRef name = d.refs.readRef name := by
  have hload : ∀ {d₀ : Daemon} {names : List Bytes}, d₀.refs.readRef name = d.refs.readRef name →
      (loadPersistedBranches fuel names d₀).map (fun d => (true, d)) = some (ok, d') →
      d'.refs.readRef name = d.refs.readRef name := by
    intro d₀ names hrefs hl
    obtain ⟨d₁, hd₁, heq⟩ := Option.map_eq_some_iff.1 hl
    cases heq
    rw [(loadPersistedBranches_kept hd₁).2]
    exact hrefs
  unfold initializeDaemon at h
  simp only at h
  split at h
  · rename_i hread
    have hne : name ≠ Refs.mainName := by
      rintro rfl
      exact hmain rfl hread
    split at h
    · rename_i d₁ hw
      have hrefs := (writeInitialCommit_refs {
        store := { d.store with pending := ∅, lastError := "" }
        refs := d.refs
        branches := (∅ : ExtTreeMap Nat BranchContext).insert 0 ⟨Refs.mainName, {}⟩
        sessionId := d.sessionId
        policyVersion := d.policyVersion } timestampNs).2 name hne
      rw [hw] at hrefs
      cases h
      exact hrefs
    · rename_i d₁ hw
      have hrefs := (writeInitialCommit_refs {
        store := { d.store with pending := ∅, lastError := "" }
        refs := d.refs
        branches := (∅ : ExtTreeMap Nat BranchContext).insert 0 ⟨Refs.mainName, {}⟩
        sessionId := d.sessionId
        policyVersion := d.policyVersion } timestampNs).2 name hne
      rw [hw] at hrefs
      exact hload hrefs h
  · split at h
    · cases h
    · cases h
      rfl
    · refine hload ?_ h
      rw [modifyTree_refs]

theorem saved_apply {m : Mount} {ev : MountEvent} (h : m.daemon.Saved name shown)
    (hev : m.Spares name ev (m.apply ev)) : (m.apply ev).daemon.Saved name shown := by
  refine h.of_eq (m.extends_apply ev) ?_
  cases ev with
  | request op => exact congrArg (·.readRef name) (refs_request m.daemon op)
  | release fh => exact congrArg (·.readRef name) (refs_request m.daemon (.flush fh))
  | ensurePath source path =>
      show (m.ensure source path).daemon.refs.readRef name = _
      unfold ensure
      split
      · rfl
      · simp [setMain]
  | walk listing src =>
      show (m.walk listing src).daemon.refs.readRef name = _
      unfold walk
      split
      · rfl
      · simp [setMain]
  | stopWalk => rfl
  | checkpoint b label order timestampNs =>
      simp only [Mount.apply]
      cases hbr : m.daemon.branch b with
      | none => rw [checkpointBranch_of_none hbr]
      | some br =>
          exact (checkpointBranch_spec hbr label order timestampNs).refs name (Ne.symm (hev br hbr))
  | rollback other target fuel =>
      simp only [Mount.apply]
      split
      · rfl
      · rename_i r hr
        exact readRef_rollback hr (Ne.symm hev)
  | createBranch other source => exact readRef_createBranch m.daemon source (Ne.symm hev)
  | deleteBranch other routed => exact readRef_deleteBranch m.daemon routed (Ne.symm hev)
  | merge source target args =>
      simp only [Mount.apply]
      split
      · rfl
      · rename_i r hr
        exact readRef_mergeBranch hr (Ne.symm hev.1) (Ne.symm hev.2)
  | restart sessionId timestampNs fuel =>
      obtain ⟨commit, hcommit, -⟩ := h
      show (m.restart sessionId timestampNs fuel).daemon.refs.readRef name = _
      unfold restart
      split
      · rename_i d hd
        have hrefs := readRef_initializeDaemon name hd
          fun _ => hcommit ▸ Option.some_ne_none commit
        rw [modifyTree_refs]
        exact hrefs
      · rfl
  | disk faults refFaults => rfl

/-- A restart that succeeds shows of a saved branch what its commit shows. -/
theorem shows_restart {m : Mount} (h : m.daemon.Saved name shown)
    (hlist : m.daemon.refs.listError = none)
    (hname : name = Refs.mainName ∨ isValidBranchName name = true) {sessionId timestampNs : UInt64}
    {fuel : Nat} {d : Daemon}
    (hi : ({ m.daemon with sessionId := sessionId, policyVersion := 1 } : Daemon).initializeDaemon
      timestampNs fuel = some (true, d)) :
    (m.apply (.restart sessionId timestampNs fuel)).daemon.Shows name shown := by
  have hsaved : ({ m.daemon with sessionId := sessionId, policyVersion := 1 } : Daemon).Saved name
      shown := h.of_eq (.refl _) rfl
  have hshows := hsaved.initializeDaemon hlist hname hi
  show (m.restart sessionId timestampNs fuel).daemon.Shows name shown
  unfold restart
  rw [hi]
  -- the new walk changes nothing that is live
  have hbranch : ∀ b br, (d.modifyTree 0 WorkingTree.beginSourceWalk).branch b = some br →
      ∃ br', d.branch b = some br' ∧ br.name = br'.name ∧ br.wt.SameLive br'.wt := by
    intro b br hbr
    unfold modifyTree at hbr
    split at hbr
    · exact ⟨br, hbr, rfl, .refl _⟩
    · rename_i br₀ hbr₀
      unfold branch at hbr
      rw [ExtTreeMap.getElem?_insert] at hbr
      split at hbr
      · rename_i hb
        rw [Std.compare_eq_iff_eq] at hb
        subst hb
        cases hbr
        refine ⟨br₀, hbr₀, rfl, fun p => ?_⟩
        rw [lookup_congr (lookupRaw_beginSourceWalk br₀.wt p)]
        exact SameLive.refl br₀.wt p
      · exact ⟨br, hbr, rfl, .refl _⟩
  constructor
  · obtain ⟨b, br, hbr, hname⟩ := hshows.found
    have hne : (d.modifyTree 0 WorkingTree.beginSourceWalk).branch b ≠ none := by
      rw [Ne, branch_modifyTree_eq_none, hbr]
      exact Option.some_ne_none br
    obtain ⟨br', hbr'⟩ := Option.ne_none_iff_exists'.1 hne
    obtain ⟨br'', hbr'', hnames, -⟩ := hbranch b br' hbr'
    rw [hbr, Option.some.injEq] at hbr''
    exact ⟨b, br', hbr', by rw [hnames, ← hbr'', hname]⟩
  · intro b br hbr hbrname
    obtain ⟨br', hbr', hnames, hlive⟩ := hbranch b br hbr
    exact hlive.trans (hshows.same b br' hbr' (hnames.symm.trans hbrname))

/-- A checkpoint that succeeds moves the ref of its branch to its commit. -/
theorem readRef_checkpointBranch {d : Daemon} {b : Nat} {br : BranchContext} {label : Bytes}
    {order : List Nat} {timestampNs : UInt64} (hbr : d.branch b = some br)
    (hok : (d.checkpointBranch b label order timestampNs).1.ok = true) :
    (d.checkpointBranch b label order timestampNs).2.refs.readRef br.name =
      some (d.checkpointBranch b label order timestampNs).1.commit := by
  rw [checkpointBranch_eq hbr] at hok ⊢
  obtain ⟨commit, -, hres, -, hwrite⟩ := checkpointLocked_ok hok
  rw [hres]
  have hwritten : (d.refs.writeRef br.name commit).1 = true := by rw [hwrite]
  have hread := Refs.readRef_writeRef_of_ok hwritten br.name
  rw [hwrite, if_pos rfl] at hread
  exact hread

end Mount

end Recovery

section Example

attribute [local instance] mountDigest

end Example

end ContextFS
