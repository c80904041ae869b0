import ContextFS.Daemon.HandleStep
import ContextFS.Daemon.Mount

/-!
# Which branches there are

Branch ids are given out once.  Only a fork adds a branch and only a deletion removes one; the
other operations replace the state of a branch.
-/

namespace ContextFS

open Std Lib ObjectStore WorkingTree

namespace Daemon

/-- What `create_branch` carries from the clone to the publication. -/
structure NewBranch where
  branchId : Nat
  name : Bytes
  wt : WorkingTree
  commit : Hash

/-- `create_branch` up to the clone of the source.  The counter is an `atomic<uint32_t>`: after its
last value it starts again at 0. -/
def beginCreate (d : Daemon) (name source : Bytes) : Option NewBranch × Daemon :=
  if (d.branchByName name).isSome then (none, d)
  else
    match d.branchByName source with
    | none => (none, d)
    | some (_, br) =>
        let id := d.nextBranchId
        let d := { d with nextBranchId := (id + 1) % 2 ^ 32 }
        match d.refs.readRef source with
        | none => (none, d)
        | some commit => (some ⟨id, name, br.wt.clone, commit⟩, d)

/-- `create_branch` from the write of the new ref on. -/
def endCreate (d : Daemon) (new : NewBranch) : Option Nat × Daemon :=
  match d.refs.writeRef new.name new.commit with
  | (false, refs) => (none, { d with refs := refs })
  | (true, refs) =>
      if (d.branchByName new.name).isSome then (none, { d with refs := refs })
      else
        (some new.branchId, {
          d with
          refs := refs
          branches := d.branches.insert new.branchId ⟨new.name, new.wt⟩ })

/-- The two halves of a fork, one after the other, are `create_branch`, as long as the counter of
branch ids does not wrap. -/
theorem createBranch_eq (d : Daemon) (name source : Bytes) (hid : d.nextBranchId + 1 < 2 ^ 32) :
    d.createBranch name source =
      match d.beginCreate name source with
      | (none, d) => (none, d)
      | (some new, d) => d.endCreate new := by
  unfold createBranch beginCreate
  simp only [Nat.mod_eq_of_lt hid]
  by_cases hname : (d.branchByName name).isSome = true
  · simp only [hname, if_true]
  simp only [if_neg hname]
  cases d.branchByName source with
  | none => rfl
  | some b =>
      cases hc : d.refs.readRef source with
      | none => rfl
      | some commit =>
          unfold endCreate
          rcases hw : d.refs.writeRef name commit with ⟨written, refs⟩
          cases written with
          | false => simp only [hw]
          | true =>
              simp only [hw]
              exact (if_neg hname).symm

@[simp] theorem modifyTree_nextBranchId (d : Daemon) (b : Nat) (f : WorkingTree → WorkingTree) :
    (d.modifyTree b f).nextBranchId = d.nextBranchId := by
  unfold modifyTree
  split <;> rfl

theorem branch_insert (d : Daemon) (b : Nat) (br : BranchContext) (c : Nat) {d' : Daemon}
    (h : d'.branches = d.branches.insert b br) :
    d'.branch c = if b = c then some br else d.branch c := by
  unfold branch
  rw [h, ExtTreeMap.getElem?_insert]
  by_cases hc : b = c
  · simp [hc]
  · simp [hc]

/-- Every branch id was given out. -/
def BranchBounded (d : Daemon) : Prop := ∀ c, d.branch c ≠ none → c < d.nextBranchId

theorem BranchBounded.insert {d d' : Daemon} (h : d.BranchBounded) (br : BranchContext)
    (hbr : d'.branches = d.branches.insert d.nextBranchId br)
    (hnext : d'.nextBranchId = d.nextBranchId + 1) : d'.BranchBounded := by
  intro c hc
  rw [branch_insert d d.nextBranchId br c hbr] at hc
  split at hc
  · omega
  · have := h c hc
    omega

theorem BranchBounded.of_branches {d d' : Daemon} (h : d.BranchBounded)
    (hbr : d'.branches = d.branches) (hnext : d.nextBranchId ≤ d'.nextBranchId) :
    d'.BranchBounded := by
  intro c hc
  have := h c (by simpa [branch, hbr] using hc)
  omega

/-- The branches read at start have new ids, and no handle is opened. -/
theorem loadPersistedBranches_spec {fuel : Nat} {names : List Bytes} {d d' : Daemon}
    (h : loadPersistedBranches fuel names d = some d') (hb : d.BranchBounded) :
    d'.BranchBounded ∧ d'.fhTable = d.fhTable := by
  induction names generalizing d with
  | nil =>
      cases h
      exact ⟨hb, rfl⟩
  | cons name names ih =>
      unfold loadPersistedBranches at h
      have hskip : ({ d with nextBranchId := d.nextBranchId + 1 } : Daemon).BranchBounded :=
        hb.of_branches rfl (Nat.le_succ _)
      split at h
      · exact ih h hb
      simp only at h
      split at h
      · cases h
      · obtain ⟨hb', hfh⟩ := ih h hskip
        exact ⟨hb', hfh⟩
      rename_i wt _
      split at h
      · obtain ⟨hb', hfh⟩ := ih h hskip
        exact ⟨hb', hfh⟩
      · obtain ⟨hb', hfh⟩ := ih h (hb.insert ⟨name, wt⟩ rfl rfl)
        exact ⟨hb', hfh⟩

section Start

variable [Blake3]

theorem writeInitialCommit_spec (d : Daemon) (timestampNs : UInt64) :
    (d.writeInitialCommit timestampNs).2.branches = d.branches ∧
      (d.writeInitialCommit timestampNs).2.fhTable = d.fhTable ∧
      (d.writeInitialCommit timestampNs).2.nextBranchId = d.nextBranchId := by
  unfold writeInitialCommit
  simp only
  repeat' split
  all_goals exact ⟨rfl, rfl, rfl⟩

/-- A daemon that has just started has no open handle. -/
theorem initializeDaemon_spec {d d' : Daemon} {timestampNs : UInt64} {fuel : Nat} {ok : Bool}
    (h : d.initializeDaemon timestampNs fuel = some (ok, d')) :
    d'.BranchBounded ∧ d'.fhTable = ∅ := by
  have hmain : ∀ d₀ : Daemon,
      d₀.branches = (∅ : ExtTreeMap Nat BranchContext).insert 0 ⟨Refs.mainName, {}⟩ →
        d₀.nextBranchId = 1 → d₀.BranchBounded := by
    intro d₀ hbr hnext c hc
    unfold branch at hc
    rw [hbr, ExtTreeMap.getElem?_insert] at hc
    by_cases h0 : 0 = c
    · omega
    · simp [h0] at hc
  have hload : ∀ d₁ : Daemon, d₁.BranchBounded → d₁.fhTable = ∅ →
      (loadPersistedBranches fuel (d₁.refs.listRefs.toOption.getD []) d₁).map
        (fun d => (true, d)) = some (ok, d') → d'.BranchBounded ∧ d'.fhTable = ∅ := by
    intro d₁ hb hfh hl
    obtain ⟨d₂, hl₂, heq⟩ := Option.map_eq_some_iff.1 hl
    cases heq
    obtain ⟨hb', hfh'⟩ := loadPersistedBranches_spec hl₂ hb
    exact ⟨hb', hfh'.trans hfh⟩
  unfold initializeDaemon at h
  simp only at h
  split at h
  · rename_i hread
    generalize hd₀ : Daemon.mk _ _ _ _ _ _ _ _ = d₀ at h
    obtain ⟨hbr, hfh, hnext⟩ := writeInitialCommit_spec d₀ timestampNs
    have hb : d₀.BranchBounded := hmain d₀ (by rw [← hd₀]) (by rw [← hd₀])
    have hb' : (d₀.writeInitialCommit timestampNs).2.BranchBounded :=
      hb.of_branches hbr (Nat.le_of_eq hnext.symm)
    have hfh' : (d₀.writeInitialCommit timestampNs).2.fhTable = ∅ := by rw [hfh, ← hd₀]
    split at h
    · rename_i d₁ hw
      cases h
      rw [hw] at hb' hfh'
      exact ⟨hb', hfh'⟩
    · rename_i d₁ hw
      rw [hw] at hb' hfh'
      exact hload d₁ hb' hfh' h
  · split at h
    · cases h
    · cases h
      exact ⟨hmain _ rfl rfl, rfl⟩
    · rename_i wt _
      refine hload _ ?_ ?_ h
      · intro c hc
        rw [Ne, branch_modifyTree_eq_none] at hc
        have hlt := hmain _ rfl rfl c hc
        simpa [modifyTree_nextBranchId] using hlt
      · rw [modifyTree_fhTable]

end Start

theorem endCreate_cases (d : Daemon) (new : NewBranch) :
    (∃ refs, d.endCreate new = (none, { d with refs := refs })) ∨
      ∃ refs, d.endCreate new = (some new.branchId, {
        d with
        refs := refs
        branches := d.branches.insert new.branchId ⟨new.name, new.wt⟩ }) := by
  unfold endCreate
  split
  · rename_i refs _
    exact Or.inl ⟨refs, rfl⟩
  · rename_i refs _
    split
    · exact Or.inl ⟨refs, rfl⟩
    · exact Or.inr ⟨refs, rfl⟩

theorem beginCreate_cases (d : Daemon) (name source : Bytes) (hid : d.nextBranchId + 1 < 2 ^ 32) :
    (∃ next, d.nextBranchId ≤ next ∧
      d.beginCreate name source = (none, { d with nextBranchId := next })) ∨
      ∃ new, new.branchId = d.nextBranchId ∧ d.beginCreate name source =
        (some new, { d with nextBranchId := d.nextBranchId + 1 }) := by
  unfold beginCreate
  simp only [Nat.mod_eq_of_lt hid]
  split
  · exact Or.inl ⟨d.nextBranchId, Nat.le_refl _, rfl⟩
  split
  · exact Or.inl ⟨d.nextBranchId, Nat.le_refl _, rfl⟩
  split
  · exact Or.inl ⟨d.nextBranchId + 1, Nat.le_succ _, rfl⟩
  · exact Or.inr ⟨_, rfl, rfl⟩

/-- An operation that neither adds nor removes a branch. -/
structure BranchesKept (d d' : Daemon) : Prop where
  branches : ∀ c, d'.branch c = none ↔ d.branch c = none
  next_eq : d'.nextBranchId = d.nextBranchId

namespace BranchesKept

theorem refl (d : Daemon) : BranchesKept d d := ⟨fun _ => Iff.rfl, rfl⟩

theorem trans {d d' d'' : Daemon} (h : BranchesKept d d') (h' : BranchesKept d' d'') :
    BranchesKept d d'' :=
  ⟨fun c => (h'.branches c).trans (h.branches c), h'.next_eq.trans h.next_eq⟩

theorem of_eq {d d' : Daemon} (hbr : d'.branches = d.branches)
    (hnext : d'.nextBranchId = d.nextBranchId) : BranchesKept d d' :=
  ⟨fun c => by rw [branch, branch, hbr], hnext⟩

/-- A branch replaced by another state of it. -/
theorem insert {d d' : Daemon} {b : Nat} {br br' : BranchContext} (hbr : d.branch b = some br)
    (h : d'.branches = d.branches.insert b br') (hnext : d'.nextBranchId = d.nextBranchId) :
    BranchesKept d d' := by
  refine ⟨fun c => ?_, hnext⟩
  rw [branch_insert d b br' c h]
  split
  · rename_i hc
    simp [← hc, hbr]
  · rfl

end BranchesKept

theorem branchesKept_checkpointBranch [Blake3] (d : Daemon) (b : Nat) (label : Bytes)
    (order : List Nat) (timestampNs : UInt64) :
    BranchesKept d (d.checkpointBranch b label order timestampNs).2 := by
  cases hbr : d.branch b with
  | none =>
      rw [checkpointBranch_of_none hbr]
      exact .refl d
  | some br =>
      rw [checkpointBranch_eq hbr]
      exact .insert hbr rfl rfl

theorem branchesKept_rollback {d : Daemon} {name : Bytes} {target : Hash} {fuel : Nat}
    {r : CommitResult × Daemon} (h : d.rollbackBranchToCommit name target fuel = some r) :
    BranchesKept d r.2 ∧ (r.1.ok = true → ∃ b br, d.branchByName name = some (b, br) ∧
      r.2.fhTable = invalidateFhs b d.fhTable) := by
  have hnext : r.2.nextBranchId = d.nextBranchId := by
    unfold rollbackBranchToCommit at h
    split at h
    · cases h
      rfl
    · split at h
      · cases h
      · cases h
        rfl
  rcases rollbackBranchToCommit_cases h with ⟨hfail, hbr, -⟩ | ⟨b, br, o, hname, -, -, rfl⟩
  · exact ⟨.of_eq hbr hnext, fun hok => by simp [hfail] at hok⟩
  · exact ⟨.insert (branchByName_eq_some hname).1 rfl rfl, fun _ => ⟨b, br, hname, rfl⟩⟩

section Merge

variable [Blake3]

theorem branchesKept_mergeCommits {d : Daemon} {sourceName : Bytes} {target : Nat}
    {targetBr : BranchContext} {sourceCp targetCp : Hash} {args : MergeArgs}
    {r : BranchMergeResult × Daemon} (hbr : d.branch target ≠ none)
    (h : d.mergeCommits sourceName target targetBr sourceCp targetCp args = some r) :
    BranchesKept d r.2 ∧
      (r.1.ok = true → r.2.fhTable = invalidateFhs target d.fhTable) := by
  obtain ⟨br, hbr⟩ := Option.ne_none_iff_exists'.1 hbr
  cases mergeCommits_outcome h with
  | failed r hr => exact ⟨.refl d, fun hok => by simp [hr] at hok⟩
  | unpublished refs r hbase hsource htarget hok hr =>
      exact ⟨.of_eq rfl rfl, fun hok => by simp [hr] at hok⟩
  | published hancestor hbase hsource htarget hok hcommit hrefs =>
      exact ⟨.insert hbr rfl rfl, fun _ => rfl⟩

theorem branchesKept_mergeBranch {d : Daemon} {sourceName targetName : Bytes} {args : MergeArgs}
    {r : BranchMergeResult × Daemon} (h : d.mergeBranch sourceName targetName args = some r) :
    BranchesKept d r.2 ∧ (r.1.ok = true → ∃ b br fhs, d.branchByName targetName = some (b, br) ∧
      r.2.fhTable = invalidateFhs b fhs) := by
  cases mergeBranch_outcome h with
  | refused r hr => exact ⟨.refl d, fun hok => by simp [hr] at hok⟩
  | sourceFailed r hsource htarget hne hcp hr =>
      subst hcp
      exact ⟨branchesKept_checkpointBranch d _ _ _ _, fun hok => by simp [hr] at hok⟩
  | targetFailed r hsource htarget hne hcp hok hcp' hr =>
      subst hcp hcp'
      exact ⟨(branchesKept_checkpointBranch d _ _ _ _).trans
        (branchesKept_checkpointBranch _ _ _ _ _), fun hok => by simp [hr] at hok⟩
  | @merged source target sourceBr targetBr cp cp' r hsource htarget hne hcp hok hcp' hok' hr =>
      have hbr := (branchByName_eq_some htarget).1
      have hkept : BranchesKept d cp.2 := by
        rw [← hcp]
        exact branchesKept_checkpointBranch d _ _ _ _
      have hkept' : BranchesKept cp.2 cp'.2 := by
        rw [← hcp']
        exact branchesKept_checkpointBranch cp.2 _ _ _ _
      have hkept := hkept.trans hkept'
      obtain ⟨hk, hinv⟩ := branchesKept_mergeCommits
        (fun hn => by simp [(hkept.branches _).1 hn] at hbr) hr
      exact ⟨hkept.trans hk, fun hok => ⟨_, _, _, htarget, hinv hok⟩⟩

end Merge

theorem stale_of_invalidated {d : Daemon} {b : Nat} {fhs : FhTable}
    (h : d.fhTable = invalidateFhs b fhs) {fh : Nat} {s : FhState} (hs : d.getFh fh = some s)
    (hb : s.branchId = b) : s.stale = true := by
  unfold getFh at hs
  rw [h, getFh_invalidateFhs] at hs
  obtain ⟨s₀, -, rfl⟩ := Option.map_eq_some_iff.1 hs
  split
  · rfl
  · rename_i hne
    rw [if_neg hne] at hb
    exact absurd hb hne

end Daemon
end ContextFS
