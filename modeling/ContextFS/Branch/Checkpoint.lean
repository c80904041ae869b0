import ContextFS.Store.Refs
import ContextFS.Tree.Serialize

/-!
# Checkpoints and rollbacks of one branch

`checkpoint_locked` serialises the working tree, writes a commit, makes the part of the pending
set that belongs to this commit durable and advances the ref.  `write_commit_with_parents` does
the same for a merged tree, without the ref.  Both drain the whole pending set of the store and
put it back only when the fsync failed.

The flush of the open handles runs before the tree is serialised; its verdict is the argument
`flushed`, and `wt` and the store are the ones it left.
-/

namespace ContextFS

open Std ObjectStore WorkingTree

/-- `CheckpointResult` and `RollbackResult`. -/
structure CommitResult where
  ok : Bool
  commit : Hash
  error : String
deriving DecidableEq

def CommitResult.failed (error : String) : CommitResult := ⟨false, zeroHash, error⟩

/-- The set `referenced`: every leaf of the raw view, the trees just written and the commit. -/
def referencedHashes (wt : WorkingTree) (written : List Hash) (commit : Hash) : List Hash :=
  ((wt.entries.filter fun pe => pe.2.isLeaf && pe.2.hash ≠ zeroHash).map fun pe => pe.2.hash) ++
    (written ++ [commit])

/-- `filter_to_committed_graph`. -/
def filterToCommittedGraph (pending : List Hash) (wt : WorkingTree) (written : List Hash)
    (commit : Hash) : List Hash :=
  pending.filter fun h => h ∈ referencedHashes wt written commit

/-- Where the publication of a commit stopped. -/
inductive PublishFailure
  | serialize (text : String)
  | commitObject
  | fsyncObjects
  | fsyncShardDirs

/-- The commit fields the caller supplies. -/
structure CommitMeta where
  sessionId : UInt64
  timestampNs : UInt64
  label : Bytes
  policyVersion : UInt32

def CommitMeta.commitData (m : CommitMeta) (treeHash : Hash) (parents : List Hash) : CommitData :=
  ⟨treeHash, parents, m.sessionId, m.timestampNs, m.label, m.policyVersion⟩

@[simp] theorem CommitMeta.commitData_treeHash (m : CommitMeta) (treeHash : Hash)
    (parents : List Hash) : (m.commitData treeHash parents).treeHash = treeHash := rfl

@[simp] theorem CommitMeta.commitData_parents (m : CommitMeta) (treeHash : Hash)
    (parents : List Hash) : (m.commitData treeHash parents).parents = parents := rfl

section Publish

variable [Blake3]

/-- From `drain_pending` to the second fsync; a failure puts everything drained back. -/
def fsyncCommitted (s : ObjectStore) (wt : WorkingTree) (written : List Hash) (commit : Hash) :
    Option PublishFailure × ObjectStore :=
  let d := s.drainPending
  let toFsync := filterToCommittedGraph d.1 wt written commit
  match d.2.fsyncObjects toFsync with
  | (false, s) => (some .fsyncObjects, s.restorePending d.1)
  | (true, s) =>
      match s.fsyncShardDirs toFsync with
      | (false, s) => (some .fsyncShardDirs, s.restorePending d.1)
      | (true, s) => (none, s)

/-- What `checkpoint_locked` and `write_commit_with_parents` have in common, from the
serialisation of the tree to the second fsync. -/
def publishCommit (info : CommitMeta) (wt : WorkingTree) (parents : List Hash) (s : ObjectStore) :
    Except PublishFailure Hash × ObjectStore :=
  let r := serializeWorkingTree wt s
  if r.root = zeroHash then (.error (.serialize r.error), r.store)
  else
    let w := r.store.writeCommit (serializeCommit (info.commitData r.root parents))
    if w.2 = zeroHash then (.error .commitObject, w.1)
    else
      match fsyncCommitted w.1 wt r.written w.2 with
      | (some failure, s) => (.error failure, s)
      | (none, s) => (.ok w.2, s)

/-- The error text of `checkpoint_locked`. -/
def checkpointError : PublishFailure → String
  | .serialize text =>
      if text = "" then "failed to serialize working tree"
      else "failed to serialize working tree: " ++ text
  | .commitObject => "failed to write commit object"
  | .fsyncObjects => "failed to fsync checkpoint objects"
  | .fsyncShardDirs => "failed to fsync checkpoint shard dirs"

/-- The error text of `write_commit_with_parents`. -/
def mergeCommitError : PublishFailure → String
  | .serialize _ => "failed to serialize merged tree"
  | .commitObject => "failed to write commit object"
  | .fsyncObjects => "failed to fsync merge objects"
  | .fsyncShardDirs => "failed to fsync merge shard dirs"

/-- `CheckpointManager::checkpoint_locked`. -/
def checkpointLocked (info : CommitMeta) (flushed : Bool) (wt : WorkingTree) (branch : Bytes)
    (s : ObjectStore) (refs : Refs) : CommitResult × ObjectStore × Refs :=
  if !flushed then (.failed "flush failed", s, refs)
  else
    match publishCommit info wt (refs.readRef branch).toList s with
    | (.error failure, s) => (.failed (checkpointError failure), s, refs)
    | (.ok commit, s) =>
        match refs.writeRef branch commit with
        | (false, refs) => (.failed ("failed to advance refs/" ++ bytesText branch), s, refs)
        | (true, refs) => (⟨true, commit, ""⟩, s, refs)

/-- `write_commit_with_parents`. -/
def writeCommitWithParents (info : CommitMeta) (wt : WorkingTree) (parents : List Hash)
    (s : ObjectStore) : Except String Hash × ObjectStore :=
  match publishCommit info wt parents s with
  | (.error failure, s) => (.error (mergeCommitError failure), s)
  | (.ok commit, s) => (.ok commit, s)

end Publish

/-- The walk of `resolve_target` along first parents. -/
def findLabel (s : ObjectStore) (target : Bytes) : Nat → Hash → Hash
  | 0, _ => zeroHash
  | depth + 1, cursor =>
      match s.readCommit cursor with
      | none => zeroHash
      | some c =>
          if c.label = target then cursor
          else
            match c.parents with
            | [] => zeroHash
            | p :: _ => findLabel s target depth p

/-- `resolve_target`: a stored hash in hexadecimal, else a label of the branch's history. -/
def resolveTarget (s : ObjectStore) (refs : Refs) (target branch : Bytes) : Hash :=
  let byHash := if target.length = 64 then (hexToHash target).filter s.objectExists else none
  match byHash with
  | some h => h
  | none =>
      match refs.readRef branch with
      | none => zeroHash
      | some current => findLabel s target 100000 current

/-- What `rollback_locked` did: its answer, the working tree, whether the handles of the branch
were invalidated, and the refs. -/
structure RollbackOutcome where
  result : CommitResult
  wt : WorkingTree
  invalidated : Bool
  refs : Refs

/-- `rollback_locked`; `none` when the rebuild has not enough fuel. -/
def rollbackLocked (fuel : Nat) (target : Bytes) (wt : WorkingTree) (branch : Bytes)
    (s : ObjectStore) (refs : Refs) : Option RollbackOutcome :=
  let targetHash := resolveTarget s refs target branch
  if targetHash = zeroHash then some ⟨.failed "target commit not found", wt, false, refs⟩
  else
    match s.readObject targetHash .commit with
    | none => some ⟨.failed "failed to read target commit", wt, false, refs⟩
    | some body =>
        match (deserializeCommit body).toOption with
        | none => some ⟨.failed "failed to parse target commit", wt, false, refs⟩
        | some cd =>
            match rebuildWorkingTree fuel cd.treeHash s wt with
            | none => none
            | some (.error err) =>
                if "tree object missing".toList.isPrefixOf err.toList then
                  some ⟨.failed "checkpoint compacted by retention policy", wt, false, refs⟩
                else some ⟨.failed ("failed to rebuild working tree: " ++ err), wt, false, refs⟩
            | some (.ok wt') =>
                match refs.writeRef branch targetHash with
                -- the tree is already the rebuilt one
                | (false, refs) =>
                    some ⟨.failed ("failed to write refs/" ++ bytesText branch), wt', true, refs⟩
                | (true, refs) => some ⟨⟨true, targetHash, ""⟩, wt', true, refs⟩

/-- `current_commit`. -/
def currentCommit (refs : Refs) (branch : Bytes) : Hash := (refs.readRef branch).getD zeroHash

/-- The only outcome of a rollback with another tree is one rebuilt from the store. -/
theorem rollbackLocked_cases {fuel : Nat} {target branch : Bytes} {wt : WorkingTree}
    {s : ObjectStore} {refs : Refs} {o : RollbackOutcome}
    (h : rollbackLocked fuel target wt branch s refs = some o) :
    (o.wt = wt ∧ o.invalidated = false ∧ o.refs = refs ∧ o.result.ok = false) ∨
      ∃ cd, resolveTarget s refs target branch ≠ zeroHash ∧
        s.readCommit (resolveTarget s refs target branch) = some cd ∧
        rebuildWorkingTree fuel cd.treeHash s wt = some (.ok o.wt) ∧ o.invalidated = true ∧
        o.refs = (refs.writeRef branch (resolveTarget s refs target branch)).2 ∧
        o.result.ok = (refs.writeRef branch (resolveTarget s refs target branch)).1 := by
  unfold rollbackLocked at h
  simp only at h
  split at h
  · cases h
    exact Or.inl ⟨rfl, rfl, rfl, rfl⟩
  rename_i hne
  split at h
  · cases h
    exact Or.inl ⟨rfl, rfl, rfl, rfl⟩
  rename_i body hbody
  split at h
  · cases h
    exact Or.inl ⟨rfl, rfl, rfl, rfl⟩
  rename_i cd hcd
  have hread : s.readCommit (resolveTarget s refs target branch) = some cd := by
    simp only [ObjectStore.readCommit, hbody, hcd]
  split at h
  · cases h
  · split at h
    · cases h
      exact Or.inl ⟨rfl, rfl, rfl, rfl⟩
    · cases h
      exact Or.inl ⟨rfl, rfl, rfl, rfl⟩
  · rename_i wt' hrebuild
    right
    refine ⟨cd, hne, hread, ?_⟩
    split at h
    · rename_i refs' hw
      cases h
      rw [hw]
      exact ⟨hrebuild, rfl, rfl, rfl⟩
    · rename_i refs' hw
      cases h
      rw [hw]
      exact ⟨hrebuild, rfl, rfl, rfl⟩

/-! ## What a checkpoint does to the store -/

section Spec

variable [Blake3]

/-- Every leaf of the raw view with content is in the store. -/
def LeavesStored (wt : WorkingTree) (s : ObjectStore) : Prop :=
  ∀ p e, wt.lookupRaw p = some e → e.isLeaf = true → e.hash ≠ zeroHash → e.hash ∈ s.objects

omit [Blake3] in
theorem LeavesStored.mono {wt : WorkingTree} {s s' : ObjectStore} (he : Extends s s')
    (h : LeavesStored wt s) : LeavesStored wt s' :=
  fun p e hp hl hz => he.mem (h p e hp hl hz)

omit [Blake3] in
theorem mem_referencedHashes {wt : WorkingTree} {written : List Hash} {commit h : Hash} :
    h ∈ referencedHashes wt written commit ↔
      (∃ p e, wt.lookupRaw p = some e ∧ e.isLeaf = true ∧ e.hash = h ∧ h ≠ zeroHash) ∨
        h ∈ written ∨ h = commit := by
  simp only [referencedHashes, List.mem_append, List.mem_map, List.mem_filter, Prod.exists,
    mem_entries, List.mem_singleton, Bool.and_eq_true, decide_eq_true_eq]
  constructor
  · rintro (⟨p, e, ⟨hraw, hleaf, hne⟩, rfl⟩ | h)
    · exact Or.inl ⟨p, e, hraw, hleaf, rfl, hne⟩
    · exact Or.inr h
  · rintro (⟨p, e, hraw, hleaf, rfl, hne⟩ | h)
    · exact Or.inl ⟨p, e, ⟨hraw, hleaf, hne⟩, rfl⟩
    · exact Or.inr h

theorem published_drainPending (s : ObjectStore) :
    ∃ s₀, Published s s₀ ∧ s.drainPending = (s₀.pending.toList, { s₀ with pending := ∅ }) :=
  ⟨s.interleave, published_interleave s, rfl⟩

omit [Blake3] in
theorem published_nextFault (s : ObjectStore) : Published s s.nextFault.2 :=
  .of_eq (by simp) (by simp) (by simp) (by simp)

theorem published_fsyncObjects (s : ObjectStore) (hs : List Hash) :
    Published s (s.fsyncObjects hs).2 := by
  have h := (published_interleave s).trans (published_nextFault s.interleave)
  unfold fsyncObjects
  generalize s.interleave.nextFault = r at h ⊢
  obtain ⟨_ | f, s₀⟩ := r
  · exact h
  · exact h

/-- The second fsync fails and makes nothing durable, or makes exactly its hashes durable. -/
theorem fsyncShardDirs_cases (s : ObjectStore) (hs : List Hash) :
    ∃ s₀, Published s s₀ ∧ (s.fsyncShardDirs hs = (false, s₀) ∨
      s.fsyncShardDirs hs = (true, { s₀ with durable := s₀.durable.insertMany hs })) := by
  have h := (published_interleave s).trans (published_nextFault s.interleave)
  unfold fsyncShardDirs
  generalize s.interleave.nextFault = r at h ⊢
  obtain ⟨_ | f, s₀⟩ := r
  · exact ⟨s₀, h, Or.inr rfl⟩
  · exact ⟨s₀, h, Or.inl rfl⟩

/-- `s'` holds every object of `s` and whatever was durable in `s` is durable in `s'`. -/
structure Grows (s s' : ObjectStore) : Prop where
  extends_ : Extends s s'
  durable_mono : ∀ {h : Hash}, h ∈ s.durable → h ∈ s'.durable

omit [Blake3] in
theorem Grows.trans {s₁ s₂ s₃ : ObjectStore} (h₁₂ : Grows s₁ s₂) (h₂₃ : Grows s₂ s₃) :
    Grows s₁ s₃ :=
  ⟨h₁₂.extends_.trans h₂₃.extends_, fun h => h₂₃.durable_mono (h₁₂.durable_mono h)⟩

omit [Blake3] in
theorem Grows.of_published {s s' : ObjectStore} (h : Published s s') : Grows s s' :=
  ⟨h.extends_, fun hd => h.durable_eq ▸ hd⟩

omit [Blake3] in
/-- The pending set can be replaced, and hashes can become durable. -/
theorem Grows.of_objects_eq {s s' : ObjectStore} (hobj : s'.objects = s.objects)
    (hcol : s'.collided = s.collided) (hdur : ∀ {h : Hash}, h ∈ s.durable → h ∈ s'.durable) :
    Grows s s' :=
  ⟨.of_objects_eq hobj hcol, hdur⟩

theorem grows_fsyncCommitted (s : ObjectStore) (wt : WorkingTree) (written : List Hash)
    (commit : Hash) : Grows s (fsyncCommitted s wt written commit).2 := by
  obtain ⟨s₀, h₀, hdrain⟩ := published_drainPending s
  have hdrained : Grows s { s₀ with pending := ∅ } :=
    (Grows.of_published h₀).trans (.of_objects_eq rfl rfl id)
  unfold fsyncCommitted
  rw [hdrain]
  simp only
  generalize filterToCommittedGraph s₀.pending.toList wt written commit = toFsync
  have h₁ := hdrained.trans (.of_published (published_fsyncObjects { s₀ with pending := ∅ } toFsync))
  generalize fsyncObjects { s₀ with pending := ∅ } toFsync = r at h₁ ⊢
  obtain ⟨_ | _, s₁⟩ := r
  · exact h₁.trans (.of_objects_eq rfl rfl id)
  · obtain ⟨s₂, h₂, heq | heq⟩ := fsyncShardDirs_cases s₁ toFsync
    · simp only [heq]
      exact (h₁.trans (.of_published h₂)).trans (.of_objects_eq rfl rfl id)
    · simp only [heq]
      refine (h₁.trans (.of_published h₂)).trans (.of_objects_eq rfl rfl fun hd => ?_)
      exact ExtTreeSet.mem_insertMany_list.2 (Or.inl hd)

/-- The fsyncs that succeed make durable what the drain found pending and the commit
references, and nothing else. -/
theorem mem_durable_fsyncCommitted {s s' : ObjectStore} {wt : WorkingTree} {written : List Hash}
    {commit : Hash} (hok : fsyncCommitted s wt written commit = (none, s')) :
    ∃ drained : List Hash, (∀ h ∈ s.pending, h ∈ drained) ∧
      (∀ h ∈ drained, h ∈ s.pending ∨ h ∉ s.objects) ∧
      ∀ h, h ∈ s'.durable ↔
        h ∈ s.durable ∨ (h ∈ drained ∧ h ∈ referencedHashes wt written commit) := by
  obtain ⟨s₀, h₀, hdrain⟩ := published_drainPending s
  refine ⟨s₀.pending.toList, fun h hp => ?_, fun h hp => ?_, fun h => ?_⟩
  · exact ExtTreeSet.mem_toList.2 (h₀.pending_of_pending hp)
  · by_cases hs : h ∈ s.pending
    · exact Or.inl hs
    · exact Or.inr (h₀.new_of_pending (ExtTreeSet.mem_toList.1 hp) hs).2
  · unfold fsyncCommitted at hok
    rw [hdrain] at hok
    simp only at hok
    have hfilter : h ∈ filterToCommittedGraph s₀.pending.toList wt written commit ↔
        h ∈ s₀.pending.toList ∧ h ∈ referencedHashes wt written commit := by
      simp [filterToCommittedGraph]
    rw [← hfilter]
    generalize filterToCommittedGraph s₀.pending.toList wt written commit = toFsync at hok ⊢
    have h₁ := published_fsyncObjects { s₀ with pending := ∅ } toFsync
    generalize fsyncObjects { s₀ with pending := ∅ } toFsync = r at h₁ hok
    obtain ⟨_ | _, s₁⟩ := r
    · cases hok
    · obtain ⟨s₂, h₂, heq | heq⟩ := fsyncShardDirs_cases s₁ toFsync
      · simp only [heq] at hok
        cases hok
      · simp only [heq, Prod.mk.injEq, true_and] at hok
        subst hok
        have hdur : s₂.durable = s.durable :=
          h₂.durable_eq.trans (h₁.durable_eq.trans h₀.durable_eq)
        simp [ExtTreeSet.mem_insertMany_list, hdur]

/-- How far a publication got: the tree, the commit object, the fsyncs. -/
theorem publishCommit_cases (info : CommitMeta) (wt : WorkingTree) (parents : List Hash)
    (s : ObjectStore) :
    (∃ text, publishCommit info wt parents s =
        (.error (.serialize text), (serializeWorkingTree wt s).store)) ∨
      ∃ r w, r = serializeWorkingTree wt s ∧ r.root ≠ zeroHash ∧
        w = r.store.writeCommit (serializeCommit (info.commitData r.root parents)) ∧
        (publishCommit info wt parents s = (.error .commitObject, w.1) ∨
          w.2 ≠ zeroHash ∧
            ((∃ failure s', fsyncCommitted w.1 wt r.written w.2 = (some failure, s') ∧
                publishCommit info wt parents s = (.error failure, s')) ∨
              ∃ s', fsyncCommitted w.1 wt r.written w.2 = (none, s') ∧
                publishCommit info wt parents s = (.ok w.2, s'))) := by
  by_cases hroot : (serializeWorkingTree wt s).root = zeroHash
  · exact Or.inl ⟨_, by simp only [publishCommit, hroot, if_true]; rfl⟩
  · right
    refine ⟨_, _, rfl, hroot, rfl, ?_⟩
    simp only [publishCommit, hroot, if_false]
    generalize (serializeWorkingTree wt s).store.writeCommit
      (serializeCommit (info.commitData (serializeWorkingTree wt s).root parents)) = w
    by_cases hw : w.2 = zeroHash
    · simp [hw]
    · right
      simp only [hw, if_false]
      refine ⟨hw, ?_⟩
      rcases fsyncCommitted w.1 wt (serializeWorkingTree wt s).written w.2 with ⟨_ | failure, s'⟩
      · exact Or.inr ⟨s', rfl, rfl⟩
      · exact Or.inl ⟨failure, s', rfl, rfl⟩

theorem publishCommit_ok {info : CommitMeta} {wt : WorkingTree} {parents : List Hash}
    {s s' : ObjectStore} {commit : Hash}
    (hok : publishCommit info wt parents s = (.ok commit, s')) :
    ∃ r w, r = serializeWorkingTree wt s ∧ r.root ≠ zeroHash ∧
      w = r.store.writeCommit (serializeCommit (info.commitData r.root parents)) ∧
      w.2 ≠ zeroHash ∧ commit = w.2 ∧ fsyncCommitted w.1 wt r.written w.2 = (none, s') := by
  rcases publishCommit_cases info wt parents s with
    ⟨text, h⟩ | ⟨r, w, hr, hroot, hw, h | ⟨hne, ⟨failure, s₁, -, h⟩ | ⟨s₁, hsync, h⟩⟩⟩
  · rw [h] at hok
    cases hok
  · rw [h] at hok
    cases hok
  · rw [h] at hok
    cases hok
  · rw [h] at hok
    cases hok
    exact ⟨r, w, hr, hroot, hw, hne, rfl, hsync⟩

theorem checkpointLocked_store (info : CommitMeta) (flushed : Bool) (wt : WorkingTree)
    (name : Bytes) (s : ObjectStore) (refs : Refs) :
    (checkpointLocked info flushed wt name s refs).2.1 =
      if flushed then (publishCommit info wt (refs.readRef name).toList s).2 else s := by
  unfold checkpointLocked
  cases flushed with
  | false => rfl
  | true =>
      simp only [Bool.not_true, Bool.false_eq_true, if_false, if_true]
      rcases publishCommit info wt (refs.readRef name).toList s with ⟨_ | commit, s'⟩
      · rfl
      · simp only
        split <;> rfl

/-- A checkpoint that succeeds has flushed the handles, published the tree and advanced the
ref. -/
theorem checkpointLocked_ok {info : CommitMeta} {flushed : Bool} {wt : WorkingTree}
    {name : Bytes} {s : ObjectStore} {refs : Refs}
    (h : (checkpointLocked info flushed wt name s refs).1.ok = true) :
    ∃ commit, flushed = true ∧
      (checkpointLocked info flushed wt name s refs).1 = ⟨true, commit, ""⟩ ∧
      publishCommit info wt (refs.readRef name).toList s =
        (.ok commit, (checkpointLocked info flushed wt name s refs).2.1) ∧
      refs.writeRef name commit = (true, (checkpointLocked info flushed wt name s refs).2.2) := by
  unfold checkpointLocked at h ⊢
  cases flushed with
  | false => cases h
  | true =>
      simp only [Bool.not_true, Bool.false_eq_true, if_false] at h ⊢
      rcases hp : publishCommit info wt (refs.readRef name).toList s with ⟨_ | commit, s'⟩
      · rw [hp] at h
        cases h
      · rw [hp] at h
        refine ⟨commit, trivial, ?_⟩
        simp only at h ⊢
        rcases hw : refs.writeRef name commit with ⟨_ | _, refs'⟩
        · rw [hw] at h
          cases h
        · exact ⟨rfl, rfl, rfl⟩

theorem grows_publishCommit (info : CommitMeta) (wt : WorkingTree) (parents : List Hash)
    (s : ObjectStore) : Grows s (publishCommit info wt parents s).2 := by
  have hser := published_serializeWorkingTree wt s
  rcases publishCommit_cases info wt parents s with ⟨text, h⟩ | ⟨r, w, rfl, -, hw, h⟩
  · rw [h]
    exact .of_published hser
  · have hwrite : Grows s w.1 := by
      rw [hw]
      exact .of_published (hser.trans (published_writeObject _ _ _))
    have hsync := grows_fsyncCommitted w.1 wt (serializeWorkingTree wt s).written w.2
    rcases h with h | ⟨-, ⟨failure, s', hf, h⟩ | ⟨s', hf, h⟩⟩
    · rw [h]
      exact hwrite
    · rw [hf] at hsync
      rw [h]
      exact hwrite.trans hsync
    · rw [hf] at hsync
      rw [h]
      exact hwrite.trans hsync

theorem ObjectStore.Contents.fsyncObjects {P : Bytes → Prop} {s : ObjectStore}
    (hs : Contents P s) (hashes : List Hash) : Contents P (s.fsyncObjects hashes).2 := by
  have h := hs.interleave.of_eq (nextFault_objects s.interleave) (nextFault_others s.interleave)
  unfold ObjectStore.fsyncObjects
  generalize s.interleave.nextFault = r at h ⊢
  obtain ⟨_ | f, s₀⟩ := r
  · exact h
  · exact h

theorem ObjectStore.Contents.fsyncShardDirs {P : Bytes → Prop} {s : ObjectStore}
    (hs : Contents P s) (hashes : List Hash) : Contents P (s.fsyncShardDirs hashes).2 := by
  have h := hs.interleave.of_eq (nextFault_objects s.interleave) (nextFault_others s.interleave)
  unfold ObjectStore.fsyncShardDirs
  generalize s.interleave.nextFault = r at h ⊢
  obtain ⟨_ | f, s₀⟩ := r
  · exact h.of_eq rfl rfl
  · exact h

theorem ObjectStore.Contents.fsyncCommitted {P : Bytes → Prop} {s : ObjectStore}
    (hs : Contents P s) (wt : WorkingTree) (written : List Hash) (commit : Hash) :
    Contents P (fsyncCommitted s wt written commit).2 := by
  have hdrained : Contents P s.drainPending.2 := hs.interleave.of_eq rfl rfl
  unfold ContextFS.fsyncCommitted
  simp only
  generalize filterToCommittedGraph s.drainPending.1 wt written commit = toFsync
  have h₁ := hdrained.fsyncObjects toFsync
  generalize s.drainPending.2.fsyncObjects toFsync = r at h₁ ⊢
  obtain ⟨_ | _, s₁⟩ := r
  · exact h₁.of_eq rfl rfl
  · have h₂ := h₁.fsyncShardDirs toFsync
    simp only
    generalize s₁.fsyncShardDirs toFsync = r at h₂ ⊢
    obtain ⟨_ | _, s₂⟩ := r
    · exact h₂.of_eq rfl rfl
    · exact h₂

/-- A publication writes the tree objects of its tree and its commit, and nothing else. -/
theorem ObjectStore.Contents.publishCommit {P : Bytes → Prop} {s : ObjectStore}
    {info : CommitMeta} {wt : WorkingTree} {parents : List Hash}
    (hser : Contents P (serializeWorkingTree wt s).store)
    (hcommit : ∀ cd, P (ObjectTag.commit.bytes ++ serializeCommit cd)) :
    Contents P (publishCommit info wt parents s).2 := by
  rcases publishCommit_cases info wt parents s with ⟨text, h⟩ | ⟨r, w, rfl, -, hw, h⟩
  · rw [h]
    exact hser
  · have hwrite : Contents P w.1 := by
      rw [hw]
      exact hser.writeObject (hcommit _)
    have hsync := hwrite.fsyncCommitted wt (serializeWorkingTree wt s).written w.2
    rcases h with h | ⟨-, ⟨failure, s', hf, h⟩ | ⟨s', hf, h⟩⟩
    · rw [h]
      exact hwrite
    · rw [hf] at hsync
      rw [h]
      exact hsync
    · rw [hf] at hsync
      rw [h]
      exact hsync

/-! ## The committed graph -/

/-- The objects of one snapshot: the commit, its root tree and everything below that. -/
inductive InCommit (s : ObjectStore) (commit : Hash) : Hash → Prop
  | commit : InCommit s commit commit
  | root {cd : CommitData} (hcd : s.readCommit commit = some cd) : InCommit s commit cd.treeHash
  | entry {cd : CommitData} {p : FsPath} {e : WorkingTreeEntry}
      (hcd : s.readCommit commit = some cd) (hin : InTree s cd.treeHash p e)
      (hk : e.kind = .tree ∨ e.isLeaf = true) : InCommit s commit e.hash

omit [Blake3] in
/-- The graph of a commit that was readable is not changed by later publications. -/
theorem InCommit.of_extends {s s' : ObjectStore} (he : Extends s s') {commit x : Hash}
    {cd : CommitData} (hcd : s.readCommit commit = some cd) (hr : Readable s cd.treeHash)
    (hx : InCommit s' commit x) : InCommit s commit x := by
  have hcd' := he.readCommit hcd
  cases hx with
  | commit => exact .commit
  | root h =>
      rw [hcd', Option.some.injEq] at h
      subst h
      exact .root hcd
  | entry h hin hk =>
      rw [hcd', Option.some.injEq] at h
      subst h
      exact .entry hcd ((hr.inTree_iff he).1 hin) hk

/-- A commit that was published can be read back: its tree shows what is linked to the root of
the working tree, and its graph is in the store and among the referenced hashes. -/
structure CommitPublished (wt : WorkingTree) (s s' : ObjectStore) (commit : Hash)
    (cd : CommitData) (written : List Hash) : Prop where
  readCommit_eq : s'.readCommit commit = some cd.narrowLabel
  root_written : DirWritten wt ⟨s', ∅, written⟩ [] cd.treeHash
  durable_iff : ∀ {x : Hash}, InCommit s' commit x →
    (x ∈ s'.durable ↔ ¬ (x ∈ s.objects ∧ x ∉ s.pending ∧ x ∉ s.durable))

theorem readCommit_writeCommit {s : ObjectStore} {cd : CommitData}
    (hparents : cd.parents.length < 2 ^ 27)
    (hne : (s.writeCommit (serializeCommit cd)).2 ≠ zeroHash)
    (hc : (s.writeCommit (serializeCommit cd)).1.collided = false) :
    (s.writeCommit (serializeCommit cd)).1.readCommit (s.writeCommit (serializeCommit cd)).2 =
      some cd.narrowLabel := by
  have hr := readObject_writeObject s .commit (serializeCommit cd) hne hc
  unfold ObjectStore.readCommit
  rw [show (s.writeCommit (serializeCommit cd)).1.readObject
    (s.writeCommit (serializeCommit cd)).2 .commit = some (serializeCommit cd) from hr]
  simp only [deserializeCommit_serializeCommit cd hparents]
  rfl

theorem commitPublished_publishCommit {info : CommitMeta} {wt : WorkingTree}
    {parents : List Hash} {s s' : ObjectStore} {commit : Hash}
    (hok : publishCommit info wt parents s = (.ok commit, s'))
    (hparents : parents.length < 2 ^ 27) (hstored : LeavesStored wt s)
    (hc : s'.collided = false) :
    ∃ treeHash written,
      CommitPublished wt s s' commit (info.commitData treeHash parents) written := by
  obtain ⟨r, w, rfl, hroot, hw, hne, rfl, hsync⟩ := publishCommit_ok hok
  have hser := published_serializeWorkingTree wt s
  have hpub : Published (serializeWorkingTree wt s).store w.1 := by
    rw [hw]
    exact published_writeObject _ _ _
  have hsw : Published s w.1 := hser.trans hpub
  have hws : Extends w.1 s' := by
    have hg := (grows_fsyncCommitted w.1 wt (serializeWorkingTree wt s).written w.2).extends_
    rwa [hsync] at hg
  have hcw := hws.collided_eq hc
  -- the root and all below it are written and readable
  have hdir := dirWritten_serializeWorkingTree hroot (hpub.extends_.collided_eq hcw)
  have hdir' : DirWritten wt ⟨s', ∅, (serializeWorkingTree wt s).written⟩ []
      (serializeWorkingTree wt s).root :=
    hdir.mono (hpub.extends_.trans hws) fun _ hx => hx
  have hread : s'.readCommit w.2 =
      some (info.commitData (serializeWorkingTree wt s).root parents).narrowLabel := by
    refine hws.readCommit ?_
    rw [hw] at hne hcw ⊢
    exact readCommit_writeCommit hparents hne hcw
  -- every object of the graph is in the store before the drain, and referenced
  have hgraph : ∀ {x : Hash}, InCommit s' w.2 x → x ∈ w.1.objects ∧
      x ∈ referencedHashes wt (serializeWorkingTree wt s).written w.2 := by
    have hwritten : ∀ {x : Hash}, x ∈ (serializeWorkingTree wt s).written → x ∈ w.1.objects ∧
        x ∈ referencedHashes wt (serializeWorkingTree wt s).written w.2 := by
      intro x hx
      exact ⟨hpub.extends_.mem (mem_objects_of_mem_serialize_written wt s x hx),
        mem_referencedHashes.2 (Or.inr (Or.inl hx))⟩
    intro x hx
    cases hx with
    | commit =>
        refine ⟨?_, mem_referencedHashes.2 (Or.inr (Or.inr rfl))⟩
        rw [hw] at hne ⊢
        exact mem_objects_writeObject hne
    | root h =>
        rw [hread, Option.some.injEq] at h
        subst h
        exact hwritten hdir'.mem_written
    | @entry cd p e h hin hk =>
        rw [hread, Option.some.injEq] at h
        subst h
        rcases hk with hk | hleaf
        · exact hwritten (hdir'.tree_mem hin hk)
        · obtain ⟨q, e', hraw, -, hleaf', heq, hz⟩ :=
            mem_referencedLeafHashes.1 (hdir'.leaf_mem hin hleaf)
          refine ⟨hsw.extends_.mem ?_,
            mem_referencedHashes.2 (Or.inl ⟨q, e', hraw, hleaf', heq, hz⟩)⟩
          rw [← heq] at hz ⊢
          exact hstored q e' hraw hleaf' hz
  -- what the drain took and is referenced has been synced
  obtain ⟨drained, hall, honly, hdur⟩ := mem_durable_fsyncCommitted hsync
  refine ⟨_, _, hread, hdir', fun {x} hx => ?_⟩
  obtain ⟨hxw, href⟩ := hgraph hx
  rw [hdur, hsw.durable_eq]
  -- durable afterwards: durable before, or drained
  constructor
  · rintro hd ⟨hobj, hpend, hndur⟩
    rcases hd with hd | ⟨hdr, -⟩
    · exact hndur hd
    · rcases honly x hdr with hp | hn
      · exact (hsw.new_of_pending hp hpend).2 hobj
      · exact hn hxw
  · intro hnot
    by_cases hobj : x ∈ s.objects
    · by_cases hd : x ∈ s.durable
      · exact Or.inl hd
      · have hp : x ∈ s.pending := by
          by_contra hp
          exact hnot ⟨hobj, hp, hd⟩
        exact Or.inr ⟨hall x (hsw.pending_of_pending hp), href⟩
    · exact Or.inr ⟨hall x (hsw.pending_of_new hxw hobj), href⟩

end Spec

end ContextFS
