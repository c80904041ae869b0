import ContextFS.Branch.Checkpoint
import ContextFS.Lib.Runs

/-!
# Durability of published commits

Several branches publish through one object store.  A checkpoint or a merge drains the pending
set of the whole store, makes its own part durable and forgets the rest; an object forgotten
that way is never pending again, because a later write of the same content only adopts it.

The system below runs any number of branches.  Object writes, working-tree edits, checkpoints
and merges are its events, and the disk event sets what other threads publish and which disk
operations fail during the events that follow.
-/

namespace ContextFS

open Std Lib ObjectStore WorkingTree

/-- The store, the refs and the live trees of the branches.  `published` collects the commits
that were reported as published. -/
structure PublishState where
  store : ObjectStore
  refs : Refs
  trees : ExtTreeMap Bytes WorkingTree
  published : List Hash

inductive PublishEvent
  | disk (faults : List (Option String)) (refFaults : List RefFault)
      (others : List (List (ObjectTag × Bytes)))
  | write (tag : ObjectTag) (body : Bytes)
  | edit (branch : Bytes) (wt : WorkingTree)
  | checkpoint (branch : Bytes) (info : CommitMeta) (flushed : Bool)
  | merge (target : Bytes) (info : CommitMeta) (targetCp sourceCp : Hash) (merged : WorkingTree)

namespace PublishState

/-- Stored and neither durable nor waiting for an fsync: a drain has forgotten the object. -/
def Forgotten (σ : PublishState) (h : Hash) : Prop :=
  h ∈ σ.store.objects ∧ h ∉ σ.store.pending ∧ h ∉ σ.store.durable

/-- The trees hold only hashes the store has handed out. -/
def TreesStored (σ : PublishState) : Prop :=
  ∀ (branch : Bytes) (wt : WorkingTree), σ.trees[branch]? = some wt → LeavesStored wt σ.store

/-- The store has just been opened: what is on disk is durable. -/
def Opened (σ : PublishState) : Prop :=
  (∀ h ∈ σ.store.objects, h ∈ σ.store.durable) ∧ σ.store.pending = ∅ ∧ σ.published = [] ∧
    TreesStored σ

section

variable [Blake3]

/-- A checkpoint of one branch. -/
def checkpoint (σ : PublishState) (branch : Bytes) (info : CommitMeta) (flushed : Bool) :
    PublishState :=
  match σ.trees[branch]? with
  | none => σ
  | some wt =>
      let r := checkpointLocked info flushed wt branch σ.store σ.refs
      { σ with
        store := r.2.1
        refs := r.2.2
        published := if r.1.ok then r.1.commit :: σ.published else σ.published }

/-- The end of a merge: the merged tree is committed on top of the two checkpoints, and it
becomes the target's tree when the ref was advanced. -/
def merge (σ : PublishState) (target : Bytes) (info : CommitMeta) (targetCp sourceCp : Hash)
    (merged : WorkingTree) : PublishState :=
  match writeCommitWithParents info merged [targetCp, sourceCp] σ.store with
  | (.error _, store) => { σ with store := store }
  | (.ok commit, store) =>
      let w := σ.refs.writeRef target commit
      { store := store
        refs := w.2
        trees := if w.1 then σ.trees.insert target merged else σ.trees
        published := commit :: σ.published }

def apply (σ : PublishState) : PublishEvent → PublishState
  | .disk faults refFaults others =>
      { σ with
        store := { σ.store with faults := faults, others := others }
        refs := { σ.refs with faults := refFaults } }
  | .write tag body => { σ with store := (σ.store.writeObject tag body).1 }
  | .edit branch wt => { σ with trees := σ.trees.insert branch wt }
  | .checkpoint branch info flushed => σ.checkpoint branch info flushed
  | .merge target info targetCp sourceCp merged => σ.merge target info targetCp sourceCp merged

/-- An edit and a merge put only hashes into a tree that the store has handed out. -/
inductive Step (σ : PublishState) : PublishEvent → PublishState → Prop
  | disk (faults : List (Option String)) (refFaults : List RefFault)
      (others : List (List (ObjectTag × Bytes))) :
      Step σ (.disk faults refFaults others) (σ.apply (.disk faults refFaults others))
  | write (tag : ObjectTag) (body : Bytes) : Step σ (.write tag body) (σ.apply (.write tag body))
  | edit {branch wt} (h : LeavesStored wt σ.store) :
      Step σ (.edit branch wt) (σ.apply (.edit branch wt))
  | checkpoint (branch : Bytes) (info : CommitMeta) (flushed : Bool) :
      Step σ (.checkpoint branch info flushed) (σ.apply (.checkpoint branch info flushed))
  | merge {target info targetCp sourceCp merged} (h : LeavesStored merged σ.store) :
      Step σ (.merge target info targetCp sourceCp merged)
        (σ.apply (.merge target info targetCp sourceCp merged))

/-- The commits a step has published. -/
def NewlyPublished (σ σ' : PublishState) (commit : Hash) : Prop :=
  σ'.published = commit :: σ.published

/-- No step publishes a commit with a forgotten object in its graph. -/
def KeepsGraphs (σ : PublishState) (_ : PublishEvent) (σ' : PublishState) : Prop :=
  ∀ commit, NewlyPublished σ σ' commit → ∀ x, InCommit σ'.store commit x → ¬ σ.Forgotten x

/-- Every object of every published commit is durable. -/
def AllDurable (σ : PublishState) : Prop :=
  ∀ commit ∈ σ.published, ∀ x, InCommit σ.store commit x → x ∈ σ.store.durable

/-! ## One publication -/

theorem checkpoint_cases (σ : PublishState) (branch : Bytes) (info : CommitMeta)
    (flushed : Bool) :
    ((σ.checkpoint branch info flushed).published = σ.published ∧
        Grows σ.store (σ.checkpoint branch info flushed).store) ∨
      ∃ wt commit, σ.trees[branch]? = some wt ∧
        publishCommit info wt (σ.refs.readRef branch).toList σ.store =
          (.ok commit, (σ.checkpoint branch info flushed).store) ∧
        (σ.checkpoint branch info flushed).published = commit :: σ.published := by
  have hrefl : Grows σ.store σ.store := .of_published (.refl _)
  unfold checkpoint
  cases hwt : σ.trees[branch]? with
  | none => exact Or.inl ⟨rfl, hrefl⟩
  | some wt =>
      have hgrow := grows_publishCommit info wt (σ.refs.readRef branch).toList σ.store
      simp only [checkpointLocked]
      cases flushed with
      | false => exact Or.inl ⟨rfl, hrefl⟩
      | true =>
          simp only [Bool.not_true, Bool.false_eq_true, if_false]
          generalize hp : publishCommit info wt (σ.refs.readRef branch).toList σ.store = p at hgrow ⊢
          obtain ⟨failure | commit, s⟩ := p
          · exact Or.inl ⟨rfl, hgrow⟩
          · simp only
            rcases σ.refs.writeRef branch commit with ⟨_ | _, refs⟩
            · exact Or.inl ⟨rfl, hgrow⟩
            · exact Or.inr ⟨wt, commit, rfl, hp, rfl⟩

theorem merge_cases (σ : PublishState) (target : Bytes) (info : CommitMeta)
    (targetCp sourceCp : Hash) (merged : WorkingTree) :
    ((σ.merge target info targetCp sourceCp merged).published = σ.published ∧
        Grows σ.store (σ.merge target info targetCp sourceCp merged).store) ∨
      ∃ commit, publishCommit info merged [targetCp, sourceCp] σ.store =
          (.ok commit, (σ.merge target info targetCp sourceCp merged).store) ∧
        (σ.merge target info targetCp sourceCp merged).published = commit :: σ.published := by
  have hgrow := grows_publishCommit info merged [targetCp, sourceCp] σ.store
  unfold merge writeCommitWithParents
  generalize hp : publishCommit info merged [targetCp, sourceCp] σ.store = p at hgrow ⊢
  obtain ⟨failure | commit, s⟩ := p
  · exact Or.inl ⟨rfl, hgrow⟩
  · exact Or.inr ⟨commit, rfl, rfl⟩

@[simp] theorem checkpoint_trees (σ : PublishState) (branch : Bytes) (info : CommitMeta)
    (flushed : Bool) : (σ.checkpoint branch info flushed).trees = σ.trees := by
  unfold checkpoint
  split <;> rfl

theorem merge_trees (σ : PublishState) (target : Bytes) (info : CommitMeta)
    (targetCp sourceCp : Hash) (merged : WorkingTree) :
    (σ.merge target info targetCp sourceCp merged).trees = σ.trees ∨
      (σ.merge target info targetCp sourceCp merged).trees = σ.trees.insert target merged := by
  unfold merge
  split
  · exact Or.inl rfl
  · simp only
    split
    · exact Or.inr rfl
    · exact Or.inl rfl

/-- A step publishes nothing, or it commits one tree whose leaves are all stored. -/
theorem Step.cases {σ σ' : PublishState} {ev : PublishEvent}
    (hinv : TreesStored σ)
    (hs : Step σ ev σ') :
    (σ'.published = σ.published ∧ Grows σ.store σ'.store) ∨
      ∃ info wt parents commit, LeavesStored wt σ.store ∧ parents.length < 2 ^ 27 ∧
        publishCommit info wt parents σ.store = (.ok commit, σ'.store) ∧
        σ'.published = commit :: σ.published := by
  cases hs with
  | disk => exact Or.inl ⟨rfl, .of_objects_eq rfl rfl id⟩
  | write => exact Or.inl ⟨rfl, .of_published (published_writeObject _ _ _)⟩
  | edit h => exact Or.inl ⟨rfl, .of_published (.refl _)⟩
  | @checkpoint branch info flushed =>
      rcases checkpoint_cases σ branch info flushed with h | ⟨wt, commit, hwt, hp, hpub⟩
      · exact Or.inl h
      · refine Or.inr ⟨info, wt, _, commit, hinv _ _ hwt, ?_, hp, hpub⟩
        cases σ.refs.readRef branch <;> simp
  | @merge target info targetCp sourceCp merged h =>
      rcases merge_cases σ target info targetCp sourceCp merged with h' | ⟨commit, hp, hpub⟩
      · exact Or.inl h'
      · exact Or.inr ⟨info, merged, _, commit, h, by simp, hp, hpub⟩

theorem Step.grows {σ σ' : PublishState} {ev : PublishEvent}
    (hinv : TreesStored σ)
    (hs : Step σ ev σ') : Grows σ.store σ'.store := by
  rcases hs.cases hinv with ⟨-, hg⟩ | ⟨info, wt, parents, commit, -, -, hp, -⟩
  · exact hg
  · have hg := grows_publishCommit info wt parents σ.store
    rwa [hp] at hg

/-- No step puts a leaf into a tree that the store does not hold. -/
theorem Step.leavesStored {σ σ' : PublishState} {ev : PublishEvent}
    (hinv : TreesStored σ)
    (hs : Step σ ev σ') : TreesStored σ' := by
  have hgrow := (hs.grows hinv).extends_
  have hinsert : ∀ {target : Bytes} {merged : WorkingTree}, LeavesStored merged σ.store →
      ∀ (branch : Bytes) (wt : WorkingTree), (σ.trees.insert target merged)[branch]? = some wt →
        LeavesStored wt σ'.store := by
    intro target merged hm branch wt hwt
    rw [ExtTreeMap.getElem?_insert] at hwt
    split at hwt
    · cases hwt
      exact hm.mono hgrow
    · exact (hinv branch wt hwt).mono hgrow
  have hsame : ∀ (branch : Bytes) (wt : WorkingTree), σ.trees[branch]? = some wt →
      LeavesStored wt σ'.store :=
    fun branch wt hwt => (hinv branch wt hwt).mono hgrow
  cases hs with
  | disk => exact hsame
  | write => exact hsame
  | edit h => exact hinsert h
  | @checkpoint branch info flushed =>
      intro b wt hwt
      have htrees : (σ.apply (.checkpoint branch info flushed)).trees = σ.trees :=
        σ.checkpoint_trees branch info flushed
      exact hsame b wt (htrees ▸ hwt)
  | @merge target info targetCp sourceCp merged h =>
      intro b wt hwt
      have htrees := σ.merge_trees target info targetCp sourceCp merged
      rw [show σ.merge target info targetCp sourceCp merged =
        σ.apply (.merge target info targetCp sourceCp merged) from rfl] at htrees
      rcases htrees with htrees | htrees
      · exact hsame b wt (htrees ▸ hwt)
      · exact hinsert h b wt (htrees ▸ hwt)

/-- What a run keeps: leaves are stored, and the graph of a published commit is fixed. -/
structure RunInv (σ : PublishState) : Prop where
  leaves : TreesStored σ
  readable : σ.store.collided = false → ∀ commit ∈ σ.published, ∃ cd,
    σ.store.readCommit commit = some cd ∧ Readable σ.store cd.treeHash

omit [Blake3] in
theorem Opened.runInv {σ : PublishState} (h : σ.Opened) : RunInv σ := by
  obtain ⟨-, -, hpub, hleaves⟩ := h
  exact ⟨hleaves, by simp [hpub]⟩

theorem RunInv.step {σ σ' : PublishState} {ev : PublishEvent} (hinv : RunInv σ) (hs : Step σ ev σ') :
    RunInv σ' := by
  refine ⟨hs.leavesStored hinv.leaves, fun hc commit hmem => ?_⟩
  have hgrow := (hs.grows hinv.leaves).extends_
  have hold : commit ∈ σ.published → ∃ cd, σ'.store.readCommit commit = some cd ∧
      Readable σ'.store cd.treeHash := by
    intro hin
    obtain ⟨cd, hcd, hr⟩ := hinv.readable (hgrow.collided_eq hc) commit hin
    exact ⟨cd, hgrow.readCommit hcd, hr.mono hgrow⟩
  rcases hs.cases hinv.leaves with ⟨hpub, -⟩ | ⟨info, wt, parents, c, hl, hlen, hp, hpub⟩
  · exact hold (hpub ▸ hmem)
  · rw [hpub] at hmem
    rcases List.mem_cons.1 hmem with rfl | hin
    · obtain ⟨treeHash, written, hcommit⟩ := commitPublished_publishCommit hp hlen hl hc
      exact ⟨_, hcommit.readCommit_eq, hcommit.root_written.readable⟩
    · exact hold hin

theorem runInv_of_reaches {σ : PublishState} (h : Reaches Opened Step σ) : RunInv σ :=
  h.invariant (fun _ h₀ => h₀.runInv) fun _ _ _ hinv hs => hinv.step hs

/-- The graph of a commit that was just published is durable exactly when no object of it had
been forgotten before. -/
theorem durable_iff_not_forgotten {σ σ' : PublishState} {ev : PublishEvent} {commit : Hash}
    (hinv : RunInv σ) (hs : Step σ ev σ') (hc : σ'.store.collided = false)
    (hnew : NewlyPublished σ σ' commit) {x : Hash} (hx : InCommit σ'.store commit x) :
    x ∈ σ'.store.durable ↔ ¬ σ.Forgotten x := by
  rcases hs.cases hinv.leaves with ⟨hpub, -⟩ | ⟨info, wt, parents, c, hl, hlen, hp, hpub⟩
  · rw [NewlyPublished, hpub] at hnew
    exact absurd (congrArg List.length hnew) (by simp)
  · obtain rfl : c = commit := (List.cons.inj (hpub.symm.trans hnew)).1
    obtain ⟨treeHash, written, hcommit⟩ := commitPublished_publishCommit hp hlen hl hc
    exact hcommit.durable_iff hx

/-- Durability of the published graphs is kept by a step that meets the condition. -/
theorem AllDurable.step {σ σ' : PublishState} {ev : PublishEvent} (hinv : RunInv σ)
    (hs : Step σ ev σ') (hc : σ'.store.collided = false) (hkeep : KeepsGraphs σ ev σ')
    (hall : AllDurable σ) : AllDurable σ' := by
  have hgrow := hs.grows hinv.leaves
  have hold : ∀ c ∈ σ.published, ∀ x, InCommit σ'.store c x → x ∈ σ'.store.durable := by
    intro c hmem x hx
    obtain ⟨cd, hcd, hr⟩ := hinv.readable (hgrow.extends_.collided_eq hc) c hmem
    exact hgrow.durable_mono (hall c hmem x (hx.of_extends hgrow.extends_ hcd hr))
  intro c hmem x hx
  rcases hs.cases hinv.leaves with ⟨hpub, -⟩ | ⟨-, -, -, c', -, -, -, hpub⟩
  · exact hold c (hpub ▸ hmem) x hx
  · rw [hpub] at hmem
    rcases List.mem_cons.1 hmem with rfl | hmem
    · exact (durable_iff_not_forgotten hinv hs hc hpub hx).2 (hkeep _ hpub x hx)
    · exact hold c hmem x hx

/-- In every run, the graph of a commit just published is durable exactly when no earlier drain
had forgotten an object of it; and while that never happens, every published commit stays
durable in every state. -/
theorem published_durable_iff :
    (∀ σ ev σ' commit, Reaches Opened Step σ → Step σ ev σ' → NewlyPublished σ σ' commit →
      σ'.store.collided = false →
        ((∀ x, InCommit σ'.store commit x → x ∈ σ'.store.durable) ↔
          ∀ x, InCommit σ'.store commit x → ¬ σ.Forgotten x)) ∧
    (∀ σ, Reaches Opened (Restrict Step KeepsGraphs) σ → σ.store.collided = false →
      AllDurable σ) := by
  constructor
  · intro σ ev σ' commit hr hs hnew hc
    have hinv := runInv_of_reaches hr
    exact forall_congr' fun x => forall_congr' fun hx =>
      durable_iff_not_forgotten hinv hs hc hnew hx
  · intro σ hr
    induction hr with
    | @start σ h =>
        intro _ commit hmem
        obtain ⟨-, -, hpub, -⟩ := h
        simp [hpub] at hmem
    | @step σ σ' ev hr hs ih =>
        intro hc
        have hinv := runInv_of_reaches hr.of_restrict
        have hcol := (hs.1.grows hinv.leaves).extends_.collided_eq hc
        exact (ih hcol).step hinv hs.1 hc hs.2

end

/-! ## A blob another branch's checkpoint forgets -/

section ForgottenBlob

local instance : Blake3 := foldDigest

/-- The tree of `b` when it holds one file, `/f`, whose only byte is 7. -/
def treeWithBlob : WorkingTree :=
  WorkingTree.insert {} [[102]] ⟨.blob, objectHash .blob (blobBody [7]), 0o100644⟩

/-- Two branches `a` and `b` on an empty store, after the blob was written and put into `b`. -/
def blobInB : PublishState :=
  { store := (writeBlob {} [7]).1
    refs := {}
    trees := ((∅ : ExtTreeMap Bytes WorkingTree).insert [97] {}).insert [98] treeWithBlob
    published := [] }

/-- Branch `a` has checkpointed. -/
def forgottenInB : PublishState := blobInB.checkpoint [97] ⟨0, 1, [], 0⟩ true

/-- Branch `b` has checkpointed after it. -/
def publishedInB : PublishState := forgottenInB.checkpoint [98] ⟨0, 1, [], 0⟩ true

/-- The run up to the first checkpoint, under any condition that this checkpoint meets. -/
theorem reaches_forgottenInB {cond : PublishState → PublishEvent → PublishState → Prop}
    (hquiet : ∀ σ ev σ', σ'.published = σ.published → cond σ ev σ')
    (hcheckpoint : ∀ ev, cond blobInB ev forgottenInB) :
    Reaches Opened (Restrict Step cond) forgottenInB := by
  have hopened : Opened ⟨{}, {}, (∅ : ExtTreeMap Bytes WorkingTree).insert [97] {}, []⟩ := by
    refine ⟨by simp, rfl, rfl, fun branch wt hwt p e hp => ?_⟩
    rw [ExtTreeMap.getElem?_insert] at hwt
    split at hwt
    · cases hwt
      simp at hp
    · simp at hwt
  have hleaf : LeavesStored treeWithBlob blobInB.store := by
    intro p e hp _ _
    rw [treeWithBlob, lookupRaw_insert] at hp
    split at hp
    · cases hp
      decide +kernel
    · simp at hp
  exact .step (.step (.step (.start hopened) ⟨.write .blob (blobBody [7]), hquiet _ _ _ rfl⟩)
    ⟨.edit hleaf, hquiet _ _ _ rfl⟩) ⟨.checkpoint [97] _ true, hcheckpoint _⟩

/-- Whether `x` is a leaf directly below the root of a commit. -/
def isRootLeaf (s : ObjectStore) (commit x : Hash) : Bool :=
  (s.readCommit commit).any fun cd =>
    (s.dirEntries cd.treeHash).any fun es => es.any fun c => c.2.isLeaf && c.2.hash == x

theorem inCommit_of_isRootLeaf {s : ObjectStore} {commit x : Hash}
    (h : isRootLeaf s commit x = true) : InCommit s commit x := by
  simp only [isRootLeaf, Option.any_eq_true, List.any_eq_true, Bool.and_eq_true,
    beq_iff_eq] at h
  obtain ⟨cd, hcd, es, hes, c, hc, hleaf, rfl⟩ := h
  exact .entry hcd (.here hes hc) (Or.inr hleaf)

theorem newlyPublished_publishedInB : NewlyPublished forgottenInB publishedInB
    (publishedInB.published.headD zeroHash) := by
  unfold NewlyPublished
  decide +kernel

/-- The checkpoint of `b` succeeds and its file is not durable. -/
theorem checkpoint_not_durable :
    ¬ ∀ σ ev σ' commit, Reaches Opened Step σ → Step σ ev σ' → NewlyPublished σ σ' commit →
      σ'.store.collided = false → ∀ x, InCommit σ'.store commit x → x ∈ σ'.store.durable := by
  intro h
  have hreach : Reaches Opened (Restrict Step fun _ _ _ => True) forgottenInB :=
    reaches_forgottenInB (fun _ _ _ _ => trivial) fun _ => trivial
  have hx := h forgottenInB (.checkpoint [98] ⟨0, 1, [], 0⟩ true) publishedInB _
    hreach.of_restrict (.checkpoint [98] _ true)
    newlyPublished_publishedInB (by decide +kernel) (objectHash .blob (blobBody [7]))
    (inCommit_of_isRootLeaf (by decide +kernel))
  revert hx
  decide +kernel

/-- Both parts on this run: the checkpoint of `b` meets a forgotten object, and up to then
everything published was durable. -/
theorem published_durable_iff_publishedInB :
    ((∀ x, InCommit publishedInB.store (publishedInB.published.headD zeroHash) x →
        x ∈ publishedInB.store.durable) ↔
      ∀ x, InCommit publishedInB.store (publishedInB.published.headD zeroHash) x →
        ¬ forgottenInB.Forgotten x) ∧
    AllDurable forgottenInB := by
  have hkeeps : ∀ x, ¬ blobInB.Forgotten x := by
    rintro x ⟨hobj, hpend, -⟩
    have hall : ∀ y ∈ blobInB.store.objects.keys, y ∈ blobInB.store.pending := by decide +kernel
    exact hpend (hall x (ExtTreeMap.mem_keys.2 hobj))
  have hreach : Reaches Opened (Restrict Step KeepsGraphs) forgottenInB :=
    reaches_forgottenInB
      (fun σ _ σ' hsame commit hnew => by
        rw [NewlyPublished, hsame] at hnew
        exact absurd (congrArg List.length hnew) (by simp))
      fun _ _ _ x _ => hkeeps x
  exact ⟨published_durable_iff.1 forgottenInB (.checkpoint [98] ⟨0, 1, [], 0⟩ true) publishedInB _
      hreach.of_restrict (.checkpoint [98] _ true) newlyPublished_publishedInB (by decide +kernel),
    published_durable_iff.2 forgottenInB hreach (by decide +kernel)⟩

end ForgottenBlob

end PublishState
end ContextFS
