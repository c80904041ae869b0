import ContextFS.Branch.Closure

/-!
# What a commit shows

The live view of a tree, without the hashes of its directories, is what its users see.  The
commit of a closed tree shows the live view of the tree, as long as no file is without content and
no directory has too many children.
-/

namespace ContextFS

open Std Lib ObjectStore WorkingTree

namespace WorkingTree

/-- Two trees show the same: at every path the same kind and mode, and where there is no directory
the same hash. -/
def SameLive (wt wt' : WorkingTree) : Prop :=
  ∀ p, Option.Rel SameView (wt.lookup p) (wt'.lookup p)

/-- The directories of a tree fit the count of a tree object. -/
def FitsCounts (wt : WorkingTree) : Prop := ∀ dir, (childrenOf wt dir).length < 2 ^ 32

/-- Nothing recorded in a tree is a leaf without content, and there is nothing at the root. -/
structure Storable (wt : WorkingTree) : Prop where
  content : ∀ p e, wt.lookupRaw p = some e → e.isNullLeaf = false
  root : wt.lookupRaw [] = none

theorem SameLive.refl (wt : WorkingTree) : wt.SameLive wt := by
  intro p
  cases wt.lookup p with
  | none => exact .none
  | some e => exact .some (.refl e)

theorem SameLive.symm {wt wt' : WorkingTree} (h : wt.SameLive wt') : wt'.SameLive wt := by
  intro p
  have hp := h p
  generalize wt.lookup p = a at hp ⊢
  generalize wt'.lookup p = b at hp ⊢
  cases hp with
  | some hview => exact .some hview.symm
  | none => exact .none

theorem SameLive.trans {wt wt' wt'' : WorkingTree} (h : wt.SameLive wt') (h' : wt'.SameLive wt'') :
    wt.SameLive wt'' := by
  intro p
  have hp := h p
  have hp' := h' p
  generalize wt.lookup p = a at hp ⊢
  generalize wt'.lookup p = b at hp hp'
  generalize wt''.lookup p = c at hp' ⊢
  cases hp with
  | some hview =>
      cases hp' with
      | some hview' => exact .some (hview.trans hview')
  | none =>
      cases hp'
      exact .none

end WorkingTree

/-- A tree that holds what was written for a closed tree shows the same. -/
theorem sameLive_of_dirWritten {wt wt' : WorkingTree} {st : SerializeState} {root : Hash}
    (hdir : DirWritten wt st [] root) (hclosed : wt.Closed) (hnamed : wt.WellNamed)
    (hcounts : wt.FitsCounts) (hstorable : wt.Storable)
    (hraw : ∀ p e, wt'.lookupRaw p = some e ↔ InTree st.store root p e) : wt'.SameLive wt := by
  have hfit : FitsTreeFormat wt :=
    ⟨fun p e hp n hn => (hnamed p (by simp [hp]) n hn).2, hcounts⟩
  intro p
  cases hp : wt.lookup p with
  | some e =>
      obtain ⟨hlive, hk⟩ := lookup_eq_some.1 hp
      have hp0 : p ≠ [] := by
        rintro rfl
        rw [hstorable.root] at hlive
        cases hlive
      have hgood : GoodPath p := hnamed p (by simp [hlive])
      have hlinked : Linked wt [] p e :=
        hclosed.linked hp0 hp (hstorable.content p e hlive) fun n hn => (hgood n hn).1
      obtain ⟨e', hin, hview⟩ := hdir.found_of_linked hfit hlinked
      have hp' : wt'.lookup p = some e' :=
        lookup_eq_some.2 ⟨(hraw p e').2 hin, hview.1 ▸ hk⟩
      rw [hp']
      exact .some hview.symm
  | none =>
      cases hp' : wt'.lookup p with
      | none => exact .none
      | some e' =>
          obtain ⟨hlive', hk'⟩ := lookup_eq_some.1 hp'
          obtain ⟨e, hlinked, hview⟩ := hdir.linked_of_found hfit ((hraw p e').1 hlive')
          have hlive : wt.lookup p = some e :=
            lookup_eq_some.2 ⟨hlinked.lookupRaw_eq, hview.1 ▸ hk'⟩
          rw [hp] at hlive
          cases hlive

/-- Nothing that was written is a leaf without content. -/
theorem content_of_dirWritten {wt wt' : WorkingTree} {st : SerializeState} {root : Hash}
    (hdir : DirWritten wt st [] root)
    (hraw : ∀ p e, wt'.lookupRaw p = some e ↔ InTree st.store root p e) : wt'.Storable where
  content := by
    intro p e hp
    cases hleaf : e.isLeaf with
    | false => simp [WorkingTreeEntry.isNullLeaf, hleaf]
    | true =>
        obtain ⟨-, -, -, -, -, -, hz⟩ :=
          mem_referencedLeafHashes.1 (hdir.leaf_mem ((hraw p e).1 hp) hleaf)
        simp [WorkingTreeEntry.isNullLeaf, hz]
  root := by
    cases hroot : wt'.lookupRaw [] with
    | none => rfl
    | some e => exact absurd rfl ((hraw [] e).1 hroot).ne_nil

theorem readCommitData_eq {s : ObjectStore} {commit : Hash} {cd : CommitData} :
    readCommitData s commit = .ok cd ↔ s.readCommit commit = some cd := by
  unfold readCommitData ObjectStore.readCommit
  cases s.readObject commit .commit with
  | none => simp
  | some body =>
      simp only
      cases hd : deserializeCommit body with
      | error err => simp [Except.toOption]
      | ok cd' => simp [Except.toOption]

/-- What is loaded from a commit is what its tree contains. -/
theorem lookupRaw_loadCommitTree {s : ObjectStore} (hs : Contents GoodTreeFile s) {fuel : Nat}
    {commit : Hash} {wt : WorkingTree} (hok : loadCommitTree s fuel commit = some (.ok wt)) :
    ∃ cd, s.readCommit commit = some cd ∧
      ∀ p e, wt.lookupRaw p = some e ↔ InTree s cd.treeHash p e := by
  unfold loadCommitTree at hok
  cases hread : readCommitData s commit with
  | error err =>
      rw [hread] at hok
      cases hok
  | ok cd =>
      rw [hread] at hok
      simp only at hok
      refine ⟨cd, readCommitData_eq.1 hread, fun p e => ?_⟩
      split at hok
      · cases hok
      · cases hok
      · rename_i hrebuild
        cases hok
        exact lookupRaw_rebuildWorkingTree hrebuild (singleValued_of_contents hs cd.treeHash) p e

/-! ## What a merge shows -/

/-- A merged entry is one of the source's or the target's, or it is the base's and the target has
the same. -/
theorem mergeState_cases {b s t state : EntryState} (h : mergeState b s t = some state) :
    state = s ∨ state = t ∨ state = b ∧ sameEntry b t = true := by
  unfold mergeState at h
  split at h
  · split at h
    · rename_i hbt
      exact Or.inr (Or.inr ⟨(Option.some.inj h).symm, hbt⟩)
    · exact Or.inr (Or.inl (Option.some.inj h).symm)
  · rename_i hbs
    split at h
    · exact Or.inl (Option.some.inj h).symm
    · split at h
      · rw [← Option.some.inj h]
        unfold equivalentMergeState
        split
        · exact Or.inl rfl
        · split
          · exact Or.inr (Or.inl rfl)
          · cases s with
            | none => exact Or.inr (Or.inl rfl)
            | some e => exact Or.inl rfl
      · cases h

/-- Entries that `same_entry` does not tell apart show the same. -/
theorem sameView_of_sameEntry {a b : WorkingTreeEntry} (h : sameEntry (some a) (some b) = true) :
    SameView a b := by
  simp only [sameEntry, Bool.and_eq_true, Bool.or_eq_true, decide_eq_true_eq] at h
  obtain ⟨⟨hk, hm⟩, hh⟩ := h
  refine ⟨hk, hm, fun hne => ?_⟩
  rcases hh with hh | hh
  · exact absurd hh hne
  · exact hh

/-- A merge makes no leaf without content and puts nothing at the root. -/
theorem storable_mergeTrees {base source target : WorkingTree}
    (hok : (mergeTrees base source target).ok = true) (hsource : source.Storable)
    (htarget : target.Storable) : (mergeTrees base source target).merged.Storable := by
  have hcases : ∀ p e, (mergeTrees base source target).merged.lookupRaw p = some e →
      source.lookupRaw p = some e ∨ target.lookupRaw p = some e ∨
        ∃ e', target.lookupRaw p = some e' ∧ SameView e e' := by
    intro p e hp
    have hstate := lookupRaw_mergeTrees hok p
    rw [hp] at hstate
    rcases mergeState_cases hstate.symm with h | h | ⟨h, hbt⟩
    · exact Or.inl h.symm
    · exact Or.inr (Or.inl h.symm)
    · refine Or.inr (Or.inr ?_)
      rw [← h] at hbt
      cases ht : target.lookupRaw p with
      | none =>
          rw [ht] at hbt
          cases hbt
      | some e' =>
          rw [ht] at hbt
          exact ⟨e', rfl, sameView_of_sameEntry hbt⟩
  constructor
  · intro p e hp
    rcases hcases p e hp with h | h | ⟨e', h, hview⟩
    · exact hsource.content p e h
    · exact htarget.content p e h
    · have hnull := htarget.content p e' h
      cases hleaf : e.isLeaf with
      | false => simp [WorkingTreeEntry.isNullLeaf, hleaf]
      | true =>
          have hleaf' : e'.isLeaf = true := by
            rw [← hleaf, WorkingTreeEntry.isLeaf, WorkingTreeEntry.isLeaf, hview.1]
          rw [WorkingTreeEntry.isNullLeaf, hleaf', Bool.true_and] at hnull
          rw [WorkingTreeEntry.isNullLeaf, hleaf, Bool.true_and,
            hview.2.2 (isLeaf_kind_ne_tree hleaf)]
          exact hnull
  · cases hroot : (mergeTrees base source target).merged.lookupRaw [] with
    | none => rfl
    | some e =>
        rcases hcases [] e hroot with h | h | ⟨e', h, -⟩
        · rw [hsource.root] at h
          cases h
        · rw [htarget.root] at h
          cases h
        · rw [htarget.root] at h
          cases h

/-! ## What a published commit shows -/

section Publish

variable [Blake3] {info : CommitMeta} {wt wt' : WorkingTree} {parents : List Hash}
  {s s' s'' : ObjectStore} {commit : Hash}

/-- A commit that was published can be read, and its tree is what was written for `wt`. -/
theorem dirWritten_publishCommit (hok : publishCommit info wt parents s = (.ok commit, s'))
    (hparents : parents.length < 2 ^ 27) (he : Extends s' s'') (hc : s''.collided = false) :
    s''.readCommit commit =
        some (info.commitData (serializeWorkingTree wt s).root parents).narrowLabel ∧
      DirWritten wt ⟨s'', ∅, (serializeWorkingTree wt s).written⟩ []
        (serializeWorkingTree wt s).root := by
  obtain ⟨r, w, rfl, hroot, hw, hne, rfl, hsync⟩ := publishCommit_ok hok
  have hpub : Published (serializeWorkingTree wt s).store w.1 := by
    rw [hw]
    exact published_writeObject _ _ _
  have hws : Extends w.1 s' := by
    have hg := (grows_fsyncCommitted w.1 wt (serializeWorkingTree wt s).written w.2).extends_
    rwa [hsync] at hg
  have hws' := hws.trans he
  have hcw := hws'.collided_eq hc
  have hdir := dirWritten_serializeWorkingTree hroot (hpub.extends_.collided_eq hcw)
  refine ⟨hws'.readCommit ?_, hdir.mono (hpub.extends_.trans hws') fun _ hx => hx⟩
  rw [hw] at hne hcw ⊢
  exact readCommit_writeCommit hparents hne hcw

/-- What is loaded from a published commit is what was written for its tree. -/
theorem lookupRaw_of_published (hok : publishCommit info wt parents s = (.ok commit, s'))
    (hparents : parents.length < 2 ^ 27) (he : Extends s' s'') (hc : s''.collided = false)
    (hs : Contents GoodTreeFile s'') {fuel : Nat}
    (hload : loadCommitTree s'' fuel commit = some (.ok wt')) (p : FsPath)
    (e : WorkingTreeEntry) :
    wt'.lookupRaw p = some e ↔ InTree s'' (serializeWorkingTree wt s).root p e := by
  obtain ⟨cd, hcd, hraw⟩ := lookupRaw_loadCommitTree hs hload
  obtain ⟨hread, -⟩ := dirWritten_publishCommit hok hparents he hc
  rw [hread, Option.some.injEq] at hcd
  subst hcd
  exact hraw p e

/-- The tree of a published commit holds no leaf without content. -/
theorem storable_of_published (hok : publishCommit info wt parents s = (.ok commit, s'))
    (hparents : parents.length < 2 ^ 27) (he : Extends s' s'') (hc : s''.collided = false)
    (hs : Contents GoodTreeFile s'') {fuel : Nat}
    (hload : loadCommitTree s'' fuel commit = some (.ok wt')) : wt'.Storable :=
  content_of_dirWritten (dirWritten_publishCommit hok hparents he hc).2
    (lookupRaw_of_published hok hparents he hc hs hload)

/-- The commit of a closed tree shows the live view of the tree. -/
theorem sameLive_of_published (hok : publishCommit info wt parents s = (.ok commit, s'))
    (hparents : parents.length < 2 ^ 27) (he : Extends s' s'') (hc : s''.collided = false)
    (hs : Contents GoodTreeFile s'') (hclosed : wt.Closed) (hnamed : wt.WellNamed)
    (hcounts : wt.FitsCounts) (hstorable : wt.Storable) {fuel : Nat}
    (hload : loadCommitTree s'' fuel commit = some (.ok wt')) : wt'.SameLive wt :=
  sameLive_of_dirWritten (dirWritten_publishCommit hok hparents he hc).2 hclosed hnamed hcounts
    hstorable (lookupRaw_of_published hok hparents he hc hs hload)

/-- With enough fuel a published commit can be loaded. -/
theorem exists_load_of_published (hok : publishCommit info wt parents s = (.ok commit, s'))
    (hparents : parents.length < 2 ^ 27) (he : Extends s' s'') (hc : s''.collided = false) :
    ∃ n wt', ∀ fuel ≥ n, loadCommitTree s'' fuel commit = some (.ok wt') := by
  obtain ⟨hread, hdir⟩ := dirWritten_publishCommit hok hparents he hc
  obtain ⟨n, m, hm⟩ := hdir.readable.exists_rebuildWorkingTree {}
  refine ⟨n, WorkingTree.setBase {} m, fun fuel hfuel => ?_⟩
  have hrebuild : rebuildWorkingTree fuel
      (info.commitData (serializeWorkingTree wt s).root parents).narrowLabel.treeHash s'' {} =
        some (.ok (WorkingTree.setBase {} m)) := hm fuel hfuel
  simp only [loadCommitTree, readCommitData_eq.2 hread, hrebuild]

end Publish
end ContextFS
