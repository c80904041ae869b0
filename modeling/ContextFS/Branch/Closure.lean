import ContextFS.Branch.Merge
import ContextFS.Tree.Closure

/-!
# Branch operations keep trees closed

A merge that succeeds leaves nothing below a leaf: it looks at every ancestor a merged path has
an entry for, and a closed tree has one for all of them.  Commits are written from well-named
trees, so whatever is loaded from a commit is closed.
-/

namespace ContextFS

open Std Lib ObjectStore WorkingTree

section Merge

variable {base source target : WorkingTree}

/-- A merged entry is the entry of one of the three trees. -/
theorem eq_of_mergeState {b s t state : EntryState} (h : mergeState b s t = some state) :
    state = b ∨ state = s ∨ state = t := by
  unfold mergeState at h
  split at h
  · split at h
    · exact Or.inl (Option.some.inj h).symm
    · exact Or.inr (Or.inr (Option.some.inj h).symm)
  · split at h
    · exact Or.inr (Or.inl (Option.some.inj h).symm)
    · split at h
      · rw [← Option.some.inj h]
        unfold equivalentMergeState
        split
        · exact Or.inr (Or.inl rfl)
        · split
          · exact Or.inr (Or.inr rfl)
          · cases s with
            | none => exact Or.inr (Or.inr rfl)
            | some e => exact Or.inr (Or.inl rfl)
      · cases h

theorem exists_lookupRaw_of_mergeTrees (hok : (mergeTrees base source target).ok = true)
    {p : FsPath} {e : WorkingTreeEntry}
    (hp : (mergeTrees base source target).merged.lookupRaw p = some e) :
    ∃ wt ∈ [base, source, target], wt.lookupRaw p = some e := by
  have hstate := lookupRaw_mergeTrees hok p
  rw [hp] at hstate
  rcases eq_of_mergeState hstate.symm with h | h | h
  · exact ⟨base, by simp, h.symm⟩
  · exact ⟨source, by simp, h.symm⟩
  · exact ⟨target, by simp, h.symm⟩

/-- A merge of closed trees that succeeds gives a closed tree. -/
theorem closed_mergeTrees (hok : (mergeTrees base source target).ok = true)
    (hclosed : ∀ wt ∈ [base, source, target], wt.Closed) :
    (mergeTrees base source target).merged.Closed := by
  intro p e hp q hq hq0 hqp
  obtain ⟨hraw, hlive⟩ := lookup_eq_some.1 hp
  obtain ⟨wt, hwt, he⟩ := exists_lookupRaw_of_mergeTrees hok hraw
  obtain ⟨d, hd, -⟩ := hclosed wt hwt p e (lookup_eq_some.2 ⟨he, hlive⟩) q hq hq0 hqp
  have hmem : ∀ {x : FsPath} {f : WorkingTreeEntry}, wt.lookupRaw x = some f →
      x ∈ mergePaths base source target := by
    intro x f hx
    rw [mem_mergePaths]
    simp only [List.mem_cons, List.not_mem_nil, or_false] at hwt
    rcases hwt with rfl | rfl | rfl
    · exact Or.inl (by simp [hx])
    · exact Or.inr (Or.inl (by simp [hx]))
    · exact Or.inr (Or.inr (by simp [hx]))
  obtain ⟨hnoConflict, hstruct⟩ := mergeTrees_ok.1 hok
  have hstate := lookupRaw_mergeTrees hok q
  have hpstate := lookupRaw_mergeTrees hok p
  rw [hraw] at hpstate
  have hpget : (mergedStates base source target)[p]? = some (some e) := by
    rw [getElem?_mergedStates, if_pos (hmem he), ← hpstate]
  have hqget : (mergedStates base source target)[q]? =
      some ((mergeTrees base source target).merged.lookupRaw q) := by
    rw [getElem?_mergedStates, if_pos (hmem (lookup_eq_some.1 hd).1), hstate]
  have htree := hstruct p (some e) hpget (by simpa [isAbsent] using hlive) q
    (mem_properAncestors.2 ⟨hq, hq0, hqp⟩) _ hqget
  cases hm : (mergeTrees base source target).merged.lookupRaw q with
  | none => simp [hm, isTree] at htree
  | some f =>
      have hk : f.kind = .tree := by simpa [hm, isTree] using htree
      exact ⟨f, lookup_eq_some.2 ⟨hm, by simp [hk]⟩, hk⟩

theorem wellNamed_mergeTrees (hok : (mergeTrees base source target).ok = true)
    (hnamed : ∀ wt ∈ [base, source, target], wt.WellNamed) :
    (mergeTrees base source target).merged.WellNamed := by
  intro p hp
  obtain ⟨e, he⟩ := Option.ne_none_iff_exists'.1 hp
  obtain ⟨wt, hwt, hraw⟩ := exists_lookupRaw_of_mergeTrees hok he
  exact hnamed wt hwt p (by simp [hraw])

end Merge

/-- What is loaded from a commit of a good store is closed and well named. -/
theorem closed_loadCommitTree {s : ObjectStore} (hs : Contents GoodTreeFile s) {fuel : Nat}
    {commit : Hash} {wt : WorkingTree} (hok : loadCommitTree s fuel commit = some (.ok wt)) :
    wt.Closed ∧ wt.WellNamed := by
  unfold loadCommitTree at hok
  split at hok
  · cases hok
  · split at hok
    · cases hok
    · cases hok
    · rename_i hrebuild
      cases hok
      exact closed_rebuildWorkingTree hs hrebuild

/-- A publication of a well-named tree keeps the tree objects of the store good. -/
theorem contents_goodTreeFile_publishCommit [Blake3] {info : CommitMeta} {wt : WorkingTree}
    {parents : List Hash} {s : ObjectStore} (h : wt.WellNamed) (hs : Contents GoodTreeFile s) :
    Contents GoodTreeFile (publishCommit info wt parents s).2 :=
  (contents_goodTreeFile_serialize h hs).publishCommit
    fun cd => goodTreeFile_of_tag_ne (by decide) (serializeCommit cd)

end ContextFS
