import ContextFS.Daemon.HandleStep
import ContextFS.Tree.Closure

/-!
# Renaming one directory onto another

`cas_rename` drops its flags and hands a directory to `rename_dir`, which looks at nothing below
the destination.  The law a caller expects is stated on the live view: the whole subtree moves onto
a destination without live descendants, and an exchange swaps the two subtrees.
-/

namespace ContextFS

open Std Lib ObjectStore WorkingTree

/-- `RENAME_EXCHANGE` is among the flags. -/
def wantsExchange (flags : UInt32) : Bool := flags &&& 2 ≠ 0

/-- `cas_rename` with its flags, which are not looked at. -/
def Daemon.casRenameFlags (d : Daemon) (b : Nat) (source target : FsPath) (_flags : UInt32) :
    Critical :=
  d.casRename b source target

/-- A path check refuses the call. -/
def RenameRefused (source target : FsPath) : Prop :=
  (refuseMutation source .eacces).isSome ∨ (refuseMutation target .eacces).isSome

/-- Something is live strictly below the path. -/
def HasLiveBelow (wt : WorkingTree) (path : FsPath) : Prop :=
  ∃ rest, rest ≠ [] ∧ wt.lookup (path ++ rest) ≠ none

/-- Something is live at or below the path. -/
def HasLiveAt (wt : WorkingTree) (path : FsPath) : Prop :=
  ∃ rest, wt.lookup (path ++ rest) ≠ none

/-- Paths under neither prefix are as before. -/
def SameElsewhere (wt wt' : WorkingTree) (source target : FsPath) : Prop :=
  ∀ q, ¬ source <+: q → ¬ target <+: q → wt'.lookup q = wt.lookup q

/-- The live subtree at the target is the one that was at the source, where nothing is left. -/
structure SubtreeMoved (wt wt' : WorkingTree) (source target : FsPath) : Prop where
  at_target : ∀ rest, wt'.lookup (target ++ rest) = wt.lookup (source ++ rest)
  at_source : ∀ rest, wt'.lookup (source ++ rest) = none
  elsewhere : SameElsewhere wt wt' source target

/-- The two live subtrees have changed places. -/
structure SubtreesSwapped (wt wt' : WorkingTree) (source target : FsPath) : Prop where
  at_target : ∀ rest, wt'.lookup (target ++ rest) = wt.lookup (source ++ rest)
  at_source : ∀ rest, wt'.lookup (source ++ rest) = wt.lookup (target ++ rest)
  elsewhere : SameElsewhere wt wt' source target

/-- What a rename of a directory owes its caller. -/
structure RenameLaw (d d' : Daemon) (wt wt' : WorkingTree) (source target : FsPath) (flags : UInt32)
    (answer : Answer) : Prop where
  failed : ∀ e, answer = .error e → d' = d
  moved : wantsExchange flags = false → answer = .ok .ok → SubtreeMoved wt wt' source target
  occupied : wantsExchange flags = false → HasLiveBelow wt target → ∃ e, answer = .error e
  swapped : wantsExchange flags = true → answer = .ok .ok → SubtreesSwapped wt wt' source target

/-- Nothing live is in the way of the rename. -/
def TargetClear (wt : WorkingTree) (source target : FsPath) (flags : UInt32) : Prop :=
  RenameRefused source target ∨
    if wantsExchange flags then ¬ HasLiveAt wt target else ¬ HasLiveBelow wt target

section Law

variable {wt : WorkingTree} {source target : FsPath}

theorem lookup_renameDir_source (hst : ¬ source <+: target) (hts : ¬ target <+: source)
    (rest : FsPath) : (wt.renameDir source target).lookup (source ++ rest) = none :=
  (moves_renameDir hst hts).at_old _ (List.prefix_append source rest)

/-- Below the target a path keeps its entry when there is nothing to move there. -/
theorem lookup_renameDir_target (hst : ¬ source <+: target) (hts : ¬ target <+: source)
    (rest : FsPath) : (wt.renameDir source target).lookup (target ++ rest) =
      if wt.lookupRaw (source ++ rest) ≠ none then wt.lookup (source ++ rest)
      else wt.lookup (target ++ rest) := by
  have hnot : ¬ source <+: target ++ rest := by
    intro h
    exact not_both_below hst hts h (List.prefix_append target rest)
  rw [lookup_renameDir hst hts, if_neg hnot, List.drop_left]
  simp only [List.prefix_append, true_and]

theorem sameElsewhere_renameDir (hst : ¬ source <+: target) (hts : ¬ target <+: source) :
    SameElsewhere wt (wt.renameDir source target) source target := by
  intro q hs ht
  rw [lookup_renameDir hst hts, if_neg hs, if_neg fun h => ht h.1]

theorem lookup_of_lookupRaw_none {path : FsPath} (h : wt.lookupRaw path = none) :
    wt.lookup path = none := by
  rw [lookup, h]

theorem lookupRaw_ne_none {path : FsPath} {e : WorkingTreeEntry} (h : wt.lookup path = some e) :
    wt.lookupRaw path ≠ none := by
  rw [(lookup_eq_some.1 h).1]
  exact Option.some_ne_none e

/-- A destination without live descendants takes the subtree as it was. -/
theorem subtreeMoved_renameDir (hst : ¬ source <+: target) (hts : ¬ target <+: source)
    (hsource : wt.lookupRaw source ≠ none) (hclear : ¬ HasLiveBelow wt target) :
    SubtreeMoved wt (wt.renameDir source target) source target := by
  refine ⟨fun rest => ?_, lookup_renameDir_source hst hts, sameElsewhere_renameDir hst hts⟩
  rw [lookup_renameDir_target hst hts]
  by_cases hnone : wt.lookupRaw (source ++ rest) = none
  · have hrest : rest ≠ [] := by
      rintro rfl
      rw [List.append_nil] at hnone
      exact hsource hnone
    rw [if_neg (not_not.2 hnone), lookup_of_lookupRaw_none hnone]
    by_contra hlive
    exact hclear ⟨rest, hrest, hlive⟩
  · rw [if_pos hnone]

/-- The move is an exchange exactly when nothing live was at the destination. -/
theorem subtreesSwapped_renameDir_iff (hst : ¬ source <+: target) (hts : ¬ target <+: source) :
    SubtreesSwapped wt (wt.renameDir source target) source target ↔ ¬ HasLiveAt wt target := by
  constructor
  · rintro hswap ⟨rest, hlive⟩
    have hsource := hswap.at_source rest
    rw [lookup_renameDir_source hst hts] at hsource
    exact hlive hsource.symm
  · intro hclear
    have hnone : ∀ rest, wt.lookup (target ++ rest) = none := by
      intro rest
      by_contra hlive
      exact hclear ⟨rest, hlive⟩
    refine ⟨fun rest => ?_, fun rest => ?_, sameElsewhere_renameDir hst hts⟩
    · rw [lookup_renameDir_target hst hts]
      by_cases hraw : wt.lookupRaw (source ++ rest) = none
      · rw [if_neg (not_not.2 hraw), hnone, lookup_of_lookupRaw_none hraw]
      · rw [if_pos hraw]
    · rw [lookup_renameDir_source hst hts, hnone]

end Law

section Rename

variable [Blake3] {d : Daemon} {b : Nat} {br : BranchContext} {source : FsPath}
  {e : WorkingTreeEntry}

/-- A rename of a directory is refused by a path check, or `rename_dir` runs. -/
theorem casRenameFlags_run (target : FsPath) (flags : UInt32) (hbr : d.branch b = some br)
    (he : br.wt.lookup source = some e) (hdir : e.kind = .tree) :
    (RenameRefused source target ∧
      (d.casRenameFlags b source target flags).run d = (.error .eacces, d)) ∨
    (¬ RenameRefused source target ∧
      (d.casRenameFlags b source target flags).run d =
        (.ok .ok, d.modifyTree b fun wt => wt.renameDir source target)) := by
  by_cases hrefused : RenameRefused source target
  · have hcond : ((refuseMutation source .eacces).isSome ||
        (refuseMutation target .eacces).isSome) = true := by
      rw [Bool.or_eq_true]
      exact hrefused
    refine Or.inl ⟨hrefused, ?_⟩
    rw [Daemon.casRenameFlags, Daemon.casRename, if_pos hcond]
    rfl
  · have hcond : ¬ ((refuseMutation source .eacces).isSome ||
        (refuseMutation target .eacces).isSome) = true := by
      rw [Bool.or_eq_true]
      exact hrefused
    refine Or.inr ⟨hrefused, ?_⟩
    rw [Daemon.casRenameFlags, Daemon.casRename, if_neg hcond]
    simp only [Daemon.withBranch, hbr, he, hdir, if_true]
    rfl

/-- A rename of a directory keeps the law exactly when a path check refuses it or nothing live is
in the way: with the exchange flag nothing at or below the target, without it nothing below. -/
theorem casRename_directory_iff {target : FsPath} (flags : UInt32) (hbr : d.branch b = some br)
    (he : br.wt.lookup source = some e) (hdir : e.kind = .tree) (hst : ¬ source <+: target)
    (hts : ¬ target <+: source) :
    ∃ answer d' wt', (d.casRenameFlags b source target flags).run d = (answer, d') ∧
      d'.tree b = some wt' ∧
      (RenameLaw d d' br.wt wt' source target flags answer ↔
        TargetClear br.wt source target flags) := by
  have htree : d.tree b = some br.wt := by
    rw [Daemon.tree, hbr]
    rfl
  obtain ⟨hrefused, hrun⟩ | ⟨hallowed, hrun⟩ :=
    casRenameFlags_run target flags hbr he hdir
  · refine ⟨_, _, _, hrun, htree, iff_of_true ?_ (Or.inl hrefused)⟩
    refine ⟨fun _ _ => rfl, fun _ hok => ?_, fun _ _ => ⟨_, rfl⟩, fun _ hok => ?_⟩
    · cases hok
    · cases hok
  have htree' : (d.modifyTree b fun wt => wt.renameDir source target).tree b =
      some (br.wt.renameDir source target) := by
    rw [Daemon.tree_modifyTree, if_pos rfl, htree]
    rfl
  refine ⟨_, _, _, hrun, htree', ?_⟩
  have hfailed : ∀ err, (Except.ok Reply.ok : Answer) = .error err →
      (d.modifyTree b fun wt => wt.renameDir source target) = d := by
    intro err h
    cases h
  -- an exchange is made like a move, so nothing may be below the destination
  cases hflag : wantsExchange flags with
  | false =>
      constructor
      · intro hlaw
        right
        rw [hflag, if_neg Bool.false_ne_true]
        intro hlive
        obtain ⟨err, herr⟩ := hlaw.occupied hflag hlive
        cases herr
      · rintro (hrefused | hclear)
        · exact absurd hrefused hallowed
        rw [hflag, if_neg Bool.false_ne_true] at hclear
        refine ⟨hfailed, fun _ _ => ?_, fun _ hlive => absurd hlive hclear, fun hex => ?_⟩
        · exact subtreeMoved_renameDir hst hts (lookupRaw_ne_none he) hclear
        · rw [hflag] at hex
          cases hex
  | true =>
      constructor
      · intro hlaw
        right
        rw [hflag, if_pos rfl]
        exact (subtreesSwapped_renameDir_iff hst hts).1 (hlaw.swapped hflag rfl)
      · rintro (hrefused | hclear)
        · exact absurd hrefused hallowed
        rw [hflag, if_pos rfl] at hclear
        refine ⟨hfailed, fun hno => ?_, fun hno => ?_, fun _ _ => ?_⟩
        · rw [hflag] at hno
          cases hno
        · rw [hflag] at hno
          cases hno
        · exact (subtreesSwapped_renameDir_iff hst hts).2 hclear

end Rename

/-! ## A directory renamed onto another one -/

section Occupied

local instance renameDigest : Blake3 := foldDigest

def dirEntry : WorkingTreeEntry := ⟨.tree, zeroHash, 0o40755⟩

def fileEntry : WorkingTreeEntry := ⟨.blob, zeroHash, 0o100644⟩

/-- `/a` with the file `x` and `/b` with the file `y`. -/
def twoDirectories : WorkingTree :=
  ((({} : WorkingTree).insert [[97]] dirEntry).insert [[97], [120]] fileEntry).insert [[98]] dirEntry
    |>.insert [[98], [121]] fileEntry

def twoDirectoriesMounted : Daemon where
  branches := (∅ : ExtTreeMap Nat BranchContext).insert 0 ⟨Refs.mainName, twoDirectories⟩

theorem branch_twoDirectoriesMounted :
    twoDirectoriesMounted.branch 0 = some ⟨Refs.mainName, twoDirectories⟩ := by
  rw [Daemon.branch, twoDirectoriesMounted, ExtTreeMap.getElem?_insert_self]

/-- `/b/y` is below `/b` still. -/
theorem rename_merges_directories :
    ¬∀ (d : Daemon) (b : Nat) (br : BranchContext) (source target : FsPath) (flags : UInt32)
      (e : WorkingTreeEntry) (answer : Answer) (d' : Daemon) (wt' : WorkingTree),
      d.branch b = some br → br.wt.lookup source = some e → e.kind = .tree →
      (∀ t, br.wt.lookup target = some t → t.kind = .tree) →
      ¬ source <+: target → ¬ target <+: source →
      (d.casRenameFlags b source target flags).run d = (answer, d') → d'.tree b = some wt' →
      RenameLaw d d' br.wt wt' source target flags answer := by
  intro h
  have he : twoDirectories.lookup [[97]] = some dirEntry := by decide +kernel
  have ht : twoDirectories.lookup [[98]] = some dirEntry := by decide +kernel
  obtain ⟨hrefused, -⟩ | ⟨-, hrun⟩ :=
    casRenameFlags_run [[98]] 0 branch_twoDirectoriesMounted he rfl
  · rcases hrefused with hr | hr <;> cases hr
  have htree : (twoDirectoriesMounted.modifyTree 0 fun wt => wt.renameDir [[97]] [[98]]).tree 0 =
      some (twoDirectories.renameDir [[97]] [[98]]) := by
    rw [Daemon.tree_modifyTree, if_pos rfl, Daemon.tree, branch_twoDirectoriesMounted]
    rfl
  have hlaw := h _ 0 _ [[97]] [[98]] 0 dirEntry _ _ _ branch_twoDirectoriesMounted he rfl
    (fun t hlook => by rw [ht] at hlook; cases hlook; rfl) (by decide) (by decide) hrun htree
  have hlive : HasLiveBelow twoDirectories [[98]] := ⟨[[121]], by decide, by decide +kernel⟩
  obtain ⟨err, herr⟩ := hlaw.occupied (by decide) hlive
  cases herr

theorem casRename_directory_iff_twoDirectories :
    ∃ answer d' wt',
      (twoDirectoriesMounted.casRenameFlags 0 [[97]] [[99]] 0).run twoDirectoriesMounted =
        (answer, d') ∧
      d'.tree 0 = some wt' ∧
      (RenameLaw twoDirectoriesMounted d' twoDirectories wt' [[97]] [[99]] 0 answer ↔
        TargetClear twoDirectories [[97]] [[99]] 0) :=
  casRename_directory_iff 0 branch_twoDirectoriesMounted
    (show twoDirectories.lookup [[97]] = some dirEntry by decide +kernel) rfl (by decide)
    (by decide)

end Occupied

end ContextFS
