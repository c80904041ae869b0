import ContextFS.Branch.Checkpoint

/-!
# Merging the trees of two branches

`merge_trees` decides path by path from the raw entries of the base, the source and the target,
then looks for live paths below something that is not a directory.  The base is a common
ancestor of the two commits: one that is not an ancestor of another common ancestor, and of
those the least in hexadecimal order.
-/

namespace ContextFS

open Std ObjectStore WorkingTree

/-- `std::optional<WorkingTreeEntry>`. -/
abbrev EntryState := Option WorkingTreeEntry

/-- `same_entry`: a whiteout differs from no entry, and two directories agree when their modes
do. -/
def sameEntry : EntryState → EntryState → Bool
  | none, none => true
  | some a, some b =>
      a.kind = b.kind && a.mode = b.mode && (a.kind = .tree || a.hash = b.hash)
  | _, _ => false

/-- `is_absent`. -/
def isAbsent : EntryState → Bool
  | none => true
  | some e => e.kind = .deleted

/-- `same_merge_state`. -/
def sameMergeState (a b : EntryState) : Bool := isAbsent a && isAbsent b || sameEntry a b

/-- `equivalent_merge_state`: a whiteout is kept. -/
def equivalentMergeState (a b : EntryState) : EntryState :=
  if a.any fun e => e.kind = .deleted then a
  else if b.any fun e => e.kind = .deleted then b
  else a.or b

/-- One path of `merge_trees`; `none` is a conflict. -/
def mergeState (base source target : EntryState) : Option EntryState :=
  if sameEntry base source then
    if sameEntry base target then some base else some target
  else if sameEntry base target then some source
  else if sameMergeState source target then some (equivalentMergeState source target)
  else none

/-- The order of the path strings. -/
def pathLe (p q : FsPath) : Bool := compare (pathString p) (pathString q) ≠ .gt

/-- The paths of the three trees, sorted and without repetition. -/
def mergePaths (base source target : WorkingTree) : List FsPath :=
  ((base.entries ++ source.entries ++ target.entries).map Prod.fst).dedup.insertionSort
    fun p q => pathLe p q

/-- The decision of `merge_trees` at a path. -/
def mergeStateAt (base source target : WorkingTree) (path : FsPath) : Option EntryState :=
  mergeState (base.lookupRaw path) (source.lookupRaw path) (target.lookupRaw path)

/-- `merged_states`. -/
def mergedStates (base source target : WorkingTree) : ExtTreeMap FsPath EntryState :=
  (mergePaths base source target).foldl (fun states path =>
    match mergeStateAt base source target path with
    | some state => states.insert path state
    | none => states) ∅

/-- The proper ancestors below the root, the nearest first. -/
def properAncestors (path : FsPath) : List FsPath :=
  (path.inits.filter fun q => q ≠ [] ∧ q ≠ path).reverse

/-- `is_tree`. -/
def isTree (state : EntryState) : Bool := state.any fun e => e.kind = .tree

/-- One path of `detect_structural_conflicts`. -/
def structuralConflict (states : ExtTreeMap FsPath EntryState) (path : FsPath)
    (state : EntryState) : Option FsPath :=
  if isAbsent state then none
  else
    (properAncestors path).find? fun q =>
      match states[q]? with
      | some state => !isTree state
      | none => false

/-- `detect_structural_conflicts`. -/
def structuralConflicts (states : ExtTreeMap FsPath EntryState) : List FsPath :=
  states.toList.filterMap fun ps => structuralConflict states ps.1 ps.2

structure MergeResult where
  ok : Bool
  error : String
  conflicts : List FsPath
  merged : WorkingTree

/-- `apply_state`. -/
def applyState (wt : WorkingTree) (ps : FsPath × EntryState) : WorkingTree :=
  match ps.2 with
  | some e => wt.insert ps.1 e
  | none => wt

/-- `merge_trees`. -/
def mergeTrees (base source target : WorkingTree) : MergeResult :=
  let states := mergedStates base source target
  let conflicts := (mergePaths base source target).filter fun path =>
    (mergeStateAt base source target path).isNone
  let all := ((conflicts ++ structuralConflicts states).insertionSort fun p q => pathLe p q).dedup
  if all = [] then ⟨true, "", [], states.toList.foldl applyState {}⟩
  else ⟨false, "merge conflicts", all, {}⟩

/-! ## What a merge that succeeds decides -/

section Spec

variable {base source target : WorkingTree}

theorem mem_mergePaths {p : FsPath} :
    p ∈ mergePaths base source target ↔
      base.lookupRaw p ≠ none ∨ source.lookupRaw p ≠ none ∨ target.lookupRaw p ≠ none := by
  have hentries : ∀ wt : WorkingTree, p ∈ wt.entries.map Prod.fst ↔ wt.lookupRaw p ≠ none := by
    intro wt
    simp only [List.mem_map, Prod.exists, exists_and_right, exists_eq_right, mem_entries,
      Option.ne_none_iff_exists']
  rw [mergePaths, List.mem_insertionSort, List.mem_dedup, List.map_append, List.map_append,
    List.mem_append, List.mem_append, hentries, hentries, hentries, or_assoc]

/-- A path that none of the three trees has is merged to nothing. -/
theorem mergeStateAt_of_notMem {p : FsPath} (hp : p ∉ mergePaths base source target) :
    mergeStateAt base source target p = some none := by
  rw [mem_mergePaths] at hp
  push Not at hp
  obtain ⟨hb, hs, ht⟩ := hp
  simp [mergeStateAt, hb, hs, ht, mergeState, sameEntry]

theorem getElem?_foldl_mergeState (l : List FsPath) (m : ExtTreeMap FsPath EntryState)
    (p : FsPath) :
    (l.foldl (fun states path =>
      match mergeStateAt base source target path with
      | some state => states.insert path state
      | none => states) m)[p]? =
        if p ∈ l ∧ mergeStateAt base source target p ≠ none then mergeStateAt base source target p
        else m[p]? := by
  induction l generalizing m with
  | nil => simp
  | cons q l ih =>
      rw [List.foldl_cons, ih]
      by_cases hin : p ∈ l ∧ mergeStateAt base source target p ≠ none
      · rw [if_pos hin, if_pos ⟨List.mem_cons_of_mem q hin.1, hin.2⟩]
      · rw [if_neg hin]
        by_cases hqp : q = p
        · subst hqp
          cases hst : mergeStateAt base source target q with
          | none => simp
          | some state => simp
        · have hiff : (p ∈ q :: l ∧ mergeStateAt base source target p ≠ none) ↔
              (p ∈ l ∧ mergeStateAt base source target p ≠ none) := by
            rw [List.mem_cons]
            constructor
            · rintro ⟨h | h, hne⟩
              · exact absurd h.symm hqp
              · exact ⟨h, hne⟩
            · exact fun h => ⟨Or.inr h.1, h.2⟩
          rw [if_neg (fun h => hin (hiff.1 h))]
          cases hst : mergeStateAt base source target q with
          | none => rfl
          | some state => simp [ExtTreeMap.getElem?_insert, hqp]

theorem getElem?_mergedStates (p : FsPath) :
    (mergedStates base source target)[p]? =
      if p ∈ mergePaths base source target then mergeStateAt base source target p else none := by
  rw [mergedStates, getElem?_foldl_mergeState]
  by_cases hp : p ∈ mergePaths base source target
  · by_cases hst : mergeStateAt base source target p = none
    · simp [hp, hst]
    · simp [hp, hst]
  · simp [hp]

@[simp] theorem mem_properAncestors {p q : FsPath} :
    q ∈ properAncestors p ↔ q <+: p ∧ q ≠ [] ∧ q ≠ p := by
  simp [properAncestors, List.mem_inits]

/-- The tree has a live path below the root only where every ancestor it has an entry for is a
directory. -/
def NothingUnderLeaf (states : ExtTreeMap FsPath EntryState) : Prop :=
  ∀ p state, states[p]? = some state → isAbsent state = false → ∀ q ∈ properAncestors p,
    ∀ state', states[q]? = some state' → isTree state' = true

theorem structuralConflicts_eq_nil {states : ExtTreeMap FsPath EntryState} :
    structuralConflicts states = [] ↔ NothingUnderLeaf states := by
  unfold structuralConflicts NothingUnderLeaf
  rw [List.filterMap_eq_nil_iff]
  constructor
  · intro h p state hp hlive q hq state' hq'
    have hnone := h (p, state) (ExtTreeMap.mem_toList_iff_getElem?_eq_some.2 hp)
    simp only [structuralConflict, hlive, Bool.false_eq_true, if_false, List.find?_eq_none] at hnone
    have hfind := hnone q hq
    rw [hq'] at hfind
    simpa using hfind
  · rintro h ⟨p, state⟩ hps
    have hp := ExtTreeMap.mem_toList_iff_getElem?_eq_some.1 hps
    unfold structuralConflict
    cases hlive : isAbsent state with
    | true => rfl
    | false =>
        simp only [Bool.false_eq_true, if_false, List.find?_eq_none]
        intro q hq
        cases hq' : states[q]? with
        | none => simp
        | some state' => simp [h p state hp hlive q hq state' hq']

/-- A merge succeeds when no path conflicts and nothing ends up below a leaf. -/
theorem mergeTrees_ok :
    (mergeTrees base source target).ok = true ↔
      (∀ p, mergeStateAt base source target p ≠ none) ∧
        NothingUnderLeaf (mergedStates base source target) := by
  have hall : ∀ a b : List FsPath, ((a ++ b).insertionSort fun p q => pathLe p q).dedup = [] ↔
      a = [] ∧ b = [] := by
    intro a b
    rw [List.dedup_eq_nil, ← List.append_eq_nil_iff]
    constructor
    · exact fun h => by simpa [h] using (List.perm_insertionSort (fun p q => pathLe p q) (a ++ b)).symm
    · rintro h
      rw [h]
      rfl
  have hconf : ((mergePaths base source target).filter fun path =>
      (mergeStateAt base source target path).isNone) = [] ↔
        ∀ p, mergeStateAt base source target p ≠ none := by
    rw [List.filter_eq_nil_iff]
    constructor
    · intro h p hn
      by_cases hp : p ∈ mergePaths base source target
      · exact h p hp (by simp [hn])
      · rw [mergeStateAt_of_notMem hp] at hn
        cases hn
    · intro h p _ hn
      exact h p (by simpa using hn)
  rw [← hconf, ← structuralConflicts_eq_nil, ← hall]
  unfold mergeTrees
  simp only
  split
  · rename_i h
    simp only [h]
  · rename_i h
    simp only [h, Bool.false_eq_true]

theorem lookupRaw_foldl_applyState (l : List (FsPath × EntryState)) (wt : WorkingTree) (p : FsPath)
    (hnd : (l.map Prod.fst).Nodup) :
    (l.foldl applyState wt).lookupRaw p =
      match l.find? fun ps => ps.1 = p with
      | some (_, some e) => some e
      | _ => wt.lookupRaw p := by
  induction l generalizing wt with
  | nil => rfl
  | cons a l ih =>
      rw [List.map_cons, List.nodup_cons] at hnd
      rw [List.foldl_cons, ih _ hnd.2]
      obtain ⟨q, state⟩ := a
      by_cases hqp : q = p
      · subst hqp
        have hnone : l.find? (fun ps => ps.1 = q) = none := by
          rw [List.find?_eq_none]
          intro x hx heq
          exact hnd.1 (List.mem_map.2 ⟨x, hx, by simpa using heq⟩)
        cases state with
        | none => simp [hnone, applyState]
        | some e => simp [hnone, applyState, lookupRaw_insert]
      · have hkeep : (applyState wt (q, state)).lookupRaw p = wt.lookupRaw p := by
          cases state with
          | none => rfl
          | some e => simp [applyState, lookupRaw_insert, hqp]
        rw [hkeep]
        simp [hqp]

/-- The merged tree holds at every path what the decision for this path says. -/
theorem lookupRaw_mergeTrees (hok : (mergeTrees base source target).ok = true) (p : FsPath) :
    some ((mergeTrees base source target).merged.lookupRaw p) =
      mergeStateAt base source target p := by
  have hmerged : (mergeTrees base source target).merged =
      (mergedStates base source target).toList.foldl applyState {} := by
    unfold mergeTrees at hok ⊢
    simp only at hok ⊢
    split
    · rfl
    · rename_i hne
      rw [if_neg hne] at hok
      cases hok
  have hnd : ((mergedStates base source target).toList.map Prod.fst).Nodup := by
    rw [ExtTreeMap.map_fst_toList_eq_keys]
    exact ExtTreeMap.nodup_keys
  rw [hmerged, lookupRaw_foldl_applyState _ _ _ hnd, lookupRaw_empty]
  have hget : (mergedStates base source target)[p]? = _ := getElem?_mergedStates p
  cases hf : (mergedStates base source target).toList.find? fun ps => ps.1 = p with
  | none =>
      have hnone : (mergedStates base source target)[p]? = none := by
        cases hm : (mergedStates base source target)[p]? with
        | none => rfl
        | some state =>
            have hmem := ExtTreeMap.mem_toList_iff_getElem?_eq_some.2 hm
            simpa using List.find?_eq_none.1 hf _ hmem
      rw [hnone] at hget
      by_cases hp : p ∈ mergePaths base source target
      · rw [if_pos hp] at hget
        exact absurd hget.symm ((mergeTrees_ok.1 hok).1 p)
      · exact (mergeStateAt_of_notMem hp).symm
  | some ps =>
      obtain ⟨q, state⟩ := ps
      have hq : q = p := by simpa using List.find?_some hf
      subst hq
      have hm := ExtTreeMap.mem_toList_iff_getElem?_eq_some.1 (List.mem_of_find?_eq_some hf)
      rw [hm] at hget
      by_cases hp : q ∈ mergePaths base source target
      · rw [if_pos hp] at hget
        cases state <;> exact hget
      · rw [if_neg hp] at hget
        cases hget

end Spec

/-! ## Common ancestors -/

/-- `read_commit_data`. -/
def readCommitData (s : ObjectStore) (h : Hash) : Except String CommitData :=
  match s.readObject h .commit with
  | none => .error ("failed to read commit " ++ bytesText (hashToHex h))
  | some body =>
      match deserializeCommit body with
      | .error _ => .error ("failed to parse commit " ++ bytesText (hashToHex h))
      | .ok cd => .ok cd

/-- `AncestorMap`, by the hexadecimal form of the hash. -/
abbrev AncestorMap := ExtTreeMap Bytes Hash

/-- The loop of `collect_ancestors`; `none` when the fuel runs out. -/
def collectAncestors (s : ObjectStore) :
    Nat → List Hash → AncestorMap → Option (Except String AncestorMap)
  | 0, _, _ => none
  | _ + 1, [], ancestors => some (.ok ancestors)
  | fuel + 1, h :: q, ancestors =>
      if ancestors.contains (hashToHex h) then collectAncestors s fuel q ancestors
      else
        match readCommitData s h with
        | .error err => some (.error err)
        | .ok cd => collectAncestors s fuel (q ++ cd.parents) (ancestors.insert (hashToHex h) h)

/-- The loop of `is_ancestor_of`; a commit that cannot be read counts as no. -/
def isAncestorOf (s : ObjectStore) (candidate : Hash) : Nat → List Hash → HashSet → Option Bool
  | 0, _, _ => none
  | _ + 1, [], _ => some false
  | fuel + 1, h :: q, seen =>
      if seen.contains h then isAncestorOf s candidate fuel q seen
      else if h = candidate then some true
      else
        match readCommitData s h with
        | .error _ => some false
        | .ok cd => isAncestorOf s candidate fuel (q ++ cd.parents) (seen.insert h)

/-- Whether a candidate is an ancestor of another one. -/
def superseded (s : ObjectStore) (fuel : Nat) (candidate : Hash) : List Hash → Option Bool
  | [] => some false
  | other :: rest =>
      if candidate = other then superseded s fuel candidate rest
      else
        match isAncestorOf s candidate fuel [other] ∅ with
        | none => none
        | some true => some true
        | some false => superseded s fuel candidate rest

/-- The candidates that are superseded by no other. -/
def mergeBases (s : ObjectStore) (fuel : Nat) (candidates : List Hash) :
    List Hash → Option (List Hash)
  | [] => some []
  | c :: rest =>
      match superseded s fuel c candidates, mergeBases s fuel candidates rest with
      | some true, some bases => some bases
      | some false, some bases => some (c :: bases)
      | _, _ => none

/-- `find_common_ancestor`; the candidates come in the order of their hexadecimal form, so the
first merge base is the least.  An acyclic history always has one. -/
def findCommonAncestor (s : ObjectStore) (fuel : Nat) (first second : Hash) :
    Option (Except String Hash) :=
  if first = zeroHash ∨ second = zeroHash then some (.error "no common ancestor")
  else
    match collectAncestors s fuel [first] ∅ with
    | none => none
    | some (.error err) => some (.error err)
    | some (.ok ancestors₁) =>
        match collectAncestors s fuel [second] ∅ with
        | none => none
        | some (.error err) => some (.error err)
        | some (.ok ancestors₂) =>
            -- in the order of their texts
            let candidates := (ancestors₁.toList.filter fun a => ancestors₂.contains a.1).map
              Prod.snd
            if candidates = [] then some (.error "no common ancestor")
            else
              match mergeBases s fuel candidates candidates with
              | some (c :: _) => some (.ok c)
              | _ => none

/-- `load_commit_tree`, without the commit, which no caller looks at. -/
def loadCommitTree (s : ObjectStore) (fuel : Nat) (commit : Hash) :
    Option (Except String WorkingTree) :=
  match readCommitData s commit with
  | .error err => some (.error err)
  | .ok cd =>
      match rebuildWorkingTree fuel cd.treeHash s {} with
      | none => none
      | some (.error _) =>
          some (.error ("failed to rebuild tree " ++ bytesText (hashToHex cd.treeHash)))
      | some (.ok wt) => some (.ok wt)

end ContextFS
