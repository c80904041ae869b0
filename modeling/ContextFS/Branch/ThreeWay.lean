import ContextFS.Branch.Closure

/-!
# A merge as the three-way merge of live views

A user sees live entries only: a whiteout is nothing.  Merged path by path, the live views conflict
where both sides have changed a path and differ there; otherwise the side that has changed it wins.
`merge_trees` decides on the raw entries instead.  `same_entry`, which it uses to see what has
changed, tells a whiteout from no entry, and so a deletion of nothing counts as a change.
-/

namespace ContextFS

open Std WorkingTree

/-- What is live of an entry. -/
def liveOf (a : EntryState) : EntryState := if isAbsent a then none else a

/-- Both sides have changed the live entry, and differently. -/
def LiveConflict (b s t : EntryState) : Prop :=
  sameEntry s b = false ∧ sameEntry t b = false ∧ sameEntry s t = false

/-- The side that has changed the live entry. -/
def liveMerge (b s t : EntryState) : EntryState := if sameEntry s b then t else s

/-- The base and one side have nothing live, one of them has a whiteout the other does not have,
and the other side has something. -/
def Clash (b s t : EntryState) : Prop :=
  isAbsent b = true ∧
    (isAbsent s = true ∧ sameEntry b s = false ∧ isAbsent t = false ∨
      isAbsent t = true ∧ sameEntry b t = false ∧ isAbsent s = false)

theorem lookup_eq_liveOf (wt : WorkingTree) (p : FsPath) : wt.lookup p = liveOf (wt.lookupRaw p) := by
  unfold lookup liveOf
  cases wt.lookupRaw p with
  | none => rfl
  | some e => simp [isAbsent]

/-! ## The two comparisons -/

@[simp] theorem sameEntry_self (a : EntryState) : sameEntry a a = true := by
  cases a <;> simp [sameEntry]

theorem sameEntry_comm (a b : EntryState) : sameEntry a b = sameEntry b a := by
  cases a with
  | none => cases b <;> rfl
  | some x =>
      cases b with
      | none => rfl
      | some y =>
          rw [Bool.eq_iff_iff]
          simp only [sameEntry, Bool.and_eq_true, Bool.or_eq_true, decide_eq_true_eq]
          constructor
          · rintro ⟨⟨hk, hm⟩, hh⟩
            exact ⟨⟨hk.symm, hm.symm⟩, hh.imp (fun h => hk ▸ h) Eq.symm⟩
          · rintro ⟨⟨hk, hm⟩, hh⟩
            exact ⟨⟨hk.symm, hm.symm⟩, hh.imp (fun h => hk ▸ h) Eq.symm⟩

theorem sameEntry_trans {a b c : EntryState} (h : sameEntry a b = true)
    (h' : sameEntry b c = true) : sameEntry a c = true := by
  cases a with
  | none =>
      cases b with
      | none => exact h'
      | some y => cases h
  | some x =>
      cases b with
      | none => cases h
      | some y =>
          cases c with
          | none => cases h'
          | some z =>
              simp only [sameEntry, Bool.and_eq_true, Bool.or_eq_true, decide_eq_true_eq] at *
              obtain ⟨⟨hk, hm⟩, hh⟩ := h
              obtain ⟨⟨hk', hm'⟩, hh'⟩ := h'
              refine ⟨⟨hk.trans hk', hm.trans hm'⟩, ?_⟩
              rcases hh with hh | hh
              · exact Or.inl hh
              · rcases hh' with hh' | hh'
                · exact Or.inl (hk.trans hh')
                · exact Or.inr (hh.trans hh')

theorem isAbsent_eq_of_sameEntry {a b : EntryState} (h : sameEntry a b = true) :
    isAbsent a = isAbsent b := by
  cases a with
  | none =>
      cases b with
      | none => rfl
      | some y => cases h
  | some x =>
      cases b with
      | none => cases h
      | some y =>
          simp only [sameEntry, Bool.and_eq_true, decide_eq_true_eq] at h
          simp [isAbsent, h.1.1]

@[simp] theorem isAbsent_liveOf (a : EntryState) : isAbsent (liveOf a) = isAbsent a := by
  unfold liveOf
  split
  · rename_i h
    rw [h]
    rfl
  · rfl

theorem liveOf_of_absent {a : EntryState} (h : isAbsent a = true) : liveOf a = none := if_pos h

theorem liveOf_of_live {a : EntryState} (h : isAbsent a = false) : liveOf a = a :=
  if_neg (by simp [h])

/-- `same_merge_state` compares live entries. -/
theorem sameEntry_liveOf (a b : EntryState) :
    sameEntry (liveOf a) (liveOf b) = sameMergeState a b := by
  have hdiff : isAbsent a ≠ isAbsent b → sameEntry a b = false := by
    intro hne
    cases h : sameEntry a b with
    | false => rfl
    | true => exact absurd (isAbsent_eq_of_sameEntry h) hne
  unfold sameMergeState
  cases ha : isAbsent a with
  | true =>
      cases hb : isAbsent b with
      | true => rw [liveOf_of_absent ha, liveOf_of_absent hb]; rfl
      | false =>
          have hne : isAbsent (liveOf a) ≠ isAbsent (liveOf b) := by simp [ha, hb]
          rw [hdiff (by simp [ha, hb])]
          cases h : sameEntry (liveOf a) (liveOf b) with
          | false => rfl
          | true => exact absurd (isAbsent_eq_of_sameEntry h) hne
  | false =>
      cases hb : isAbsent b with
      | true =>
          have hne : isAbsent (liveOf a) ≠ isAbsent (liveOf b) := by simp [ha, hb]
          rw [hdiff (by simp [ha, hb])]
          cases h : sameEntry (liveOf a) (liveOf b) with
          | false => rfl
          | true => exact absurd (isAbsent_eq_of_sameEntry h) hne
      | false => rw [liveOf_of_live ha, liveOf_of_live hb]; rfl

/-! ## One path -/

theorem mergeState_eq_none {b s t : EntryState} : mergeState b s t = none ↔
    sameEntry b s = false ∧ sameEntry b t = false ∧ sameMergeState s t = false := by
  unfold mergeState
  cases sameEntry b s <;> cases sameEntry b t <;> cases sameMergeState s t <;> simp

/-- Where nothing clashes, the raw entries conflict exactly when the live ones do. -/
theorem mergeState_eq_none_iff_liveConflict {b s t : EntryState} :
    (mergeState b s t = none ↔ LiveConflict (liveOf b) (liveOf s) (liveOf t)) ↔ ¬ Clash b s t := by
  have hbs : sameEntry b s = true → isAbsent b = isAbsent s := isAbsent_eq_of_sameEntry
  have hbt : sameEntry b t = true → isAbsent b = isAbsent t := isAbsent_eq_of_sameEntry
  have hst : sameEntry s t = true → isAbsent s = isAbsent t := isAbsent_eq_of_sameEntry
  rw [mergeState_eq_none]
  simp only [LiveConflict, Clash, sameEntry_liveOf, sameMergeState]
  rw [sameEntry_comm s b, sameEntry_comm t b]
  -- what is left is about which entries are absent and which are the same
  generalize sameEntry b s = bs at *
  generalize sameEntry b t = bt at *
  generalize sameEntry s t = st at *
  generalize isAbsent b = b at *
  generalize isAbsent s = s at *
  generalize isAbsent t = t at *
  cases bs <;> cases bt <;> cases st <;> cases b <;> cases s <;> cases t <;> simp_all

theorem equivalentMergeState_eq (a b : EntryState) :
    equivalentMergeState a b = a ∨ equivalentMergeState a b = b := by
  unfold equivalentMergeState
  split
  · exact Or.inl rfl
  split
  · exact Or.inr rfl
  · cases a with
    | none => exact Or.inr rfl
    | some e => exact Or.inl rfl

/-- A merged entry is the one of the three-way merge of the live entries. -/
theorem sameEntry_liveMerge {b s t state : EntryState} (h : mergeState b s t = some state) :
    sameEntry (liveOf state) (liveMerge (liveOf b) (liveOf s) (liveOf t)) = true := by
  have hlive : ∀ {x y : EntryState}, sameMergeState x y = true →
      sameEntry (liveOf x) (liveOf y) = true := fun hxy => (sameEntry_liveOf _ _).trans hxy
  have hsame : ∀ {x y : EntryState}, sameEntry x y = true → sameMergeState x y = true := by
    intro x y hxy
    rw [sameMergeState, hxy, Bool.or_true]
  unfold liveMerge
  rw [sameEntry_liveOf]
  unfold mergeState at h
  split at h
  · rename_i hbs
    rw [if_pos (hsame (sameEntry_comm s b ▸ hbs))]
    split at h
    · rename_i hbt
      cases h
      exact hlive (hsame hbt)
    · cases h
      exact sameEntry_self _
  · split at h
    · rename_i hbs hbt
      cases h
      split
      · rename_i hsb
        exact sameEntry_trans (hlive hsb) (hlive (hsame hbt))
      · exact sameEntry_self _
    · split at h
      · rename_i hst
        cases h
        rcases equivalentMergeState_eq s t with heq | heq
        · rw [heq]
          split
          · exact hlive hst
          · exact sameEntry_self _
        · rw [heq]
          split
          · exact sameEntry_self _
          · exact (sameEntry_comm _ _).trans (hlive hst)
      · cases h

theorem absent_of_sameMergeState {a b : EntryState} (h : sameMergeState a b = true)
    (hne : ¬ sameEntry a b = true) : isAbsent a = true ∧ isAbsent b = true := by
  simpa [sameMergeState, hne] using h

theorem isAbsent_equivalentMergeState {a b : EntryState} (h : isAbsent a = isAbsent b) :
    isAbsent (equivalentMergeState a b) = isAbsent a := by
  rcases equivalentMergeState_eq a b with heq | heq
  · rw [heq]
  · rw [heq, h]

theorem liveOf_equivalentMergeState {a b : EntryState} (h : isAbsent a = isAbsent b) :
    liveOf (equivalentMergeState a b) = equivalentMergeState (liveOf a) (liveOf b) := by
  have habs := isAbsent_equivalentMergeState h
  cases ha : isAbsent a with
  | true =>
      have hb := h.symm.trans ha
      rw [liveOf_of_absent (habs.trans ha), liveOf_of_absent ha, liveOf_of_absent hb]
      rfl
  | false =>
      have hb := h.symm.trans ha
      rw [liveOf_of_live (habs.trans ha), liveOf_of_live ha, liveOf_of_live hb]

/-- Where nothing clashes, the decision on the raw entries is the one on the live entries. -/
theorem mergeState_liveOf {b s t : EntryState} (h : ¬ Clash b s t) :
    mergeState (liveOf b) (liveOf s) (liveOf t) = (mergeState b s t).map liveOf := by
  have hsame : ∀ {x y : EntryState}, sameEntry x y = true → sameMergeState x y = true := by
    intro x y hxy
    rw [sameMergeState, hxy, Bool.or_true]
  have habsent : ∀ {x y : EntryState}, isAbsent x = true → isAbsent y = true →
      liveOf x = liveOf y := fun hx hy => (liveOf_of_absent hx).trans (liveOf_of_absent hy).symm
  have hlive : sameMergeState (liveOf s) (liveOf t) = sameMergeState s t := by
    rw [sameMergeState, isAbsent_liveOf, isAbsent_liveOf, sameEntry_liveOf, sameMergeState,
      ← Bool.or_assoc, Bool.or_self]
  unfold mergeState
  rw [sameEntry_liveOf, sameEntry_liveOf, hlive]
  -- which sides are written as the base is
  by_cases hbs : sameEntry b s = true
  · rw [if_pos (hsame hbs), if_pos hbs]
    by_cases hbt : sameEntry b t = true
    · rw [if_pos (hsame hbt), if_pos hbt]
      rfl
    · rw [if_neg hbt]
      split
      · rename_i hm
        obtain ⟨hb, ht⟩ := absent_of_sameMergeState hm hbt
        rw [habsent hb ht]
        rfl
      · rfl
  · rw [if_neg hbs]
    by_cases hbt : sameEntry b t = true
    · rw [if_pos hbt]
      split
      · rename_i hm
        obtain ⟨hb, hs⟩ := absent_of_sameMergeState hm hbs
        rw [if_pos (hsame hbt), habsent hb hs]
        rfl
      · rw [if_pos (hsame hbt)]
        rfl
    · rw [if_neg hbt]
      -- a side that agrees with the base, but is written otherwise, is absent, and so are all three
      by_cases hm : sameMergeState b s = true
      · obtain ⟨hb, hs⟩ := absent_of_sameMergeState hm hbs
        have ht : isAbsent t = true := by
          cases ht : isAbsent t with
          | true => rfl
          | false => exact absurd ⟨hb, Or.inl ⟨hs, by simpa using hbs, ht⟩⟩ h
        have hmt : sameMergeState b t = true := by simp [sameMergeState, hb, ht]
        have hst : sameMergeState s t = true := by simp [sameMergeState, hs, ht]
        rw [if_pos hm, if_pos hmt, if_pos hst, Option.map_some,
          liveOf_equivalentMergeState (hs.trans ht.symm), liveOf_of_absent hb, liveOf_of_absent hs,
          liveOf_of_absent ht]
        rfl
      by_cases hmt : sameMergeState b t = true
      · obtain ⟨hb, ht⟩ := absent_of_sameMergeState hmt hbt
        have hs : isAbsent s = true := by
          cases hs : isAbsent s with
          | true => rfl
          | false => exact absurd ⟨hb, Or.inr ⟨ht, by simpa using hbt, hs⟩⟩ h
        exact absurd (by simp [sameMergeState, hb, hs]) hm
      rw [if_neg hm, if_neg hmt]
      split
      · rename_i hst
        have habs : isAbsent s = isAbsent t := by
          by_cases hne : sameEntry s t = true
          · exact isAbsent_eq_of_sameEntry hne
          · obtain ⟨hs, ht⟩ := absent_of_sameMergeState hst hne
            exact hs.trans ht.symm
        rw [Option.map_some, liveOf_equivalentMergeState habs]
      · rfl

/-! ## The whole merge -/

section Trees

variable {base source target : WorkingTree}

/-- What `merge_trees` reports for single paths. -/
def pathConflicts (base source target : WorkingTree) : List FsPath :=
  (mergePaths base source target).filter fun path => (mergeStateAt base source target path).isNone

theorem mem_pathConflicts {p : FsPath} :
    p ∈ pathConflicts base source target ↔ mergeStateAt base source target p = none := by
  rw [pathConflicts, List.mem_filter, Option.isNone_iff_eq_none]
  refine ⟨fun h => h.2, fun h => ⟨?_, h⟩⟩
  by_contra hp
  rw [mergeStateAt_of_notMem hp] at h
  cases h

theorem mem_conflicts {p : FsPath} : p ∈ (mergeTrees base source target).conflicts ↔
    p ∈ pathConflicts base source target ∨
      p ∈ structuralConflicts (mergedStates base source target) := by
  have hmem : p ∈ ((pathConflicts base source target ++
      structuralConflicts (mergedStates base source target)).insertionSort
        fun p q => pathLe p q).dedup ↔ p ∈ pathConflicts base source target ∨
          p ∈ structuralConflicts (mergedStates base source target) := by
    rw [List.mem_dedup, List.mem_insertionSort, List.mem_append]
  rw [← hmem]
  unfold mergeTrees
  simp only
  split
  · rename_i h
    rw [← pathConflicts] at h
    rw [h]
  · rfl

/-- The tree without its whiteouts. -/
def withoutWhiteouts (wt : WorkingTree) : WorkingTree :=
  { delta := ExtTreeMap.ofList wt.liveEntries }

theorem lookupRaw_withoutWhiteouts (wt : WorkingTree) (p : FsPath) :
    (withoutWhiteouts wt).lookupRaw p = wt.lookup p := by
  have hdelta : (withoutWhiteouts wt).lookupRaw p =
      (ExtTreeMap.ofList wt.liveEntries : EntryMap)[p]? := by
    unfold lookupRaw withoutWhiteouts
    cases (ExtTreeMap.ofList wt.liveEntries : EntryMap)[p]? with
    | none => simp [baseMap]
    | some e => rfl
  rw [hdelta]
  cases hp : wt.lookup p with
  | some e =>
      refine ExtTreeMap.getElem?_ofList_of_mem ReflCmp.compare_self ?_ (mem_liveEntries.2 hp)
      refine ((sortedKeys_entries wt).filter _).imp ?_
      intro a b hlt heq
      rw [LawfulEqCmp.eq_of_compare heq] at hlt
      simp at hlt
  | none =>
      refine ExtTreeMap.getElem?_ofList_of_contains_eq_false ?_
      rw [← Bool.not_eq_true, List.contains_iff_mem]
      intro hmem
      obtain ⟨⟨q, e⟩, hq, rfl⟩ := List.mem_map.1 hmem
      rw [mem_liveEntries.1 hq] at hp
      cases hp

/-- Two merges have the same outcome: they succeed together, report the same paths and show the
same merged tree. -/
structure SameOutcome (r r' : MergeResult) : Prop where
  ok : r.ok = r'.ok
  conflicts : ∀ p, p ∈ r.conflicts ↔ p ∈ r'.conflicts
  merged : ∀ p, r.merged.lookup p = r'.merged.lookup p

/-- `merge_trees` is the three-way merge of the live views, and whiteouts do not matter. -/
structure ThreeWayMerge (base source target : WorkingTree) : Prop where
  conflicts : ∀ p, p ∈ pathConflicts base source target ↔
    LiveConflict (base.lookup p) (source.lookup p) (target.lookup p)
  merged : (mergeTrees base source target).ok = true → ∀ p,
    sameEntry ((mergeTrees base source target).merged.lookup p)
      (liveMerge (base.lookup p) (source.lookup p) (target.lookup p)) = true
  whiteouts : SameOutcome (mergeTrees base source target)
    (mergeTrees (withoutWhiteouts base) (withoutWhiteouts source) (withoutWhiteouts target))

/-- No path clashes. -/
def NoClash (base source target : WorkingTree) : Prop :=
  ∀ p, ¬ Clash (base.lookupRaw p) (source.lookupRaw p) (target.lookupRaw p)

/-- Some tree has something live at the path. -/
def SomewhereLive (base source target : WorkingTree) (p : FsPath) : Prop :=
  base.lookup p ≠ none ∨ source.lookup p ≠ none ∨ target.lookup p ≠ none

/-- The three-way merge of the live views has something at the path. -/
def MergedLive (base source target : WorkingTree) (p : FsPath) : Prop :=
  ¬ LiveConflict (base.lookup p) (source.lookup p) (target.lookup p) ∧
    liveMerge (base.lookup p) (source.lookup p) (target.lookup p) ≠ none

/-- The three-way merge of the live views has no directory at the path, and no conflict. -/
def MergedNoDir (base source target : WorkingTree) (p : FsPath) : Prop :=
  ¬ LiveConflict (base.lookup p) (source.lookup p) (target.lookup p) ∧
    isTree (liveMerge (base.lookup p) (source.lookup p) (target.lookup p)) = false

/-- Above a path that survives the merge, a path that is live in no tree, but has a whiteout in
one, is hidden by a nearer ancestor that was live somewhere and is no directory any more. -/
def NoBareWhiteout (base source target : WorkingTree) : Prop :=
  ∀ p q, MergedLive base source target p → q ∈ properAncestors p →
    q ∈ mergePaths base source target → ¬ SomewhereLive base source target q →
      ∃ r ∈ properAncestors p, q <+: r ∧ q ≠ r ∧ SomewhereLive base source target r ∧
        MergedNoDir base source target r

theorem isTree_eq_of_sameEntry {a b : EntryState} (h : sameEntry a b = true) :
    isTree a = isTree b := by
  cases a with
  | none =>
      cases b with
      | none => rfl
      | some y => cases h
  | some x =>
      cases b with
      | none => cases h
      | some y =>
          simp only [sameEntry, Bool.and_eq_true, decide_eq_true_eq] at h
          simp [isTree, h.1.1]

theorem isTree_liveOf (a : EntryState) : isTree (liveOf a) = isTree a := by
  unfold liveOf
  split
  · rename_i h
    cases a with
    | none => rfl
    | some x =>
        have hk : x.kind = .deleted := by simpa [isAbsent] using h
        simp [isTree, hk]
  · rfl

theorem liveOf_liveOf (a : EntryState) : liveOf (liveOf a) = liveOf a := by
  unfold liveOf
  split
  · rfl
  · rfl

@[simp] theorem lookup_withoutWhiteouts (wt : WorkingTree) (p : FsPath) :
    (withoutWhiteouts wt).lookup p = wt.lookup p := by
  rw [lookup_eq_liveOf, lookupRaw_withoutWhiteouts, lookup_eq_liveOf, liveOf_liveOf]

/-- Without whiteouts nothing clashes. -/
theorem noClash_withoutWhiteouts (base source target : WorkingTree) :
    NoClash (withoutWhiteouts base) (withoutWhiteouts source) (withoutWhiteouts target) := by
  have hnone : ∀ (wt : WorkingTree) (p : FsPath), isAbsent (wt.lookup p) = true →
      wt.lookup p = none := by
    intro wt p h
    rw [lookup_eq_liveOf, isAbsent_liveOf] at h
    rw [lookup_eq_liveOf, liveOf_of_absent h]
  rintro p ⟨hb, ⟨hs, hbs, -⟩ | ⟨ht, hbt, -⟩⟩
  · rw [lookupRaw_withoutWhiteouts] at hb hs hbs
    rw [lookupRaw_withoutWhiteouts, hnone _ p hb, hnone _ p hs] at hbs
    cases hbs
  · rw [lookupRaw_withoutWhiteouts] at hb ht hbt
    rw [lookupRaw_withoutWhiteouts, hnone _ p hb, hnone _ p ht] at hbt
    cases hbt

theorem mem_mergePaths_withoutWhiteouts {p : FsPath} :
    p ∈ mergePaths (withoutWhiteouts base) (withoutWhiteouts source) (withoutWhiteouts target) ↔
      SomewhereLive base source target p := by
  rw [mem_mergePaths, lookupRaw_withoutWhiteouts, lookupRaw_withoutWhiteouts,
    lookupRaw_withoutWhiteouts]
  rfl

/-! ### Structural conflicts -/

/-- The ancestors `detect_structural_conflicts` stops at. -/
def blocks (states : ExtTreeMap FsPath EntryState) (q : FsPath) : Bool :=
  match states[q]? with
  | some state => !isTree state
  | none => false

theorem mem_structuralConflicts {states : ExtTreeMap FsPath EntryState} {x : FsPath} :
    x ∈ structuralConflicts states ↔ ∃ p state, states[p]? = some state ∧ isAbsent state = false ∧
      (properAncestors p).find? (blocks states) = some x := by
  simp only [structuralConflicts, List.mem_filterMap, Prod.exists,
    ExtTreeMap.mem_toList_iff_getElem?_eq_some]
  refine exists_congr fun p => exists_congr fun state => and_congr_right fun _ => ?_
  unfold structuralConflict
  cases isAbsent state with
  | true => simp
  | false =>
      simp only [Bool.false_eq_true, if_false, true_and]
      rfl

theorem find?_congr_of_first {l : List FsPath} {f g : FsPath → Bool}
    (hsub : ∀ q ∈ l, g q = true → f q = true) (hfirst : ∀ x, l.find? f = some x → g x = true) :
    l.find? f = l.find? g := by
  induction l with
  | nil => rfl
  | cons q l ih =>
      cases hf : f q with
      | true =>
          have hg : g q = true := hfirst q (by simp [hf])
          simp [hf, hg]
      | false =>
          have hg : g q = false := by
            cases hg : g q with
            | false => rfl
            | true =>
                rw [hsub q List.mem_cons_self hg] at hf
                cases hf
          rw [List.find?_cons, List.find?_cons, hf, hg]
          refine ih (fun r hr => hsub r (List.mem_cons_of_mem q hr)) fun x hx => hfirst x ?_
          rw [List.find?_cons, hf]
          exact hx

/-- The ancestors of a path come with the nearest first. -/
theorem pairwise_properAncestors (p : FsPath) :
    (properAncestors p).Pairwise fun q r => r.length < q.length := by
  unfold properAncestors
  rw [List.pairwise_reverse]
  refine List.Pairwise.filter _ (List.pairwise_iff_getElem.2 fun i j hi hj hij => ?_)
  rw [List.length_inits] at hi hj
  simp only [List.getElem_inits, List.length_take]
  omega

/-- What is first among the ancestors, and what comes behind it. -/
theorem prefix_of_find?_properAncestors {p q x : FsPath} {f : FsPath → Bool}
    (hx : (properAncestors p).find? f = some x) (hq : q ∈ properAncestors p) (hf : f q = true) :
    q <+: x := by
  obtain ⟨hfx, before, behind, hl, hbefore⟩ := List.find?_eq_some_iff_append.1 hx
  have hxp := (mem_properAncestors.1 (List.mem_of_find?_eq_some hx)).1
  have hqp := (mem_properAncestors.1 hq).1
  have hpair := pairwise_properAncestors p
  rw [hl] at hq hpair
  rcases List.mem_append.1 hq with hq | hq
  · have := hbefore q hq
    simp [hf] at this
  rcases List.mem_cons.1 hq with rfl | hq
  · exact List.prefix_refl q
  · have hlt := (List.pairwise_cons.1 (List.pairwise_append.1 hpair).2.1).1 q hq
    exact List.prefix_of_prefix_length_le hqp hxp hlt.le

section NoClash

variable (hno : NoClash base source target)
include hno

theorem mem_pathConflicts_iff (p : FsPath) : p ∈ pathConflicts base source target ↔
    LiveConflict (base.lookup p) (source.lookup p) (target.lookup p) := by
  rw [mem_pathConflicts, mergeStateAt, lookup_eq_liveOf, lookup_eq_liveOf, lookup_eq_liveOf]
  exact mergeState_eq_none_iff_liveConflict.2 (hno p)

theorem mergeStateAt_withoutWhiteouts (p : FsPath) :
    mergeStateAt (withoutWhiteouts base) (withoutWhiteouts source) (withoutWhiteouts target) p =
      (mergeStateAt base source target p).map liveOf := by
  unfold mergeStateAt
  simp only [lookupRaw_withoutWhiteouts, lookup_eq_liveOf]
  exact mergeState_liveOf (hno p)

end NoClash

theorem sameEntry_mergeStateAt {p : FsPath} {state : EntryState}
    (h : mergeStateAt base source target p = some state) :
    sameEntry (liveOf state)
      (liveMerge (base.lookup p) (source.lookup p) (target.lookup p)) = true := by
  rw [lookup_eq_liveOf, lookup_eq_liveOf, lookup_eq_liveOf]
  exact sameEntry_liveMerge h

/-- The merged entry is a directory, or live, as the three-way merge says. -/
theorem isTree_mergeStateAt {p : FsPath} {state : EntryState}
    (h : mergeStateAt base source target p = some state) :
    isTree state = isTree (liveMerge (base.lookup p) (source.lookup p) (target.lookup p)) := by
  rw [← isTree_liveOf]
  exact isTree_eq_of_sameEntry (sameEntry_mergeStateAt h)

theorem isAbsent_mergeStateAt {p : FsPath} {state : EntryState}
    (h : mergeStateAt base source target p = some state) : isAbsent state = true ↔
      liveMerge (base.lookup p) (source.lookup p) (target.lookup p) = none := by
  have hsame := isAbsent_eq_of_sameEntry (sameEntry_mergeStateAt h)
  rw [isAbsent_liveOf] at hsame
  rw [hsame]
  have hlookup : ∀ wt : WorkingTree, isAbsent (wt.lookup p) = true ↔ wt.lookup p = none := by
    intro wt
    rw [lookup_eq_liveOf, isAbsent_liveOf]
    refine ⟨liveOf_of_absent, fun hnone => ?_⟩
    rw [← isAbsent_liveOf, hnone]
    rfl
  unfold liveMerge
  split
  · exact hlookup target
  · exact hlookup source

section NoClash

variable (hno : NoClash base source target)
include hno

theorem mergeStateAt_eq_none_iff (p : FsPath) : mergeStateAt base source target p = none ↔
    LiveConflict (base.lookup p) (source.lookup p) (target.lookup p) := by
  rw [← mem_pathConflicts, mem_pathConflicts_iff hno]

theorem mergedLive_iff {p : FsPath} : MergedLive base source target p ↔
    ∃ state, (mergedStates base source target)[p]? = some state ∧ isAbsent state = false := by
  unfold MergedLive
  rw [← mergeStateAt_eq_none_iff hno, getElem?_mergedStates]
  constructor
  · rintro ⟨hsome, hlive⟩
    obtain ⟨state, hstate⟩ := Option.ne_none_iff_exists'.1 hsome
    have habs : isAbsent state = false := by
      rw [← Bool.not_eq_true, isAbsent_mergeStateAt hstate]
      exact hlive
    have hp : p ∈ mergePaths base source target := by
      by_contra hp
      rw [mergeStateAt_of_notMem hp] at hstate
      cases hstate
      cases habs
    exact ⟨state, by rw [if_pos hp, hstate], habs⟩
  · rintro ⟨state, hstate, habs⟩
    split at hstate
    · rw [← Bool.not_eq_true, isAbsent_mergeStateAt hstate] at habs
      exact ⟨by simp [hstate], habs⟩
    · cases hstate

theorem blocks_iff {q : FsPath} : blocks (mergedStates base source target) q = true ↔
    q ∈ mergePaths base source target ∧ MergedNoDir base source target q := by
  unfold MergedNoDir blocks
  rw [← mergeStateAt_eq_none_iff hno, getElem?_mergedStates]
  by_cases hq : q ∈ mergePaths base source target
  · rw [if_pos hq]
    cases hstate : mergeStateAt base source target q with
    | none => simp
    | some state => simp [hq, isTree_mergeStateAt hstate]
  · rw [if_neg hq]
    simp [hq]

theorem mem_structuralConflicts_iff {x : FsPath} :
    x ∈ structuralConflicts (mergedStates base source target) ↔
      ∃ p, MergedLive base source target p ∧
        (properAncestors p).find? (blocks (mergedStates base source target)) = some x := by
  rw [mem_structuralConflicts]
  constructor
  · rintro ⟨p, state, hstate, hlive, hx⟩
    exact ⟨p, (mergedLive_iff hno).2 ⟨state, hstate, hlive⟩, hx⟩
  · rintro ⟨p, hp, hx⟩
    obtain ⟨state, hstate, hlive⟩ := (mergedLive_iff hno).1 hp
    exact ⟨p, state, hstate, hlive, hx⟩

end NoClash

/-- Without the whiteouts the same ancestors block, apart from those no tree has live. -/
theorem blocks_withoutWhiteouts {q : FsPath} : blocks (mergedStates (withoutWhiteouts base)
    (withoutWhiteouts source) (withoutWhiteouts target)) q = true ↔
      SomewhereLive base source target q ∧ MergedNoDir base source target q := by
  rw [blocks_iff (noClash_withoutWhiteouts base source target), mem_mergePaths_withoutWhiteouts]
  simp only [MergedNoDir, lookup_withoutWhiteouts]

theorem mem_structuralConflicts_withoutWhiteouts {x : FsPath} :
    x ∈ structuralConflicts (mergedStates (withoutWhiteouts base) (withoutWhiteouts source)
      (withoutWhiteouts target)) ↔ ∃ p, MergedLive base source target p ∧
        (properAncestors p).find? (blocks (mergedStates (withoutWhiteouts base)
          (withoutWhiteouts source) (withoutWhiteouts target))) = some x := by
  rw [mem_structuralConflicts_iff (noClash_withoutWhiteouts base source target)]
  simp only [MergedLive, lookup_withoutWhiteouts]

theorem SomewhereLive.mem_mergePaths {q : FsPath} (h : SomewhereLive base source target q) :
    q ∈ mergePaths base source target := by
  have hraw : ∀ wt : WorkingTree, wt.lookup q ≠ none → wt.lookupRaw q ≠ none := by
    intro wt hlive hnone
    rw [lookup_eq_liveOf, hnone] at hlive
    exact hlive rfl
  exact ContextFS.mem_mergePaths.2 (h.imp (hraw _) (Or.imp (hraw _) (hraw _)))

/-- Nothing happens where nothing is live. -/
theorem mergedNoDir_of_not_somewhereLive {q : FsPath} (h : ¬ SomewhereLive base source target q) :
    MergedNoDir base source target q := by
  unfold SomewhereLive at h
  push Not at h
  obtain ⟨hb, hs, ht⟩ := h
  rw [MergedNoDir, hb, hs, ht]
  exact ⟨fun hc => (by cases hc.1), rfl⟩

theorem ok_iff_conflicts : (mergeTrees base source target).ok = true ↔
    ∀ p, p ∉ (mergeTrees base source target).conflicts := by
  unfold mergeTrees
  simp only
  split
  · simp
  · rename_i hne
    simp only [Bool.false_eq_true, false_iff, not_forall, not_not]
    exact List.exists_mem_of_ne_nil _ hne

/-! ### The equivalence -/

/-- The structural conflicts are the same without whiteouts when no bare whiteout stands out. -/
theorem structuralConflicts_withoutWhiteouts (hno : NoClash base source target)
    (hbare : NoBareWhiteout base source target) (x : FsPath) :
    x ∈ structuralConflicts (mergedStates base source target) ↔
      x ∈ structuralConflicts (mergedStates (withoutWhiteouts base) (withoutWhiteouts source)
        (withoutWhiteouts target)) := by
  rw [mem_structuralConflicts_iff hno, mem_structuralConflicts_withoutWhiteouts]
  refine exists_congr fun p => and_congr_right fun hp => ?_
  rw [find?_congr_of_first]
  · intro q _ hq
    obtain ⟨hlive, hdir⟩ := blocks_withoutWhiteouts.1 hq
    exact (blocks_iff hno).2 ⟨hlive.mem_mergePaths, hdir⟩
  · intro y hy
    obtain ⟨hmem, hdir⟩ := (blocks_iff hno).1 (List.find?_some hy)
    refine blocks_withoutWhiteouts.2 ⟨?_, hdir⟩
    -- a bare whiteout is not the first that blocks
    by_contra hdead
    obtain ⟨r, hr, hyr, hne, hlive, hdir⟩ :=
      hbare p y hp (List.mem_of_find?_eq_some hy) hmem hdead
    have hry := prefix_of_find?_properAncestors hy hr ((blocks_iff hno).2
      ⟨hlive.mem_mergePaths, hdir⟩)
    exact hne (hyr.eq_of_length_le hry.length_le)

theorem sameOutcome_withoutWhiteouts (hno : NoClash base source target)
    (hbare : NoBareWhiteout base source target) : SameOutcome (mergeTrees base source target)
      (mergeTrees (withoutWhiteouts base) (withoutWhiteouts source) (withoutWhiteouts target)) := by
  have hconflicts : ∀ p, p ∈ (mergeTrees base source target).conflicts ↔
      p ∈ (mergeTrees (withoutWhiteouts base) (withoutWhiteouts source)
        (withoutWhiteouts target)).conflicts := by
    intro p
    rw [mem_conflicts, mem_conflicts, structuralConflicts_withoutWhiteouts hno hbare,
      mem_pathConflicts_iff hno,
      mem_pathConflicts_iff (noClash_withoutWhiteouts base source target)]
    simp only [lookup_withoutWhiteouts]
  have hok : (mergeTrees base source target).ok = (mergeTrees (withoutWhiteouts base)
      (withoutWhiteouts source) (withoutWhiteouts target)).ok := by
    rw [Bool.eq_iff_iff, ok_iff_conflicts, ok_iff_conflicts]
    exact forall_congr' fun p => not_congr (hconflicts p)
  refine ⟨hok, hconflicts, fun p => ?_⟩
  cases h : (mergeTrees base source target).ok with
  | true =>
      have hraw := lookupRaw_mergeTrees h p
      have hraw' := lookupRaw_mergeTrees (hok ▸ h) p
      rw [mergeStateAt_withoutWhiteouts hno, ← hraw, Option.map_some, Option.some.injEq] at hraw'
      rw [lookup_eq_liveOf, lookup_eq_liveOf, hraw', liveOf_liveOf]
  | false =>
      have hempty : ∀ {b s t : WorkingTree}, (mergeTrees b s t).ok = false →
          (mergeTrees b s t).merged = {} := by
        intro b s t hfail
        unfold mergeTrees at hfail ⊢
        simp only at hfail ⊢
        split
        · rename_i hnil
          rw [if_pos hnil] at hfail
          cases hfail
        · rfl
      rw [hempty h, hempty (hok ▸ h)]

theorem noBareWhiteout_of_sameOutcome (hno : NoClash base source target)
    (h : SameOutcome (mergeTrees base source target)
      (mergeTrees (withoutWhiteouts base) (withoutWhiteouts source) (withoutWhiteouts target))) :
    NoBareWhiteout base source target := by
  intro p q hp hq hmem hdead
  have hblocks := (blocks_iff hno).2 ⟨hmem, mergedNoDir_of_not_somewhereLive hdead⟩
  cases hfirst : (properAncestors p).find? (blocks (mergedStates base source target)) with
  | none => exact absurd hblocks (List.find?_eq_none.1 hfirst q hq)
  | some x =>
      obtain ⟨hxmem, hdir⟩ := (blocks_iff hno).1 (List.find?_some hfirst)
      have hx := (h.conflicts x).1
        (mem_conflicts.2 (Or.inr ((mem_structuralConflicts_iff hno).2 ⟨p, hp, hfirst⟩)))
      -- without the whiteouts only paths that are live somewhere are reported
      have hlive : SomewhereLive base source target x := by
        rcases mem_conflicts.1 hx with hx | hx
        · exact mem_mergePaths_withoutWhiteouts.1 (List.mem_filter.1 hx).1
        · obtain ⟨p', -, hx⟩ := mem_structuralConflicts_withoutWhiteouts.1 hx
          exact (blocks_withoutWhiteouts.1 (List.find?_some hx)).1
      refine ⟨x, List.mem_of_find?_eq_some hfirst,
        prefix_of_find?_properAncestors hfirst hq hblocks, ?_, hlive, hdir⟩
      rintro rfl
      exact hdead hlive

theorem ThreeWayMerge.noClash (h : ThreeWayMerge base source target) :
    NoClash base source target := by
  intro p
  refine mergeState_eq_none_iff_liveConflict.1 ?_
  rw [← lookup_eq_liveOf, ← lookup_eq_liveOf, ← lookup_eq_liveOf, ← h.conflicts p,
    mem_pathConflicts]
  rfl

/-- A merge is the three-way merge of the live views, and independent of whiteouts, exactly when no
whiteout meets an addition of the other side and no bare whiteout stands above what survives. -/
theorem threeWayMerge_iff (base source target : WorkingTree) :
    ThreeWayMerge base source target ↔
      NoClash base source target ∧ NoBareWhiteout base source target := by
  constructor
  · intro h
    exact ⟨h.noClash, noBareWhiteout_of_sameOutcome h.noClash h.whiteouts⟩
  · rintro ⟨hno, hbare⟩
    refine ⟨mem_pathConflicts_iff hno, fun hok p => ?_, sameOutcome_withoutWhiteouts hno hbare⟩
    rw [lookup_eq_liveOf (mergeTrees base source target).merged]
    exact sameEntry_mergeStateAt (lookupRaw_mergeTrees hok p).symm

/-- The source has deleted a file that was never in the base, and the target has one there. -/
theorem not_threeWayMerge_deletion : ¬ ThreeWayMerge {}
    (({} : WorkingTree).insert [[102]] whiteout)
    (({} : WorkingTree).insert [[102]] ⟨.blob, zeroHash, 0⟩) := by
  intro h
  refine h.noClash [[102]] ?_
  rw [lookupRaw_insert, if_pos rfl, lookupRaw_insert, if_pos rfl, lookupRaw_empty]
  exact ⟨rfl, Or.inl ⟨rfl, rfl, rfl⟩⟩

/-! ## The merged tree is well formed -/

/-- Serialisation drops nothing that has content: it is linked to the root, and what is written
for the root shows it. -/
def DropsNothing [Blake3] (wt : WorkingTree) : Prop :=
  ∀ p e, wt.lookup p = some e → p ≠ [] → (∀ n ∈ p, n ≠ []) → e.isNullLeaf = false →
    Linked wt [] p e ∧ ∀ s, (serializeWorkingTree wt s).root ≠ zeroHash →
      (serializeWorkingTree wt s).store.collided = false → FitsTreeFormat wt →
        ∃ e', InTree (serializeWorkingTree wt s).store (serializeWorkingTree wt s).root p e' ∧
          SameView e e'

theorem dropsNothing_of_closed [Blake3] {wt : WorkingTree} (h : wt.Closed) : DropsNothing wt := by
  intro p e he hp hnames hnull
  have hlinked : Linked wt [] p e := h.linked hp (List.nil_append p ▸ he) hnull hnames
  refine ⟨hlinked, fun s hroot hc hfit => ?_⟩
  exact (dirWritten_serializeWorkingTree hroot hc).found_of_linked hfit hlinked

/-- A merge of closed trees without conflicts is closed, and its commit has everything in it that
has content. -/
theorem merged_wellFormed [Blake3] (hclosed : ∀ wt ∈ [base, source, target], wt.Closed)
    (hok : (mergeTrees base source target).ok = true) :
    (mergeTrees base source target).merged.Closed ∧
      DropsNothing (mergeTrees base source target).merged :=
  ⟨closed_mergeTrees hok hclosed, dropsNothing_of_closed (closed_mergeTrees hok hclosed)⟩

theorem not_null_of_linked {wt : WorkingTree} {dir p : FsPath} {e : WorkingTreeEntry}
    (h : Linked wt dir p e) : e.isNullLeaf = false := by
  induction h with
  | here hc => exact (mem_childrenOf.1 hc).2.1
  | inside _ _ _ ih => exact ih

/-- A tree with a directory `d`. -/
def treeWithDir : WorkingTree := ({} : WorkingTree).insert [[100]] ⟨.tree, zeroHash, 0⟩

/-- The same tree with a file in the directory. -/
def treeWithFile (hash : Hash) : WorkingTree :=
  treeWithDir.insert [[100], [102]] ⟨.blob, hash, 0⟩

theorem closed_treeWithDir : treeWithDir.Closed := closed_empty.insert_dir rfl (Or.inl rfl)

theorem closed_treeWithFile (hash : Hash) : (treeWithFile hash).Closed := by
  have hdir : treeWithDir.lookup [[100]] = some ⟨.tree, zeroHash, 0⟩ := by decide +kernel
  refine closed_treeWithDir.insert_leaf (by simp) ⟨Or.inr ⟨_, hdir, rfl⟩, fun q hq hne => ?_⟩
  rw [treeWithDir, lookup_insert _ _ _ _ (by simp), if_neg]
  · simp [lookup]
  · rintro rfl
    exact absurd hq (by decide)

theorem closed_addedFile (hash : Hash) :
    ∀ wt ∈ [treeWithDir, treeWithFile hash, treeWithDir], wt.Closed := by
  intro wt hwt
  simp only [List.mem_cons, List.not_mem_nil, or_false] at hwt
  rcases hwt with rfl | rfl | rfl
  · exact closed_treeWithDir
  · exact closed_treeWithFile hash
  · exact closed_treeWithDir

theorem merged_wellFormed_of_file :
    (mergeTrees treeWithDir (treeWithFile (Hash.ofBytes [1])) treeWithDir).merged.Closed ∧
      @DropsNothing foldDigest
        (mergeTrees treeWithDir (treeWithFile (Hash.ofBytes [1])) treeWithDir).merged :=
  @merged_wellFormed _ _ _ foldDigest (closed_addedFile _) (by decide +kernel)

/-- A file without content is merged and not written. -/
theorem nullFile_dropped_by_serialize : ∃ base source target : WorkingTree,
    (∀ wt ∈ [base, source, target], wt.Closed) ∧ (mergeTrees base source target).ok = true ∧
      ∃ p e, (mergeTrees base source target).merged.lookup p = some e ∧ p ≠ [] ∧
        (∀ n ∈ p, n ≠ []) ∧ ¬ Linked (mergeTrees base source target).merged [] p e := by
  refine ⟨treeWithDir, treeWithFile zeroHash, treeWithDir, closed_addedFile _, by decide +kernel,
    [[100], [102]], ⟨.blob, zeroHash, 0⟩, by decide +kernel, by decide, by decide, fun h => ?_⟩
  exact absurd (not_null_of_linked h) (by decide)

end Trees
end ContextFS
