import ContextFS.Branch.Merge
import ContextFS.Lib.Ancestry

/-!
# Best common ancestors

`find_common_ancestor` over a finite acyclic graph of readable commits: both ancestor sets are
complete, the pairwise test for ancestors is right, and the first merge base in hexadecimal order
is the least of the maximal common ancestors.
-/

namespace ContextFS

open Std Lib

/-- The parents a commit lists; none if it cannot be read. -/
def parentsOf (s : ObjectStore) (h : Hash) : List Hash :=
  match readCommitData s h with
  | .ok cd => cd.parents
  | .error _ => []

/-- A finite acyclic graph of readable commits. -/
structure CommitGraph (s : ObjectStore) (U : Finset Hash) : Prop where
  readable : ∀ h ∈ U, ∃ cd, readCommitData s h = .ok cd
  parents_mem : ∀ h ∈ U, ∀ p ∈ parentsOf s h, p ∈ U
  acyclic : ∀ h ∈ U, ¬ ProperAncestor (parentsOf s) h h

/-- The maximal common ancestor whose hexadecimal form is the least. -/
def IsBestAncestor (s : ObjectStore) (first second c : Hash) : Prop :=
  MaximalCommon (parentsOf s) first second c ∧
    ∀ d, MaximalCommon (parentsOf s) first second d → compare (hashToHex c) (hashToHex d) ≠ .gt

theorem IsBestAncestor.symm {s : ObjectStore} {first second c : Hash}
    (h : IsBestAncestor s first second c) : IsBestAncestor s second first c :=
  ⟨h.1.symm, fun d hd => h.2 d hd.symm⟩

theorem IsBestAncestor.unique {s : ObjectStore} {first second c c' : Hash}
    (h : IsBestAncestor s first second c) (h' : IsBestAncestor s first second c') : c = c' := by
  have hle : (compare (hashToHex c) (hashToHex c')).isLE :=
    Ordering.isLE_iff_ne_gt.2 (h.2 c' h'.1)
  have hge : (compare (hashToHex c') (hashToHex c)).isLE :=
    Ordering.isLE_iff_ne_gt.2 (h'.2 c h.1)
  have heq : compare (hashToHex c) (hashToHex c') = .eq := OrientedCmp.isLE_antisymm hle hge
  exact hashToHex_inj (LawfulEqCmp.eq_of_compare heq)

section Search

variable {s : ObjectStore} {U : Finset Hash} {start : Hash}

theorem parentsOf_eq {h : Hash} {cd : CommitData} (hr : readCommitData s h = .ok cd) :
    parentsOf s h = cd.parents := by
  rw [parentsOf, hr]

/-- The commits an ancestor map has noted. -/
def Noted (ancestors : AncestorMap) (h : Hash) : Prop := ancestors.contains (hashToHex h) = true

instance (ancestors : AncestorMap) : DecidablePred (Noted ancestors) :=
  fun _ => inferInstanceAs (Decidable (_ = true))

/-- Every hash stands under its own text. -/
def KeyedByText (ancestors : AncestorMap) : Prop :=
  ∀ k h, ancestors[k]? = some h → k = hashToHex h

theorem noted_insert (ancestors : AncestorMap) (h b : Hash) :
    Noted (ancestors.insert (hashToHex h) h) b ↔ b = h ∨ Noted ancestors b := by
  rw [Noted, ExtTreeMap.contains_insert, Bool.or_eq_true, beq_iff_eq]
  constructor
  · rintro (heq | hb)
    · exact Or.inl (hashToHex_inj (LawfulEqCmp.eq_of_compare heq)).symm
    · exact Or.inr hb
  · rintro (rfl | hb)
    · exact Or.inl ReflCmp.compare_self
    · exact Or.inr hb

theorem keyedByText_insert {ancestors : AncestorMap} (hkeys : KeyedByText ancestors) (h : Hash) :
    KeyedByText (ancestors.insert (hashToHex h) h) := by
  intro k v hv
  rw [ExtTreeMap.getElem?_insert] at hv
  split at hv
  · rename_i heq
    cases hv
    exact (LawfulEqCmp.eq_of_compare heq).symm
  · exact hkeys k v hv

/-- A queue of a search in the graph stays in the graph. -/
theorem CommitGraph.mem_of_frontier (hU : CommitGraph s U) (hstart : start ∈ U)
    {seen : Hash → Prop} {queue : List Hash} (hf : Frontier (parentsOf s) start seen queue)
    {h : Hash} (hh : h ∈ queue) : h ∈ U :=
  (hf.sound h (Or.inr hh)).mem hU.parents_mem hstart

/-- With fuel for the search, `collect_ancestors` succeeds with exactly the ancestors. -/
theorem collectAncestors_spec (hU : CommitGraph s U) (hstart : start ∈ U) {fuel : Nat}
    {queue : List Hash} {ancestors : AncestorMap} (hkeys : KeyedByText ancestors)
    (hf : Frontier (parentsOf s) start (Noted ancestors) queue)
    (hfuel : searchCost (parentsOf s) U (Noted ancestors) queue < fuel) :
    ∃ all, collectAncestors s fuel queue ancestors = some (.ok all) ∧ KeyedByText all ∧
      ∀ h, Noted all h ↔ Ancestor (parentsOf s) h start := by
  induction fuel generalizing queue ancestors with
  | zero => omega
  | succ fuel ih =>
      cases queue with
      | nil => exact ⟨ancestors, rfl, hkeys, hf.seen_iff⟩
      | cons h queue =>
          rw [collectAncestors]
          by_cases hseen : ancestors.contains (hashToHex h) = true
          · have hcost : searchCost (parentsOf s) U (Noted ancestors) queue + 1 = _ :=
              searchCost_skip (a := h)
            rw [if_pos hseen]
            exact ih hkeys (hf.skip hseen) (by omega)
          · have hin : h ∈ U := hU.mem_of_frontier hstart hf List.mem_cons_self
            obtain ⟨cd, hread⟩ := hU.readable h hin
            have hnote := noted_insert ancestors h
            have hcost : searchCost _ U (Noted (ancestors.insert (hashToHex h) h))
                (queue ++ parentsOf s h) + 1 = _ := searchCost_expand hin hseen hnote
            have hnext := hf.expand hnote
            rw [parentsOf_eq hread] at hcost hnext
            rw [if_neg hseen]
            simp only [hread]
            exact ih (keyedByText_insert hkeys h) hnext (by omega)

/-- With fuel for the search, `is_ancestor_of` decides whether the candidate is an ancestor. -/
theorem isAncestorOf_spec (hU : CommitGraph s U) (hstart : start ∈ U) {candidate : Hash}
    {fuel : Nat} {queue : List Hash} {seen : HashSet} (hnot : ¬ seen.contains candidate = true)
    (hf : Frontier (parentsOf s) start (fun h => seen.contains h = true) queue)
    (hfuel : searchCost (parentsOf s) U (fun h => seen.contains h = true) queue < fuel) :
    ∃ b, isAncestorOf s candidate fuel queue seen = some b ∧
      (b = true ↔ Ancestor (parentsOf s) candidate start) := by
  induction fuel generalizing queue seen with
  | zero => omega
  | succ fuel ih =>
      cases queue with
      | nil =>
          refine ⟨false, rfl, ?_⟩
          rw [← hf.seen_iff]
          exact iff_of_false (by decide) hnot
      | cons h queue =>
          rw [isAncestorOf]
          by_cases hseen : seen.contains h = true
          · have hcost : searchCost (parentsOf s) U (fun h => seen.contains h = true) queue + 1 = _ :=
              searchCost_skip (a := h)
            rw [if_pos hseen]
            exact ih hnot (hf.skip hseen) (by omega)
          rw [if_neg hseen]
          by_cases hcand : h = candidate
          · rw [if_pos hcand]
            refine ⟨true, rfl, ?_⟩
            exact iff_of_true rfl (hcand ▸ hf.sound h (Or.inr List.mem_cons_self))
          · have hin : h ∈ U := hU.mem_of_frontier hstart hf List.mem_cons_self
            obtain ⟨cd, hread⟩ := hU.readable h hin
            have hnote : ∀ b, (seen.insert h).contains b = true ↔ b = h ∨ seen.contains b = true := by
              intro b
              rw [ExtTreeSet.contains_insert, Bool.or_eq_true, beq_iff_eq, Std.compare_eq_iff_eq,
                eq_comm]
            have hcost : searchCost _ U (fun b => (seen.insert h).contains b = true)
                (queue ++ parentsOf s h) + 1 = _ := searchCost_expand hin hseen hnote
            have hnext := hf.expand hnote
            rw [parentsOf_eq hread] at hcost hnext
            rw [if_neg hcand]
            simp only [hread]
            refine ih ?_ hnext (by omega)
            rw [hnote]
            rintro (heq | hold)
            · exact hcand heq.symm
            · exact hnot hold

/-! ## The candidates -/

/-- Fuel for any one search in the graph. -/
def searchFuel (s : ObjectStore) (U : Finset Hash) : Nat :=
  1 + ∑ h ∈ U, (parentsOf s h).length

theorem searchCost_le (U : Finset Hash) (seen : Hash → Prop) [DecidablePred seen] (h : Hash) :
    searchCost (parentsOf s) U seen [h] ≤ searchFuel s U := by
  have hsub : ∑ a ∈ U.filter (fun a => ¬ seen a), (parentsOf s a).length ≤
      ∑ a ∈ U, (parentsOf s a).length :=
    Finset.sum_le_sum_of_subset (Finset.filter_subset _ _)
  simp only [searchCost, searchFuel, List.length_singleton]
  omega

theorem superseded_spec (hU : CommitGraph s U) {fuel : Nat} (hfuel : searchFuel s U < fuel)
    (candidate : Hash) {others : List Hash} (hin : ∀ other ∈ others, other ∈ U) :
    ∃ b, superseded s fuel candidate others = some b ∧
      (b = true ↔ ∃ other ∈ others, candidate ≠ other ∧ Ancestor (parentsOf s) candidate other) := by
  induction others with
  | nil => exact ⟨false, rfl, by simp⟩
  | cons other rest ih =>
      obtain ⟨b, hb, hiff⟩ := ih fun o ho => hin o (List.mem_cons_of_mem other ho)
      rw [superseded]
      by_cases hsame : candidate = other
      · rw [if_pos hsame]
        refine ⟨b, hb, hiff.trans ?_⟩
        simp [hsame]
      rw [if_neg hsame]
      have hempty : ∀ h : Hash, ¬ (∅ : HashSet).contains h = true := by simp
      have hcost : searchCost (parentsOf s) U (fun h => (∅ : HashSet).contains h = true) [other] <
          fuel := Nat.lt_of_le_of_lt (searchCost_le U _ other) hfuel
      obtain ⟨r, hr, hanc⟩ := isAncestorOf_spec hU (hin other List.mem_cons_self)
        (hempty candidate) (.init other hempty) hcost
      simp only [hr]
      cases r with
      | true => exact ⟨true, rfl, iff_of_true rfl ⟨other, List.mem_cons_self, hsame, hanc.1 rfl⟩⟩
      | false =>
          refine ⟨b, hb, hiff.trans ?_⟩
          have hno : ¬ Ancestor (parentsOf s) candidate other := by
            intro h
            cases hanc.2 h
          simp [hno]

theorem mergeBases_spec (hU : CommitGraph s U) {fuel : Nat} (hfuel : searchFuel s U < fuel)
    {candidates : List Hash} (hin : ∀ c ∈ candidates, c ∈ U) (list : List Hash) :
    ∃ bases, mergeBases s fuel candidates list = some bases ∧ bases.Sublist list ∧
      ∀ c, c ∈ bases ↔ c ∈ list ∧
        ¬ ∃ other ∈ candidates, c ≠ other ∧ Ancestor (parentsOf s) c other := by
  induction list with
  | nil => exact ⟨[], rfl, .refl _, by simp⟩
  | cons c rest ih =>
      obtain ⟨bases, hbases, hsub, hmem⟩ := ih
      obtain ⟨b, hb, hiff⟩ := superseded_spec hU hfuel c hin
      rw [mergeBases]
      simp only [hb, hbases]
      cases b with
      | true =>
          refine ⟨bases, rfl, hsub.cons c, fun d => ?_⟩
          rw [hmem, List.mem_cons]
          constructor
          · exact fun h => ⟨Or.inr h.1, h.2⟩
          · rintro ⟨rfl | hd, hno⟩
            · exact absurd (hiff.1 rfl) hno
            · exact ⟨hd, hno⟩
      | false =>
          refine ⟨c :: bases, rfl, hsub.cons_cons c, fun d => ?_⟩
          have hc : ¬ ∃ other ∈ candidates, c ≠ other ∧ Ancestor (parentsOf s) c other := by
            intro h
            cases hiff.2 h
          rw [List.mem_cons, List.mem_cons, hmem]
          constructor
          · rintro (rfl | hd)
            · exact ⟨Or.inl rfl, hc⟩
            · exact ⟨Or.inr hd.1, hd.2⟩
          · rintro ⟨rfl | hd, hno⟩
            · exact Or.inl rfl
            · exact Or.inr ⟨hd, hno⟩

/-- The candidates come in the order of their texts. -/
def commonCandidates (ancestors₁ ancestors₂ : AncestorMap) : List Hash :=
  (ancestors₁.toList.filter fun a => ancestors₂.contains a.1).map Prod.snd

theorem mem_commonCandidates {ancestors₁ ancestors₂ : AncestorMap} (hkeys : KeyedByText ancestors₁)
    {h : Hash} : h ∈ commonCandidates ancestors₁ ancestors₂ ↔
      Noted ancestors₁ h ∧ Noted ancestors₂ h := by
  rw [commonCandidates, List.mem_map]
  constructor
  · rintro ⟨⟨k, v⟩, hkv, rfl⟩
    rw [List.mem_filter, ExtTreeMap.mem_toList_iff_getElem?_eq_some] at hkv
    have hk := hkeys k v hkv.1
    subst hk
    refine ⟨?_, hkv.2⟩
    rw [Noted, ExtTreeMap.contains_eq_isSome_getElem?, hkv.1]
    rfl
  · rintro ⟨h₁, h₂⟩
    rw [Noted, ExtTreeMap.contains_eq_isSome_getElem?] at h₁
    obtain ⟨v, hv⟩ := Option.isSome_iff_exists.1 h₁
    have hkey := hashToHex_inj (hkeys _ v hv)
    subst hkey
    refine ⟨(hashToHex h, h), ?_, rfl⟩
    rw [List.mem_filter, ExtTreeMap.mem_toList_iff_getElem?_eq_some]
    exact ⟨hv, h₂⟩

theorem pairwise_commonCandidates {ancestors₁ ancestors₂ : AncestorMap}
    (hkeys : KeyedByText ancestors₁) : (commonCandidates ancestors₁ ancestors₂).Pairwise
      fun a b => compare (hashToHex a) (hashToHex b) = .lt := by
  rw [commonCandidates, List.pairwise_map]
  have hsorted : (ancestors₁.toList.filter fun a => ancestors₂.contains a.1).Pairwise
      fun a b => compare a.1 b.1 = .lt := ExtTreeMap.ordered_keys_toList.filter _
  refine hsorted.imp_of_mem fun {a b} ha hb hab => ?_
  have htext : ∀ {p : Bytes × Hash},
      p ∈ ancestors₁.toList.filter (fun a => ancestors₂.contains a.1) → p.1 = hashToHex p.2 := by
    intro p hp
    rw [List.mem_filter, ExtTreeMap.mem_toList_iff_getElem?_eq_some] at hp
    exact hkeys _ _ hp.1
  rw [← htext ha, ← htext hb]
  exact hab

/-- The run from the two commits: the best common ancestor if there is one, else the error. -/
theorem findCommonAncestor_cases (hU : CommitGraph s U) {first second : Hash} (h₁ : first ∈ U)
    (h₂ : second ∈ U) (hz₁ : first ≠ zeroHash) (hz₂ : second ≠ zeroHash) {fuel : Nat}
    (hfuel : searchFuel s U < fuel) :
    (∃ c, IsBestAncestor s first second c ∧
      findCommonAncestor s fuel first second = some (.ok c)) ∨
    (¬ (∃ a, CommonAncestor (parentsOf s) first second a) ∧
      findCommonAncestor s fuel first second = some (.error "no common ancestor")) := by
  have hempty : ∀ h, ¬ Noted ∅ h := by
    intro h
    simp [Noted]
  have hkeys : KeyedByText ∅ := by
    intro k h hk
    simp at hk
  have hcost : ∀ h, searchCost (parentsOf s) U (Noted ∅) [h] < fuel :=
    fun h => Nat.lt_of_le_of_lt (searchCost_le U _ h) hfuel
  obtain ⟨ancestors₁, hrun₁, hkeys₁, hanc₁⟩ :=
    collectAncestors_spec hU h₁ hkeys (.init first hempty) (hcost first)
  obtain ⟨ancestors₂, hrun₂, -, hanc₂⟩ :=
    collectAncestors_spec hU h₂ hkeys (.init second hempty) (hcost second)
  -- the candidates are the common ancestors
  have hmem : ∀ h, h ∈ commonCandidates ancestors₁ ancestors₂ ↔
      CommonAncestor (parentsOf s) first second h := by
    intro h
    rw [mem_commonCandidates hkeys₁, hanc₁, hanc₂]
    rfl
  have hin : ∀ h, CommonAncestor (parentsOf s) first second h → h ∈ U :=
    fun h hh => hh.1.mem hU.parents_mem h₁
  have hsorted : (commonCandidates ancestors₁ ancestors₂).Pairwise _ :=
    pairwise_commonCandidates hkeys₁
  have hrunNil : commonCandidates ancestors₁ ancestors₂ = [] →
      findCommonAncestor s fuel first second = some (.error "no common ancestor") := by
    intro hnil
    rw [findCommonAncestor, if_neg (not_or.2 ⟨hz₁, hz₂⟩), hrun₁]
    simp only [hrun₂]
    exact if_pos hnil
  have hrunCons : ∀ c rest, commonCandidates ancestors₁ ancestors₂ ≠ [] →
      mergeBases s fuel (commonCandidates ancestors₁ ancestors₂)
        (commonCandidates ancestors₁ ancestors₂) = some (c :: rest) →
      findCommonAncestor s fuel first second = some (.ok c) := by
    intro c rest hnil hbases
    rw [findCommonAncestor, if_neg (not_or.2 ⟨hz₁, hz₂⟩), hrun₁]
    simp only [hrun₂]
    refine (if_neg hnil).trans ?_
    unfold commonCandidates at hbases
    rw [hbases]
  generalize commonCandidates ancestors₁ ancestors₂ = candidates at hmem hsorted hrunNil hrunCons
  by_cases hnil : candidates = []
  · right
    refine ⟨?_, hrunNil hnil⟩
    rintro ⟨a, ha⟩
    have hina := (hmem a).2 ha
    rw [hnil] at hina
    cases hina
  left
  obtain ⟨a, ha⟩ := List.exists_mem_of_ne_nil candidates hnil
  -- there is a maximal one, so the list of bases is not empty
  obtain ⟨m, hm, hmax⟩ := exists_maximal hU.acyclic hin ⟨a, (hmem a).1 ha⟩
  obtain ⟨bases, hbases, hsub, hbase⟩ := mergeBases_spec hU hfuel
    (fun c hc => hin c ((hmem c).1 hc)) candidates
  -- the bases are the maximal ones
  have hmaximal : ∀ c, c ∈ bases ↔ MaximalCommon (parentsOf s) first second c := by
    intro c
    rw [hbase, hmem]
    constructor
    · rintro ⟨hc, hno⟩
      refine ⟨hc, fun b hb hproper => ?_⟩
      by_cases hself : c = b
      · subst hself
        exact hU.acyclic c (hin c hc) hproper
      · exact hno ⟨b, (hmem b).2 hb, hself, hproper.ancestor⟩
    · rintro ⟨hc, hno⟩
      refine ⟨hc, ?_⟩
      rintro ⟨b, hb, hne, hanc⟩
      exact hno b ((hmem b).1 hb) (hanc.proper hne)
  cases bases with
  | nil => cases (hmaximal m).2 ⟨hm, hmax⟩
  | cons c rest =>
      -- the first of them has the least text, for the list is sorted
      refine ⟨c, ⟨(hmaximal c).1 List.mem_cons_self, fun d hd => ?_⟩, hrunCons c rest hnil hbases⟩
      rcases List.mem_cons.1 ((hmaximal d).2 hd) with rfl | hrest
      · have hself : compare (hashToHex d) (hashToHex d) = .eq := ReflCmp.compare_self
        rw [hself]
        decide
      · rw [List.rel_of_pairwise_cons (hsorted.sublist hsub) hrest]
        decide

/-- `find_common_ancestor` in a finite acyclic graph of readable commits: with enough fuel it
succeeds exactly when there is a common ancestor, its result is then the best one, and the order
of the arguments does not matter. -/
theorem findCommonAncestor_best (hU : CommitGraph s U) {first second : Hash} (h₁ : first ∈ U)
    (h₂ : second ∈ U) (hz₁ : first ≠ zeroHash) (hz₂ : second ≠ zeroHash) :
    ∃ bound, ∀ fuel > bound,
      ((∃ c, findCommonAncestor s fuel first second = some (.ok c)) ↔
        ∃ a, CommonAncestor (parentsOf s) first second a) ∧
      (∀ c, findCommonAncestor s fuel first second = some (.ok c) →
        IsBestAncestor s first second c) ∧
      findCommonAncestor s fuel second first = findCommonAncestor s fuel first second := by
  refine ⟨searchFuel s U, fun fuel hfuel => ?_⟩
  have hswap := findCommonAncestor_cases hU h₂ h₁ hz₂ hz₁ hfuel
  obtain ⟨c, hbest, hrun⟩ | ⟨hnone, hrun⟩ := findCommonAncestor_cases hU h₁ h₂ hz₁ hz₂ hfuel
  · have hcommon : ∃ a, CommonAncestor (parentsOf s) first second a := ⟨c, hbest.1.1⟩
    refine ⟨iff_of_true ⟨c, hrun⟩ hcommon, fun d hd => ?_, ?_⟩
    · rw [hrun, Option.some.injEq, Except.ok.injEq] at hd
      exact hd ▸ hbest
    · obtain ⟨d, hbest', hrun'⟩ | ⟨hnone', -⟩ := hswap
      · rw [hrun, hrun', hbest'.symm.unique hbest]
      · exact absurd ⟨c, hbest.1.1.symm⟩ hnone'
  · refine ⟨iff_of_false ?_ hnone, fun d hd => ?_, ?_⟩
    · rintro ⟨d, hd⟩
      rw [hrun] at hd
      cases hd
    · rw [hrun] at hd
      cases hd
    · obtain ⟨d, hbest', -⟩ | ⟨-, hrun'⟩ := hswap
      · exact absurd ⟨d, hbest'.1.1.symm⟩ hnone
      · rw [hrun, hrun']

end Search

/-! ## A criss-cross history -/

section CrissCross

local instance historyDigest : Blake3 := foldDigest

/-- A commit without a tree. -/
def bareCommit (parents : List Hash) : Bytes := serializeCommit ⟨zeroHash, parents, 0, 0, [], 1⟩

def rootCommit : ObjectStore × Hash := ObjectStore.writeCommit {} (bareCommit [])

def leftCommit : ObjectStore × Hash := rootCommit.1.writeCommit (bareCommit [rootCommit.2])

def rightCommit : ObjectStore × Hash :=
  leftCommit.1.writeCommit (bareCommit [rootCommit.2, rootCommit.2])

/-- Both sides merged the other one. -/
def leftMerge : ObjectStore × Hash :=
  rightCommit.1.writeCommit (bareCommit [leftCommit.2, rightCommit.2])

def rightMerge : ObjectStore × Hash :=
  leftMerge.1.writeCommit (bareCommit [rightCommit.2, leftCommit.2])

def crissCross : List Hash :=
  [rootCommit.2, leftCommit.2, rightCommit.2, leftMerge.2, rightMerge.2]

theorem commitGraph_crissCross : CommitGraph rightMerge.1 crissCross.toFinset := by
  have hread : ∀ h ∈ crissCross, (readCommitData rightMerge.1 h).toOption.isSome = true := by
    decide +kernel
  have hparents : ∀ h ∈ crissCross, ∀ p ∈ parentsOf rightMerge.1 h, p ∈ crissCross := by
    decide +kernel
  have hrank : ∀ h ∈ crissCross, ∀ p ∈ parentsOf rightMerge.1 h,
      crissCross.idxOf p < crissCross.idxOf h := by decide +kernel
  have hclosed : ∀ h ∈ crissCross.toFinset, ∀ p ∈ parentsOf rightMerge.1 h,
      p ∈ crissCross.toFinset := by
    intro h hh p hp
    exact List.mem_toFinset.2 (hparents h (List.mem_toFinset.1 hh) p hp)
  refine ⟨fun h hh => ?_, hclosed, ?_⟩
  · have hsome := hread h (List.mem_toFinset.1 hh)
    cases hcd : readCommitData rightMerge.1 h with
    | error err =>
        rw [hcd] at hsome
        cases hsome
    | ok cd => exact ⟨cd, rfl⟩
  · refine acyclic_of_rank hclosed (fun h => crissCross.idxOf h) fun h hh p hp => ?_
    exact hrank h (List.mem_toFinset.1 hh) p hp

theorem findCommonAncestor_best_crissCross :
    ∃ bound, ∀ fuel > bound,
      ((∃ c, findCommonAncestor rightMerge.1 fuel leftMerge.2 rightMerge.2 = some (.ok c)) ↔
        ∃ a, CommonAncestor (parentsOf rightMerge.1) leftMerge.2 rightMerge.2 a) ∧
      (∀ c, findCommonAncestor rightMerge.1 fuel leftMerge.2 rightMerge.2 = some (.ok c) →
        IsBestAncestor rightMerge.1 leftMerge.2 rightMerge.2 c) ∧
      findCommonAncestor rightMerge.1 fuel rightMerge.2 leftMerge.2 =
        findCommonAncestor rightMerge.1 fuel leftMerge.2 rightMerge.2 :=
  findCommonAncestor_best commitGraph_crissCross (List.mem_toFinset.2 (by decide +kernel))
    (List.mem_toFinset.2 (by decide +kernel)) (by decide +kernel) (by decide +kernel)

end CrissCross

end ContextFS
