import ContextFS.Branch.LiveView
import ContextFS.Gc.Markable
import ContextFS.Tree.RebuildEnds

/-!
# Merging after a collection

A collection keeps the history of every branch, so two branches find the merge base they found
before.  The tree of the base is kept as long as the policy keeps the data of the base, or of other
commits that share its directories; after that the base is found but cannot be loaded.
-/

namespace ContextFS

open Std Lib ObjectStore

/-! ## The searches read commits of the history only -/

/-- The stores agree on a set of commits that has the parents of its commits. -/
structure SameCommits (s s' : ObjectStore) (R : Hash → Prop) : Prop where
  read : ∀ h, R h → readCommitData s' h = readCommitData s h
  parents : ∀ h, R h → ∀ cd, readCommitData s h = .ok cd → ∀ p ∈ cd.parents, R p

namespace SameCommits

variable {s s' : ObjectStore} {R : Hash → Prop}

theorem queue_next (hR : SameCommits s s' R) {h : Hash} {queue : List Hash} {cd : CommitData}
    (hq : ∀ x ∈ h :: queue, R x) (hcd : readCommitData s h = .ok cd) :
    ∀ x ∈ queue ++ cd.parents, R x := by
  intro x hx
  rcases List.mem_append.1 hx with hold | hnew
  · exact hq x (List.mem_cons_of_mem h hold)
  · exact hR.parents h (hq h List.mem_cons_self) cd hcd x hnew

theorem collectAncestors_eq (hR : SameCommits s s' R) (fuel : Nat) {queue : List Hash}
    (ancestors : AncestorMap) (hq : ∀ h ∈ queue, R h) :
    collectAncestors s' fuel queue ancestors = collectAncestors s fuel queue ancestors := by
  induction fuel generalizing queue ancestors with
  | zero => rfl
  | succ fuel ih =>
      cases queue with
      | nil => rfl
      | cons h queue =>
          rw [collectAncestors, collectAncestors, hR.read h (hq h List.mem_cons_self),
            ih ancestors fun x hx => hq x (List.mem_cons_of_mem h hx)]
          split
          · rfl
          cases hcd : readCommitData s h with
          | error err => rfl
          | ok cd => exact ih _ (hR.queue_next hq hcd)

/-- The ancestors that were collected are in the set. -/
theorem of_collectAncestors (hR : SameCommits s s' R) {fuel : Nat} {queue : List Hash}
    {ancestors all : AncestorMap} (hq : ∀ h ∈ queue, R h)
    (hold : ∀ (k : Bytes) h, ancestors[k]? = some h → R h)
    (hall : collectAncestors s fuel queue ancestors = some (.ok all)) :
    ∀ (k : Bytes) h, all[k]? = some h → R h := by
  induction fuel generalizing queue ancestors with
  | zero => cases hall
  | succ fuel ih =>
      cases queue with
      | nil =>
          cases hall
          exact hold
      | cons h queue =>
          rw [collectAncestors] at hall
          split at hall
          · exact ih (fun x hx => hq x (List.mem_cons_of_mem h hx)) hold hall
          cases hcd : readCommitData s h with
          | error err =>
              rw [hcd] at hall
              cases hall
          | ok cd =>
              rw [hcd] at hall
              refine ih (hR.queue_next hq hcd) (fun k x hx => ?_) hall
              rw [ExtTreeMap.getElem?_insert] at hx
              split at hx
              · cases hx
                exact hq h List.mem_cons_self
              · exact hold k x hx

theorem isAncestorOf_eq (hR : SameCommits s s' R) (candidate : Hash) (fuel : Nat)
    {queue : List Hash} (seen : HashSet) (hq : ∀ h ∈ queue, R h) :
    isAncestorOf s' candidate fuel queue seen = isAncestorOf s candidate fuel queue seen := by
  induction fuel generalizing queue seen with
  | zero => rfl
  | succ fuel ih =>
      cases queue with
      | nil => rfl
      | cons h queue =>
          rw [isAncestorOf, isAncestorOf, hR.read h (hq h List.mem_cons_self),
            ih seen fun x hx => hq x (List.mem_cons_of_mem h hx)]
          split
          · rfl
          split
          · rfl
          cases hcd : readCommitData s h with
          | error err => rfl
          | ok cd => exact ih _ (hR.queue_next hq hcd)

theorem superseded_eq (hR : SameCommits s s' R) (fuel : Nat) (candidate : Hash)
    {others : List Hash} (ho : ∀ h ∈ others, R h) :
    superseded s' fuel candidate others = superseded s fuel candidate others := by
  induction others with
  | nil => rfl
  | cons other rest ih =>
      have hone : ∀ h ∈ [other], R h := by
        intro h hh
        rw [List.mem_singleton.1 hh]
        exact ho other List.mem_cons_self
      rw [superseded, superseded, hR.isAncestorOf_eq candidate fuel ∅ hone,
        ih fun h hh => ho h (List.mem_cons_of_mem other hh)]

theorem mergeBases_eq (hR : SameCommits s s' R) (fuel : Nat) {candidates : List Hash}
    (hc : ∀ h ∈ candidates, R h) (list : List Hash) :
    mergeBases s' fuel candidates list = mergeBases s fuel candidates list := by
  induction list with
  | nil => rfl
  | cons c rest ih => rw [mergeBases, mergeBases, hR.superseded_eq fuel c hc, ih]

/-- Two commits of the set have the same merge base in both stores. -/
theorem findCommonAncestor_eq (hR : SameCommits s s' R) (fuel : Nat) {first second : Hash}
    (h₁ : R first) (h₂ : R second) :
    findCommonAncestor s' fuel first second = findCommonAncestor s fuel first second := by
  have hq₁ : ∀ h ∈ [first], R h := fun h hh => List.mem_singleton.1 hh ▸ h₁
  have hq₂ : ∀ h ∈ [second], R h := fun h hh => List.mem_singleton.1 hh ▸ h₂
  unfold findCommonAncestor
  rw [hR.collectAncestors_eq fuel ∅ hq₁, hR.collectAncestors_eq fuel ∅ hq₂]
  split
  · rfl
  cases hrun₁ : collectAncestors s fuel [first] ∅ with
  | none => rfl
  | some r₁ =>
      cases r₁ with
      | error err => rfl
      | ok ancestors₁ =>
          have hin : ∀ (k : Bytes) h, ancestors₁[k]? = some h → R h :=
            hR.of_collectAncestors hq₁ (fun k h hk => by simp at hk) hrun₁
          simp only
          cases collectAncestors s fuel [second] ∅ with
          | none => rfl
          | some r₂ =>
              cases r₂ with
              | error err => rfl
              | ok ancestors₂ =>
                  have hc : ∀ h ∈ (ancestors₁.toList.filter fun a => ancestors₂.contains a.1).map
                      Prod.snd, R h := by
                    intro h hh
                    obtain ⟨⟨k, v⟩, hkv, rfl⟩ := List.mem_map.1 hh
                    rw [List.mem_filter, ExtTreeMap.mem_toList_iff_getElem?_eq_some] at hkv
                    exact hin k v hkv.1
                  simp only [hR.mergeBases_eq fuel hc]

theorem mem_of_mergeBases {fuel : Nat} {candidates list bases : List Hash}
    (h : mergeBases s fuel candidates list = some bases) : ∀ c ∈ bases, c ∈ list := by
  induction list generalizing bases with
  | nil =>
      cases h
      exact fun c hc => hc
  | cons x rest ih =>
      rw [mergeBases] at h
      split at h
      · rename_i hrest
        cases h
        exact fun c hc => List.mem_cons_of_mem x (ih hrest c hc)
      · rename_i hrest
        cases h
        intro c hc
        rcases List.mem_cons.1 hc with rfl | hold
        · exact List.mem_cons_self
        · exact List.mem_cons_of_mem x (ih hrest c hold)
      · cases h

/-- The merge base of commits of the set is one. -/
theorem of_findCommonAncestor (hR : SameCommits s s' R) {fuel : Nat} {first second c : Hash}
    (h₁ : R first) (h : findCommonAncestor s fuel first second = some (.ok c)) : R c := by
  have hq₁ : ∀ h ∈ [first], R h := fun h hh => List.mem_singleton.1 hh ▸ h₁
  unfold findCommonAncestor at h
  split at h
  · cases h
  split at h
  · cases h
  · cases h
  rename_i ancestors₁ hrun₁
  split at h
  · cases h
  · cases h
  simp only at h
  split at h
  · cases h
  split at h
  · rename_i hbases
    cases h
    have hc := mem_of_mergeBases hbases c List.mem_cons_self
    obtain ⟨⟨k, v⟩, hkv, rfl⟩ := List.mem_map.1 hc
    rw [List.mem_filter, ExtTreeMap.mem_toList_iff_getElem?_eq_some] at hkv
    exact hR.of_collectAncestors hq₁ (fun k h hk => by simp at hk) hrun₁ k v hkv.1
  · cases h

end SameCommits

/-! ## Loading reads the commit and its directories only -/

section Load

variable {s s' : ObjectStore}

theorem rebuildLoop_eq (fuel : Nat) {stack : List (Hash × FsPath)} (scratch : EntryMap)
    (heq : ∀ x ∈ stack, ∀ k, Relation.ReflTransGen (IsSubTree s) x.1 k →
      s'.objects[k]? = s.objects[k]?) :
    rebuildLoop s' fuel stack scratch = rebuildLoop s fuel stack scratch := by
  induction fuel generalizing stack scratch with
  | zero => rfl
  | succ fuel ih =>
      cases stack with
      | nil => rfl
      | cons x stack =>
          obtain ⟨h, pre⟩ := x
          have hself : s'.objects[h]? = s.objects[h]? := heq (h, pre) List.mem_cons_self h .refl
          have hread : s'.readTree h = s.readTree h := by
            simp only [ObjectStore.readTree, ObjectStore.readObject, hself]
          have hin : s'.objects.contains h = s.objects.contains h := by
            rw [ExtTreeMap.contains_eq_isSome_getElem?, ExtTreeMap.contains_eq_isSome_getElem?, hself]
          rw [rebuildLoop, rebuildLoop, hread, hin]
          cases hbody : s.readTree h with
          | none => rfl
          | some body =>
              simp only
              cases hes : deserializeTreeEntries body with
              | none => rfl
              | some es =>
                  refine ih _ fun y hy k hk => ?_
                  rcases mem_pushDirs.1 hy with hold | ⟨c, hc, hkind, rfl⟩
                  · exact heq y (List.mem_cons_of_mem _ hold) k hk
                  · have hsub : IsSubTree s h c.2.hash := by
                      refine ⟨es, c, ?_, hc, hkind, rfl⟩
                      rw [ObjectStore.dirEntries, hbody]
                      exact hes
                    exact heq (h, pre) List.mem_cons_self k (.head hsub hk)

theorem loadCommitTree_eq (fuel : Nat) {c : Hash}
    (hread : readCommitData s' c = readCommitData s c)
    (heq : ∀ cd, s.readCommit c = some cd → ∀ k, Relation.ReflTransGen (IsSubTree s) cd.treeHash k →
      s'.objects[k]? = s.objects[k]?) :
    loadCommitTree s' fuel c = loadCommitTree s fuel c := by
  rw [loadCommitTree, loadCommitTree, hread]
  cases hcd : readCommitData s c with
  | error err => rfl
  | ok cd =>
      have hsame : rebuildWorkingTree fuel cd.treeHash s' {} =
          rebuildWorkingTree fuel cd.treeHash s {} := by
        rw [rebuildWorkingTree, rebuildWorkingTree, rebuildLoop_eq]
        intro x hx
        rw [List.mem_singleton.1 hx]
        exact heq cd (readCommitData_eq.1 hcd)
      simp only [hsame]

end Load

/-! ## A collection that succeeds -/

section Collection

variable (s : ObjectStore) (refs : Refs) (latest : LatestRoot) (live : GcLiveRoots)
  (policy : GcPolicy)

/-- No directory of the tree of the commit contains itself. -/
def NoDirInItself (c : Hash) : Prop :=
  ∀ cd, s.readCommit c = some cd → ∀ k, Relation.ReflTransGen (IsSubTree s) cd.treeHash k →
    ¬ Relation.TransGen (IsSubTree s) k k

/-- The policy keeps the data of the commit, or that of other commits with the same directories. -/
def DirsRetained (c : Hash) : Prop :=
  ∀ cd, s.readCommit c = some cd → ∀ k, Relation.ReflTransGen (IsSubTree s) cd.treeHash k →
    ∃ c' cd', DataRetained s refs latest live policy c' ∧ s.readCommit c' = some cd' ∧
      Relation.ReflTransGen (IsSubTree s) cd'.treeHash k

variable {s refs latest live policy}

theorem dirsRetained_of_dataRetained {c : Hash} (h : DataRetained s refs latest live policy c) :
    DirsRetained s refs latest live policy c :=
  fun cd hcd _ hk => ⟨c, cd, h, hcd, hk⟩

/-- A tree whose objects are all marked has all its directories marked. -/
theorem TreeMarked.mem_of_subTree {st : MarkState} {h k : Hash} (hm : TreeMarked s st h)
    (hk : Relation.ReflTransGen (IsSubTree s) h k) : k ∈ st.marked := by
  induction hk using Relation.ReflTransGen.head_induction_on with
  | refl => exact hm.root
  | head hsub _ ih =>
      obtain ⟨es, c, hes, hc, hkind, rfl⟩ := hsub
      refine ih ⟨?_, fun {p e} hin => hm.below (.inside hes hc hkind hin)⟩
      refine hm.below (.here hes hc) (fun hdel => ?_) fun hne => absurd hkind hne
      rw [hkind] at hdel
      cases hdel

/-- Directories that can all be read and do not contain themselves are a readable tree. -/
theorem readable_of_treeReadable {h : Hash} (hr : TreeReadable s h)
    (hno : ∀ k, Relation.ReflTransGen (IsSubTree s) h k → ¬ Relation.TransGen (IsSubTree s) k k) :
    Readable s h := by
  have hiff : SubdirOf s = IsSubTree s := by
    funext h k
    refine propext ⟨?_, ?_⟩
    · rintro ⟨es, hes, c, hc, hkind, heq⟩
      exact ⟨es, c, hes, hc, hkind, heq⟩
    · rintro ⟨es, c, hes, hc, hkind, heq⟩
      exact ⟨es, hes, c, hc, hkind, heq⟩
  rw [readable_iff_sound, Sound, hiff]
  intro k hk
  obtain ⟨es, hes⟩ := hr k hk
  refine ⟨?_, hno k hk⟩
  rw [hes]
  exact Option.some_ne_none es

/-- A run that reports success has marked everything, and every marked object is as it was. -/
theorem marked_of_gcRun_ok {fuel : Nat} {listing : Option (Nat × String)}
    (hok : (gcRun fuel refs latest live policy listing s).1.ok = true) :
    ∃ st, MarkComplete s refs latest live policy st ∧ Markable s refs latest live policy ∧
      ∀ h ∈ st.marked,
        (gcRun fuel refs latest live policy listing s).2.objects[h]? = s.objects[h]? := by
  cases hmark : markImpl fuel s refs latest live policy with
  | mk r out =>
      cases out with
      | ok st =>
          exact ⟨st, markComplete_of_ok hmark, markable_of_ok hmark, fun h hm =>
            getElem?_gcRun_of_marked hmark listing hm⟩
      | error stop =>
          have hflag : r.ok = false := field_markImpl (fun _ _ => rfl) (fun _ _ => rfl)
            (fun _ _ => rfl) (fun _ _ => rfl) hmark
          simp only [gcRun, hmark, hflag] at hok
          cases hok

/-- After a collection that succeeded, two branches have the merge base they had, their heads load
as before, and the base does if the directories of its tree are kept. -/
theorem mergeBase_kept (fuel : Nat) (listing : Option (Nat × String)) {h₁ h₂ : Hash}
    (hok : (gcRun fuel refs latest live policy listing s).1.ok = true)
    (hb₁ : BranchHead refs h₁) (hb₂ : BranchHead refs h₂) :
    (∀ n, findCommonAncestor (gcRun fuel refs latest live policy listing s).2 n h₁ h₂ =
      findCommonAncestor s n h₁ h₂) ∧
    ∀ c, (c = h₁ ∨ c = h₂ ∨ (∃ n, findCommonAncestor s n h₁ h₂ = some (.ok c)) ∧
        DirsRetained s refs latest live policy c) →
      (∀ n, loadCommitTree (gcRun fuel refs latest live policy listing s).2 n c =
        loadCommitTree s n c) ∧
      (NoDirInItself s c → ∃ n wt,
        loadCommitTree (gcRun fuel refs latest live policy listing s).2 n c = some (.ok wt)) := by
  obtain ⟨st, hcomplete, hmarkable, hkeeps⟩ := marked_of_gcRun_ok hok
  generalize (gcRun fuel refs latest live policy listing s).2 = s' at hkeeps
  -- the commits of both histories are marked
  have hsame : SameCommits s s' fun c => History s h₁ c ∨ History s h₂ c := by
    refine ⟨fun c hc => ?_, fun c hc cd hcd p hp => ?_⟩
    · have hm : c ∈ st.marked :=
        hc.elim (hcomplete.history (.branch hb₁)) (hcomplete.history (.branch hb₂))
      simp only [readCommitData, ObjectStore.readObject, hkeeps c hm]
    · have hparent : IsParent s c p := ⟨cd, readCommitData_eq.1 hcd, hp⟩
      exact hc.imp (fun h => h.tail hparent) fun h => h.tail hparent
  refine ⟨fun n => hsame.findCommonAncestor_eq n (Or.inl .refl) (Or.inr .refl), fun c hc => ?_⟩
  have hretained : DirsRetained s refs latest live policy c := by
    rcases hc with rfl | rfl | ⟨-, hkept⟩
    · exact dirsRetained_of_dataRetained (.head hb₁)
    · exact dirsRetained_of_dataRetained (.head hb₂)
    · exact hkept
  have hhist : History s h₁ c ∨ History s h₂ c := by
    rcases hc with rfl | rfl | ⟨⟨n, hbase⟩, -⟩
    · exact Or.inl .refl
    · exact Or.inr .refl
    · exact hsame.of_findCommonAncestor (Or.inl .refl) hbase
  have hdirs : ∀ cd, s.readCommit c = some cd → ∀ k,
      Relation.ReflTransGen (IsSubTree s) cd.treeHash k → s'.objects[k]? = s.objects[k]? := by
    intro cd hcd k hk
    obtain ⟨c', cd', hret, hcd', hk'⟩ := hretained cd hcd k hk
    obtain ⟨cd'', hcd'', htree⟩ := hcomplete.data hret
    rw [hcd', Option.some_inj] at hcd''
    subst hcd''
    exact hkeeps k (htree.mem_of_subTree hk')
  have hload : ∀ n, loadCommitTree s' n c = loadCommitTree s n c :=
    fun n => loadCommitTree_eq n (hsame.read c hhist) hdirs
  refine ⟨hload, fun hno => ?_⟩
  obtain ⟨cd, hcd⟩ : ∃ cd, s.readCommit c = some cd :=
    hhist.elim (hmarkable.histories (.branch hb₁) c) (hmarkable.histories (.branch hb₂) c)
  have htree : TreeReadable s cd.treeHash := by
    intro k hk
    obtain ⟨c', cd', hret, hcd', hk'⟩ := hretained cd hcd k hk
    obtain ⟨cd'', hcd'', hread⟩ := hmarkable.data hret
    rw [hcd', Option.some_inj] at hcd''
    subst hcd''
    exact hread k hk'
  obtain ⟨n, m, hrebuild⟩ :=
    (readable_of_treeReadable htree (hno cd hcd)).exists_rebuildWorkingTree {}
  refine ⟨n, WorkingTree.setBase {} m, ?_⟩
  rw [hload, loadCommitTree, readCommitData_eq.2 hcd]
  simp only [hrebuild n (Nat.le_refl n)]

end Collection

/-! ## Two branches that have both moved on -/

section MovedOn

local instance movedDigest : Blake3 := foldDigest

/-- A directory with one empty file. -/
def movedEntries : Bytes := serializeTreeEntries [([97], ⟨.blob, zeroHash, 0o644⟩)]

/-- The commit both branches start from, with another file. -/
def forkPoint : ObjectStore × Hash :=
  let t := writeTree {} (serializeTreeEntries [([98], ⟨.blob, zeroHash, 0o644⟩)])
  t.1.writeCommit (serializeCommit ⟨t.2, [], 0, 0, [], 0⟩)

/-- One branch adds the file, -/
def firstMoved : ObjectStore × Hash :=
  let t := forkPoint.1.writeTree movedEntries
  t.1.writeCommit (serializeCommit ⟨t.2, [forkPoint.2], 1, 0, [], 0⟩)

/-- and so does the other, later. -/
def secondMoved : ObjectStore × Hash :=
  let t := firstMoved.1.writeTree movedEntries
  t.1.writeCommit (serializeCommit ⟨t.2, [forkPoint.2], 2, 0, [], 0⟩)

/-- The store ten seconds later. -/
def movedStore : ObjectStore := { secondMoved.1 with pending := ∅, now := 10 }

def movedRefs : Refs :=
  ((({} : Refs).writeRef Refs.mainName firstMoved.2).2.writeRef [98] secondMoved.2).2

def keepOne : GcPolicy := { keepLast := some 1 }

/-- A policy that keeps the fork point as well. -/
def keepTwo : GcPolicy := { keepLast := some 2 }

/-- What the refs name, what the commits hold, and what is found and loaded. -/
theorem moved_facts : movedRefs.readRef Refs.mainName = some firstMoved.2 ∧
    movedRefs.readRef [98] = some secondMoved.2 ∧
    (movedStore.readCommit firstMoved.2).any (fun cd => cd.parents == [forkPoint.2]) = true ∧
    (movedStore.readCommit forkPoint.2).all (fun cd => (movedStore.dirEntries cd.treeHash).all
      fun es => es.all fun c => c.2.kind != .tree) = true ∧
    (findCommonAncestor movedStore 9 firstMoved.2 secondMoved.2).any
      (fun r => r.toOption == some forkPoint.2) = true ∧
    (loadCommitTree movedStore 9 forkPoint.2).any (fun r => r.toOption.isSome) = true := by
  decide +kernel

theorem branchHead_first : BranchHead movedRefs firstMoved.2 := ⟨Refs.mainName, moved_facts.1⟩

theorem branchHead_second : BranchHead movedRefs secondMoved.2 := ⟨[98], moved_facts.2.1⟩

/-- The store after a collection that keeps the last commit of every branch only. -/
def collected : GcResult × ObjectStore := gcRun 9 movedRefs {} {} keepOne none movedStore

/-- The fork point is the merge base of the two heads. -/
theorem forkPoint_found : ∃ n, findCommonAncestor movedStore n firstMoved.2 secondMoved.2 =
    some (.ok forkPoint.2) := by
  obtain ⟨-, -, -, -, hbase, -⟩ := moved_facts
  obtain ⟨r, hr, hok⟩ := (Option.any_eq_true _ _).1 hbase
  refine ⟨9, ?_⟩
  rw [hr]
  cases r with
  | error err => cases hok
  | ok c =>
      have hc : some c = some forkPoint.2 := beq_iff_eq.1 hok
      rw [Option.some_inj.1 hc]

/-- The store after a collection that keeps the last two. -/
def collectedTwo : GcResult × ObjectStore := gcRun 9 movedRefs {} {} keepTwo none movedStore

/-- Both collections succeed, and the first one takes the tree of the fork point. -/
theorem collected_facts : (gcRun 9 movedRefs {} {} keepOne none movedStore).1.ok = true ∧
    (gcRun 9 movedRefs {} {} keepTwo none movedStore).1.ok = true ∧
    (readCommitData collected.2 forkPoint.2).toOption.any
      (fun cd => collected.2.readTree cd.treeHash == none) = true := by
  decide +kernel

/-- The fork point is the parent of the first head. -/
theorem dataRetained_forkPoint :
    DataRetained movedStore movedRefs {} {} keepTwo forkPoint.2 := by
  obtain ⟨-, -, hparents, -⟩ := moved_facts
  obtain ⟨cd, hcd, hp⟩ := (Option.any_eq_true _ _).1 hparents
  rw [beq_iff_eq] at hp
  exact .window branchHead_first rfl (k := 1) (by decide) (.succ hcd hp (.zero _))

theorem noDirInItself_forkPoint : NoDirInItself movedStore forkPoint.2 := by
  intro cd hcd k hk hloop
  obtain ⟨-, -, -, hleaves, -⟩ := moved_facts
  rw [hcd, Option.all_some] at hleaves
  -- the tree of the commit has no directories
  have hnone : ∀ k, ¬ IsSubTree movedStore cd.treeHash k := by
    rintro k ⟨es, c, hes, hc, hkind, -⟩
    rw [hes, Option.all_some] at hleaves
    have hleaf := List.all_eq_true.1 hleaves c hc
    rw [hkind] at hleaf
    cases hleaf
  rcases hk.cases_head with rfl | ⟨m, hm, -⟩
  · obtain ⟨m, hm, -⟩ := Relation.TransGen.head'_iff.1 hloop
    exact hnone m hm
  · exact hnone m hm

/-- The merge base is no head; it is found, loaded as before, and loaded with success. -/
theorem mergeBase_kept_moved :
    (∃ n, findCommonAncestor collectedTwo.2 n firstMoved.2 secondMoved.2 =
      some (.ok forkPoint.2)) ∧
    (∀ n, loadCommitTree collectedTwo.2 n forkPoint.2 = loadCommitTree movedStore n forkPoint.2) ∧
    ∃ n wt, loadCommitTree collectedTwo.2 n forkPoint.2 = some (.ok wt) := by
  obtain ⟨hsame, hloads⟩ :=
    mergeBase_kept 9 none collected_facts.2.1 branchHead_first branchHead_second
  obtain ⟨n, hn⟩ := forkPoint_found
  obtain ⟨hload, hloaded⟩ := hloads forkPoint.2
    (Or.inr (Or.inr ⟨⟨n, hn⟩, dirsRetained_of_dataRetained dataRetained_forkPoint⟩))
  exact ⟨⟨n, (hsame n).trans hn⟩, hload, hloaded noDirInItself_forkPoint⟩

/-- The tree of the merge base is swept, and the base cannot be loaded any more. -/
theorem mergeBase_compacted :
    ¬ ∀ (fuel : Nat) (s : ObjectStore) (refs : Refs) (latest : LatestRoot) (live : GcLiveRoots)
      (policy : GcPolicy) (h₁ h₂ c : Hash),
      (gcRun fuel refs latest live policy none s).1.ok = true → BranchHead refs h₁ →
      BranchHead refs h₂ → (∃ n, findCommonAncestor s n h₁ h₂ = some (.ok c)) →
      (∃ n wt, loadCommitTree s n c = some (.ok wt)) →
      ∃ n wt, loadCommitTree (gcRun fuel refs latest live policy none s).2 n c = some (.ok wt) := by
  intro hall
  obtain ⟨-, -, -, -, -, hbefore⟩ := moved_facts
  obtain ⟨hok, -, hread⟩ := collected_facts
  have hloaded : ∃ n wt, loadCommitTree movedStore n forkPoint.2 = some (.ok wt) := by
    obtain ⟨r, hr, hok⟩ := (Option.any_eq_true _ _).1 hbefore
    cases r with
    | error err => cases hok
    | ok wt => exact ⟨9, wt, hr⟩
  obtain ⟨n, wt, hload⟩ := hall 9 movedStore movedRefs {} {} keepOne firstMoved.2 secondMoved.2
    forkPoint.2 hok branchHead_first branchHead_second forkPoint_found hloaded
  change loadCommitTree collected.2 n forkPoint.2 = some (.ok wt) at hload
  cases hcd : readCommitData collected.2 forkPoint.2 with
  | error err =>
      rw [hcd] at hread
      cases hread
  | ok cd =>
      have hgone : collected.2.readTree cd.treeHash = none := by
        rw [hcd] at hread
        exact beq_iff_eq.1 hread
      rw [loadCommitTree, hcd] at hload
      cases n with
      | zero => cases hload
      | succ n =>
          simp only [rebuildWorkingTree, rebuildLoop, hgone] at hload
          split_ifs at hload
          all_goals cases hload

end MovedOn

end ContextFS
