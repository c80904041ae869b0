import ContextFS.Gc.Mark

/-!
# What a successful mark phase has marked

Three closure facts are put together: the visited trees are closed under subdirectories, a
commit chain under parents, and the visited records under the links between records.  Each is
the general statement about its traversal, read off for the state at the end of the phase.
-/

namespace ContextFS

open Std Lib ObjectStore

/-! ## States of the phase only grow -/

/-- `st'` has marked, retained and visited whatever `st` has. -/
structure MarkState.Le (st st' : MarkState) : Prop where
  marked : ∀ {h : Hash}, h ∈ st.marked → h ∈ st'.marked
  retained : ∀ {h : Hash}, h ∈ st.retainedData → h ∈ st'.retainedData
  trees : ∀ {h : Hash}, h ∈ st.trees → h ∈ st'.trees
  stateRecords : ∀ {h : Hash}, h ∈ st.stateRecords → h ∈ st'.stateRecords
  unionStates : ∀ {h : Hash}, h ∈ st.unionStates → h ∈ st'.unionStates

namespace MarkState

theorem Le.refl (st : MarkState) : Le st st := ⟨id, id, id, id, id⟩

theorem Le.trans {st₁ st₂ st₃ : MarkState} (h₁₂ : Le st₁ st₂) (h₂₃ : Le st₂ st₃) : Le st₁ st₃ :=
  ⟨fun h => h₂₃.marked (h₁₂.marked h), fun h => h₂₃.retained (h₁₂.retained h),
    fun h => h₂₃.trees (h₁₂.trees h), fun h => h₂₃.stateRecords (h₁₂.stateRecords h),
    fun h => h₂₃.unionStates (h₁₂.unionStates h)⟩

theorem mem_marked_mark {h k : Hash} {st : MarkState} :
    k ∈ (st.mark h).marked ↔ k = h ∨ k ∈ st.marked := by
  rw [mark, ExtTreeSet.mem_insert, Std.compare_eq_iff_eq]
  exact or_congr_left eq_comm

theorem mem_marked_markAll {hs : List Hash} {k : Hash} {st : MarkState} :
    k ∈ (st.markAll hs).marked ↔ k ∈ hs ∨ k ∈ st.marked := by
  simp [markAll, ExtTreeSet.mem_insertMany_list, or_comm]

theorem le_mark (h : Hash) (st : MarkState) : Le st (st.mark h) :=
  ⟨fun hk => mem_marked_mark.2 (Or.inr hk), id, id, id, id⟩

theorem le_markAll (hs : List Hash) (st : MarkState) : Le st (st.markAll hs) :=
  ⟨fun hk => mem_marked_markAll.2 (Or.inr hk), id, id, id, id⟩

/-- The visited sets are the same. -/
def SameVisited (st st' : MarkState) : Prop :=
  st'.trees = st.trees ∧ st'.stateRecords = st.stateRecords ∧ st'.unionStates = st.unionStates

theorem SameVisited.trans {st₁ st₂ st₃ : MarkState} (h₁₂ : SameVisited st₁ st₂)
    (h₂₃ : SameVisited st₂ st₃) : SameVisited st₁ st₃ :=
  ⟨h₂₃.1.trans h₁₂.1, h₂₃.2.1.trans h₁₂.2.1, h₂₃.2.2.trans h₁₂.2.2⟩

end MarkState

open MarkState

theorem contains_insert_iff (m : HashSet) {a b : Hash} :
    (m.insert a).contains b = true ↔ b = a ∨ m.contains b = true := by
  rw [ExtTreeSet.contains_iff_mem, ExtTreeSet.contains_iff_mem, ExtTreeSet.mem_insert,
    Std.compare_eq_iff_eq]
  exact or_congr_left eq_comm

/-! ## Trees -/

variable {s : ObjectStore}

theorem treeEntryTasks_cases (s : ObjectStore) (h : Hash) :
    (∃ es, s.dirEntries h = some es ∧ treeEntryTasks s h = es.map treeEntryTask) ∨
      ∃ text missing, treeEntryTasks s h = [failTask text missing] := by
  unfold treeEntryTasks ObjectStore.dirEntries
  cases s.readTree h with
  | none => exact Or.inr ⟨_, _, rfl⟩
  | some body =>
      simp only
      cases deserializeTreeEntries body with
      | none => exact Or.inr ⟨_, _, rfl⟩
      | some es => exact Or.inl ⟨es, rfl, rfl⟩

/-- An action of the tree walk marks a hash, does nothing or fails. -/
theorem treeWalk_act {h : Hash} {f : MarkState → Except MarkStop MarkState}
    (hf : .act f ∈ (treeWalk s).tasks h) {st st' : MarkState} (hok : f st = .ok st') :
    st' = st ∨ ∃ k, st' = st.mark k := by
  rcases List.mem_cons.1 hf with hf | hf
  · cases hf
    cases hok
    exact Or.inr ⟨h, rfl⟩
  · rcases treeEntryTasks_cases s h with ⟨es, -, hts⟩ | ⟨text, missing, hts⟩
    · rw [hts] at hf
      obtain ⟨c, -, hc⟩ := List.mem_map.1 hf
      unfold treeEntryTask at hc
      split at hc
      · cases hc
      · split at hc
        · cases hc
          cases hok
          exact Or.inr ⟨_, rfl⟩
        · cases hc
          cases hok
          exact Or.inl rfl
    · rw [hts, List.mem_singleton, failTask] at hf
      cases hf
      cases hok

theorem treeWalk_laws (s : ObjectStore) : (treeWalk s).Laws Le where
  refl := Le.refl
  trans := Le.trans
  seen_mono := by
    intro h st st' hle hseen
    exact ExtTreeSet.contains_iff_mem.2 (hle.trees (ExtTreeSet.contains_iff_mem.1 hseen))
  le_note := by
    intro h st
    exact ⟨id, id, fun hk => ExtTreeSet.mem_insert.2 (Or.inr hk), id, id⟩
  seen_note := by
    intro a b st
    exact contains_insert_iff st.trees
  le_act := by
    intro h f st st' hf hok
    rcases treeWalk_act hf hok with rfl | ⟨k, rfl⟩
    · exact .refl _
    · exact le_mark k st
  seen_act := by
    intro h f st st' b hf hok hseen
    rcases treeWalk_act hf hok with rfl | ⟨k, rfl⟩
    · exact hseen
    · exact hseen

/-- All objects of the tree at `h` are marked: the trees below it and the leaves. -/
structure TreeMarked (s : ObjectStore) (st : MarkState) (h : Hash) : Prop where
  root : h ∈ st.marked
  below : ∀ {p : FsPath} {e : WorkingTreeEntry}, InTree s h p e → e.kind ≠ .deleted →
    (e.kind ≠ .tree → e.hash ≠ zeroHash) → e.hash ∈ st.marked

/-- Where every visited tree is done, a visited tree is marked down to its leaves. -/
theorem treeMarked_of_seen {st : MarkState}
    (hdone : ∀ h, (treeWalk s).seen h st → (treeWalk s).Done Le st h) {h : Hash}
    (hseen : (treeWalk s).seen h st) : TreeMarked s st h := by
  have hmark : ∀ {k : Hash}, (treeWalk s).seen k st → k ∈ st.marked := by
    intro k hk
    obtain ⟨u, u', hu, hle⟩ := hdone k hk _ List.mem_cons_self
    cases hu
    exact hle.marked (mem_marked_mark.2 (Or.inl rfl))
  have hentries : ∀ {k : Hash}, (treeWalk s).seen k st → ∀ {es : List DirEntry},
      s.dirEntries k = some es → ∀ c ∈ es, (treeWalk s).TaskDone Le st (treeEntryTask c) := by
    intro k hk es hes c hc
    rcases treeEntryTasks_cases s k with ⟨es', hes', hts⟩ | ⟨text, missing, hts⟩
    · rw [hes, Option.some.injEq] at hes'
      subst hes'
      refine hdone k hk _ (List.mem_cons_of_mem _ ?_)
      rw [hts]
      exact List.mem_map_of_mem hc
    · have hfail : failTask text missing ∈ (treeWalk s).tasks k := by
        refine List.mem_cons_of_mem _ ?_
        rw [hts]
        exact List.mem_singleton_self _
      obtain ⟨u, u', hu, -⟩ := hdone k hk _ hfail
      cases hu
  refine ⟨hmark hseen, fun {p e} hin => ?_⟩
  induction hin with
  | @here h es c hes hc =>
      intro hdel hz
      have htask := hentries hseen hes c hc
      unfold treeEntryTask at htask
      split at htask
      · exact hmark htask
      · rename_i hk
        rw [if_pos ⟨hdel, hz hk⟩] at htask
        obtain ⟨u, u', hu, hle⟩ := htask
        cases hu
        exact hle.marked (mem_marked_mark.2 (Or.inl rfl))
  | @inside h es c p e hes hc hk _ ih =>
      have htask := hentries hseen hes c hc
      rw [treeEntryTask, if_pos hk] at htask
      exact ih htask

/-! ## Commits -/

/-- `p` is a parent of `c`. -/
def IsParent (s : ObjectStore) (c p : Hash) : Prop :=
  ∃ cd, s.readCommit c = some cd ∧ p ∈ cd.parents

/-- `c` is `head` or reached from it by parent links. -/
def History (s : ObjectStore) (head c : Hash) : Prop := Relation.ReflTransGen (IsParent s) head c

theorem markReadCommit_eq_ok {h : Hash} {cd : CommitData} :
    markReadCommit s h = .ok cd ↔ s.readCommit h = some cd := by
  unfold markReadCommit ObjectStore.readCommit
  cases s.readObject h .commit with
  | none => simp
  | some body =>
      simp only
      cases deserializeCommit body with
      | error e => simp [Except.toOption]
      | ok cd' => simp [Except.toOption]

/-- The whole history of `head` is marked, and the data it retains is scheduled. -/
def ChainMarked (s : ObjectStore) (policy : GcPolicy) (window : List Hash) (head : Hash)
    (st : MarkState) : Prop :=
  ∀ c, History s head c → ∃ cd, s.readCommit c = some cd ∧ c ∈ st.marked ∧
    (retainsData policy head window c cd = true → c ∈ st.retainedData)

theorem ChainMarked.mono {policy : GcPolicy} {window : List Hash} {head : Hash}
    {st st' : MarkState} (hle : Le st st') (h : ChainMarked s policy window head st) :
    ChainMarked s policy window head st' := by
  intro c hc
  obtain ⟨cd, hcd, hm, hr⟩ := h c hc
  exact ⟨cd, hcd, hle.marked hm, fun hk => hle.retained (hr hk)⟩

/-- A commit of the history whose data the policy keeps is scheduled. -/
theorem ChainMarked.mem_retainedData {policy : GcPolicy} {window : List Hash} {head c : Hash}
    {st : MarkState} (h : ChainMarked s policy window head st) (hc : History s head c)
    (hr : ∀ cd, s.readCommit c = some cd → retainsData policy head window c cd = true) :
    c ∈ st.retainedData := by
  obtain ⟨cd, hcd, -, hk⟩ := h c hc
  exact hk (hr cd hcd)

theorem retainsData_head (policy : GcPolicy) (head : Hash) (window : List Hash) (cd : CommitData) :
    retainsData policy head window head cd = true := by
  unfold retainsData
  cases policy.keepLast <;> simp

theorem retainsData_label {policy : GcPolicy} {cd : CommitData} (h : cd.label ∈ policy.keepLabels)
    (head : Hash) (window : List Hash) (c : Hash) : retainsData policy head window c cd = true := by
  unfold retainsData
  cases policy.keepLast <;> simp [h]

theorem retainsData_none {policy : GcPolicy} (h : policy.keepLast = none) (head : Hash)
    (window : List Hash) (c : Hash) (cd : CommitData) :
    retainsData policy head window c cd = true := by
  simp [retainsData, h]

theorem chainWorklist_expand {policy : GcPolicy} {head : Hash} {window : List Hash} {cur : Hash}
    {st st' : MarkState} {next : List Hash}
    (h : (chainWorklist s policy head window).expand cur st = .ok (next, st')) :
    Le st st' ∧ SameVisited st st' ∧ ∃ cd, s.readCommit cur = some cd ∧ next = cd.parents ∧
      cur ∈ st'.marked ∧ (retainsData policy head window cur cd = true → cur ∈ st'.retainedData) := by
  simp only [chainWorklist] at h
  cases hcd : markReadCommit s cur with
  | error e => simp [hcd] at h
  | ok cd =>
      simp only [hcd] at h
      have hmark := le_mark cur st
      by_cases hr : retainsData policy head window cur cd = true
      · simp only [hr, if_true, Except.ok.injEq, Prod.mk.injEq] at h
        obtain ⟨rfl, rfl⟩ := h
        refine ⟨⟨hmark.marked, fun hk => List.mem_append_left _ hk, id, id, id⟩, ⟨rfl, rfl, rfl⟩,
          cd, markReadCommit_eq_ok.1 hcd, rfl, mem_marked_mark.2 (Or.inl rfl), fun _ => ?_⟩
        exact List.mem_append_right _ (List.mem_singleton_self cur)
      · simp only [hr, Bool.false_eq_true, if_false, Except.ok.injEq, Prod.mk.injEq] at h
        obtain ⟨rfl, rfl⟩ := h
        exact ⟨⟨hmark.marked, id, id, id, id⟩, ⟨rfl, rfl, rfl⟩, cd, markReadCommit_eq_ok.1 hcd, rfl,
          mem_marked_mark.2 (Or.inl rfl), fun hk => absurd hk hr⟩

/-- Growth that visits no tree and no record. -/
def LeSame (st st' : MarkState) : Prop := Le st st' ∧ SameVisited st st'

theorem LeSame.refl (st : MarkState) : LeSame st st := ⟨.refl st, rfl, rfl, rfl⟩

theorem LeSame.trans {st₁ st₂ st₃ : MarkState} (h₁₂ : LeSame st₁ st₂) (h₂₃ : LeSame st₂ st₃) :
    LeSame st₁ st₃ :=
  ⟨h₁₂.1.trans h₂₃.1, h₁₂.2.trans h₂₃.2⟩

theorem chainWorklist_laws (s : ObjectStore) (policy : GcPolicy) (head : Hash)
    (window : List Hash) : (chainWorklist s policy head window).Laws LeSame where
  refl := LeSame.refl
  trans := LeSame.trans
  le_expand h := ⟨(chainWorklist_expand h).1, (chainWorklist_expand h).2.1⟩

/-- A chain that was marked is marked completely. -/
theorem markCommitChain_spec {fuel : Nat} {policy : GcPolicy} {applyWindow : Bool} {head : Hash}
    {st st' : MarkState} (h : markCommitChain s fuel policy applyWindow head st = .ok st') :
    LeSame st st' ∧ ChainMarked s policy (chainWindow s policy applyWindow head) head st' := by
  obtain ⟨hle, all, hstack, -, hall⟩ := Worklist.run_spec (chainWorklist_laws s policy head _) h
  have hexp : ∀ c ∈ all, ∃ cd, s.readCommit c = some cd ∧ (∀ p ∈ cd.parents, p ∈ all) ∧
      c ∈ st'.marked ∧ (retainsData policy head (chainWindow s policy applyWindow head) c cd = true →
        c ∈ st'.retainedData) := by
    intro c hc
    rcases hall c hc with hc | ⟨u, next, u', hu, hle', hnext⟩
    · simp at hc
    · obtain ⟨-, -, cd, hcd, rfl, hm, hr⟩ := chainWorklist_expand hu
      exact ⟨cd, hcd, hnext, hle'.1.marked hm, fun hk => hle'.1.retained (hr hk)⟩
  refine ⟨hle, fun c hc => ?_⟩
  have hin : c ∈ all := by
    induction hc with
    | refl => exact hstack head (List.mem_singleton_self head)
    | tail _ hp ih =>
        obtain ⟨cd, hcd, hpc⟩ := hp
        obtain ⟨cd', hcd', hparents, -⟩ := hexp _ ih
        rw [hcd, Option.some.injEq] at hcd'
        subst hcd'
        exact hparents _ hpc
  obtain ⟨cd, hcd, -, hm, hr⟩ := hexp c hin
  exact ⟨cd, hcd, hm, hr⟩

/-- `c` is `k` first-parent steps below `head`. -/
inductive FirstParentSteps (s : ObjectStore) : Nat → Hash → Hash → Prop
  | zero (c : Hash) : FirstParentSteps s 0 c c
  | succ {k : Nat} {head p c : Hash} {cd : CommitData} {rest : List Hash}
      (hcd : s.readCommit head = some cd) (hp : cd.parents = p :: rest)
      (h : FirstParentSteps s k p c) : FirstParentSteps s (k + 1) head c

theorem mem_keepLastWindow {k n : Nat} {head c : Hash} (h : FirstParentSteps s k head c)
    (hk : k < n) : c ∈ keepLastWindow s n head := by
  induction h generalizing n with
  | zero c =>
      obtain ⟨n, rfl⟩ : ∃ m, n = m + 1 := ⟨n - 1, by omega⟩
      exact List.mem_cons_self
  | succ hcd hp _ ih =>
      obtain ⟨n, rfl⟩ : ∃ m, n = m + 1 := ⟨n - 1, by omega⟩
      have hrest := ih (show _ < n by omega)
      simp only [keepLastWindow, hcd, hp]
      exact List.mem_cons_of_mem _ hrest

theorem FirstParentSteps.history {k : Nat} {head c : Hash} (h : FirstParentSteps s k head c) :
    History s head c := by
  induction h with
  | zero c => exact .refl
  | succ hcd hp _ ih =>
      have hparent : IsParent s _ _ := ⟨_, hcd, hp ▸ List.mem_cons_self⟩
      exact Relation.ReflTransGen.head hparent ih

/-! ## Records -/

/-- A reference in one record to another. -/
inductive RecordLink (s : ObjectStore) : RecordRef → RecordRef → Prop
  | stateUnion {id h : Hash} {rec : AgentStateRecord} (hr : readAgentStateRecord s id = .ok rec)
      (hh : hexToHashStrict rec.unionStateId = some h) : RecordLink s (.state id) (.union h)
  | stateParent {id h : Hash} {rec : AgentStateRecord} (hr : readAgentStateRecord s id = .ok rec)
      (hh : hexToHashStrict rec.parentStateId = some h) : RecordLink s (.state id) (.state h)
  | stateBase {id h : Hash} {rec : AgentStateRecord} (hr : readAgentStateRecord s id = .ok rec)
      (hh : hexToHashStrict rec.snapshotBaseStateId = some h) : RecordLink s (.state id) (.state h)
  | unionAgent {id h : Hash} {us : UnionRuntimeState} (hr : readUnionRuntimeState s id = .ok us)
      (hh : hexToHashStrict us.agentStateId = some h) : RecordLink s (.union id) (.state h)
  | unionParent {id h : Hash} {us : UnionRuntimeState} (hr : readUnionRuntimeState s id = .ok us)
      (hh : hexToHashStrict us.parentUnionStateId = some h) : RecordLink s (.union id) (.union h)

/-- The commit a record is linked to. -/
inductive RecordCommit (s : ObjectStore) : RecordRef → Hash → Prop
  | state {id : Hash} {rec : AgentStateRecord} (hr : readAgentStateRecord s id = .ok rec)
      (hz : rec.fsCommit ≠ zeroHash) : RecordCommit s (.state id) rec.fsCommit
  | union {id : Hash} {us : UnionRuntimeState} (hr : readUnionRuntimeState s id = .ok us)
      (hz : us.fsCommit ≠ zeroHash) : RecordCommit s (.union id) us.fsCommit

/-- The objects a record itself needs: its blob, its payload and its dependencies. -/
inductive RecordObject (s : ObjectStore) : RecordRef → Hash → Prop
  | stateBlob (id : Hash) : RecordObject s (.state id) id
  | payload {id h : Hash} {rec : AgentStateRecord} (hr : readAgentStateRecord s id = .ok rec)
      (hh : hexToHashStrict rec.payloadRef = some h) : RecordObject s (.state id) h
  | dependency {id h : Hash} {rec : AgentStateRecord} (hr : readAgentStateRecord s id = .ok rec)
      (hh : h ∈ rec.dependencyHashes) : RecordObject s (.state id) h
  | unionBlob (id : Hash) : RecordObject s (.union id) id
  | command {id h : Hash} {us : UnionRuntimeState} (hr : readUnionRuntimeState s id = .ok us)
      (hh : hexToHashStrict us.commandRef = some h) : RecordObject s (.union id) h
  | manifest {id h : Hash} {us : UnionRuntimeState} (hr : readUnionRuntimeState s id = .ok us)
      (hh : hexToHashStrict us.resourceManifestRef = some h) : RecordObject s (.union id) h

theorem markLinkedCommit_spec {fuel : Nat} {policy : GcPolicy} {fsCommit : Hash}
    {st st' : MarkState} (h : markLinkedCommit s fuel policy fsCommit st = .ok st') :
    LeSame st st' ∧ (fsCommit ≠ zeroHash → ChainMarked s policy [] fsCommit st') := by
  unfold markLinkedCommit at h
  by_cases hz : fsCommit = zeroHash
  · rw [if_pos hz] at h
    cases h
    exact ⟨.refl _, fun hne => absurd hz hne⟩
  · rw [if_neg hz] at h
    obtain ⟨hle, hchain⟩ := markCommitChain_spec h
    have hwindow : chainWindow s policy false fsCommit = [] := by
      unfold chainWindow
      cases policy.keepLast <;> rfl
    rw [hwindow] at hchain
    exact ⟨hle, fun _ => hchain⟩

theorem markRequiredHexBlob_spec {hex : Bytes} {st st' : MarkState}
    (h : markRequiredHexBlob hex st = .ok st') :
    LeSame st st' ∧ ∀ k, hexToHashStrict hex = some k → k ∈ st'.marked := by
  unfold markRequiredHexBlob at h
  by_cases hnil : hex = []
  · rw [if_pos hnil] at h
    cases h
    subst hnil
    exact ⟨.refl _, fun k hk => by simp [hexToHashStrict, isHexHash] at hk⟩
  · rw [if_neg hnil] at h
    cases hk : hexToHashStrict hex with
    | none => simp [hk] at h
    | some k =>
        rw [hk] at h
        cases h
        refine ⟨⟨le_mark k st, rfl, rfl, rfl⟩, fun k' hk' => ?_⟩
        cases hk'
        exact mem_marked_mark.2 (Or.inl rfl)

theorem markOpaqueCasRef_spec (value : Bytes) (st : MarkState) :
    LeSame st (markOpaqueCasRef value st) ∧
      ∀ k, hexToHashStrict value = some k → k ∈ (markOpaqueCasRef value st).marked := by
  unfold markOpaqueCasRef
  cases hexToHashStrict value with
  | none => exact ⟨.refl st, fun k hk => by cases hk⟩
  | some k =>
      refine ⟨⟨le_mark k st, rfl, rfl, rfl⟩, fun k' hk' => ?_⟩
      cases hk'
      exact mem_marked_mark.2 (Or.inl rfl)

/-- An action among the links of a record fails. -/
theorem linkTask_act {mk : Hash → RecordRef} {hex : Bytes} {text : String}
    {f : MarkState → Except MarkStop MarkState} (hf : .act f ∈ linkTask mk hex text)
    {st st' : MarkState} : f st ≠ .ok st' := by
  unfold linkTask at hf
  split at hf
  · simp at hf
  · split at hf
    · simp at hf
    · rw [List.mem_singleton, failTask] at hf
      cases hf
      simp

theorem visit_mem_linkTask {mk : Hash → RecordRef} {hex : Bytes} {text : String} {h : Hash}
    (hh : hexToHashStrict hex = some h) : .visit (mk h) ∈ linkTask mk hex text := by
  unfold linkTask
  rw [if_neg, hh]
  · exact List.mem_singleton_self _
  · rintro rfl
    simp [hexToHashStrict, isHexHash] at hh

/-- An action of the record walk grows the state and visits nothing. -/
theorem recordWalk_act {fuel : Nat} {policy : GcPolicy} {r : RecordRef}
    {f : MarkState → Except MarkStop MarkState} (hf : .act f ∈ (recordWalk s fuel policy).tasks r)
    {st st' : MarkState} (hok : f st = .ok st') : LeSame st st' := by
  cases r with
  | state id =>
      simp only [recordWalk, stateRecordTasks] at hf
      split at hf
      · rw [List.mem_singleton, failTask] at hf
        cases hf
        cases hok
      · rename_i rec _
        simp only [List.mem_append, List.mem_cons, List.not_mem_nil, or_false] at hf
        rcases hf with (hf | hf | hf | hf) | hf | hf | hf
        · cases hf
          cases hok
          exact ⟨le_mark id st, rfl, rfl, rfl⟩
        · cases hf
          exact (markRequiredHexBlob_spec hok).1
        · cases hf
          cases hok
          exact ⟨le_markAll _ st, rfl, rfl, rfl⟩
        · cases hf
          exact (markLinkedCommit_spec hok).1
        · exact absurd hok (linkTask_act hf)
        · exact absurd hok (linkTask_act hf)
        · exact absurd hok (linkTask_act hf)
  | union id =>
      simp only [recordWalk, unionStateTasks] at hf
      split at hf
      · rw [List.mem_singleton, failTask] at hf
        cases hf
        cases hok
      · rename_i us _
        simp only [List.mem_append, List.mem_cons, List.not_mem_nil, or_false] at hf
        rcases hf with (hf | hf | hf | hf) | hf | hf
        · cases hf
          cases hok
          exact ⟨le_mark id st, rfl, rfl, rfl⟩
        · cases hf
          exact (markLinkedCommit_spec hok).1
        · cases hf
          cases hok
          exact (markOpaqueCasRef_spec _ st).1
        · cases hf
          cases hok
          exact (markOpaqueCasRef_spec _ st).1
        · exact absurd hok (linkTask_act hf)
        · exact absurd hok (linkTask_act hf)

theorem recordWalk_laws (s : ObjectStore) (fuel : Nat) (policy : GcPolicy) :
    (recordWalk s fuel policy).Laws Le where
  refl := Le.refl
  trans := Le.trans
  seen_mono := by
    intro r st st' hle hseen
    cases r with
    | state id =>
        exact ExtTreeSet.contains_iff_mem.2 (hle.stateRecords (ExtTreeSet.contains_iff_mem.1 hseen))
    | union id =>
        exact ExtTreeSet.contains_iff_mem.2 (hle.unionStates (ExtTreeSet.contains_iff_mem.1 hseen))
  le_note := by
    intro r st
    cases r with
    | state i => exact ⟨id, id, id, fun hk => ExtTreeSet.mem_insert.2 (Or.inr hk), id⟩
    | union i => exact ⟨id, id, id, id, fun hk => ExtTreeSet.mem_insert.2 (Or.inr hk)⟩
  seen_note := by
    intro a b st
    cases a with
    | state i =>
        cases b with
        | state j =>
            rw [RecordRef.state.injEq]
            exact contains_insert_iff st.stateRecords
        | union j => exact ⟨Or.inr, fun h => h.resolve_left (by simp)⟩
    | union i =>
        cases b with
        | state j => exact ⟨Or.inr, fun h => h.resolve_left (by simp)⟩
        | union j =>
            rw [RecordRef.union.injEq]
            exact contains_insert_iff st.unionStates
  le_act := fun hf hok => (recordWalk_act hf hok).1
  seen_act := by
    intro r f st st' b hf hok hseen
    obtain ⟨-, -, hstates, hunions⟩ := recordWalk_act hf hok
    cases b with
    | state id => simpa only [recordWalk, hstates] using hseen
    | union id => simpa only [recordWalk, hunions] using hseen

/-- Everything a record stands for is marked, its linked commit with its history. -/
structure RecordMarked (s : ObjectStore) (policy : GcPolicy) (st : MarkState) (r : RecordRef) :
    Prop where
  objects : ∀ {h : Hash}, RecordObject s r h → h ∈ st.marked
  commit : ∀ {c : Hash}, RecordCommit s r c → ChainMarked s policy [] c st

/-- A record whose tasks are done could be read, and is marked. -/
theorem recordMarked_of_done {fuel : Nat} {policy : GcPolicy} {st : MarkState} {r : RecordRef}
    (hdone : (recordWalk s fuel policy).Done Le st r) : RecordMarked s policy st r := by
  cases r with
  | state id =>
      simp only [Walk.Done, recordWalk, stateRecordTasks] at hdone
      cases hread : readAgentStateRecord s id with
      | error rerr =>
          rw [hread] at hdone
          obtain ⟨u, u', hu, -⟩ := hdone _ (List.mem_singleton_self _)
          cases hu
      | ok rec =>
          simp only [hread] at hdone
          -- the four tasks of a state record, in their order
          obtain ⟨u₁, v₁, h₁, hle₁⟩ := hdone _ (List.mem_append_left _ List.mem_cons_self)
          obtain ⟨u₂, v₂, h₂, hle₂⟩ := hdone _ (List.mem_append_left _
            (List.mem_cons_of_mem _ List.mem_cons_self))
          obtain ⟨u₃, v₃, h₃, hle₃⟩ := hdone _ (List.mem_append_left _
            (List.mem_cons_of_mem _ (List.mem_cons_of_mem _ List.mem_cons_self)))
          obtain ⟨u₄, v₄, h₄, hle₄⟩ := hdone _ (List.mem_append_left _
            (List.mem_cons_of_mem _ (List.mem_cons_of_mem _
              (List.mem_cons_of_mem _ List.mem_cons_self))))
          cases h₁
          cases h₃
          constructor
          · intro h ho
            cases ho with
            | stateBlob => exact hle₁.marked (mem_marked_mark.2 (Or.inl rfl))
            | payload hr hh =>
                rw [hread, Except.ok.injEq] at hr
                subst hr
                exact hle₂.marked ((markRequiredHexBlob_spec h₂).2 _ hh)
            | dependency hr hh =>
                rw [hread, Except.ok.injEq] at hr
                subst hr
                exact hle₃.marked (mem_marked_markAll.2 (Or.inl hh))
          · intro c hc
            cases hc with
            | state hr hz =>
                rw [hread, Except.ok.injEq] at hr
                subst hr
                exact ((markLinkedCommit_spec h₄).2 hz).mono hle₄
  | union id =>
      simp only [Walk.Done, recordWalk, unionStateTasks] at hdone
      cases hread : readUnionRuntimeState s id with
      | error rerr =>
          rw [hread] at hdone
          obtain ⟨u, u', hu, -⟩ := hdone _ (List.mem_singleton_self _)
          cases hu
      | ok us =>
          simp only [hread] at hdone
          -- the four tasks of a union state, in their order
          obtain ⟨u₁, v₁, h₁, hle₁⟩ := hdone _ (List.mem_append_left _ List.mem_cons_self)
          obtain ⟨u₂, v₂, h₂, hle₂⟩ := hdone _ (List.mem_append_left _
            (List.mem_cons_of_mem _ List.mem_cons_self))
          obtain ⟨u₃, v₃, h₃, hle₃⟩ := hdone _ (List.mem_append_left _
            (List.mem_cons_of_mem _ (List.mem_cons_of_mem _ List.mem_cons_self)))
          obtain ⟨u₄, v₄, h₄, hle₄⟩ := hdone _ (List.mem_append_left _
            (List.mem_cons_of_mem _ (List.mem_cons_of_mem _
              (List.mem_cons_of_mem _ List.mem_cons_self))))
          cases h₁
          cases h₃
          cases h₄
          constructor
          · intro h ho
            cases ho with
            | unionBlob => exact hle₁.marked (mem_marked_mark.2 (Or.inl rfl))
            | command hr hh =>
                rw [hread, Except.ok.injEq] at hr
                subst hr
                exact hle₃.marked ((markOpaqueCasRef_spec _ _).2 _ hh)
            | manifest hr hh =>
                rw [hread, Except.ok.injEq] at hr
                subst hr
                exact hle₄.marked ((markOpaqueCasRef_spec _ _).2 _ hh)
          · intro c hc
            cases hc with
            | union hr hz =>
                rw [hread, Except.ok.injEq] at hr
                subst hr
                exact ((markLinkedCommit_spec h₂).2 hz).mono hle₂

/-- The walk goes on to every record a record refers to. -/
theorem leads_of_recordLink (fuel : Nat) (policy : GcPolicy) {r r' : RecordRef}
    (h : RecordLink s r r') : (recordWalk s fuel policy).Leads r r' := by
  unfold Walk.Leads
  cases h with
  | stateUnion hr hh =>
      simp only [recordWalk, stateRecordTasks, hr]
      exact List.mem_append_right _ (List.mem_append_left _ (visit_mem_linkTask hh))
  | stateParent hr hh =>
      simp only [recordWalk, stateRecordTasks, hr]
      exact List.mem_append_right _ (List.mem_append_right _
        (List.mem_append_left _ (visit_mem_linkTask hh)))
  | stateBase hr hh =>
      simp only [recordWalk, stateRecordTasks, hr]
      exact List.mem_append_right _ (List.mem_append_right _
        (List.mem_append_right _ (visit_mem_linkTask hh)))
  | unionAgent hr hh =>
      simp only [recordWalk, unionStateTasks, hr]
      exact List.mem_append_right _ (List.mem_append_left _ (visit_mem_linkTask hh))
  | unionParent hr hh =>
      simp only [recordWalk, unionStateTasks, hr]
      exact List.mem_append_right _ (List.mem_append_right _ (visit_mem_linkTask hh))

/-! ## Roots -/

/-- Marking a list of roots that succeeds has marked each of them, in states that grew into the
last one. -/
theorem markRoots_spec {α : Type} {count : GcResult → GcResult}
    {markRoot : α → MarkState → Except MarkStop MarkState} {I : MarkState → Prop}
    (hle : ∀ a u u', markRoot a u = .ok u' → Le u u')
    (hI : ∀ a u u', I u → markRoot a u = .ok u' → I u')
    {roots : List (Except MarkStop α)} {r r' : GcResult} {st st' : MarkState}
    (h : markRoots count markRoot roots r st = (r', .ok st')) (hst : I st) :
    Le st st' ∧ I st' ∧ ∀ a, .ok a ∈ roots → ∃ u u', markRoot a u = .ok u' ∧ Le u' st' := by
  induction roots generalizing r st with
  | nil =>
      cases h
      exact ⟨.refl _, hst, by simp⟩
  | cons x roots ih =>
      cases x with
      | error e => cases h
      | ok a =>
          simp only [markRoots] at h
          cases ha : markRoot a st with
          | error e =>
              rw [ha] at h
              cases h
          | ok st₁ =>
              rw [ha] at h
              obtain ⟨hle', hI', hall⟩ := ih h (hI a st st₁ hst ha)
              refine ⟨(hle a st st₁ ha).trans hle', hI', fun b hb => ?_⟩
              rcases List.mem_cons.1 hb with hb | hb
              · cases hb
                exact ⟨st, st₁, ha, hle'⟩
              · exact hall b hb

/-- A list of roots that was marked has no error in it. -/
theorem exists_ok_of_markRoots {α : Type} {count : GcResult → GcResult}
    {markRoot : α → MarkState → Except MarkStop MarkState} {roots : List (Except MarkStop α)}
    {r r' : GcResult} {st st' : MarkState}
    (h : markRoots count markRoot roots r st = (r', .ok st')) : ∀ x ∈ roots, ∃ a, x = .ok a := by
  induction roots generalizing r st with
  | nil => simp
  | cons x roots ih =>
      cases x with
      | error e => cases h
      | ok a =>
          simp only [markRoots] at h
          cases ha : markRoot a st with
          | error e =>
              rw [ha] at h
              cases h
          | ok st₁ =>
              rw [ha] at h
              exact List.forall_mem_cons.2 ⟨⟨a, rfl⟩, ih h⟩

theorem markRetained_spec {fuel : Nat} {cs : List Hash} {st st' : MarkState}
    (h : markRetained s fuel cs st = .ok st')
    (hst : ∀ x, (treeWalk s).seen x st → (treeWalk s).Done Le st x) :
    Le st st' ∧ (∀ x, (treeWalk s).seen x st' → (treeWalk s).Done Le st' x) ∧
      ∀ c ∈ cs, ∃ cd, s.readCommit c = some cd ∧ (treeWalk s).seen cd.treeHash st' := by
  induction cs generalizing st with
  | nil =>
      cases h
      exact ⟨.refl _, hst, by simp⟩
  | cons c cs ih =>
      simp only [markRetained, markCommitData] at h
      cases hcd : markReadCommit s c with
      | error e => simp [hcd] at h
      | ok cd =>
          simp only [hcd] at h
          cases hwalk : (treeWalk s).run fuel cd.treeHash st with
          | error e => simp [hwalk] at h
          | ok st₁ =>
              rw [hwalk] at h
              obtain ⟨hprog, hseen⟩ := Walk.run_spec (treeWalk_laws s) hwalk
              obtain ⟨hle, hall, hrest⟩ := ih h (hprog.done_all (treeWalk_laws s) hst)
              refine ⟨hprog.grew.trans hle, hall, List.forall_mem_cons.2 ⟨?_, hrest⟩⟩
              exact ⟨cd, markReadCommit_eq_ok.1 hcd, (treeWalk_laws s).seen_mono hle hseen⟩

end ContextFS
