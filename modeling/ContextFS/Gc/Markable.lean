import ContextFS.Gc.Sweep
import ContextFS.Lib.TraversalTotal

/-!
# When the mark phase succeeds

The mark phase fails closed.  It succeeds, with enough fuel, exactly when everything it comes across
can be read: the refs, the histories of the commits it starts from, the records behind the latest
refs and the live union states, and the trees of the commits whose data it retains.
-/

namespace ContextFS

open Std Lib ObjectStore MarkState

/-! ## What must be readable -/

/-- Every commit of the history of `c` can be read. -/
def HistoryReadable (s : ObjectStore) (c : Hash) : Prop :=
  ∀ c', History s c c' → ∃ cd, s.readCommit c' = some cd

/-- `k` is a directory in the tree object `h`. -/
def IsSubTree (s : ObjectStore) (h k : Hash) : Prop :=
  ∃ es c, s.dirEntries h = some es ∧ c ∈ es ∧ c.2.kind = .tree ∧ c.2.hash = k

/-- Every tree object reached from `h` can be read. -/
def TreeReadable (s : ObjectStore) (h : Hash) : Prop :=
  ∀ k, Relation.ReflTransGen (IsSubTree s) h k → ∃ es, s.dirEntries k = some es

/-- A reference that is unset or names an object. -/
def LinkOk (hex : Bytes) : Prop := hex = [] ∨ ∃ h, hexToHashStrict hex = some h

/-- A record that can be read and whose references are well formed. -/
inductive RecordMarkable (s : ObjectStore) : RecordRef → Prop
  | state {id : Hash} {rec : AgentStateRecord} (read : readAgentStateRecord s id = .ok rec)
      (payload : LinkOk rec.payloadRef) (union : LinkOk rec.unionStateId)
      (parent : LinkOk rec.parentStateId) (base : LinkOk rec.snapshotBaseStateId) :
      RecordMarkable s (.state id)
  | union {id : Hash} {us : UnionRuntimeState} (read : readUnionRuntimeState s id = .ok us)
      (agent : LinkOk us.agentStateId) (parent : LinkOk us.parentUnionStateId) :
      RecordMarkable s (.union id)

/-- The commit and its whole tree can be read. -/
def DataReadable (s : ObjectStore) (c : Hash) : Prop :=
  ∃ cd, s.readCommit c = some cd ∧ TreeReadable s cd.treeHash

/-- Everything the mark phase comes across can be read. -/
structure Markable (s : ObjectStore) (refs : Refs) (latest : LatestRoot) (live : GcLiveRoots)
    (policy : GcPolicy) : Prop where
  branches : ∃ names, refs.listRefs = .ok names ∧ (∀ e ∈ live.expectedBranchRefs, e ∈ names) ∧
    ∀ name ∈ names, ∃ head, refs.readRef name = some head
  latestRefs : ∀ x ∈ latestIds latest, ∃ id, x = .ok id
  histories : ∀ {c : Hash}, CommitRoot s refs latest live c → HistoryReadable s c
  records : ∀ {r : RecordRef}, RecordReachable s latest live r → RecordMarkable s r
  data : ∀ {c : Hash}, DataRetained s refs latest live policy c → DataReadable s c

variable {s : ObjectStore} {refs : Refs} {latest : LatestRoot} {live : GcLiveRoots}
  {policy : GcPolicy}

/-! ## A phase that succeeds has read it all -/

theorem linkOk_of_taskDone {fuel : Nat} {st : MarkState} {mk : Hash → RecordRef} {hex : Bytes}
    {text : String}
    (h : ∀ t ∈ linkTask mk hex text, (recordWalk s fuel policy).TaskDone Le st t) : LinkOk hex := by
  unfold linkTask at h
  by_cases hnil : hex = []
  · exact Or.inl hnil
  · rw [if_neg hnil] at h
    cases hh : hexToHashStrict hex with
    | some k => exact Or.inr ⟨k, hh⟩
    | none =>
        rw [hh] at h
        obtain ⟨u, u', hu, -⟩ := h _ (List.mem_singleton_self _)
        cases hu

theorem linkOk_of_markRequiredHexBlob {hex : Bytes} {st st' : MarkState}
    (h : markRequiredHexBlob hex st = .ok st') : LinkOk hex := by
  unfold markRequiredHexBlob at h
  by_cases hnil : hex = []
  · exact Or.inl hnil
  · rw [if_neg hnil] at h
    cases hh : hexToHashStrict hex with
    | some k => exact Or.inr ⟨k, hh⟩
    | none =>
        rw [hh] at h
        cases h

theorem recordMarkable_of_done {fuel : Nat} {st : MarkState} {r : RecordRef}
    (hdone : (recordWalk s fuel policy).Done Le st r) : RecordMarkable s r := by
  cases r with
  | state id =>
      simp only [Walk.Done, recordWalk, stateRecordTasks] at hdone
      cases hread : readAgentStateRecord s id with
      | error rerr =>
          rw [hread] at hdone
          obtain ⟨u, u', hu, -⟩ := hdone _ (List.mem_singleton_self _)
          cases hu
      | ok rec =>
          simp only [hread] at hdone
          obtain ⟨u, u', hpayload, -⟩ := hdone _ (List.mem_append_left _
            (List.mem_cons_of_mem _ List.mem_cons_self))
          refine .state hread (linkOk_of_markRequiredHexBlob hpayload) ?_ ?_ ?_
          · exact linkOk_of_taskDone fun t ht =>
              hdone t (List.mem_append_right _ (List.mem_append_left _ ht))
          · exact linkOk_of_taskDone fun t ht =>
              hdone t (List.mem_append_right _ (List.mem_append_right _ (List.mem_append_left _ ht)))
          · exact linkOk_of_taskDone fun t ht =>
              hdone t (List.mem_append_right _ (List.mem_append_right _ (List.mem_append_right _ ht)))
  | union id =>
      simp only [Walk.Done, recordWalk, unionStateTasks] at hdone
      cases hread : readUnionRuntimeState s id with
      | error rerr =>
          rw [hread] at hdone
          obtain ⟨u, u', hu, -⟩ := hdone _ (List.mem_singleton_self _)
          cases hu
      | ok us =>
          simp only [hread] at hdone
          refine .union hread ?_ ?_
          · exact linkOk_of_taskDone fun t ht =>
              hdone t (List.mem_append_right _ (List.mem_append_left _ ht))
          · exact linkOk_of_taskDone fun t ht =>
              hdone t (List.mem_append_right _ (List.mem_append_right _ ht))

/-- Where every visited tree is done, a visited tree can be read down to its last directory. -/
theorem treeReadable_of_seen {st : MarkState}
    (hdone : ∀ h, (treeWalk s).seen h st → (treeWalk s).Done Le st h) {h : Hash}
    (hseen : (treeWalk s).seen h st) : TreeReadable s h := by
  have hentries : ∀ k, (treeWalk s).seen k st → ∃ es, s.dirEntries k = some es ∧
      ∀ c ∈ es, treeEntryTask c ∈ (treeWalk s).tasks k := by
    intro k hk
    rcases treeEntryTasks_cases s k with ⟨es, hes, hts⟩ | ⟨text, missing, hts⟩
    · refine ⟨es, hes, fun c hc => List.mem_cons_of_mem _ ?_⟩
      rw [hts]
      exact List.mem_map_of_mem hc
    · have hfail : failTask text missing ∈ (treeWalk s).tasks k := by
        refine List.mem_cons_of_mem _ ?_
        rw [hts]
        exact List.mem_singleton_self _
      obtain ⟨u, u', hu, -⟩ := hdone k hk _ hfail
      cases hu
  have hbelow : ∀ k, Relation.ReflTransGen (IsSubTree s) h k → (treeWalk s).seen k st := by
    intro k hk
    induction hk with
    | refl => exact hseen
    | tail _ hsub ih =>
        obtain ⟨es, c, hes, hc, hkind, rfl⟩ := hsub
        obtain ⟨es', hes', htasks⟩ := hentries _ ih
        cases hes.symm.trans hes'
        have hdone' := hdone _ ih _ (htasks c hc)
        rwa [treeEntryTask, if_pos hkind] at hdone'
  intro k hk
  obtain ⟨es, hes, -⟩ := hentries k (hbelow k hk)
  exact ⟨es, hes⟩

theorem expected_of_ok {fuel : Nat} {r : GcResult} {st : MarkState} {names : List Bytes}
    (h : markImpl fuel s refs latest live policy = (r, .ok st)) (hnames : refs.listRefs = .ok names) :
    ∀ e ∈ live.expectedBranchRefs, e ∈ names := by
  unfold markImpl at h
  simp only [hnames] at h
  split at h
  · cases h
  · rename_i hfind
    intro e he
    have hno := List.find?_eq_none.1 hfind e he
    simpa using hno

/-- A mark phase that succeeds could read everything. -/
theorem markable_of_ok {fuel : Nat} {r : GcResult} {st : MarkState}
    (h : markImpl fuel s refs latest live policy = (r, .ok st)) :
    Markable s refs latest live policy := by
  obtain ⟨st₃, hwalked⟩ := walked_of_ok h
  obtain ⟨names, r₁, st₁, r₂, st₂, -, -, hnames, -, h₁, h₂, -⟩ := markImpl_ok h
  refine ⟨⟨names, hnames, expected_of_ok h hnames, fun name hname => ?_⟩,
    exists_ok_of_markRoots h₂, fun {c} hc c' hc' => ?_,
    fun {r} hr => recordMarkable_of_done (hwalked.records hr), fun {c} hc => ?_⟩
  · obtain ⟨head, hhead⟩ := exists_ok_of_markRoots h₁ _ (List.mem_map_of_mem hname)
    unfold branchHead at hhead
    cases href : refs.readRef name with
    | none =>
        rw [href] at hhead
        cases hhead
    | some head' => exact ⟨head', rfl⟩
  · obtain ⟨window, hchain⟩ := hwalked.chain_of_root hc
    obtain ⟨cd, hcd, -⟩ := hchain c' hc'
    exact ⟨cd, hcd⟩
  · obtain ⟨cd, hcd, hseen⟩ := hwalked.data c (hwalked.mem_retainedData hc)
    exact ⟨cd, hcd, treeReadable_of_seen hwalked.trees hseen⟩

/-! ## What can be read is marked -/

/-- The objects of a store. -/
def ObjectStore.hashes (s : ObjectStore) : Finset Hash := s.objects.keys.toFinset

theorem mem_hashes_of_readObject {h : Hash} {tag : ObjectTag} {body : Bytes}
    (hr : s.readObject h tag = some body) : h ∈ s.hashes := by
  rw [ObjectStore.hashes, List.mem_toFinset, ExtTreeMap.mem_keys, ExtTreeMap.mem_iff_isSome_getElem?]
  unfold ObjectStore.readObject at hr
  cases hf : s.objects[h]? with
  | none =>
      rw [hf] at hr
      cases hr
  | some f => rfl

theorem mem_hashes_of_readBlob {h : Hash} {data : Bytes} (hr : s.readBlob h = some data) :
    h ∈ s.hashes := by
  unfold ObjectStore.readBlob at hr
  cases hb : s.readObject h .blob with
  | none =>
      rw [hb] at hr
      cases hr
  | some body => exact mem_hashes_of_readObject hb

theorem mem_hashes_of_readCommit {h : Hash} {cd : CommitData} (hr : s.readCommit h = some cd) :
    h ∈ s.hashes := by
  unfold ObjectStore.readCommit at hr
  cases hb : s.readObject h .commit with
  | none =>
      rw [hb] at hr
      cases hr
  | some body => exact mem_hashes_of_readObject hb

theorem mem_hashes_of_dirEntries {h : Hash} {es : List DirEntry} (hr : s.dirEntries h = some es) :
    h ∈ s.hashes := by
  unfold ObjectStore.dirEntries ObjectStore.readTree at hr
  cases hb : s.readObject h .tree with
  | none =>
      rw [hb] at hr
      cases hr
  | some body => exact mem_hashes_of_readObject hb

/-- The records a store can hold. -/
def ObjectStore.recordRefs (s : ObjectStore) : Finset RecordRef :=
  s.hashes.image RecordRef.state ∪ s.hashes.image RecordRef.union

theorem RecordMarkable.mem_recordRefs {r : RecordRef} (h : RecordMarkable s r) :
    r ∈ s.recordRefs := by
  cases h with
  | @state id rec read =>
      refine Finset.mem_union_left _ (Finset.mem_image_of_mem _ ?_)
      unfold readAgentStateRecord at read
      cases hb : s.readBlob id with
      | none =>
          rw [hb] at read
          cases read
      | some body => exact mem_hashes_of_readBlob hb
  | @union id us read =>
      refine Finset.mem_union_right _ (Finset.mem_image_of_mem _ ?_)
      unfold readUnionRuntimeState at read
      cases hb : s.readBlob id with
      | none =>
          rw [hb] at read
          cases read
      | some body => exact mem_hashes_of_readBlob hb

/-- The parents of a commit that can be read. -/
def commitParents (s : ObjectStore) (c : Hash) : List Hash :=
  match s.readCommit c with
  | none => []
  | some cd => cd.parents

/-- As much fuel as any traversal of a store can need. -/
def markFuel (s : ObjectStore) : Nat :=
  s.hashes.card + s.recordRefs.card + Worklist.pushes (commitParents s) s.hashes [] + 2

theorem HistoryReadable.of_history {c c' : Hash} (h : HistoryReadable s c) (hc : History s c c') :
    HistoryReadable s c' :=
  fun k hk => h k (hc.trans hk)

/-- A chain whose history can be read is marked. -/
theorem markCommitChain_total {c : Hash} (h : HistoryReadable s c) (applyWindow : Bool)
    (st : MarkState) : ∃ st', markCommitChain s (markFuel s) policy applyWindow c st = .ok st' := by
  refine Worklist.run_total (HistoryReadable s) (commitParents s) (U := s.hashes)
    ?_ ?_ ?_ (List.forall_mem_singleton.2 h) ?_
  · intro a ha
    obtain ⟨cd, hcd⟩ := ha a .refl
    exact mem_hashes_of_readCommit hcd
  · intro a b ha hb
    unfold commitParents at hb
    obtain ⟨cd, hcd⟩ := ha a .refl
    rw [hcd] at hb
    exact ha.of_history (.single ⟨cd, hcd, hb⟩)
  · intro a st ha
    obtain ⟨cd, hcd⟩ := ha a .refl
    have hparents : commitParents s a = cd.parents := by
      unfold commitParents
      rw [hcd]
    simp only [chainWorklist, markReadCommit_eq_ok.2 hcd, hparents]
    split
    · exact ⟨_, rfl⟩
    · exact ⟨_, rfl⟩
  · rw [List.length_singleton, markFuel]
    omega

/-- What a chain schedules is in its history and retained by the policy. -/
theorem markCommitChain_keeps {R : Hash → Prop} {fuel : Nat} {applyWindow : Bool} {head : Hash}
    {st st' : MarkState} (h : markCommitChain s fuel policy applyWindow head st = .ok st')
    (hR : ∀ c cd, History s head c → s.readCommit c = some cd →
      retainsData policy head (chainWindow s policy applyWindow head) c cd = true → R c)
    (hst : ∀ c ∈ st.retainedData, R c) : ∀ c ∈ st'.retainedData, R c := by
  refine Worklist.run_keeps (History s head) (P := fun st => ∀ c ∈ st.retainedData, R c)
    ?_ h (List.forall_mem_singleton.2 .refl) hst
  intro a u ns u' ha hexp hu
  simp only [chainWorklist] at hexp
  cases hcd : markReadCommit s a with
  | error e =>
      rw [hcd] at hexp
      cases hexp
  | ok cd =>
      have hread := markReadCommit_eq_ok.1 hcd
      have hparents : ∀ p ∈ cd.parents, History s head p :=
        fun p hp => ha.tail ⟨cd, hread, hp⟩
      simp only [hcd] at hexp
      split at hexp
      · rename_i hretain
        cases hexp
        refine ⟨fun c hc => ?_, hparents⟩
        rcases List.mem_append.1 hc with hc | hc
        · exact hu c hc
        · rw [List.mem_singleton.1 hc]
          exact hR a cd ha hread hretain
      · cases hexp
        exact ⟨hu, hparents⟩

theorem exists_firstParentSteps {n : Nat} {head c : Hash} (h : c ∈ keepLastWindow s n head) :
    ∃ k < n, FirstParentSteps s k head c := by
  induction n generalizing head with
  | zero => cases h
  | succ n ih =>
      rcases List.mem_cons.1 h with rfl | h
      · exact ⟨0, by omega, .zero _⟩
      · cases hcd : s.readCommit head with
        | none =>
            rw [hcd] at h
            cases h
        | some cd =>
            simp only [hcd] at h
            cases hp : cd.parents with
            | nil =>
                rw [hp] at h
                cases h
            | cons p rest =>
                rw [hp] at h
                obtain ⟨k, hk, hsteps⟩ := ih h
                exact ⟨k + 1, by omega, .succ hcd hp hsteps⟩

/-- What the policy retains on the chain of a branch. -/
theorem dataRetained_of_branch {head c : Hash} {cd : CommitData} (hb : BranchHead refs head)
    (hc : History s head c) (hcd : s.readCommit c = some cd)
    (h : retainsData policy head (chainWindow s policy true head) c cd = true) :
    DataRetained s refs latest live policy c := by
  unfold retainsData chainWindow at h
  cases hn : policy.keepLast with
  | none => exact .all (.branch hb) hc hn
  | some n =>
      simp only [hn, if_true, Bool.or_eq_true, decide_eq_true_eq, List.contains_iff_mem] at h
      rcases h with (rfl | h) | h
      · exact .head hb
      · obtain ⟨k, hk, hsteps⟩ := exists_firstParentSteps h
        exact .window hb hn hk hsteps
      · exact .label (.branch hb) hc hcd h

/-- What the policy retains on the chain of a record's commit. -/
theorem dataRetained_of_record {r : RecordRef} {root c : Hash} {cd : CommitData}
    (hr : RecordReachable s latest live r) (hroot : RecordCommit s r root)
    (hc : History s root c) (hcd : s.readCommit c = some cd)
    (h : retainsData policy root (chainWindow s policy false root) c cd = true) :
    DataRetained s refs latest live policy c := by
  unfold retainsData chainWindow at h
  cases hn : policy.keepLast with
  | none => exact .all (.record hr hroot) hc hn
  | some n =>
      simp only [hn, Bool.false_eq_true, if_false, Bool.or_eq_true, decide_eq_true_eq,
        List.contains_nil, or_false, List.contains_iff_mem] at h
      rcases h with rfl | h
      · exact .record hr hroot
      · exact .label (.record hr hroot) hc hcd h

/-! ## Records -/

theorem recordLink_of_visit {mk : Hash → RecordRef} {hex : Bytes} {text : String} {b : RecordRef}
    (h : .visit b ∈ linkTask mk hex text) : ∃ k, hexToHashStrict hex = some k ∧ b = mk k := by
  unfold linkTask at h
  split at h
  · cases h
  · split at h
    · rename_i k hk
      cases List.mem_singleton.1 h
      exact ⟨k, hk, rfl⟩
    · cases List.mem_singleton.1 h

/-- The walk goes on only to records that a record refers to. -/
theorem recordLink_of_leads {fuel : Nat} {r r' : RecordRef}
    (h : (recordWalk s fuel policy).Leads r r') : RecordLink s r r' := by
  unfold Walk.Leads at h
  cases r with
  | state id =>
      simp only [recordWalk, stateRecordTasks] at h
      split at h
      · cases List.mem_singleton.1 h
      · rename_i rec hread
        simp only [List.mem_append, List.mem_cons, List.not_mem_nil, or_false, reduceCtorEq,
          false_or] at h
        rcases h with h | h | h
        · obtain ⟨k, hk, rfl⟩ := recordLink_of_visit h
          exact .stateUnion hread hk
        · obtain ⟨k, hk, rfl⟩ := recordLink_of_visit h
          exact .stateParent hread hk
        · obtain ⟨k, hk, rfl⟩ := recordLink_of_visit h
          exact .stateBase hread hk
  | union id =>
      simp only [recordWalk, unionStateTasks] at h
      split at h
      · cases List.mem_singleton.1 h
      · rename_i us hread
        simp only [List.mem_append, List.mem_cons, List.not_mem_nil, or_false, reduceCtorEq,
          false_or] at h
        rcases h with h | h
        · obtain ⟨k, hk, rfl⟩ := recordLink_of_visit h
          exact .unionAgent hread hk
        · obtain ⟨k, hk, rfl⟩ := recordLink_of_visit h
          exact .unionParent hread hk

theorem act_not_mem_linkTask {mk : Hash → RecordRef} {hex : Bytes} {text : String}
    {f : MarkState → Except MarkStop MarkState} (hok : LinkOk hex) :
    .act f ∉ linkTask mk hex text := by
  unfold linkTask
  rcases hok with rfl | ⟨k, hk⟩
  · simp
  · split
    · simp
    · simp [hk]

theorem markLinkedCommit_total {fsCommit : Hash}
    (h : fsCommit ≠ zeroHash → HistoryReadable s fsCommit) (st : MarkState) :
    ∃ st', markLinkedCommit s (markFuel s) policy fsCommit st = .ok st' := by
  unfold markLinkedCommit
  split
  · exact ⟨st, rfl⟩
  · rename_i hz
    exact markCommitChain_total (h hz) false st

theorem markRequiredHexBlob_total {hex : Bytes} (h : LinkOk hex) (st : MarkState) :
    ∃ st', markRequiredHexBlob hex st = .ok st' := by
  unfold markRequiredHexBlob
  rcases h with rfl | ⟨k, hk⟩
  · exact ⟨st, rfl⟩
  · split
    · exact ⟨st, rfl⟩
    · rw [hk]
      exact ⟨_, rfl⟩

/-- No action of a record that is well formed fails. -/
theorem recordWalk_act_total {r : RecordRef} (h : RecordMarkable s r)
    (hcommit : ∀ c, RecordCommit s r c → HistoryReadable s c)
    {f : MarkState → Except MarkStop MarkState}
    (hf : .act f ∈ (recordWalk s (markFuel s) policy).tasks r) (st : MarkState) :
    ∃ st', f st = .ok st' := by
  cases h with
  | @state id rec read payload union parent base =>
      simp only [recordWalk, stateRecordTasks, read, List.mem_append, List.mem_cons,
        List.not_mem_nil, or_false, act_not_mem_linkTask union, act_not_mem_linkTask parent,
        act_not_mem_linkTask base, Task.act.injEq] at hf
      rcases hf with rfl | rfl | rfl | rfl
      · exact ⟨_, rfl⟩
      · exact markRequiredHexBlob_total payload st
      · exact ⟨_, rfl⟩
      · exact markLinkedCommit_total (fun hz => hcommit _ (.state read hz)) st
  | @union id us read agent parent =>
      simp only [recordWalk, unionStateTasks, read, List.mem_append, List.mem_cons,
        List.not_mem_nil, or_false, act_not_mem_linkTask agent, act_not_mem_linkTask parent,
        Task.act.injEq] at hf
      rcases hf with rfl | rfl | rfl | rfl
      · exact ⟨_, rfl⟩
      · exact markLinkedCommit_total (fun hz => hcommit _ (.union read hz)) st
      · exact ⟨_, rfl⟩
      · exact ⟨_, rfl⟩

theorem markLinkedCommit_keeps {R : Hash → Prop} {fuel : Nat} {fsCommit : Hash}
    {st st' : MarkState} (h : markLinkedCommit s fuel policy fsCommit st = .ok st')
    (hR : fsCommit ≠ zeroHash → ∀ c cd, History s fsCommit c → s.readCommit c = some cd →
      retainsData policy fsCommit (chainWindow s policy false fsCommit) c cd = true → R c)
    (hst : ∀ c ∈ st.retainedData, R c) : ∀ c ∈ st'.retainedData, R c := by
  unfold markLinkedCommit at h
  split at h
  · cases h
    exact hst
  · rename_i hz
    exact markCommitChain_keeps h (hR hz) hst

theorem markRequiredHexBlob_retainedData {hex : Bytes} {st st' : MarkState}
    (h : markRequiredHexBlob hex st = .ok st') : st'.retainedData = st.retainedData := by
  unfold markRequiredHexBlob at h
  split at h
  · cases h
    rfl
  · split at h
    · cases h
    · cases h
      rfl

/-- What an action of a record schedules is retained by the policy. -/
theorem recordWalk_act_keeps {r : RecordRef} (hr : RecordReachable s latest live r)
    (h : RecordMarkable s r) {fuel : Nat} {f : MarkState → Except MarkStop MarkState}
    (hf : .act f ∈ (recordWalk s fuel policy).tasks r) {st st' : MarkState} (hok : f st = .ok st')
    (hst : ∀ c ∈ st.retainedData, DataRetained s refs latest live policy c) :
    ∀ c ∈ st'.retainedData, DataRetained s refs latest live policy c := by
  cases h with
  | @state id rec read payload union parent base =>
      simp only [recordWalk, stateRecordTasks, read, List.mem_append, List.mem_cons,
        List.not_mem_nil, or_false, act_not_mem_linkTask union, act_not_mem_linkTask parent,
        act_not_mem_linkTask base, Task.act.injEq] at hf
      rcases hf with rfl | rfl | rfl | rfl
      · cases hok
        exact hst
      · rw [markRequiredHexBlob_retainedData hok]
        exact hst
      · cases hok
        exact hst
      · exact markLinkedCommit_keeps hok (fun hz c cd hc hcd hret =>
          dataRetained_of_record hr (.state read hz) hc hcd hret) hst
  | @union id us read agent parent =>
      simp only [recordWalk, unionStateTasks, read, List.mem_append, List.mem_cons,
        List.not_mem_nil, or_false, act_not_mem_linkTask agent, act_not_mem_linkTask parent,
        Task.act.injEq] at hf
      have hleft : ∀ value, (markOpaqueCasRef value st).retainedData = st.retainedData := by
        intro value
        unfold markOpaqueCasRef
        split <;> rfl
      rcases hf with rfl | rfl | rfl | rfl
      · cases hok
        exact hst
      · exact markLinkedCommit_keeps hok (fun hz c cd hc hcd hret =>
          dataRetained_of_record hr (.union read hz) hc hcd hret) hst
      · cases hok
        rw [hleft]
        exact hst
      · cases hok
        rw [hleft]
        exact hst

/-! ## Trees and roots -/

theorem treeEntryTasks_of_dirEntries {h : Hash} {es : List DirEntry}
    (hes : s.dirEntries h = some es) : treeEntryTasks s h = es.map treeEntryTask := by
  unfold ObjectStore.dirEntries at hes
  unfold treeEntryTasks
  cases hb : s.readTree h with
  | none =>
      rw [hb] at hes
      cases hes
  | some body =>
      rw [hb] at hes
      simp only [show deserializeTreeEntries body = some es from hes]

theorem treeWalk_total {h : Hash} (hr : TreeReadable s h) (st : MarkState) :
    ∃ st', (treeWalk s).run (markFuel s) h st = .ok st' := by
  have htasks : ∀ {k : Hash}, TreeReadable s k → ∃ es, s.dirEntries k = some es ∧
      (treeWalk s).tasks k = .act (fun st => .ok (st.mark k)) :: es.map treeEntryTask := by
    intro k hk
    obtain ⟨es, hes⟩ := hk k .refl
    refine ⟨es, hes, ?_⟩
    show _ :: treeEntryTasks s k = _
    rw [treeEntryTasks_of_dirEntries hes]
  refine Walk.run_total (treeWalk_laws s) (TreeReadable s) (U := s.hashes) ?_ ?_ ?_ hr ?_
  · intro a ha
    obtain ⟨es, hes⟩ := ha a .refl
    exact mem_hashes_of_dirEntries hes
  · intro a b ha hb
    obtain ⟨es, hes, hts⟩ := htasks ha
    rw [Walk.Leads, hts] at hb
    rcases List.mem_cons.1 hb with hb | hb
    · cases hb
    · obtain ⟨c, hc, htask⟩ := List.mem_map.1 hb
      unfold treeEntryTask at htask
      split at htask
      · rename_i hkind
        cases htask
        exact fun k hk => ha k (.head ⟨es, c, hes, hc, hkind, rfl⟩ hk)
      · split at htask <;> cases htask
  · intro a f st ha hf
    obtain ⟨es, hes, hts⟩ := htasks ha
    rw [hts] at hf
    rcases List.mem_cons.1 hf with hf | hf
    · cases hf
      exact ⟨_, rfl⟩
    · obtain ⟨c, hc, htask⟩ := List.mem_map.1 hf
      unfold treeEntryTask at htask
      split at htask
      · cases htask
      · split at htask
        · cases htask
          exact ⟨_, rfl⟩
        · cases htask
          exact ⟨_, rfl⟩
  · have hle : ((treeWalk s).unseen s.hashes st).card ≤ s.hashes.card := Finset.card_filter_le _ _
    rw [markFuel]
    omega

/-- Roots that can all be marked are marked, and what each of them keeps is kept. -/
theorem markRoots_total {α : Type} (count : GcResult → GcResult)
    (markRoot : α → MarkState → Except MarkStop MarkState) (I : MarkState → Prop)
    (roots : List (Except MarkStop α)) (hok : ∀ x ∈ roots, ∃ a, x = .ok a ∧
      (∀ u, ∃ u', markRoot a u = .ok u') ∧ ∀ u u', I u → markRoot a u = .ok u' → I u')
    (r : GcResult) {st : MarkState} (hst : I st) :
    ∃ r' st', markRoots count markRoot roots r st = (r', .ok st') ∧ I st' := by
  induction roots generalizing r st with
  | nil => exact ⟨r, st, rfl, hst⟩
  | cons x roots ih =>
      obtain ⟨a, rfl, htotal, hkeep⟩ := hok x List.mem_cons_self
      obtain ⟨u', hu'⟩ := htotal st
      obtain ⟨r', st', h, hI⟩ :=
        ih (fun x hx => hok x (List.mem_cons_of_mem _ hx)) (count r) (hkeep st u' hst hu')
      refine ⟨r', st', ?_, hI⟩
      simp only [markRoots, hu', h]

theorem markRetained_total {cs : List Hash} (h : ∀ c ∈ cs, DataReadable s c) (st : MarkState) :
    ∃ st', markRetained s (markFuel s) cs st = .ok st' := by
  induction cs generalizing st with
  | nil => exact ⟨st, rfl⟩
  | cons c cs ih =>
      obtain ⟨cd, hcd, htree⟩ := h c List.mem_cons_self
      obtain ⟨st₁, hst₁⟩ := treeWalk_total htree st
      obtain ⟨st', hst'⟩ := ih (fun c hc => h c (List.mem_cons_of_mem _ hc)) st₁
      refine ⟨st', ?_⟩
      simp only [markRetained, markCommitData, markReadCommit_eq_ok.2 hcd, hst₁, hst']

/-- A latest ref the scan takes is one that `LatestRecord` speaks of. -/
theorem latestRecord_of_mem {id : Hash} (h : .ok id ∈ latestIds latest) : LatestRecord latest id := by
  unfold latestIds at h
  split at h
  · cases List.mem_singleton.1 h
  · rcases List.mem_append.1 h with h | h
    · obtain ⟨⟨agent, dir⟩, hagent, h⟩ := List.mem_flatMap.1 h
      cases dir with
      | notDirectory => cases h
      | inspectError text => cases List.mem_singleton.1 h
      | openError text => cases List.mem_singleton.1 h
      | directory files err =>
          rcases List.mem_append.1 h with h | h
          · obtain ⟨⟨file, kind⟩, hfile, h⟩ := List.mem_flatMap.1 h
            cases kind with
            | notRegular => cases h
            | inspectError text => cases List.mem_singleton.1 h
            | regular content =>
                have hid := List.mem_singleton.1 h
                unfold latestRefId at hid
                split at hid
                · cases hid
                · rename_i hex hwords
                  split at hid
                  · rename_i k hk
                    cases hid
                    exact ⟨agent, files, err, file, content, hex, hagent, hfile, hwords, hk⟩
                  · cases hid
                · cases hid
          · obtain ⟨text, -, h⟩ := List.mem_map.1 h
            cases h
    · obtain ⟨text, -, h⟩ := List.mem_map.1 h
      cases h

/-! ## The whole phase -/

/-- The records reached from a root are walked through, and what they schedule is retained. -/
theorem recordWalk_total (hm : Markable s refs latest live policy) {r : RecordRef}
    (hr : RecordReachable s latest live r) :
    (∀ u, ∃ u', (recordWalk s (markFuel s) policy).run (markFuel s) r u = .ok u') ∧
      ∀ u u', (∀ c ∈ u.retainedData, DataRetained s refs latest live policy c) →
        (recordWalk s (markFuel s) policy).run (markFuel s) r u = .ok u' →
          ∀ c ∈ u'.retainedData, DataRetained s refs latest live policy c := by
  have hvisit : ∀ a b, RecordReachable s latest live a →
      (recordWalk s (markFuel s) policy).Leads a b → RecordReachable s latest live b := by
    rintro a b ⟨root, hroot, hreach⟩ hlead
    exact ⟨root, hroot, hreach.tail (recordLink_of_leads hlead)⟩
  constructor
  · intro u
    refine Walk.run_total (recordWalk_laws s _ policy) (RecordReachable s latest live)
      (U := s.recordRefs) (fun a ha => (hm.records ha).mem_recordRefs) hvisit ?_ hr ?_
    · intro a f st ha hf
      exact recordWalk_act_total (hm.records ha) (fun c hc => hm.histories (.record ha hc)) hf st
    · have hle : ((recordWalk s (markFuel s) policy).unseen s.recordRefs u).card ≤
          s.recordRefs.card := Finset.card_filter_le _ _
      have hlt : s.recordRefs.card < markFuel s := by
        rw [markFuel]
        omega
      omega
  · intro u u' hu hrun
    refine Walk.run_keeps (RecordReachable s latest live)
      (P := fun st => ∀ c ∈ st.retainedData, DataRetained s refs latest live policy c) hvisit ?_ ?_
      hrun hr hu
    · intro a st hst
      cases a <;> exact hst
    · intro a f st st' ha hf hok hst
      exact recordWalk_act_keeps ha (hm.records ha) hf hok hst

/-- Where everything can be read, the mark phase succeeds. -/
theorem ok_of_markable (hm : Markable s refs latest live policy) :
    ∃ r st, markImpl (markFuel s) s refs latest live policy = (r, .ok st) := by
  obtain ⟨names, hnames, hexpected, hheads⟩ := hm.branches
  let I : MarkState → Prop :=
    fun st => ∀ c ∈ st.retainedData, DataRetained s refs latest live policy c
  have hempty : I {} := fun c hc => by cases hc
  -- branch refs
  obtain ⟨r₁, st₁, h₁, hI₁⟩ := markRoots_total
    (fun r => { r with rootsBranches := r.rootsBranches + 1 })
    (markCommitChain s (markFuel s) policy true) I (names.map (branchHead refs))
    (by
      intro x hx
      obtain ⟨name, hname, rfl⟩ := List.mem_map.1 hx
      obtain ⟨head, hhead⟩ := hheads name hname
      have hb : BranchHead refs head := ⟨name, hhead⟩
      refine ⟨head, by simp [branchHead, hhead], ?_, fun u u' hu hrun => ?_⟩
      · exact markCommitChain_total (hm.histories (.branch hb)) true
      · exact markCommitChain_keeps hrun
          (fun c cd hc hcd hret => dataRetained_of_branch hb hc hcd hret) hu) {} hempty
  -- latest refs
  obtain ⟨r₂, st₂, h₂, hI₂⟩ := markRoots_total
    (fun r => { r with rootsStateRefs := r.rootsStateRefs + 1 })
    (fun id => (recordWalk s (markFuel s) policy).run (markFuel s) (.state id)) I
    (latestIds latest)
    (by
      intro x hx
      obtain ⟨id, rfl⟩ := hm.latestRefs x hx
      have hr : RecordReachable s latest live (.state id) :=
        ⟨_, .latest (latestRecord_of_mem hx), .refl⟩
      exact ⟨id, rfl, recordWalk_total hm hr⟩) r₁ hI₁
  -- live union states
  obtain ⟨r₃, st₃, h₃, hI₃⟩ := markRoots_total
    (fun r => { r with rootsRuntimeStates := r.rootsRuntimeStates + 1 })
    (fun id => (recordWalk s (markFuel s) policy).run (markFuel s) (.union id)) I
    (live.runtimeUnionStates.map .ok)
    (by
      intro x hx
      obtain ⟨id, hid, rfl⟩ := List.mem_map.1 hx
      have hr : RecordReachable s latest live (.union id) := ⟨_, .live hid, .refl⟩
      exact ⟨id, rfl, recordWalk_total hm hr⟩) r₂ hI₂
  -- data
  obtain ⟨st₄, h₄⟩ := markRetained_total (fun c hc => hm.data (hI₃ c hc)) (st₃.markAll live.hashes)
  have hfind : live.expectedBranchRefs.find? (fun expected => !names.contains expected) = none := by
    refine List.find?_eq_none.2 fun e he => ?_
    simpa using hexpected e he
  unfold markImpl
  simp only [hnames, hfind, h₁, h₂, h₃, show (st₃.markAll live.hashes).retainedData =
    st₃.retainedData from rfl, h₄]
  exact ⟨_, _, rfl⟩

/-- The mark phase succeeds, with enough fuel, exactly when everything it comes across can be
read. -/
theorem mark_succeeds_iff :
    (∃ fuel r st, markImpl fuel s refs latest live policy = (r, .ok st)) ↔
      Markable s refs latest live policy := by
  constructor
  · rintro ⟨fuel, r, st, h⟩
    exact markable_of_ok h
  · intro h
    exact ⟨markFuel s, ok_of_markable h⟩

end ContextFS
