import ContextFS.Gc.Markable

/-!
# Roots of the mark phase one by one

The mark phase succeeds when each of its roots is closed: a branch head with its history and with
the trees its policy retains, a record with all records and commits behind it.  What is closed stays
closed while the store grows, so a request can only break the phase by the roots it adds.
-/

namespace ContextFS

open Std Lib ObjectStore

/-- A commit whose history can be read, with the data that any root on it retains. -/
structure CommitClosed (s : ObjectStore) (policy : GcPolicy) (c : Hash) : Prop where
  history : HistoryReadable s c
  data : DataReadable s c
  retained : ∀ {c' : Hash} {cd : CommitData}, History s c c' → s.readCommit c' = some cd →
    policy.keepLast = none ∨ cd.label ∈ policy.keepLabels → DataReadable s c'

/-- A branch head: it also retains the data of the last commits along first parents. -/
structure HeadClosed (s : ObjectStore) (policy : GcPolicy) (head : Hash) : Prop extends
    CommitClosed s policy head where
  window : ∀ {n : UInt32} {k : Nat} {c : Hash}, policy.keepLast = some n → k < max 1 n.toNat →
    FirstParentSteps s k head c → DataReadable s c

/-- A record with everything it links to. -/
def RecordClosed (s : ObjectStore) (policy : GcPolicy) (r : RecordRef) : Prop :=
  ∀ r', Relation.ReflTransGen (RecordLink s) r r' →
    RecordMarkable s r' ∧ ∀ c, RecordCommit s r' c → CommitClosed s policy c

/-- The refs and the scan of the latest refs raise no error. -/
structure ScansOk (refs : Refs) (latest : LatestRoot) (live : GcLiveRoots) : Prop where
  branches : ∃ names, refs.listRefs = .ok names ∧ (∀ e ∈ live.expectedBranchRefs, e ∈ names) ∧
    ∀ name ∈ names, ∃ head, refs.readRef name = some head
  latestRefs : ∀ x ∈ latestIds latest, ∃ id, x = .ok id

variable {s s' : ObjectStore} {refs : Refs} {latest : LatestRoot} {live : GcLiveRoots}
  {policy : GcPolicy}

theorem Markable.commitClosed (hm : Markable s refs latest live policy) {c : Hash}
    (hroot : CommitRoot s refs latest live c) : CommitClosed s policy c := by
  refine ⟨hm.histories hroot, ?_, fun {c' cd} hc hcd hkeep => ?_⟩
  · cases hroot with
    | branch hb => exact hm.data (.head hb)
    | record hr hc => exact hm.data (.record hr hc)
  · rcases hkeep with hall | hlabel
    · exact hm.data (.all hroot hc hall)
    · exact hm.data (.label hroot hc hcd hlabel)

/-- The phase succeeds exactly when its scans do and all its roots are closed. -/
theorem markable_iff_roots : Markable s refs latest live policy ↔
    ScansOk refs latest live ∧ (∀ head, BranchHead refs head → HeadClosed s policy head) ∧
      ∀ r, RecordRoot latest live r → RecordClosed s policy r := by
  constructor
  · intro hm
    refine ⟨⟨hm.branches, hm.latestRefs⟩, fun head hb => ?_, fun r hr r' hr' => ?_⟩
    · exact { hm.commitClosed (.branch hb) with
        window := fun hn hk hsteps => hm.data (.window hb hn hk hsteps) }
    · have hreach : RecordReachable s latest live r' := ⟨r, hr, hr'⟩
      exact ⟨hm.records hreach, fun c hc => hm.commitClosed (.record hreach hc)⟩
  · rintro ⟨hscans, hheads, hrecords⟩
    have hroot : ∀ {c : Hash}, CommitRoot s refs latest live c → CommitClosed s policy c := by
      intro c hc
      cases hc with
      | branch hb => exact (hheads _ hb).toCommitClosed
      | record hr hc =>
          obtain ⟨root, hroot, hreach⟩ := hr
          exact (hrecords root hroot _ hreach).2 _ hc
    refine ⟨hscans.branches, hscans.latestRefs, fun hc => (hroot hc).history, fun hr => ?_,
      fun hc => ?_⟩
    · obtain ⟨root, hroot', hreach⟩ := hr
      exact (hrecords root hroot' _ hreach).1
    · cases hc with
      | head hb => exact (hheads _ hb).data
      | window hb hn hk hsteps => exact (hheads _ hb).window hn hk hsteps
      | label hc hhist hcd hl => exact (hroot hc).retained hhist hcd (Or.inr hl)
      | record hr hc => exact (hroot (.record hr hc)).data
      | all hc hhist hn =>
          obtain ⟨cd, hcd⟩ := (hroot hc).history _ hhist
          exact (hroot hc).retained hhist hcd (Or.inl hn)

/-! ## Stores that grow -/

theorem History.of_extends (he : Extends s s') {c c' : Hash} (h : HistoryReadable s c)
    (hc : History s' c c') : History s c c' := by
  induction hc with
  | refl => exact .refl
  | tail _ hp ih =>
      obtain ⟨cd, hcd, hmem⟩ := hp
      obtain ⟨cd', hcd'⟩ := h _ ih
      cases (he.readCommit hcd').symm.trans hcd
      exact ih.tail ⟨_, hcd', hmem⟩

theorem HistoryReadable.mono (he : Extends s s') {c : Hash} (h : HistoryReadable s c) :
    HistoryReadable s' c := by
  intro c' hc'
  obtain ⟨cd, hcd⟩ := h c' (hc'.of_extends he h)
  exact ⟨cd, he.readCommit hcd⟩

theorem TreeReadable.mono (he : Extends s s') {h : Hash} (hr : TreeReadable s h) :
    TreeReadable s' h := by
  have hback : ∀ k, Relation.ReflTransGen (IsSubTree s') h k →
      Relation.ReflTransGen (IsSubTree s) h k := by
    intro k hk
    induction hk with
    | refl => exact .refl
    | tail _ hsub ih =>
        obtain ⟨es, c, hes, hc, hkind, rfl⟩ := hsub
        obtain ⟨es', hes'⟩ := hr _ ih
        cases (he.dirEntries hes').symm.trans hes
        exact ih.tail ⟨es, c, hes', hc, hkind, rfl⟩
  intro k hk
  obtain ⟨es, hes⟩ := hr k (hback k hk)
  exact ⟨es, he.dirEntries hes⟩

theorem DataReadable.mono (he : Extends s s') {c : Hash} (h : DataReadable s c) :
    DataReadable s' c := by
  obtain ⟨cd, hcd, htree⟩ := h
  exact ⟨cd, he.readCommit hcd, htree.mono he⟩

theorem FirstParentSteps.of_extends (he : Extends s s') {k : Nat} {head c : Hash}
    (h : HistoryReadable s head) (hc : FirstParentSteps s' k head c) :
    FirstParentSteps s k head c := by
  induction hc with
  | zero c => exact .zero c
  | @succ k head p c cd rest hcd hp _ ih =>
      obtain ⟨cd', hcd'⟩ := h head .refl
      cases (he.readCommit hcd').symm.trans hcd
      have hparent : IsParent s head p := ⟨cd, hcd', hp ▸ List.mem_cons_self⟩
      exact .succ hcd' hp (ih (h.of_history (.single hparent)))

theorem CommitClosed.mono (he : Extends s s') {c : Hash} (h : CommitClosed s policy c) :
    CommitClosed s' policy c := by
  refine ⟨h.history.mono he, h.data.mono he, fun {c' cd} hc hcd hkeep => ?_⟩
  have hold := hc.of_extends he h.history
  obtain ⟨cd', hcd'⟩ := h.history c' hold
  cases (he.readCommit hcd').symm.trans hcd
  exact (h.retained hold hcd' hkeep).mono he

theorem HeadClosed.mono (he : Extends s s') {head : Hash} (h : HeadClosed s policy head) :
    HeadClosed s' policy head :=
  { h.toCommitClosed.mono he with
    window := fun hn hk hsteps => (h.window hn hk (hsteps.of_extends he h.history)).mono he }

theorem RecordMarkable.mono (he : Extends s s') {r : RecordRef} (h : RecordMarkable s r) :
    RecordMarkable s' r := by
  cases h with
  | state read payload union parent base =>
      exact .state (readAgentStateRecord_of_extends he read) payload union parent base
  | union read agent parent =>
      exact .union (readUnionRuntimeState_of_extends he read) agent parent

/-- A record that could be read before has the links it had. -/
theorem RecordLink.of_extends (he : Extends s s') {r r' : RecordRef} (h : RecordMarkable s r)
    (hl : RecordLink s' r r') : RecordLink s r r' := by
  cases h with
  | state read =>
      have hread := readAgentStateRecord_of_extends he read
      cases hl with
      | stateUnion hr hh =>
          cases hread.symm.trans hr
          exact .stateUnion read hh
      | stateParent hr hh =>
          cases hread.symm.trans hr
          exact .stateParent read hh
      | stateBase hr hh =>
          cases hread.symm.trans hr
          exact .stateBase read hh
  | union read =>
      have hread := readUnionRuntimeState_of_extends he read
      cases hl with
      | unionAgent hr hh =>
          cases hread.symm.trans hr
          exact .unionAgent read hh
      | unionParent hr hh =>
          cases hread.symm.trans hr
          exact .unionParent read hh

theorem RecordCommit.of_extends (he : Extends s s') {r : RecordRef} {c : Hash}
    (h : RecordMarkable s r) (hc : RecordCommit s' r c) : RecordCommit s r c := by
  cases h with
  | state read =>
      cases hc with
      | state hr hz =>
          cases (readAgentStateRecord_of_extends he read).symm.trans hr
          exact .state read hz
  | union read =>
      cases hc with
      | union hr hz =>
          cases (readUnionRuntimeState_of_extends he read).symm.trans hr
          exact .union read hz

theorem RecordClosed.mono (he : Extends s s') {r : RecordRef} (h : RecordClosed s policy r) :
    RecordClosed s' policy r := by
  have hback : ∀ r', Relation.ReflTransGen (RecordLink s') r r' →
      Relation.ReflTransGen (RecordLink s) r r' := by
    intro r' hr'
    induction hr' with
    | refl => exact .refl
    | tail _ hl ih => exact ih.tail (hl.of_extends he (h _ ih).1)
  intro r' hr'
  obtain ⟨hmark, hcommit⟩ := h r' (hback r' hr')
  exact ⟨hmark.mono he, fun c hc => (hcommit c (hc.of_extends he hmark)).mono he⟩

/-! ## New roots -/

/-- A new commit on closed heads. -/
theorem HeadClosed.of_parents {head : Hash} {cd : CommitData} (hcd : s.readCommit head = some cd)
    (htree : TreeReadable s cd.treeHash) (hparents : ∀ p ∈ cd.parents, HeadClosed s policy p) :
    HeadClosed s policy head := by
  have hdata : DataReadable s head := ⟨cd, hcd, htree⟩
  have hbelow : ∀ {c : Hash}, History s head c → c = head ∨ ∃ p ∈ cd.parents, History s p c := by
    intro c hc
    rcases Relation.ReflTransGen.cases_head hc with rfl | ⟨p, hp, hc⟩
    · exact Or.inl rfl
    · obtain ⟨cd', hcd', hmem⟩ := hp
      cases hcd.symm.trans hcd'
      exact Or.inr ⟨p, hmem, hc⟩
  refine ⟨⟨fun c hc => ?_, hdata, fun {c cd'} hc hcd' hkeep => ?_⟩, fun {n k c} hn hk hsteps => ?_⟩
  · rcases hbelow hc with rfl | ⟨p, hp, hc⟩
    · exact ⟨cd, hcd⟩
    · exact (hparents p hp).history c hc
  · rcases hbelow hc with rfl | ⟨p, hp, hc⟩
    · exact hdata
    · exact (hparents p hp).retained hc hcd' hkeep
  · cases hsteps with
    | zero => exact hdata
    | @succ k _ p _ cd' rest hcd' hp hsteps =>
        cases hcd.symm.trans hcd'
        exact (hparents p (hp ▸ List.mem_cons_self)).window hn (by omega) hsteps

/-- A new record whose links lead to closed records. -/
theorem RecordClosed.of_links {r : RecordRef} (hr : RecordMarkable s r)
    (hlinks : ∀ r', RecordLink s r r' → RecordClosed s policy r')
    (hcommit : ∀ c, RecordCommit s r c → CommitClosed s policy c) : RecordClosed s policy r := by
  intro r' hr'
  rcases Relation.ReflTransGen.cases_head hr' with rfl | ⟨r₁, hl, hr'⟩
  · exact ⟨hr, hcommit⟩
  · exact hlinks r₁ hl r' hr'

end ContextFS
