import ContextFS.Branch.Durability
import ContextFS.State.Publications

/-!
# What a crash leaves of a session

Agent-state records share the object store with the branches.  A crash keeps the objects that were
made durable; a session is restored by following parents from the record of a latest ref back to its
snapshot base or to a root.

A synced append makes its own record and its dependencies durable.  Of the parent and of the base it
only asks that they can be read, so the records behind them may be lost.
-/

namespace ContextFS

open Std Lib ObjectStore

/-- The branches and the latest refs, over one store. -/
structure JournalState where
  files : PublishState
  disk : LatestDisk

inductive JournalEvent
  | branches (ev : PublishEvent)
  | disk (faults : List (Option String)) (suffix : Bytes) (written : Nat)
  | append (req : AgentStateAppendRequest)

/-- What a crash keeps. -/
def ObjectStore.afterCrash (s : ObjectStore) : ObjectStore where
  objects := s.objects.filter fun h _ => s.durable.contains h
  durable := s.durable
  now := s.now

/-- The records `restore_session` visits from `start` on while it looks for `anchor`. -/
inductive OnChain (s : ObjectStore) (anchor : Bytes) (start : Hash) : Hash → Prop
  | start : OnChain s anchor start start
  | parent {cur next : Hash} {rec : AgentStateRecord} (h : OnChain s anchor start cur)
      (read : readAgentStateRecord s cur = .ok rec)
      (more : ¬((anchor ≠ [] ∧ rec.stateId = anchor) ∨ rec.parentStateId = []))
      (link : hexToHashStrict rec.parentStateId = some next) : OnChain s anchor start next

/-- A record that can be read, with the payload it names. -/
structure RecordReadable (s : ObjectStore) (c : Hash) (rec : AgentStateRecord) : Prop where
  read : readAgentStateRecord s c = .ok rec
  payload : rec.payloadRef ≠ [] → ∃ k data, hexToHashStrict rec.payloadRef = some k ∧
    s.readBlob k = some data

/-- The whole session of a record can be read: every record on its chain, with its payload. -/
def SessionReadable (s : ObjectStore) (id : Hash) : Prop :=
  ∃ rec, readAgentStateRecord s id = .ok rec ∧
    ∀ c, OnChain s rec.snapshotBaseStateId id c → ∃ r, RecordReadable s c r

/-- A record on the parent chain of a request, and its payload, are durable already or among what
the request makes durable. -/
def ChainDurable (s : ObjectStore) (req : AgentStateAppendRequest) : Prop :=
  ∀ p, hexToHashStrict req.record.parentStateId = some p →
    ∀ c, OnChain s req.record.snapshotBaseStateId p c → ∃ rec, RecordReadable s c rec ∧
      (c ∈ s.durable ∨ c ∈ req.dependencies) ∧
      ∀ k, hexToHashStrict rec.payloadRef = some k → k ∈ s.durable ∨ k ∈ req.dependencies

namespace JournalState

def service (σ : JournalState) : AgentStateService := ⟨σ.files.store, σ.disk⟩

def withService (σ : JournalState) (svc : AgentStateService) : JournalState :=
  ⟨{ σ.files with store := svc.store }, svc.disk⟩

/-- The state a crash leaves. -/
def afterCrash (σ : JournalState) : JournalState :=
  { σ with files := { σ.files with store := σ.files.store.afterCrash } }

/-- The store has just been opened and no ref has been published. -/
def Opened (σ : JournalState) : Prop :=
  σ.files.Opened ∧ ∀ agent name, σ.disk.refs.file agent name = none

section

variable [Blake3]

inductive Step (σ : JournalState) : JournalEvent → JournalState → Prop
  | branches {ev files'} (h : PublishState.Step σ.files ev files') :
      Step σ (.branches ev) { σ with files := files' }
  | disk (faults suffix written) :
      Step σ (.disk faults suffix written)
        { σ with disk := { σ.disk with faults := faults, suffix := suffix, written := written } }
  | append {req} (fits : req.appended.serialize.length < 2 ^ 64) :
      Step σ (.append req) (σ.withService (σ.service.append req).2)

end

/-- A synced append that passes its checks builds on a durable chain only. -/
def BuildsOnDurable (σ : JournalState) : JournalEvent → JournalState → Prop
  | .append req, _ => req.sync = true → req.AnchorsReadable σ.files.store →
      ChainDurable σ.files.store req
  | _, _ => True

/-- After a crash the session behind a ref can still be read, and it is restored as before. -/
structure SurvivesCrash (σ : JournalState) (id : Hash) : Prop where
  readable : SessionReadable σ.afterCrash.files.store id
  same_chain : ∀ rec, readAgentStateRecord σ.files.store id = .ok rec →
    ∀ c, OnChain σ.files.store rec.snapshotBaseStateId id c →
      ∃ r, RecordReadable σ.afterCrash.files.store c r
  restore : ∀ depth recs, σ.service.restoreSession (hashToHex id) depth = .ok recs →
    σ.afterCrash.service.restoreSession (hashToHex id) depth = .ok recs

end JournalState

/-! ## Reading after a crash -/

section Crash

variable {s s' : ObjectStore}

theorem getElem?_afterCrash (s : ObjectStore) (h : Hash) :
    s.afterCrash.objects[h]? = if h ∈ s.durable then s.objects[h]? else none := by
  show (s.objects.filter fun h _ => s.durable.contains h)[h]? = _
  rw [ExtTreeMap.getElem?_filter']
  by_cases hd : h ∈ s.durable
  · cases s.objects[h]? <;> simp [hd]
  · cases s.objects[h]? <;> simp [hd]

/-- A durable blob is read as before. -/
theorem readBlob_afterCrash {h : Hash} (hd : h ∈ s.durable) :
    s.afterCrash.readBlob h = s.readBlob h := by
  unfold ObjectStore.readBlob ObjectStore.readObject
  rw [getElem?_afterCrash, if_pos hd]

theorem readAgentStateRecord_afterCrash {h : Hash} {rec : AgentStateRecord} (hd : h ∈ s.durable)
    (hr : readAgentStateRecord s h = .ok rec) : readAgentStateRecord s.afterCrash h = .ok rec := by
  unfold readAgentStateRecord at hr ⊢
  rw [readBlob_afterCrash hd]
  cases hb : s.readBlob h with
  | none =>
      rw [hb] at hr
      cases hr
  | some body =>
      rw [hb] at hr
      exact hr

end Crash

/-! ## Chains -/

section Chain

variable {s s' : ObjectStore} {anchor : Bytes} {start : Hash}

/-- Where every record of a chain is read alike, the chain is the same. -/
theorem OnChain.of_reads_alike
    (halike : ∀ c, OnChain s anchor start c → ∃ rec, readAgentStateRecord s c = .ok rec ∧
      readAgentStateRecord s' c = .ok rec) {c : Hash} (h : OnChain s' anchor start c) :
    OnChain s anchor start c := by
  induction h with
  | start => exact .start
  | parent _ read more link ih =>
      obtain ⟨rec, hs, hs'⟩ := halike _ ih
      rw [hs', Except.ok.injEq] at read
      exact .parent ih (read ▸ hs) more link

theorem OnChain.of_next {cur next c : Hash} {rec : AgentStateRecord}
    (read : readAgentStateRecord s cur = .ok rec)
    (more : ¬((anchor ≠ [] ∧ rec.stateId = anchor) ∨ rec.parentStateId = []))
    (link : hexToHashStrict rec.parentStateId = some next) (h : OnChain s anchor next c) :
    OnChain s anchor cur c := by
  induction h with
  | start => exact .parent .start read more link
  | parent _ read more link ih => exact .parent ih read more link

/-- A chain is its start and the chain of the parent. -/
theorem OnChain.start_or_next {c : Hash} (h : OnChain s anchor start c) :
    c = start ∨ ∃ rec next, readAgentStateRecord s start = .ok rec ∧
      hexToHashStrict rec.parentStateId = some next ∧ OnChain s anchor next c := by
  induction h with
  | start => exact Or.inl rfl
  | @parent cur next rec _ read more link ih =>
      rcases ih with rfl | ⟨first, p, hread, hlink, hchain⟩
      · exact Or.inr ⟨rec, next, read, link, .start⟩
      · exact Or.inr ⟨first, p, hread, hlink, .parent hchain read more link⟩

/-- `restore_session` sees no difference while the chain is read alike. -/
theorem restoreChain_alike (budget : Nat)
    (halike : ∀ c, OnChain s anchor start c → ∃ rec, readAgentStateRecord s c = .ok rec ∧
      readAgentStateRecord s' c = .ok rec) :
    restoreChain s budget (some anchor) start = restoreChain s' budget (some anchor) start := by
  induction budget generalizing start with
  | zero => rfl
  | succ budget ih =>
      obtain ⟨rec, hs, hs'⟩ := halike start .start
      unfold restoreChain
      rw [hs, hs']
      simp only [Option.getD_some]
      split
      · rfl
      · rename_i more
        cases hlink : hexToHashStrict rec.parentStateId with
        | none => rfl
        | some next =>
            simp only
            rw [ih fun c hc => halike c (.of_next hs more hlink hc)]

end Chain

/-! ## Durable sessions -/

/-- A record that a crash keeps, with its payload. -/
def RecordDurable (s : ObjectStore) (c : Hash) : Prop :=
  ∃ rec, RecordReadable s c rec ∧ c ∈ s.durable ∧
    ∀ k, hexToHashStrict rec.payloadRef = some k → k ∈ s.durable

/-- A crash keeps the whole session of a record. -/
def SessionDurable (s : ObjectStore) (id : Hash) : Prop :=
  ∃ rec, readAgentStateRecord s id = .ok rec ∧
    ∀ c, OnChain s rec.snapshotBaseStateId id c → RecordDurable s c

section Session

variable {s s' : ObjectStore} {id : Hash}

theorem RecordReadable.mono (he : Extends s s') {c : Hash} {rec : AgentStateRecord}
    (h : RecordReadable s c rec) : RecordReadable s' c rec := by
  refine ⟨readAgentStateRecord_of_extends he h.read, fun hne => ?_⟩
  obtain ⟨k, data, hk, hdata⟩ := h.payload hne
  exact ⟨k, data, hk, he.readBlob hdata⟩

theorem RecordDurable.mono (hg : Grows s s') {c : Hash} (h : RecordDurable s c) :
    RecordDurable s' c := by
  obtain ⟨rec, hr, hd, hk⟩ := h
  exact ⟨rec, hr.mono hg.extends_, hg.durable_mono hd, fun k h => hg.durable_mono (hk k h)⟩

/-- Nothing that a store gains can change a session that is durable. -/
theorem SessionDurable.mono (hg : Grows s s') (h : SessionDurable s id) : SessionDurable s' id := by
  obtain ⟨rec, hread, hchain⟩ := h
  refine ⟨rec, readAgentStateRecord_of_extends hg.extends_ hread, fun c hc => ?_⟩
  refine (hchain c (hc.of_reads_alike fun c hc => ?_)).mono hg
  obtain ⟨r, hr, -⟩ := hchain c hc
  exact ⟨r, hr.read, (hr.mono hg.extends_).read⟩

theorem RecordDurable.afterCrash {c : Hash} (h : RecordDurable s c) :
    ∃ rec, RecordReadable s c rec ∧ RecordReadable s.afterCrash c rec := by
  obtain ⟨rec, hr, hd, hk⟩ := h
  refine ⟨rec, hr, readAgentStateRecord_afterCrash hd hr.read, fun hne => ?_⟩
  obtain ⟨k, data, hlink, hdata⟩ := hr.payload hne
  refine ⟨k, data, hlink, ?_⟩
  rw [readBlob_afterCrash (hk k hlink), hdata]

theorem SessionDurable.survives {σ : JournalState} (h : SessionDurable σ.files.store id) :
    σ.SurvivesCrash id := by
  obtain ⟨rec, hread, hchain⟩ := h
  have halike : ∀ c, OnChain σ.files.store rec.snapshotBaseStateId id c →
      ∃ r, readAgentStateRecord σ.files.store c = .ok r ∧
        readAgentStateRecord σ.files.store.afterCrash c = .ok r := by
    intro c hc
    obtain ⟨r, hr, hr'⟩ := (hchain c hc).afterCrash
    exact ⟨r, hr.read, hr'.read⟩
  obtain ⟨rec', hrec, hrec'⟩ := halike id .start
  cases hread.symm.trans hrec
  refine ⟨⟨rec, hrec', fun c hc => ?_⟩, fun r hr c hc => ?_, fun depth recs hrest => ?_⟩
  · obtain ⟨r, -, hr'⟩ := (hchain c (hc.of_reads_alike halike)).afterCrash
    exact ⟨r, hr'⟩
  · cases hread.symm.trans hr
    obtain ⟨r, -, hr'⟩ := (hchain c hc).afterCrash
    exact ⟨r, hr'⟩
  · unfold AgentStateService.restoreSession at hrest ⊢
    simp only [hexToHashStrict_hashToHex] at hrest ⊢
    rw [← hrest]
    cases depth with
    | zero => rfl
    | succ depth =>
        -- the first record sets the anchor
        show restoreChain σ.files.store.afterCrash (depth + 1) none id =
          restoreChain σ.files.store (depth + 1) none id
        unfold restoreChain
        rw [hrec, hrec']
        simp only [Option.getD_none]
        split
        · rfl
        · rename_i more
          cases hlink : hexToHashStrict rec.parentStateId with
          | none => rfl
          | some next =>
              simp only
              rw [restoreChain_alike depth fun c hc => halike c (.of_next hrec more hlink hc)]

end Session

/-! ## Runs -/

theorem payload_mem_dependencies {req : AgentStateAppendRequest} {k : Hash}
    (hk : hexToHashStrict req.record.payloadRef = some k) : k ∈ req.dependencies := by
  show k ∈ dependencySet req.dependencyHashes (hexToHashStrict req.record.payloadRef)
  rw [hk]
  show k ∈ addDependency (req.dependencyHashes.foldl addDependency []) k
  unfold addDependency
  split
  · exact List.contains_iff_mem.1 ‹_›
  · exact List.mem_append_right _ (List.mem_singleton.2 rfl)

/-- The session of a record that a synced append has just written. -/
theorem sessionDurable_of_appended {svc : AgentStateService} {req : AgentStateAppendRequest}
    {s' : ObjectStore} {id : Hash} (h : Appended svc req s' id) (hsync : req.sync = true)
    (hc : s'.collided = false) (fits : req.appended.serialize.length < 2 ^ 64)
    (hchain : ChainDurable svc.store req) : SessionDurable s' id := by
  have hext := h.grows.extends_
  have hread := h.written.read hc fits h.valid
  have hsynced : ∀ k, k ∈ req.dependencies ∨ k = id → k ∈ s'.durable := by
    intro k hk
    refine (h.written.durable hsync k ?_).2
    rcases hk with hk | rfl
    · exact List.mem_append_left _ hk
    · exact List.mem_append_right _ (List.mem_singleton.2 rfl)
  have hkept : ∀ {k : Hash}, k ∈ svc.store.durable ∨ k ∈ req.dependencies → k ∈ s'.durable := by
    rintro k (hk | hk)
    · exact h.grows.durable_mono hk
    · exact hsynced k (Or.inl hk)
  refine ⟨_, hread, fun c hc => ?_⟩
  rcases hc.start_or_next with rfl | ⟨rec, p, hrec, hlink, hp⟩
  · refine ⟨_, ⟨hread, fun hne => ?_⟩, hsynced _ (Or.inr rfl), fun k hk => ?_⟩
    · obtain ⟨k, data, hk, hdata⟩ := (h.anchors hsync).payload hne
      exact ⟨k, data, hk, hext.readBlob hdata⟩
    · exact hsynced k (Or.inl (payload_mem_dependencies hk))
  · cases hread.symm.trans hrec
    have hold : OnChain svc.store req.record.snapshotBaseStateId p c := by
      refine hp.of_reads_alike fun c hc => ?_
      obtain ⟨r, hr, -⟩ := hchain p hlink c hc
      exact ⟨r, hr.read, (hr.mono hext).read⟩
    obtain ⟨r, hr, hd, hpay⟩ := hchain p hlink c hold
    exact ⟨r, hr.mono hext, hkept hd, fun k hk => hkept (hpay k hk)⟩

namespace JournalState

variable [Blake3]

/-- What a run keeps while synced appends build on durable chains. -/
structure Inv (σ : JournalState) : Prop where
  trees : σ.files.TreesStored
  refs : σ.files.store.collided = false → ∀ agent branch content,
    isValidStateRefComponent branch = true → σ.disk.refs.file agent branch = some content →
      ∃ id, content = hashToHex id ∧ SessionDurable σ.files.store id

theorem Inv.step {σ σ' : JournalState} {ev : JournalEvent} (hinv : σ.Inv) (hs : Step σ ev σ')
    (hcond : BuildsOnDurable σ ev σ') : σ'.Inv := by
  cases hs with
  | branches h =>
      have hg := h.grows hinv.trees
      refine ⟨h.leavesStored hinv.trees, fun hc agent branch content hb hfile => ?_⟩
      obtain ⟨id, hid, hsession⟩ :=
        hinv.refs (hg.extends_.collided_eq hc) agent branch content hb hfile
      exact ⟨id, hid, hsession.mono hg⟩
  | disk => exact ⟨hinv.trees, hinv.refs⟩
  | @append req fits =>
      have hg : Grows σ.files.store (σ.service.append req).2.store := σ.service.grows_append req
      refine ⟨fun branch wt hwt => (hinv.trees branch wt hwt).mono hg.extends_,
        fun hc agent branch content hb hfile => ?_⟩
      have hold : σ.disk.refs.file agent branch = some content →
          ∃ id, content = hashToHex id ∧ SessionDurable (σ.service.append req).2.store id := by
        intro hfile
        obtain ⟨id, hid, hsession⟩ :=
          hinv.refs (hg.extends_.collided_eq hc) agent branch content hb hfile
        exact ⟨id, hid, hsession.mono hg⟩
      change (σ.service.append req).2.disk.refs.file agent branch = some content at hfile
      by_cases hpub : ∃ id, σ.service.Publishes req id
      · obtain ⟨id, hpub⟩ := hpub
        obtain ⟨happended, hreplaced⟩ := hpub.spec
        rw [hreplaced agent branch] at hfile
        split at hfile
        · cases hfile
          exact ⟨id, rfl, sessionDurable_of_appended happended hpub.1 hc fits
            (hcond hpub.1 (happended.anchors hpub.1))⟩
        · exact hold hfile
      · rw [AgentStateService.unchanged_of_not_publishes (fun id h => hpub ⟨id, h⟩) hb] at hfile
        exact hold hfile

/-- In every run whose synced appends build on durable chains, every latest ref names a session
that a crash keeps. -/
theorem latest_survives_crash (σ : JournalState)
    (hr : Reaches Opened (Restrict Step BuildsOnDurable) σ)
    (hc : σ.files.store.collided = false) (agent branch content : Bytes)
    (hbranch : isValidStateRefComponent branch = true)
    (hfile : σ.disk.refs.file agent branch = some content) :
    ∃ id, content = hashToHex id ∧ σ.SurvivesCrash id := by
  have hinv : σ.Inv := by
    refine hr.invariant (fun σ hσ => ⟨hσ.1.runInv.leaves, fun _ agent branch content _ hfile => ?_⟩)
      fun _ _ _ hinv hs => hinv.step hs.1 hs.2
    rw [hσ.2] at hfile
    cases hfile
  obtain ⟨id, hid, hsession⟩ := hinv.refs hc agent branch content hbranch hfile
  exact ⟨id, hid, hsession.survives⟩

end JournalState

namespace JournalState

/-! ## A session on a base that was not synced -/

section UnsyncedBase

local instance : Blake3 := foldDigest

def emptyJournal : JournalState := ⟨⟨{}, {}, ∅, []⟩, {}⟩

theorem opened_emptyJournal : emptyJournal.Opened := by
  refine ⟨⟨fun h hh => ?_, rfl, rfl, fun branch wt hwt => ?_⟩, fun _ _ => rfl⟩
  · simp [emptyJournal] at hh
  · simp [emptyJournal] at hwt

def withBase : JournalState :=
  emptyJournal.withService (emptyJournal.service.append AppendState.baseRequest).2

/-- The synced session on it. -/
def withSession : JournalState :=
  withBase.withService (withBase.service.append AppendState.sessionRequest).2

/-- The latest record can be restored, until the crash. -/
theorem session_lost_in_crash :
    ¬∀ σ : JournalState, Reaches Opened Step σ → σ.files.store.collided = false →
      ∀ agent branch content, isValidStateRefComponent branch = true →
        σ.disk.refs.file agent branch = some content →
          ∃ id, content = hashToHex id ∧ σ.SurvivesCrash id := by
  intro h
  have hreach : Reaches Opened Step withSession :=
    .step (.step (.start opened_emptyJournal)
      (show Step _ (.append AppendState.baseRequest) withBase from .append (by decide +kernel)))
      (show Step _ (.append AppendState.sessionRequest) withSession from .append (by decide +kernel))
  obtain ⟨id, hid, hsurvives⟩ := h withSession hreach (by decide +kernel) [97] [98]
    (hashToHex AppendState.sessionId) (by decide) (by decide +kernel)
  cases hashToHex_inj hid
  cases hbefore : withSession.service.restoreSession (hashToHex AppendState.sessionId) 2 with
  | error err =>
      have hok : (withSession.service.restoreSession (hashToHex AppendState.sessionId)
          2).toOption.isSome = true := by decide +kernel
      rw [hbefore] at hok
      cases hok
  | ok recs =>
      have hafter := hsurvives.restore 2 recs hbefore
      have hfail : (withSession.afterCrash.service.restoreSession
          (hashToHex AppendState.sessionId) 2).toOption.isSome = false := by decide +kernel
      rw [hafter] at hfail
      cases hfail

def baseId : Hash := objectHash .blob (blobBody AppendState.baseRequest.appended.serialize)

/-- The same session, which lists its base as a dependency. -/
def anchoredRequest : AgentStateAppendRequest :=
  { AppendState.sessionRequest with dependencyHashes := [baseId] }

def withAnchored : JournalState :=
  withBase.withService (withBase.service.append anchoredRequest).2

theorem latest_survives_crash_withAnchored :
    ∃ id, hashToHex (objectHash .blob (blobBody anchoredRequest.appended.serialize)) = hashToHex id ∧
      withAnchored.SurvivesCrash id := by
  have hbase : Reaches Opened (Restrict Step BuildsOnDurable) withBase := by
    refine .step (.start opened_emptyJournal)
      (show Restrict Step BuildsOnDurable _ (.append AppendState.baseRequest) withBase from
        ⟨.append (by decide +kernel), fun hsync => ?_⟩)
    cases hsync
  -- the base is a root without a payload
  have hroot : ((readAgentStateRecord withBase.files.store baseId).toOption.any fun r =>
      r.parentStateId == [] && r.payloadRef == []) = true := by decide +kernel
  have hchain : ChainDurable withBase.files.store anchoredRequest := by
    intro p hp c hc
    have hparent : hexToHashStrict anchoredRequest.record.parentStateId = some baseId := by
      decide +kernel
    cases hparent.symm.trans hp
    cases hread : readAgentStateRecord withBase.files.store baseId with
    | error err =>
        rw [hread] at hroot
        cases hroot
    | ok rec =>
        rw [hread] at hroot
        change (rec.parentStateId == [] && rec.payloadRef == []) = true at hroot
        obtain ⟨hnone, hpay⟩ : rec.parentStateId = [] ∧ rec.payloadRef = [] := by
          simpa using hroot
        rcases hc.start_or_next with rfl | ⟨r, next, hr, hlink, -⟩
        · refine ⟨rec, ⟨hread, fun hne => absurd hpay hne⟩,
            Or.inr (by decide +kernel), fun k hk => ?_⟩
          rw [hpay] at hk
          cases hk
        · cases hread.symm.trans hr
          rw [hnone] at hlink
          cases hlink
  have hreach : Reaches Opened (Restrict Step BuildsOnDurable) withAnchored :=
    .step hbase (show Restrict Step BuildsOnDurable _ (.append anchoredRequest) withAnchored from
      ⟨.append (by decide +kernel), fun _ _ => hchain⟩)
  exact latest_survives_crash withAnchored hreach (by decide +kernel) [97] [98] _ (by decide)
    (by decide +kernel)

end UnsyncedBase

end JournalState

end ContextFS
