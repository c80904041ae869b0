import ContextFS.Gc.ClientRequests

/-!
# A crash while a latest ref is published

`publish_latest_ref` puts its temporary file into the directory of the agent, next to the refs.
`latest` asks for a ref by name and never meets that file.  The collector takes every file of the
directory for a ref, and nothing removes the temporary file when the daemon is started again.
-/

namespace ContextFS

open Std Lib ObjectStore

namespace LatestDisk

/-- What the file system may hold when the daemon dies inside `publish_latest_ref`: what it held at
the start or after one of the calls, or any part of the id in the temporary file. -/
inductive CrashPoint (d : LatestDisk) (agent branch hex : Bytes) : LatestRefs → Prop
  | start : CrashPoint d agent branch hex d.refs
  | passed {l : LatestRefs}
      (h : l ∈ ({ d with passed := [] }.publishLatestRef agent branch hex).2.passed) :
      CrashPoint d agent branch hex l
  | writing {l : LatestRefs} (k : Nat)
      (h : l ∈ ({ d with passed := [] }.publishLatestRef agent branch hex).2.passed)
      (free : d.refs.file agent (tempName branch d.suffix) = none)
      (created : l.file agent (tempName branch d.suffix) = some []) :
      CrashPoint d agent branch hex (l.write agent (tempName branch d.suffix) (hex.take k))

variable {d : LatestDisk} {agent branch hex : Bytes} {l : LatestRefs}

theorem CrashPoint.publishing (h : CrashPoint d agent branch hex l)
    (hbranch : isValidStateRefComponent branch = true) :
    LatestRefs.Publishing d.refs agent branch (tempName branch d.suffix) hex l := by
  have hpassed : ∀ {l : LatestRefs},
      l ∈ ({ d with passed := [] }.publishLatestRef agent branch hex).2.passed →
      LatestRefs.Publishing d.refs agent branch (tempName branch d.suffix) hex l := by
    intro l hl
    rcases ((publishLatestRef_spec { d with passed := [] } agent hex hbranch).1.passed l hl) with
      hold | hp
    · cases hold
    · exact hp
  cases h with
  | start => exact .untouched fun _ _ => rfl
  | passed h => exact hpassed h
  | @writing l k h free created =>
      refine .temp k fun a n => ?_
      rw [LatestRefs.file_write]
      split
      · rfl
      rename_i hne
      cases hpassed h with
      | untouched h => exact h a n
      | temp j h => rw [h, if_neg hne]
      | renamed h =>
          -- after the rename there is no temporary file
          rw [h, if_neg, free] at created
          · cases created
          · rintro ⟨-, heq⟩
            rw [← heq, tempName_not_valid] at hbranch
            cases hbranch

end LatestDisk

/-- The temporary file holds a part of the id only. -/
def LatestRefs.Torn (l : LatestRefs) (agent tmp hex : Bytes) : Prop :=
  ∃ k < hex.length, l.file agent tmp = some (hex.take k)

/-- The whole id can be seen, in the temporary file or in the ref. -/
def LatestRefs.ShowsId (l : LatestRefs) (agent branch tmp hex : Bytes) : Prop :=
  l.file agent tmp = some hex ∨ l.file agent branch = some hex

section

variable [Blake3]

/-- The service of a daemon that is started again after it died while an append published the ref
of its record `id`.  What was waiting for an fsync is forgotten. -/
inductive DiesPublishing (svc : AgentStateService) (req : AgentStateAppendRequest) (id : Hash) :
    AgentStateService → Prop
  | intro {l : LatestRefs} (synced : req.sync = true)
      (written : (svc.append req).1.stateId = hashToHex id)
      (crash : svc.disk.CrashPoint req.record.agentId req.record.branch (hashToHex id) l) :
      DiesPublishing svc req id
        ⟨{ (svc.append req).2.store with pending := ∅ }, { svc.disk with refs := l }⟩

namespace RequestState

/-- The daemon after the restart, with the branches `trees` and no runtime. -/
def restarted (σ : RequestState) (svc : AgentStateService) (trees : ExtTreeMap Bytes WorkingTree) :
    RequestState where
  journal := { files := { σ.files with store := svc.store, trees := trees }, disk := svc.disk }
  unionStates := []

/-- What a crash in the publication of `req` must leave: the old record or the new one, the other
refs as they were, and a store that can be marked. -/
structure CrashSafe (policy : GcPolicy) (σ : RequestState) (req : AgentStateAppendRequest)
    (id : Hash) (crashed : AgentStateService) : Prop where
  target : crashed.latest req.record.agentId req.record.branch =
      σ.journal.service.latest req.record.agentId req.record.branch ∨
    crashed.latest req.record.agentId req.record.branch =
      .ok { req.appended with stateId := hashToHex id }
  others : ∀ agent branch, ¬(agent = req.record.agentId ∧ branch = req.record.branch) →
    crashed.latest agent branch = σ.journal.service.latest agent branch
  marks : ∀ trees : ExtTreeMap Bytes WorkingTree, (∀ branch ∈ trees, branch ∈ σ.files.refs.files) →
    (σ.restarted crashed trees).MarkSucceeds policy

end RequestState

omit [Blake3] in
/-- `latest` sees no difference where its file is the same and its record could be read. -/
theorem AgentStateService.latest_alike {svc svc' : AgentStateService} {agent branch : Bytes}
    (hfile : isValidStateRefComponent branch = true →
      svc'.disk.refs.file agent branch = svc.disk.refs.file agent branch)
    (he : Extends svc.store svc'.store)
    (hread : ∀ content id, svc.disk.refs.file agent branch = some content →
      refFileId content = some id → ∃ rec, readAgentStateRecord svc.store id = .ok rec) :
    svc'.latest agent branch = svc.latest agent branch := by
  unfold AgentStateService.latest
  by_cases ha : isValidStateRefComponent agent = true
  · by_cases hb : isValidStateRefComponent branch = true
    · rw [hfile hb]
      cases hold : svc.disk.refs.file agent branch with
      | none => rfl
      | some content =>
          simp only
          cases hid : hexToHashStrict (trimTrailing content) with
          | none => rfl
          | some id =>
              obtain ⟨rec, hrec⟩ := hread content id hold (refFileId_of_trimTrailing hid)
              simp only [hrec, readAgentStateRecord_of_extends he hrec]
    · simp [hb]
  · simp [ha]

variable {policy : GcPolicy} {σ : RequestState} {req : AgentStateAppendRequest} {id : Hash}
  {crashed : AgentStateService}

/-- An append that reports an id has written its record. -/
theorem AgentStateService.appended_of_stateId {svc : AgentStateService}
    (hid : (svc.append req).1.stateId = hashToHex id) :
    Appended svc req (svc.append req).2.store id := by
  have hout := append_cases svc req
  generalize svc.append req = r at hout hid ⊢
  cases hout with
  | refused _ => exact absurd hid.symm (hashToHex_ne_nil id)
  | logicalOnly _ appended =>
      cases hashToHex_inj hid
      exact appended
  | published _ appended _ =>
      cases hashToHex_inj hid
      exact appended
  | unpublished _ appended _ =>
      cases hashToHex_inj hid
      exact appended

/-- The directory a crash leaves, over a store that holds the new record. -/
structure Crashed (svc : AgentStateService) (req : AgentStateAppendRequest) (id : Hash)
    (crashed : AgentStateService) : Prop where
  appended : Appended svc req crashed.store id
  suffix : crashed.disk.suffix = svc.disk.suffix
  files : LatestRefs.Publishing svc.disk.refs req.record.agentId req.record.branch
    (LatestDisk.tempName req.record.branch svc.disk.suffix) (hashToHex id) crashed.disk.refs

theorem DiesPublishing.leaves {svc : AgentStateService} (h : DiesPublishing svc req id crashed) :
    Crashed svc req id crashed := by
  obtain ⟨synced, written, crash⟩ := h
  have happended := AgentStateService.appended_of_stateId written
  have hsame : Grows (svc.append req).2.store { (svc.append req).2.store with pending := ∅ } :=
    .of_objects_eq rfl rfl fun {_} hd => hd
  refine ⟨?_, rfl, crash.publishing happended.branch⟩
  refine { happended with grows := happended.grows.trans hsame, written := ?_ }
  refine { happended.written with read := fun hc fits hvalid => ?_ }
  exact readAgentStateRecord_of_extends hsame.extends_ (happended.written.read hc fits hvalid)

namespace Crashed

variable (h : Crashed σ.journal.service req id crashed)

include h

omit [Blake3] in
/-- A file that was there, or the id in the temporary file or in the ref. -/
theorem file_cases {agent name content : Bytes}
    (hfile : crashed.disk.refs.file agent name = some content) :
    σ.journal.disk.refs.file agent name = some content ∨
      (crashed.disk.refs.Torn req.record.agentId
        (LatestDisk.tempName req.record.branch σ.journal.disk.suffix) (hashToHex id)) ∨
      (content = hashToHex id ∧ crashed.disk.refs.ShowsId req.record.agentId req.record.branch
        (LatestDisk.tempName req.record.branch σ.journal.disk.suffix) (hashToHex id)) := by
  cases h.files with
  | untouched hsame => exact Or.inl ((hsame agent name).symm.trans hfile)
  | temp k htemp =>
      rw [htemp] at hfile
      split at hfile
      · right
        have htmp := htemp req.record.agentId
          (LatestDisk.tempName req.record.branch σ.journal.disk.suffix)
        rw [if_pos ⟨rfl, rfl⟩] at htmp
        by_cases hk : k < (hashToHex id).length
        · exact Or.inl ⟨k, hk, htmp⟩
        · cases hfile
          rw [List.take_of_length_le (by omega)] at htmp ⊢
          exact Or.inr ⟨rfl, Or.inl htmp⟩
      · exact Or.inl hfile
  | renamed hrenamed =>
      rw [hrenamed] at hfile
      split at hfile
      · cases hfile
        refine Or.inr (Or.inr ⟨rfl, Or.inr ?_⟩)
        rw [hrenamed, if_pos ⟨rfl, rfl⟩]
      · exact Or.inl hfile

omit [Blake3] in
/-- A ref holds what it held, or it is the one published and holds the id. -/
theorem file_of_valid {agent branch : Bytes} (hbranch : isValidStateRefComponent branch = true) :
    crashed.disk.refs.file agent branch = σ.journal.disk.refs.file agent branch ∨
      (agent = req.record.agentId ∧ branch = req.record.branch) ∧
        crashed.disk.refs.file agent branch = some (hashToHex id) := by
  cases h.files with
  | untouched hsame => exact Or.inl (hsame agent branch)
  | temp k htemp =>
      rw [htemp, if_neg]
      · exact Or.inl rfl
      · rintro ⟨-, rfl⟩
        rw [LatestDisk.tempName_not_valid] at hbranch
        cases hbranch
  | renamed hrenamed =>
      rw [hrenamed]
      split
      · exact Or.inr ⟨‹_›, rfl⟩
      · exact Or.inl rfl

omit [Blake3] in
/-- What `latest` returns after the crash. -/
theorem latest (hclosed : σ.RootsClosed policy) (hc : crashed.store.collided = false)
    (fits : req.appended.serialize.length < 2 ^ 64) (agent branch : Bytes) :
    crashed.latest agent branch = σ.journal.service.latest agent branch ∨
      (agent = req.record.agentId ∧ branch = req.record.branch) ∧
        crashed.latest agent branch = .ok { req.appended with stateId := hashToHex id } := by
  have hext := h.appended.grows.extends_
  have hread : ∀ content id', σ.journal.disk.refs.file agent branch = some content →
      refFileId content = some id' → ∃ rec, readAgentStateRecord σ.files.store id' = .ok rec := by
    intro content id' hfile hid
    obtain ⟨k, hk, hrecord⟩ := hclosed.latest (hext.collided_eq hc) agent branch content hfile
    cases hid.symm.trans hk
    cases (hrecord _ .refl).1 with
    | state read _ _ _ _ => exact ⟨_, read⟩
  by_cases hnew : isValidStateRefComponent branch = true ∧
      crashed.disk.refs.file agent branch ≠ σ.journal.disk.refs.file agent branch
  · obtain ⟨hat, hfile⟩ := (h.file_of_valid hnew.1).resolve_left hnew.2
    refine Or.inr ⟨hat, ?_⟩
    rw [latest_of_file (hat.1 ▸ h.appended.agent) hnew.1 hfile]
    exact h.appended.written.read hc fits h.appended.valid
  · refine Or.inl (AgentStateService.latest_alike (fun hb => ?_) hext hread)
    by_contra hne
    exact hnew ⟨hb, hne⟩

end Crashed

namespace RequestState

/-- A crash in a publication leaves the refs as `latest` sees them intact, and the store can be
marked again exactly when the temporary file was not caught in its write and the links of the new
record, if its id can be seen at all, can be marked. -/
theorem publish_crash_safe_iff (policy : GcPolicy) (σ : RequestState)
    (req : AgentStateAppendRequest) (id : Hash) (crashed : AgentStateService)
    (hmarks : σ.MarkSucceeds policy) (fits : req.appended.serialize.length < 2 ^ 64)
    (hdies : DiesPublishing σ.journal.service req id crashed)
    (hc : crashed.store.collided = false) :
    CrashSafe policy σ req id crashed ↔
      ¬crashed.disk.refs.Torn req.record.agentId
          (LatestDisk.tempName req.record.branch σ.journal.disk.suffix) (hashToHex id) ∧
        (crashed.disk.refs.ShowsId req.record.agentId req.record.branch
            (LatestDisk.tempName req.record.branch σ.journal.disk.suffix) (hashToHex id) →
          LinksClosed crashed.store policy req.record) := by
  have h := hdies.leaves
  have hclosed := rootsClosed_of_markSucceeds hmarks
  have hext : Extends σ.files.store crashed.store := h.appended.grows.extends_
  have hread := h.appended.written.read hc fits h.appended.valid
  constructor
  · intro hsafe
    have hroots := rootsClosed_of_markSucceeds (hsafe.marks ∅ fun branch hb => by simp at hb)
    refine ⟨?_, fun hshows => ?_⟩
    · rintro ⟨k, hk, htorn⟩
      obtain ⟨id', hid', -⟩ := hroots.latest hc _ _ _ htorn
      rw [refFileId_take (length_hashToHex id ▸ hk)] at hid'
      cases hid'
    · obtain ⟨name, hname⟩ : ∃ name, crashed.disk.refs.file req.record.agentId name =
          some (hashToHex id) := by
        rcases hshows with hshows | hshows
        · exact ⟨_, hshows⟩
        · exact ⟨_, hshows⟩
      obtain ⟨id', hid', hrecord⟩ := hroots.latest hc _ _ _ hname
      rw [refFileId_hashToHex, Option.some.injEq] at hid'
      subst hid'
      have hlinks := linksClosed_of_recordClosed hrecord hread
      exact ⟨hlinks.parent, hlinks.base, hlinks.union, hlinks.commit⟩
  · rintro ⟨hwhole, hlinks⟩
    refine ⟨?_, fun agent branch hne => ?_, fun trees htrees => ?_⟩
    · exact (h.latest hclosed hc fits _ _).imp_right And.right
    · exact (h.latest hclosed hc fits agent branch).resolve_right fun hnew => hne hnew.1
    · refine RootsClosed.markSucceeds ⟨⟨hclosed.branches.listed, htrees, ?_⟩, ?_, ?_⟩ hc
      · exact ((hclosed.branches.mono hext).heads ·)
      · intro _ agent name content hfile
        rcases h.file_cases hfile with hold | htorn | ⟨rfl, hshows⟩
        · obtain ⟨k, hk, hrecord⟩ := hclosed.latest (hext.collided_eq hc) agent name content hold
          exact ⟨k, hk, hrecord.mono hext⟩
        · exact absurd htorn hwhole
        · have hnew := hlinks hshows
          exact ⟨id, refFileId_hashToHex id, recordClosed_of_links h.appended.valid hread
            ⟨hnew.parent, hnew.base, hnew.union, hnew.commit⟩⟩
      · intro _ id hid
        cases hid

end RequestState

end

namespace RequestState

/-! ## A session whose publication is interrupted -/

section InterruptedSession

local instance : Blake3 := foldDigest

/-- The directories the publication of the session passes, the last one first. -/
def sessionPasses : List LatestRefs :=
  ({ afterBase.journal.disk with passed := [] }.publishLatestRef [97] [98]
    (hashToHex AppendState.sessionId)).2.passed

/-- The service after a crash that leaves the directory of the pass `n`. -/
def crashedSession (n : Nat) : AgentStateService :=
  ⟨{ (afterBase.journal.service.append AppendState.sessionRequest).2.store with pending := ∅ },
    { afterBase.journal.disk with refs := sessionPasses.getD n {} }⟩

theorem diesPublishing_crashedSession {n : Nat} (hn : n < sessionPasses.length) :
    DiesPublishing afterBase.journal.service AppendState.sessionRequest AppendState.sessionId
      (crashedSession n) := by
  refine .intro rfl (by decide +kernel) (.passed ?_)
  rw [List.getD_eq_getElem _ _ hn]
  exact List.getElem_mem hn

/-- The temporary file is made, the id not yet written. -/
theorem mark_fails_after_torn_publish :
    ¬∀ (policy : GcPolicy) (σ : RequestState) (req : AgentStateAppendRequest) (id : Hash)
      (crashed : AgentStateService), σ.MarkSucceeds policy →
        req.appended.serialize.length < 2 ^ 64 →
          DiesPublishing σ.journal.service req id crashed → crashed.store.collided = false →
            CrashSafe policy σ req id crashed := by
  intro h
  have hmarks : afterBase.MarkSucceeds {} :=
    (rootsClosed_of_reaches reaches_afterBase).markSucceeds (by decide +kernel)
  have hsafe := h {} afterBase AppendState.sessionRequest AppendState.sessionId (crashedSession 4)
    hmarks (by decide +kernel) (diesPublishing_crashedSession (by decide +kernel))
    (by decide +kernel)
  have hroots := rootsClosed_of_markSucceeds (hsafe.marks ∅ fun branch hb => by simp at hb)
  obtain ⟨id, hid, -⟩ := hroots.latest (by decide +kernel) [97]
    (LatestDisk.tempName [98] []) [] (by decide +kernel)
  cases hid

/-- The temporary file has been renamed. -/
theorem publish_crash_safe_crashedSession :
    CrashSafe {} afterBase AppendState.sessionRequest AppendState.sessionId (crashedSession 1) := by
  have hmarks : afterBase.MarkSucceeds {} :=
    (rootsClosed_of_reaches reaches_afterBase).markSucceeds (by decide +kernel)
  have hdies := diesPublishing_crashedSession (n := 1) (by decide +kernel)
  refine (publish_crash_safe_iff {} afterBase AppendState.sessionRequest AppendState.sessionId
    (crashedSession 1) hmarks (by decide +kernel) hdies (by decide +kernel)).2 ⟨?_, fun _ => ?_⟩
  · rintro ⟨k, -, htemp⟩
    have hgone : ((crashedSession 1).disk.refs.file AppendState.sessionRequest.record.agentId
        (LatestDisk.tempName AppendState.sessionRequest.record.branch
          afterBase.journal.disk.suffix)).isSome = false := by decide +kernel
    rw [htemp] at hgone
    cases hgone
  · exact linksClosed_sessionRequest.mono hdies.leaves.appended.grows.extends_

end InterruptedSession

end RequestState

end ContextFS
