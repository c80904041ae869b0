import ContextFS.Lib.Runs
import ContextFS.State.AgentStateService

/-!
# Runs of the agent-state service

Any appends in any order.  Each one is logged when it publishes its ref, which it also does when
only the last fsync of the agent's directory fails.  Before any append the disk may choose how the
coming system calls end, which bytes `mkstemp` picks and what other threads write to the store.
-/

namespace ContextFS

open Lib ObjectStore

/-! ## Reading in a store that grows -/

theorem AgentStateAppendRequest.AnchorsReadable.mono {req : AgentStateAppendRequest}
    {s s' : ObjectStore} (he : Extends s s') (h : req.AnchorsReadable s) : req.AnchorsReadable s' := by
  obtain ⟨⟨p, rp, hp, hrp⟩, ⟨b, rb, hb, hrb⟩, hpayload⟩ := h
  refine ⟨⟨p, rp, hp, readAgentStateRecord_of_extends he hrp⟩,
    ⟨b, rb, hb, readAgentStateRecord_of_extends he hrb⟩, fun hne => ?_⟩
  obtain ⟨k, data, hk, hdata⟩ := hpayload hne
  exact ⟨k, data, hk, he.readBlob hdata⟩

theorem hashToHex_ne_nil (h : Hash) : hashToHex h ≠ [] := by
  intro hnil
  have hhex := isHexHash_hashToHex h
  rw [hnil] at hhex
  cases hhex

/-! ## The system -/

/-- A ref that was published: the request, the id of its record and the store at that moment. -/
structure Publication where
  request : AgentStateAppendRequest
  id : Hash
  store : ObjectStore

/-- The service and its publications, the newest first. -/
structure AppendState where
  service : AgentStateService
  published : List Publication

inductive AppendEvent
  | disk (storeFaults : List (Option String)) (others : List (List (ObjectTag × Bytes)))
      (faults : List (Option String)) (suffix : Bytes) (written : Nat)
  | append (req : AgentStateAppendRequest)

section

variable [Blake3]

namespace AgentStateService

/-- The append fails, and only because the last fsync of the agent's directory does. -/
def FailsInLastFsync (svc : AgentStateService) (req : AgentStateAppendRequest) : Prop :=
  (svc.append req).1.ok = false ∧ (svc.append req).1.stateId ≠ [] ∧
    svc.disk.LastFsyncFails req.record.agentId req.record.branch

/-- The append replaces its ref by `id`. -/
def Publishes (svc : AgentStateService) (req : AgentStateAppendRequest) (id : Hash) : Prop :=
  req.sync = true ∧ (svc.append req).1.stateId = hashToHex id ∧
    ((svc.append req).1.ok = true ∨ svc.FailsInLastFsync req)

end AgentStateService

namespace AppendState

/-- No append has been made: the directory holds no file. -/
def Opened (σ : AppendState) : Prop :=
  (∀ agent name, σ.service.disk.refs.file agent name = none) ∧ σ.published = []

/-- The state after an append, with the publications so far. -/
def after (σ : AppendState) (req : AgentStateAppendRequest) (published : List Publication) :
    AppendState :=
  ⟨(σ.service.append req).2, published⟩

/-- The serialised record is one `std::string`, so its length fits 64 bits. -/
inductive Step (σ : AppendState) : AppendEvent → AppendState → Prop
  | disk (storeFaults others faults suffix written) :
      Step σ (.disk storeFaults others faults suffix written)
        { σ with service :=
            { store := { σ.service.store with faults := storeFaults, others := others }
              disk := { σ.service.disk with faults := faults, suffix := suffix, written := written } } }
  | publish {req id} (fits : req.appended.serialize.length < 2 ^ 64)
      (h : σ.service.Publishes req id) :
      Step σ (.append req)
        (σ.after req (⟨req, id, (σ.service.append req).2.store⟩ :: σ.published))
  | append {req} (fits : req.appended.serialize.length < 2 ^ 64)
      (h : ∀ id, ¬σ.service.Publishes req id) : Step σ (.append req) (σ.after req σ.published)

/-- The last publication under an agent and a branch. -/
def lastPublication (σ : AppendState) (agent branch : Bytes) : Option Publication :=
  σ.published.find? fun p => p.request.record.agentId == agent && p.request.record.branch == branch

end AppendState

namespace Publication

/-- What holds of a publication since it was made. -/
structure Validated (p : Publication) : Prop where
  synced : p.request.sync = true
  durable : ∀ h ∈ p.request.dependencies ++ [p.id], h ∈ p.store.objects ∧ h ∈ p.store.durable
  anchors : p.request.AnchorsReadable p.store

end Publication

/-! ## One append -/

namespace AgentStateService

variable {svc : AgentStateService} {req : AgentStateAppendRequest} {id : Hash}

theorem grows_append (svc : AgentStateService) (req : AgentStateAppendRequest) :
    Grows svc.store (svc.append req).2.store := by
  have hout := append_cases svc req
  generalize svc.append req = r at hout ⊢
  cases hout with
  | refused grows => exact grows
  | logicalOnly _ appended => exact appended.grows
  | published _ appended _ => exact appended.grows
  | unpublished _ appended _ => exact appended.grows

/-- An append that replaces its ref has written its record and leaves the other refs alone. -/
theorem Publishes.spec (h : svc.Publishes req id) :
    Appended svc req (svc.append req).2.store id ∧
      LatestDisk.Replaced svc.disk (svc.append req).2.disk req.record.agentId req.record.branch
        (hashToHex id) := by
  obtain ⟨hsync, hid, hend⟩ := h
  have hout := append_cases svc req
  unfold FailsInLastFsync at hend
  generalize svc.append req = r at hout hid hend ⊢
  cases hout with
  | refused grows => exact absurd hid.symm (hashToHex_ne_nil id)
  | logicalOnly unsynced _ =>
      rw [hsync] at unsynced
      cases unsynced
  | @published store' disk' id' _ appended publish =>
      cases hashToHex_inj hid
      have hpub := (svc.disk.publishLatestRef_spec req.record.agentId (hashToHex id)
        appended.branch).2
      rw [publish] at hpub
      cases hpub with
      | published replaced => exact ⟨appended, replaced⟩
  | @unpublished store' disk' id' err _ appended publish =>
      cases hashToHex_inj hid
      have hpub := (svc.disk.publishLatestRef_spec req.record.agentId (hashToHex id)
        appended.branch).2
      rw [publish] at hpub
      cases hpub with
      | unpublished not_last _ _ =>
          rcases hend with hok | ⟨-, -, hlast⟩
          · cases hok
          · exact absurd hlast not_last
      | unsynced _ replaced => exact ⟨appended, replaced⟩

/-- Every other append leaves all refs alone. -/
theorem unchanged_of_not_publishes (h : ∀ id, ¬svc.Publishes req id) {agent branch : Bytes}
    (hbranch : isValidStateRefComponent branch = true) :
    (svc.append req).2.disk.refs.file agent branch = svc.disk.refs.file agent branch := by
  have hout := append_cases svc req
  unfold Publishes FailsInLastFsync at h
  generalize svc.append req = r at hout h ⊢
  cases hout with
  | refused grows => rfl
  | logicalOnly _ _ => rfl
  | @published _ _ id synced _ _ => exact absurd ⟨synced, rfl, Or.inl rfl⟩ (h id)
  | @unpublished store' disk' id err synced appended publish =>
      have hpub := (svc.disk.publishLatestRef_spec req.record.agentId (hashToHex id)
        appended.branch).2
      rw [publish] at hpub
      cases hpub with
      | unpublished _ unchanged _ => exact unchanged agent branch hbranch
      | unsynced last _ =>
          exact absurd ⟨synced, rfl, Or.inr ⟨rfl, hashToHex_ne_nil id, last⟩⟩ (h id)

end AgentStateService

/-! ## Whole runs -/

namespace AppendState

/-- The refs are the last publications, and every publication is validated and still readable. -/
structure RunInv (σ : AppendState) : Prop where
  refs : ∀ agent branch, isValidStateRefComponent branch = true →
    σ.service.disk.refs.file agent branch =
      (σ.lastPublication agent branch).map fun p => hashToHex p.id
  validated : ∀ p ∈ σ.published, p.Validated
  readable : σ.service.store.collided = false → ∀ p ∈ σ.published,
    readAgentStateRecord σ.service.store p.id =
      .ok { p.request.appended with stateId := hashToHex p.id }

theorem RunInv.step {σ σ' : AppendState} {ev : AppendEvent} (hinv : σ.RunInv) (hs : Step σ ev σ') :
    σ'.RunInv := by
  cases hs with
  | disk storeFaults others faults suffix written =>
      exact ⟨hinv.refs, hinv.validated, hinv.readable⟩
  | @publish req id fits h =>
      obtain ⟨happended, hreplaced⟩ := h.spec
      have hext : Extends σ.service.store (σ.service.append req).2.store := happended.grows.extends_
      refine ⟨fun agent branch hbranch => ?_, fun p hp => ?_, fun hc p hp => ?_⟩
      · show (σ.service.append req).2.disk.refs.file agent branch = _
        rw [hreplaced agent branch, lastPublication, after, List.find?_cons]
        by_cases hat : req.record.agentId = agent ∧ req.record.branch = branch
        · rw [if_pos ⟨hat.1.symm, hat.2.symm⟩]
          simp [hat.1, hat.2]
        · rw [if_neg fun h => hat ⟨h.1.symm, h.2.symm⟩, hinv.refs agent branch hbranch,
            lastPublication]
          have hno : (req.record.agentId == agent && req.record.branch == branch) = false := by
            simpa using hat
          simp only [hno]
      · rcases List.mem_cons.1 hp with rfl | hp
        · exact ⟨h.1, happended.written.durable h.1, (happended.anchors h.1).mono hext⟩
        · exact hinv.validated p hp
      · change (σ.service.append req).2.store.collided = false at hc
        rcases List.mem_cons.1 hp with rfl | hp
        · exact happended.written.read hc fits happended.valid
        · exact readAgentStateRecord_of_extends hext (hinv.readable (hext.collided_eq hc) p hp)
  | @append req fits h =>
      have hext : Extends σ.service.store (σ.service.append req).2.store :=
        (σ.service.grows_append req).extends_
      refine ⟨fun agent branch hbranch => ?_, hinv.validated, fun hc p hp => ?_⟩
      · show (σ.service.append req).2.disk.refs.file agent branch = _
        rw [AgentStateService.unchanged_of_not_publishes h hbranch]
        exact hinv.refs agent branch hbranch
      · exact readAgentStateRecord_of_extends hext (hinv.readable (hext.collided_eq hc) p hp)

theorem runInv_of_reaches {σ : AppendState} (h : Reaches Opened Step σ) : σ.RunInv := by
  refine h.invariant (fun σ hσ => ?_) fun _ _ _ hinv hs => hinv.step hs
  obtain ⟨hrefs, hpub⟩ := hσ
  refine ⟨fun agent branch _ => ?_, fun p hp => ?_, fun _ p hp => ?_⟩
  · rw [hrefs, lastPublication, hpub]
    rfl
  · rw [hpub] at hp
    cases hp
  · rw [hpub] at hp
    cases hp

/-- The file of a ref, below the root of the store. -/
def refPath (agentId branch : Bytes) : Bytes := ascii "/state/latest/" ++ (agentId ++ 47 :: branch)

omit [Blake3] in
/-- A component of a ref's path holds no slash, so no two refs share a file. -/
theorem refPath_inj {agent branch agent' branch' : Bytes}
    (h : isValidStateRefComponent agent = true) (h' : isValidStateRefComponent agent' = true)
    (heq : refPath agent branch = refPath agent' branch') : agent = agent' ∧ branch = branch' := by
  have hslash : ∀ {name : Bytes}, isValidStateRefComponent name = true → 47 ∉ name := by
    intro name hn hin
    rw [isValidStateRefComponent, Bool.and_eq_true] at hn
    exact absurd (List.all_eq_true.1 hn.2 47 hin) (by decide)
  have hrest := List.append_cancel_left heq
  have ha := hslash h
  have ha' := hslash h'
  clear h h' heq hslash
  induction agent generalizing agent' with
  | nil =>
      cases agent' with
      | nil => exact ⟨rfl, (List.cons.inj hrest).2⟩
      | cons c agent' =>
          rw [List.nil_append, List.cons_append, List.cons.injEq] at hrest
          exact absurd (hrest.1 ▸ List.mem_cons_self) ha'
  | cons c agent ih =>
      cases agent' with
      | nil =>
          rw [List.nil_append, List.cons_append, List.cons.injEq] at hrest
          exact absurd (hrest.1 ▸ List.mem_cons_self) ha
      | cons c' agent' =>
          rw [List.cons_append, List.cons_append, List.cons.injEq] at hrest
          obtain ⟨rfl, hrest⟩ := hrest
          obtain ⟨rfl, rfl⟩ := ih hrest (fun hin => ha (List.mem_cons_of_mem _ hin))
            fun hin => ha' (List.mem_cons_of_mem _ hin)
          exact ⟨rfl, rfl⟩

/-- In every run each ref is the last publication under exactly its agent and branch, a validated
synced record that `latest` returns; no other append touches a ref, and no two refs share a file. -/
theorem latest_refs_validated :
    (∀ σ, Reaches Opened Step σ →
      (∀ agent branch, isValidStateRefComponent branch = true →
        σ.service.disk.refs.file agent branch =
          (σ.lastPublication agent branch).map fun p => hashToHex p.id) ∧
      (∀ p ∈ σ.published, p.Validated) ∧
      (σ.service.store.collided = false → ∀ p ∈ σ.published,
        readAgentStateRecord σ.service.store p.id =
          .ok { p.request.appended with stateId := hashToHex p.id }) ∧
      (σ.service.store.collided = false → ∀ agent branch p,
        isValidStateRefComponent agent = true → isValidStateRefComponent branch = true →
        σ.lastPublication agent branch = some p →
          p.request.record.agentId = agent ∧ p.request.record.branch = branch ∧
            σ.service.latest agent branch =
              .ok { p.request.appended with stateId := hashToHex p.id })) ∧
    (∀ (svc : AgentStateService) (req : AgentStateAppendRequest),
      req.sync = false ∨ ((svc.append req).1.ok = false ∧ ¬svc.FailsInLastFsync req) →
        ∀ agent branch, isValidStateRefComponent branch = true →
          (svc.append req).2.disk.refs.file agent branch = svc.disk.refs.file agent branch) ∧
    (∀ agent branch agent' branch', isValidStateRefComponent agent = true →
      isValidStateRefComponent agent' = true → refPath agent branch = refPath agent' branch' →
        agent = agent' ∧ branch = branch') := by
  refine ⟨fun σ hr => ?_, fun svc req hquiet agent branch hbranch => ?_, ?_⟩
  · have hinv := runInv_of_reaches hr
    refine ⟨hinv.refs, hinv.validated, hinv.readable, fun hc agent branch p ha hb hp => ?_⟩
    have hmem : p ∈ σ.published := List.mem_of_find?_eq_some hp
    have hat := List.find?_some hp
    rw [Bool.and_eq_true, beq_iff_eq, beq_iff_eq] at hat
    refine ⟨hat.1, hat.2, ?_⟩
    have hfile := hinv.refs agent branch hb
    rw [hp] at hfile
    rw [latest_of_file ha hb hfile]
    exact hinv.readable hc p hmem
  · refine AgentStateService.unchanged_of_not_publishes (fun id hpub => ?_) hbranch
    obtain ⟨hsync, -, hend⟩ := hpub
    rcases hquiet with hno | ⟨hfail, hnot⟩
    · rw [hsync] at hno
      cases hno
    · rcases hend with hok | hlast
      · rw [hfail] at hok
        cases hok
      · exact hnot hlast
  · intro agent branch agent' branch' h h' heq
    exact refPath_inj h h' heq

end AppendState

end

namespace AppendState

/-! ## A snapshot base and a session on it -/

section SessionRun

local instance : Blake3 := foldDigest

/-- Agent `a` on branch `b`. -/
def baseRequest : AgentStateAppendRequest :=
  { record := { agentId := [97], branch := [98] }, dependencyHashes := [], sync := false }

def baseAppended : AppendState := AppendState.after ⟨⟨{}, {}⟩, []⟩ baseRequest []

/-- A session on the base, published. -/
def sessionRequest : AgentStateAppendRequest :=
  let base := ((AgentStateService.append ⟨{}, {}⟩ baseRequest).1).stateId
  { record := { agentId := [97], branch := [98], parentStateId := base, snapshotBaseStateId := base }
    dependencyHashes := [], sync := true }

def sessionId : Hash := objectHash .blob (blobBody sessionRequest.appended.serialize)

def sessionAppended : AppendState :=
  baseAppended.after sessionRequest
    [⟨sessionRequest, sessionId, (baseAppended.service.append sessionRequest).2.store⟩]

theorem reaches_sessionAppended : Reaches Opened Step sessionAppended := by
  have hbase : Step ⟨⟨{}, {}⟩, []⟩ (.append baseRequest) baseAppended := by
    refine .append (by decide +kernel) fun id h => ?_
    cases h.1
  have hsession : Step baseAppended (.append sessionRequest) sessionAppended :=
    .publish (by decide +kernel) ⟨rfl, by decide +kernel, Or.inl (by decide +kernel)⟩
  exact .step (.step (.start ⟨fun _ _ => rfl, rfl⟩) hbase) hsession

theorem latest_refs_validated_sessionAppended :
    sessionAppended.service.latest [97] [98] =
      .ok { sessionRequest.appended with stateId := hashToHex sessionId } :=
  ((latest_refs_validated.1 sessionAppended reaches_sessionAppended).2.2.2
    (by decide +kernel) [97] [98] _ (by decide) (by decide) rfl).2.2

end SessionRun

end AppendState
end ContextFS
