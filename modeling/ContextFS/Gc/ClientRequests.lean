import ContextFS.Branch.LiveView
import ContextFS.Gc.LatestScan
import ContextFS.Runtime.Supervisor
import ContextFS.State.Journal
import ContextFS.State.RuntimeStateWriter

/-!
# Client requests and the mark phase

Appends, runtime snapshots, checkpoints and merges add roots for the collector.  The heads they add
are built on heads that could be marked before.  A record is published with whatever links the
client gave it: a synced append reads its parent, its base and its payload, but neither what is
behind them nor its union state and its commit, and a snapshot does not read its agent state at all.
-/

namespace ContextFS

open Std Lib ObjectStore

/-! ## Snapshots -/

/-- A call of `snapshot_runtime`: the request, the status of its runtime, and what is met on the
way.  `ready` says that both waits ended in time. -/
structure SnapshotCall where
  request : RuntimeSnapshotRequest
  status : RuntimeStatus
  sessionId : UInt64
  checkpointTime : UInt64
  policyVersion : UInt32
  flushed : Bool
  ready : Bool
  templateId : Bytes
  timestampNs : UInt64
  attached : Bool

/-- The two warnings of every union state. -/
def snapshotWarnings : List ResourceWarning :=
  [⟨ascii "process_group_descendants",
      ascii ("Only the cooperative root runtime memory is restored; descendant processes are " ++
        "managed as a process group for termination/status only."), false⟩,
    ⟨ascii "external_resources",
      ascii ("External resources such as sockets, devices, network connections, and external " ++
        "service state are not inspected or restored by this first slice."), false⟩]

namespace SnapshotCall

def branch (call : SnapshotCall) : Bytes := call.status.branch

/-- The checkpoint is labelled `runtime:<runtime>:<boundary kind>`. -/
def info (call : SnapshotCall) : CommitMeta where
  sessionId := call.sessionId
  timestampNs := call.checkpointTime
  label := ascii "runtime:" ++ (call.request.runtimeId ++ 58 :: call.request.boundaryKind)
  policyVersion := call.policyVersion

def unionState (call : SnapshotCall) (commit : Hash) : UnionRuntimeState where
  branch := call.status.branch
  fsCommit := commit
  runtimeId := call.request.runtimeId
  runtimeGeneration := call.status.generation
  templateId := call.templateId
  templateKind := ascii "live_fork"
  boundaryKind := call.request.boundaryKind
  agentStateId := call.request.agentStateId
  commandRef := call.status.commandRef
  resourceManifestRef := ascii "inline:cooperative-process-group"
  warnings := snapshotWarnings
  timestampNs := call.timestampNs

end SnapshotCall

/-! ## The system -/

/-- The branches, the latest refs and the union states of the templates that are alive. -/
structure RequestState where
  journal : JournalState
  unionStates : List Hash

inductive RequestEvent
  | branches (ev : PublishEvent)
  | disk (faults : List (Option String)) (suffix : Bytes) (written : Nat)
  | append (req : AgentStateAppendRequest)
  | snapshot (call : SnapshotCall)
  | drop (unionStates : List Hash)

/-- Edits concern live branches; a merge commits on the heads of two branches. -/
def PublishState.Admits (σ : PublishState) : PublishEvent → Prop
  | .edit branch _ => branch ∈ σ.trees
  | .merge target _ targetCp sourceCp _ => target ∈ σ.trees ∧
      σ.refs.readRef target = some targetCp ∧ ∃ source, σ.refs.readRef source = some sourceCp
  | _ => True

namespace RequestState

def files (σ : RequestState) : PublishState := σ.journal.files

def withFiles (σ : RequestState) (files : PublishState) : RequestState :=
  { σ with journal := { σ.journal with files := files } }

section

variable [Blake3]

/-- `snapshot_runtime`: the checkpoint, the union state and its template. -/
def snapshot (σ : RequestState) (call : SnapshotCall) : RequestState :=
  match σ.files.trees[call.branch]? with
  | none => σ
  | some wt =>
      let cp := (checkpointLocked call.info call.flushed wt call.branch σ.files.store σ.files.refs).1
      let files := σ.files.checkpoint call.branch call.info call.flushed
      if !cp.ok || !call.ready then σ.withFiles files
      else
        match writeUnionRuntimeState files.store (call.unionState cp.commit) with
        | (.error _, store) => σ.withFiles { files with store := store }
        | (.ok id, store) =>
            match store.fsyncPending [id] with
            | (some _, store) => σ.withFiles { files with store := store }
            | (none, store) =>
                { σ.withFiles { files with store := store } with
                  unionStates := if call.attached then id :: σ.unionStates else σ.unionStates }

/-- The control protocol admits an empty agent state id or 64 digits. -/
inductive Step (σ : RequestState) : RequestEvent → RequestState → Prop
  | branches {ev} (admitted : σ.files.Admits ev) :
      Step σ (.branches ev) (σ.withFiles (σ.files.apply ev))
  | disk (faults suffix written) :
      Step σ (.disk faults suffix written)
        { σ with journal := { σ.journal with
            disk := { σ.journal.disk with faults := faults, suffix := suffix, written := written } } }
  | append {req} (fits : req.appended.serialize.length < 2 ^ 64) :
      Step σ (.append req)
        { σ with journal := σ.journal.withService (σ.journal.service.append req).2 }
  | snapshot {call}
      (agent : call.request.agentStateId = [] ∨ isHexHash call.request.agentStateId = true)
      (fits : ∀ commit, (call.unionState commit).serialize.length < 2 ^ 64) :
      Step σ (.snapshot call) (σ.snapshot call)
  | drop {unionStates} (kept : ∀ id ∈ unionStates, id ∈ σ.unionStates) :
      Step σ (.drop unionStates) { σ with unionStates := unionStates }

end

/-- What `collect_live_roots_locked` collects of branches and union states. -/
structure LiveRoots (σ : RequestState) (live : GcLiveRoots) : Prop where
  branches : ∀ branch, branch ∈ live.expectedBranchRefs ↔ branch ∈ σ.files.trees
  unions : ∀ id, id ∈ live.runtimeUnionStates ↔ id ∈ σ.unionStates

/-- The mark phase succeeds, with enough fuel, in whatever order the directories are listed. -/
def MarkSucceeds (σ : RequestState) (policy : GcPolicy) : Prop :=
  ∀ latest live, Shows σ.journal.disk.refs latest → σ.LiveRoots live →
    ∃ fuel r st, markImpl fuel σ.files.store σ.files.refs latest live policy = (r, .ok st)

end RequestState

/-! ## When requests keep the mark phase going -/

/-- Everything the links of a record lead to can be marked. -/
structure LinksClosed (s : ObjectStore) (policy : GcPolicy) (rec : AgentStateRecord) : Prop where
  parent : ∀ {h : Hash}, hexToHashStrict rec.parentStateId = some h →
    RecordClosed s policy (.state h)
  base : ∀ {h : Hash}, hexToHashStrict rec.snapshotBaseStateId = some h →
    RecordClosed s policy (.state h)
  union : ∀ {h : Hash}, hexToHashStrict rec.unionStateId = some h →
    RecordClosed s policy (.union h)
  commit : rec.fsCommit ≠ zeroHash → CommitClosed s policy rec.fsCommit

/-- A synced append that passes its own checks has links that can be marked, and leaves no part of
an id in a temporary file; a snapshot that attaches its union state has an agent state that can be
marked. -/
def RequestState.LinksKeptClosed (policy : GcPolicy) (σ : RequestState) :
    RequestEvent → RequestState → Prop
  | .append req, _ => req.sync = true → req.AnchorsReadable σ.files.store →
      LinksClosed σ.files.store policy req.record ∧
        ¬σ.journal.disk.LeavesPartial req.record.agentId req.record.branch
  | .snapshot call, _ => call.attached = true →
      ∀ h, hexToHashStrict call.request.agentStateId = some h →
        RecordClosed σ.files.store policy (.state h)
  | _, _ => True

/-! ## Branches -/

theorem TreeReadable.of_readable {s : ObjectStore} {h : Hash} (hr : Readable s h) :
    TreeReadable s h := by
  induction hr with
  | @dir h es hes _ ih =>
      intro k hk
      rcases Relation.ReflTransGen.cases_head hk with rfl | ⟨j, ⟨es', c, hes', hc, hkind, rfl⟩, hk⟩
      · exact ⟨es, hes⟩
      · cases hes.symm.trans hes'
        exact ih c hc hkind k hk

theorem Refs.mem_files_of_readRef {r : Refs} {branch : Bytes} {head : Hash}
    (h : r.readRef branch = some head) : branch ∈ r.files := by
  by_contra hno
  unfold Refs.readRef at h
  rw [ExtTreeMap.getElem?_eq_none hno] at h
  cases h

theorem Refs.readRef_congr {r r' : Refs} (h : r'.files = r.files) (branch : Bytes) :
    r'.readRef branch = r.readRef branch := by
  unfold Refs.readRef
  rw [h]

section

variable [Blake3]

/-- A commit of `wt` on heads of branches. -/
structure CommitsOnHeads (σ σ' : PublishState) (commit : Hash) : Prop where
  publish : ∃ info wt parents, publishCommit info wt parents σ.store = (.ok commit, σ'.store) ∧
    parents.length < 2 ^ 27 ∧ ∀ p ∈ parents, ∃ name, σ.refs.readRef name = some p

/-- What an event does to the branches: at most one ref moves, to a new commit on heads. -/
structure BranchesChange (σ σ' : PublishState) : Prop where
  extends_ : Extends σ.store σ'.store
  listError : σ'.refs.listError = σ.refs.listError
  live : ∀ branch, branch ∈ σ'.trees ↔ branch ∈ σ.trees
  refs : σ'.refs.files = σ.refs.files ∨ ∃ branch commit, branch ∈ σ.trees ∧
    CommitsOnHeads σ σ' commit ∧
      σ'.refs.files = σ.refs.files.insert branch (hashToHex commit ++ [10])

namespace PublishState

theorem change_checkpoint (σ : PublishState) (branch : Bytes) (info : CommitMeta)
    (flushed : Bool) : BranchesChange σ (σ.checkpoint branch info flushed) := by
  have hrefl : BranchesChange σ σ := ⟨.refl _, rfl, fun _ => Iff.rfl, Or.inl rfl⟩
  unfold checkpoint
  cases hwt : σ.trees[branch]? with
  | none => exact hrefl
  | some wt =>
      have hgrow := grows_publishCommit info wt (σ.refs.readRef branch).toList σ.store
      simp only [checkpointLocked]
      cases flushed with
      | false => exact ⟨.refl _, rfl, fun _ => Iff.rfl, Or.inl rfl⟩
      | true =>
          simp only [Bool.not_true, Bool.false_eq_true, if_false]
          generalize hp : publishCommit info wt (σ.refs.readRef branch).toList σ.store = p at hgrow ⊢
          obtain ⟨failure | commit, s⟩ := p
          · exact ⟨hgrow.extends_, rfl, fun _ => Iff.rfl, Or.inl rfl⟩
          · have hlist := σ.refs.listError_writeRef branch commit
            have hfiles := σ.refs.files_writeRef branch commit
            simp only
            generalize σ.refs.writeRef branch commit = w at hlist hfiles ⊢
            have hlive : branch ∈ σ.trees :=
              ExtTreeMap.isSome_getElem?_iff_mem.1 (by rw [hwt, Option.isSome_some])
            have hcommit : ∀ {σ' : PublishState}, σ'.store = s → CommitsOnHeads σ σ' commit := by
              intro σ' hs
              refine ⟨info, wt, _, hs ▸ hp, ?_, fun p hp => ⟨branch, ?_⟩⟩
              · cases σ.refs.readRef branch <;> simp
              · exact Option.mem_toList.1 hp
            have hmoved : w.2.files = σ.refs.files ∨
                w.2.files = σ.refs.files.insert branch (hashToHex commit ++ [10]) :=
              hfiles.imp_left And.right
            obtain ⟨_ | _, refs⟩ := w
            · exact ⟨hgrow.extends_, hlist, fun _ => Iff.rfl,
                hmoved.imp_right fun h => ⟨branch, commit, hlive, hcommit rfl, h⟩⟩
            · exact ⟨hgrow.extends_, hlist, fun _ => Iff.rfl,
                hmoved.imp_right fun h => ⟨branch, commit, hlive, hcommit rfl, h⟩⟩

theorem change_merge {σ : PublishState} {target : Bytes} {info : CommitMeta}
    {targetCp sourceCp : Hash} {merged : WorkingTree}
    (h : σ.Admits (.merge target info targetCp sourceCp merged)) :
    BranchesChange σ (σ.merge target info targetCp sourceCp merged) := by
  obtain ⟨hlive, htarget, source, hsource⟩ := h
  have hgrow := grows_publishCommit info merged [targetCp, sourceCp] σ.store
  unfold merge writeCommitWithParents
  generalize hp : publishCommit info merged [targetCp, sourceCp] σ.store = p at hgrow ⊢
  obtain ⟨failure | commit, s⟩ := p
  · exact ⟨hgrow.extends_, rfl, fun _ => Iff.rfl, Or.inl rfl⟩
  · refine ⟨hgrow.extends_, σ.refs.listError_writeRef target commit, fun branch => ?_, ?_⟩
    · simp only
      split
      · rw [ExtTreeMap.mem_insert]
        refine ⟨fun hmem => hmem.elim (fun heq => ?_) id, Or.inr⟩
        rw [← LawfulEqCmp.compare_eq_iff_eq.1 heq]
        exact hlive
      · exact Iff.rfl
    · refine ((σ.refs.files_writeRef target commit).imp_left And.right).imp_right fun hfiles =>
        ⟨target, commit, hlive, ⟨info, merged, _, hp, by simp, fun p hp => ?_⟩, hfiles⟩
      simp only [List.mem_cons, List.not_mem_nil, or_false] at hp
      rcases hp with rfl | rfl
      · exact ⟨target, htarget⟩
      · exact ⟨source, hsource⟩

theorem change_apply {σ : PublishState} {ev : PublishEvent} (h : σ.Admits ev) :
    BranchesChange σ (σ.apply ev) := by
  cases ev with
  | disk faults refFaults others =>
      have hgrow : Grows σ.store { σ.store with faults := faults, others := others } :=
        .of_objects_eq rfl rfl id
      exact ⟨hgrow.extends_, rfl, fun _ => Iff.rfl, Or.inl rfl⟩
  | write tag body =>
      exact ⟨(published_writeObject _ _ _).extends_, rfl, fun _ => Iff.rfl, Or.inl rfl⟩
  | edit branch wt =>
      refine ⟨.refl _, rfl, fun b => ?_, Or.inl rfl⟩
      show b ∈ σ.trees.insert branch wt ↔ b ∈ σ.trees
      rw [ExtTreeMap.mem_insert]
      refine ⟨fun hmem => hmem.elim (fun heq => ?_) id, Or.inr⟩
      rw [← LawfulEqCmp.compare_eq_iff_eq.1 heq]
      exact h
  | checkpoint branch info flushed => exact σ.change_checkpoint branch info flushed
  | merge target info targetCp sourceCp merged => exact change_merge h

end PublishState

/-- The branches have refs that can be read, to heads that can be marked. -/
structure BranchesClosed (policy : GcPolicy) (σ : PublishState) : Prop where
  listed : σ.refs.listError = none
  tracked : ∀ branch ∈ σ.trees, branch ∈ σ.refs.files
  heads : σ.store.collided = false → ∀ branch ∈ σ.refs.files, ∃ head,
    σ.refs.readRef branch = some head ∧ HeadClosed σ.store policy head

variable {policy : GcPolicy}

/-- A commit on closed heads is a closed head. -/
theorem CommitsOnHeads.headClosed {σ σ' : PublishState} {commit : Hash}
    (h : CommitsOnHeads σ σ' commit) (hclosed : BranchesClosed policy σ)
    (hc : σ'.store.collided = false) : HeadClosed σ'.store policy commit := by
  obtain ⟨info, wt, parents, hpub, hlen, hparents⟩ := h.publish
  have hext : Extends σ.store σ'.store := by
    have hgrow := grows_publishCommit info wt parents σ.store
    rw [hpub] at hgrow
    exact hgrow.extends_
  obtain ⟨hread, hdir⟩ := dirWritten_publishCommit hpub hlen (.refl _) hc
  refine .of_parents hread (.of_readable hdir.readable) fun p hp => ?_
  obtain ⟨name, hname⟩ := hparents p hp
  obtain ⟨head, hhead, hheadClosed⟩ :=
    hclosed.heads (hext.collided_eq hc) name (Refs.mem_files_of_readRef hname)
  cases hname.symm.trans hhead
  exact hheadClosed.mono hext

omit [Blake3] in
theorem BranchesClosed.mono {σ : PublishState} (h : BranchesClosed policy σ) {s : ObjectStore}
    (he : Extends σ.store s) : BranchesClosed policy { σ with store := s } := by
  refine ⟨h.listed, h.tracked, fun hc branch hb => ?_⟩
  obtain ⟨head, hhead, hheadClosed⟩ := h.heads (he.collided_eq hc) branch hb
  exact ⟨head, hhead, hheadClosed.mono he⟩

theorem BranchesClosed.change {σ σ' : PublishState} (h : BranchesClosed policy σ)
    (hch : BranchesChange σ σ') : BranchesClosed policy σ' := by
  have hold : σ'.store.collided = false → ∀ branch ∈ σ.refs.files, ∃ head,
      σ.refs.readRef branch = some head ∧ HeadClosed σ'.store policy head := by
    intro hc branch hb
    obtain ⟨head, hhead, hheadClosed⟩ := h.heads (hch.extends_.collided_eq hc) branch hb
    exact ⟨head, hhead, hheadClosed.mono hch.extends_⟩
  rcases hch.refs with hfiles | ⟨moved, commit, hmoved, hcommit, hfiles⟩
  · refine ⟨hch.listError.trans h.listed, fun branch hb => ?_, fun hc branch hb => ?_⟩
    · rw [hfiles]
      exact h.tracked branch ((hch.live branch).1 hb)
    · rw [Refs.readRef_congr hfiles]
      exact hold hc branch (hfiles ▸ hb)
  · refine ⟨hch.listError.trans h.listed, fun branch hb => ?_, fun hc branch hb => ?_⟩
    · rw [hfiles, ExtTreeMap.mem_insert]
      exact Or.inr (h.tracked branch ((hch.live branch).1 hb))
    · have hread : σ'.refs.readRef branch =
          if moved = branch then some commit else σ.refs.readRef branch := by
        rw [← Refs.readRef_insert]
        exact Refs.readRef_congr hfiles branch
      by_cases hbranch : moved = branch
      · rw [hread, if_pos hbranch]
        exact ⟨commit, rfl, hcommit.headClosed h hc⟩
      · rw [hread, if_neg hbranch]
        refine hold hc branch ?_
        rw [hfiles, ExtTreeMap.mem_insert] at hb
        exact hb.resolve_left fun heq => hbranch (LawfulEqCmp.compare_eq_iff_eq.1 heq)

/-! ## Appends -/

namespace AgentStateService

variable {svc : AgentStateService} {req : AgentStateAppendRequest}

/-- The files below `state/latest` after an append. -/
theorem file_append (hwhole : req.sync = true → req.AnchorsReadable svc.store →
      ¬svc.disk.LeavesPartial req.record.agentId req.record.branch) {agent name content : Bytes}
    (hfile : (svc.append req).2.disk.refs.file agent name = some content) :
    svc.disk.refs.file agent name = some content ∨ ∃ id, content = hashToHex id ∧
      req.sync = true ∧ Appended svc req (svc.append req).2.store id := by
  have hout := append_cases svc req
  generalize svc.append req = r at hout hfile ⊢
  have hreplaced : ∀ {store' : ObjectStore} {disk' : LatestDisk} {id : Hash}, req.sync = true →
      Appended svc req store' id → LatestDisk.Replaced svc.disk disk' req.record.agentId
        req.record.branch (hashToHex id) → disk'.refs.file agent name = some content →
      svc.disk.refs.file agent name = some content ∨ ∃ id, content = hashToHex id ∧
        req.sync = true ∧ Appended svc req store' id := by
    intro store' disk' id hsync happended hreplaced hfile
    rw [hreplaced agent name] at hfile
    split at hfile
    · cases hfile
      exact Or.inr ⟨id, rfl, hsync, happended⟩
    · exact Or.inl hfile
  cases hout with
  | refused _ => exact Or.inl hfile
  | logicalOnly _ _ => exact Or.inl hfile
  | @published store' disk' id synced appended publish =>
      have hpub := (svc.disk.publishLatestRef_spec req.record.agentId (hashToHex id)
        appended.branch).2
      rw [publish] at hpub
      cases hpub with
      | published replaced => exact hreplaced synced appended replaced hfile
  | @unpublished store' disk' id err synced appended publish =>
      have hpub := (svc.disk.publishLatestRef_spec req.record.agentId (hashToHex id)
        appended.branch).2
      rw [publish] at hpub
      cases hpub with
      | unpublished _ _ restored =>
          rcases restored (hwhole synced (appended.anchors synced)) agent name with
            hsame | ⟨-, -, hid⟩
          · exact Or.inl (hsame.symm.trans hfile)
          · change disk'.refs.file agent name = some content at hfile
            rw [hid, Option.some.injEq] at hfile
            exact Or.inr ⟨id, hfile.symm, synced, appended⟩
      | unsynced _ replaced => exact hreplaced synced appended replaced hfile

end AgentStateService

omit [Blake3] in
theorem linkOk_of_isValidStateId {hex : Bytes} (h : isValidStateId hex = true) : LinkOk hex := by
  unfold isValidStateId at h
  rw [Bool.or_eq_true] at h
  rcases h with h | h
  · exact Or.inl (List.isEmpty_iff.1 h)
  · exact Or.inr (exists_hexToHashStrict h)

omit [Blake3] in
/-- What a record that can be marked is linked to can be marked. -/
theorem linksClosed_of_recordClosed {s : ObjectStore} {id : Hash} {rec : AgentStateRecord}
    (h : RecordClosed s policy (.state id)) (hread : readAgentStateRecord s id = .ok rec) :
    LinksClosed s policy rec := by
  have hnext : ∀ {r}, RecordLink s (.state id) r → RecordClosed s policy r :=
    fun hl r' hr' => h r' (.head hl hr')
  exact ⟨fun hh => hnext (.stateParent hread hh), fun hh => hnext (.stateBase hread hh),
    fun hh => hnext (.stateUnion hread hh), fun hz => (h _ .refl).2 _ (.state hread hz)⟩

omit [Blake3] in
/-- A record whose links are closed is closed. -/
theorem recordClosed_of_links {s : ObjectStore} {id : Hash} {rec : AgentStateRecord} {hex : Bytes}
    (hvalid : rec.Valid) (hread : readAgentStateRecord s id = .ok { rec with stateId := hex })
    (hlinks : LinksClosed s policy rec) : RecordClosed s policy (.state id) := by
  refine .of_links (.state hread (linkOk_of_isValidStateId hvalid.payload)
    (linkOk_of_isValidStateId hvalid.union) (linkOk_of_isValidStateId hvalid.parent)
    (linkOk_of_isValidStateId hvalid.base)) (fun r' hl => ?_) fun c hcommit => ?_
  · cases hl with
    | stateUnion hr hh =>
        cases hread.symm.trans hr
        exact hlinks.union hh
    | stateParent hr hh =>
        cases hread.symm.trans hr
        exact hlinks.parent hh
    | stateBase hr hh =>
        cases hread.symm.trans hr
        exact hlinks.base hh
  · cases hcommit with
    | state hr hz =>
        cases hread.symm.trans hr
        exact hlinks.commit hz

omit [Blake3] in
theorem LinksClosed.mono {s s' : ObjectStore} {rec : AgentStateRecord} (he : Extends s s')
    (h : LinksClosed s policy rec) : LinksClosed s' policy rec :=
  ⟨fun hh => (h.parent hh).mono he, fun hh => (h.base hh).mono he,
    fun hh => (h.union hh).mono he, fun hz => (h.commit hz).mono he⟩

/-! ## Snapshots -/

namespace RequestState

variable {σ : RequestState} {call : SnapshotCall}

/-- A snapshot that has made its union state durable and attached it. -/
structure Snapped (σ : RequestState) (call : SnapshotCall) (store : ObjectStore) (commit id : Hash) :
    Prop where
  attached : call.attached = true
  head : (σ.files.checkpoint call.branch call.info call.flushed).refs.readRef call.branch = some commit
  written : ∃ s, writeUnionRuntimeState
    (σ.files.checkpoint call.branch call.info call.flushed).store (call.unionState commit) =
      (.ok id, s) ∧ Extends s store

theorem checkpoint_eq_self {σ : PublishState} {branch : Bytes} {info : CommitMeta} {flushed : Bool}
    (h : σ.trees[branch]? = none) : σ.checkpoint branch info flushed = σ := by
  unfold PublishState.checkpoint
  rw [h]

/-- A checkpoint that succeeds has advanced its ref to its commit. -/
theorem readRef_checkpoint {σ : PublishState} {branch : Bytes} {info : CommitMeta} {flushed : Bool}
    {wt : WorkingTree} (hwt : σ.trees[branch]? = some wt)
    (hok : (checkpointLocked info flushed wt branch σ.store σ.refs).1.ok = true) :
    (σ.checkpoint branch info flushed).refs.readRef branch =
      some (checkpointLocked info flushed wt branch σ.store σ.refs).1.commit := by
  obtain ⟨commit, -, hres, -, hw⟩ := checkpointLocked_ok hok
  unfold PublishState.checkpoint
  simp only [hwt, hres]
  have hread := Refs.readRef_writeRef_of_ok
    (by rw [hw] : (σ.refs.writeRef branch commit).1 = true) branch
  rw [hw, if_pos rfl] at hread
  exact hread

/-- A snapshot is a checkpoint, after which the store may grow and one union state be attached. -/
theorem snapshot_cases (σ : RequestState) (call : SnapshotCall) :
    ∃ store unionStates, σ.snapshot call =
        { σ.withFiles { σ.files.checkpoint call.branch call.info call.flushed with store := store }
          with unionStates := unionStates } ∧
      Extends (σ.files.checkpoint call.branch call.info call.flushed).store store ∧
      (unionStates = σ.unionStates ∨ ∃ commit id, σ.Snapped call store commit id ∧
        unionStates = id :: σ.unionStates) := by
  unfold snapshot
  cases hwt : σ.files.trees[call.branch]? with
  | none =>
      rw [checkpoint_eq_self hwt]
      exact ⟨_, _, rfl, .refl _, Or.inl rfl⟩
  | some wt =>
      simp only
      split
      · exact ⟨_, _, rfl, .refl _, Or.inl rfl⟩
      rename_i hgo
      rw [Bool.not_eq_true, Bool.or_eq_false_iff, Bool.not_eq_false', Bool.not_eq_false'] at hgo
      have hhead := readRef_checkpoint hwt hgo.1
      generalize (checkpointLocked call.info call.flushed wt call.branch σ.files.store
        σ.files.refs).1.commit = commit at hhead ⊢
      have hpub := published_writeUnionRuntimeState
        (σ.files.checkpoint call.branch call.info call.flushed).store (call.unionState commit)
      generalize hw : writeUnionRuntimeState
        (σ.files.checkpoint call.branch call.info call.flushed).store (call.unionState commit) = w
        at hpub ⊢
      obtain ⟨err | id, s⟩ := w
      · exact ⟨_, _, rfl, hpub.extends_, Or.inl rfl⟩
      have hsync := (fsyncPending_cases s [id]).1.extends_
      simp only
      generalize s.fsyncPending [id] = f at hsync ⊢
      obtain ⟨_ | err, s'⟩ := f
      · refine ⟨_, _, rfl, hpub.extends_.trans hsync, ?_⟩
        cases hattached : call.attached with
        | false => exact Or.inl rfl
        | true => exact Or.inr ⟨commit, id, ⟨hattached, hhead, s, hw, hsync⟩, rfl⟩
      · exact ⟨_, _, rfl, hpub.extends_.trans hsync, Or.inl rfl⟩

/-- A union state on a closed head and a closed agent state is closed. -/
theorem recordClosed_of_snapped {store : ObjectStore} {commit id : Hash}
    (h : σ.Snapped call store commit id) (hc : store.collided = false)
    (fits : (call.unionState commit).serialize.length < 2 ^ 64)
    (hagent : call.request.agentStateId = [] ∨ isHexHash call.request.agentStateId = true)
    (hstate : ∀ h, hexToHashStrict call.request.agentStateId = some h →
      RecordClosed store policy (.state h))
    (hcommit : CommitClosed store policy commit) : RecordClosed store policy (.union id) := by
  obtain ⟨s, hw, hext⟩ := h.written
  have hread := readUnionRuntimeState_of_extends hext
    (readUnionRuntimeState_write hw (hext.collided_eq hc) fits)
  refine .of_links (.union hread (hagent.imp_right exists_hexToHashStrict) (Or.inl rfl))
    (fun r' hl => ?_) fun c hc' => ?_
  · cases hl with
    | unionAgent hr hh =>
        cases hread.symm.trans hr
        exact hstate _ hh
    | unionParent hr hh =>
        -- the parent of a snapshot is not set
        cases hread.symm.trans hr
        cases hh
  · cases hc' with
    | union hr _ =>
        cases hread.symm.trans hr
        exact hcommit

/-! ## Runs -/

/-- Every root can be marked. -/
structure RootsClosed (policy : GcPolicy) (σ : RequestState) : Prop where
  branches : BranchesClosed policy σ.files
  latest : σ.files.store.collided = false → ∀ agent name content,
    σ.journal.disk.refs.file agent name = some content →
      ∃ id, refFileId content = some id ∧ RecordClosed σ.files.store policy (.state id)
  unions : σ.files.store.collided = false → ∀ id ∈ σ.unionStates,
    RecordClosed σ.files.store policy (.union id)

omit [Blake3] in
theorem RootsClosed.markSucceeds (h : RootsClosed policy σ) (hc : σ.files.store.collided = false) :
    σ.MarkSucceeds policy := by
  intro latest live hshows hlive
  refine mark_succeeds_iff.2 (markable_iff_roots.2 ⟨⟨?_, ?_⟩, ?_, ?_⟩)
  · refine ⟨σ.files.refs.files.keys, ?_, fun e he => ?_, fun name hname => ?_⟩
    · unfold Refs.listRefs
      rw [h.branches.listed]
    · exact ExtTreeMap.mem_keys.2 (h.branches.tracked e ((hlive.branches e).1 he))
    · obtain ⟨head, hhead, -⟩ := h.branches.heads hc name (ExtTreeMap.mem_keys.1 hname)
      exact ⟨head, hhead⟩
  · refine hshows.ids_ok_iff.2 fun agent name content hfile => ?_
    obtain ⟨id, hid, -⟩ := h.latest hc agent name content hfile
    exact ⟨id, hid⟩
  · rintro head ⟨name, hname⟩
    obtain ⟨head', hhead, hclosed⟩ := h.branches.heads hc name (Refs.mem_files_of_readRef hname)
    cases hname.symm.trans hhead
    exact hclosed
  · intro r hr
    cases hr with
    | latest hl =>
        obtain ⟨agent, name, content, hfile, hid⟩ := hshows.latestRecord_iff.1 hl
        obtain ⟨id, hid', hclosed⟩ := h.latest hc agent name content hfile
        cases hid.symm.trans hid'
        exact hclosed
    | live hl => exact h.unions hc _ ((hlive.unions _).1 hl)

omit [Blake3] in
/-- Marking succeeds only where every root can be marked. -/
theorem rootsClosed_of_markSucceeds (h : σ.MarkSucceeds policy) : RootsClosed policy σ := by
  obtain ⟨hscans, hheads, hrecords⟩ := markable_iff_roots.1 (mark_succeeds_iff.1
    (h σ.journal.disk.refs.listing
      { expectedBranchRefs := σ.files.trees.keys, runtimeUnionStates := σ.unionStates }
      σ.journal.disk.refs.shows_listing ⟨fun _ => ExtTreeMap.mem_keys, fun _ => Iff.rfl⟩))
  have hshows := σ.journal.disk.refs.shows_listing
  obtain ⟨names, hnames, htracked, hreadable⟩ := hscans.branches
  have hlisted : σ.files.refs.listError = none ∧ names = σ.files.refs.files.keys := by
    unfold Refs.listRefs at hnames
    split at hnames
    · cases hnames
    · cases hnames
      exact ⟨‹_›, rfl⟩
  obtain ⟨hlisted, rfl⟩ := hlisted
  refine ⟨⟨hlisted, fun branch hb => ?_, fun _ branch hb => ?_⟩, fun _ agent name content hfile => ?_,
    fun _ id hid => hrecords _ (.live hid)⟩
  · exact ExtTreeMap.mem_keys.1 (htracked branch (ExtTreeMap.mem_keys.2 hb))
  · obtain ⟨head, hhead⟩ := hreadable branch (ExtTreeMap.mem_keys.2 hb)
    exact ⟨head, hhead, hheads head ⟨branch, hhead⟩⟩
  · obtain ⟨id, hid⟩ := hshows.ids_ok_iff.1 hscans.latestRefs agent name content hfile
    exact ⟨id, hid, hrecords _ (.latest (hshows.latestRecord_iff.2 ⟨agent, name, content, hfile, hid⟩))⟩

omit [Blake3] in
/-- What was closed before stays closed while the store grows. -/
theorem RootsClosed.grow {files : PublishState} (h : RootsClosed policy σ)
    (hbranches : BranchesClosed policy files) (he : Extends σ.files.store files.store) :
    RootsClosed policy (σ.withFiles files) := by
  refine ⟨hbranches, fun hc agent name content hfile => ?_, fun hc id hid => ?_⟩
  · obtain ⟨id, hid, hclosed⟩ := h.latest (he.collided_eq hc) agent name content hfile
    exact ⟨id, hid, hclosed.mono he⟩
  · exact (h.unions (he.collided_eq hc) id hid).mono he

theorem RootsClosed.step {σ σ' : RequestState} {ev : RequestEvent} (h : RootsClosed policy σ)
    (hs : Step σ ev σ') (hcond : LinksKeptClosed policy σ ev σ') : RootsClosed policy σ' := by
  cases hs with
  | branches admitted =>
      have hch := PublishState.change_apply admitted
      exact h.grow (h.branches.change hch) hch.extends_
  | disk faults suffix written => exact ⟨h.branches, h.latest, h.unions⟩
  | @append req fits =>
      have hext : Extends σ.files.store (σ.journal.service.append req).2.store :=
        (σ.journal.service.grows_append req).extends_
      have hgrown := h.grow (h.branches.mono hext) hext
      refine ⟨hgrown.branches, fun hc agent name content hfile => ?_, hgrown.unions⟩
      rcases AgentStateService.file_append (fun hsync ha => (hcond hsync ha).2) hfile with
        hold | ⟨id, rfl, hsync, happended⟩
      · exact hgrown.latest hc agent name content hold
      · have hlinks := (hcond hsync (happended.anchors hsync)).1.mono hext
        exact ⟨id, refFileId_hashToHex id, recordClosed_of_links happended.valid
          (happended.written.read hc fits happended.valid)
          ⟨hlinks.parent, hlinks.base, hlinks.union, hlinks.commit⟩⟩
  | @snapshot call agent fits =>
      obtain ⟨store, unionStates, hsnap, hext, hunions⟩ := σ.snapshot_cases call
      have hch := σ.files.change_checkpoint call.branch call.info call.flushed
      have hbranches := (h.branches.change hch).mono hext
      have hgrown := h.grow hbranches (hch.extends_.trans hext)
      rw [hsnap]
      refine ⟨hgrown.branches, hgrown.latest, fun hc id hid => ?_⟩
      rcases hunions with rfl | ⟨commit, id', hsnapped, rfl⟩
      · exact hgrown.unions hc id hid
      · rcases List.mem_cons.1 hid with rfl | hid
        · obtain ⟨head, hhead, hclosed⟩ :=
            hbranches.heads hc call.branch (Refs.mem_files_of_readRef hsnapped.head)
          cases hsnapped.head.symm.trans hhead
          exact recordClosed_of_snapped hsnapped hc (fits commit) agent
            (fun k hk => (hcond hsnapped.attached k hk).mono (hch.extends_.trans hext))
            hclosed.toCommitClosed
        · exact hgrown.unions hc id hid
  | drop kept => exact ⟨h.branches, h.latest, fun hc id hid => h.unions hc id (kept id hid)⟩

theorem rootsClosed_of_reaches
    (hr : Reaches (fun σ => σ.MarkSucceeds policy) (Restrict Step (LinksKeptClosed policy)) σ) :
    RootsClosed policy σ :=
  hr.invariant (fun _ h => rootsClosed_of_markSucceeds h) fun _ _ _ h hs => h.step hs.1 hs.2

/-- In every run in which published records keep their links closed, marking goes on to succeed. -/
theorem mark_succeeds_after_requests (policy : GcPolicy) (σ : RequestState)
    (hr : Reaches (fun σ => σ.MarkSucceeds policy) (Restrict Step (LinksKeptClosed policy)) σ)
    (hc : σ.files.store.collided = false) : σ.MarkSucceeds policy :=
  (rootsClosed_of_reaches hr).markSucceeds hc

end RequestState

end

namespace RequestState

/-! ## A session on a commit that does not exist -/

section DanglingCommit

local instance : Blake3 := foldDigest

def emptyRequests : RequestState := ⟨JournalState.emptyJournal, []⟩

theorem markSucceeds_emptyRequests (policy : GcPolicy) : emptyRequests.MarkSucceeds policy := by
  refine RootsClosed.markSucceeds ⟨⟨rfl, fun b hb => ?_, fun _ b hb => ?_⟩, fun _ a n c hf => ?_,
    fun _ id hid => ?_⟩ rfl
  · simp [emptyRequests, files, JournalState.emptyJournal] at hb
  · simp [emptyRequests, files, JournalState.emptyJournal] at hb
  · cases hf
  · cases hid

def afterBase : RequestState := ⟨JournalState.withBase, []⟩

/-- The session of `withSession`, on a commit no one has written. -/
def danglingRequest : AgentStateAppendRequest :=
  { AppendState.sessionRequest with
    record := { AppendState.sessionRequest.record with fsCommit := objectHash .commit [] } }

def afterDangling : RequestState :=
  { afterBase with
    journal := afterBase.journal.withService (afterBase.journal.service.append danglingRequest).2 }

theorem mark_fails_after_dangling_session :
    ¬∀ (policy : GcPolicy) (σ : RequestState), Reaches (fun σ => σ.MarkSucceeds policy) Step σ →
      σ.files.store.collided = false → σ.MarkSucceeds policy := by
  intro h
  have hreach : Reaches (fun σ => σ.MarkSucceeds {}) Step afterDangling :=
    .step (.step (.start (markSucceeds_emptyRequests {}))
      (show Step _ (.append AppendState.baseRequest) afterBase from .append (by decide +kernel)))
      (show Step _ (.append danglingRequest) afterDangling from .append (by decide +kernel))
  have hclosed := rootsClosed_of_markSucceeds (h {} afterDangling hreach (by decide +kernel))
  -- the ref of the session leads to the commit
  obtain ⟨id, hid, hrecord⟩ := hclosed.latest (by decide +kernel) [97] [98]
    (hashToHex (objectHash .blob (blobBody danglingRequest.appended.serialize))) (by decide +kernel)
  rw [refFileId_hashToHex, Option.some.injEq] at hid
  subst hid
  cases hread : readAgentStateRecord afterDangling.files.store
      (objectHash .blob (blobBody danglingRequest.appended.serialize)) with
  | error err =>
      have hok : (readAgentStateRecord afterDangling.files.store
        (objectHash .blob (blobBody danglingRequest.appended.serialize))).toOption.isSome = true := by
          decide +kernel
      rw [hread] at hok
      cases hok
  | ok rec =>
      have hcommit : (readAgentStateRecord afterDangling.files.store
        (objectHash .blob (blobBody danglingRequest.appended.serialize))).toOption.any
          (fun r => r.fsCommit == objectHash .commit []) = true := by decide +kernel
      rw [hread] at hcommit
      change (rec.fsCommit == objectHash .commit []) = true at hcommit
      rw [beq_iff_eq] at hcommit
      have hlinks := linksClosed_of_recordClosed hrecord hread
      obtain ⟨cd, hcd⟩ := (hlinks.commit (hcommit ▸ by decide +kernel)).history _ .refl
      have hnone : (afterDangling.files.store.readCommit (objectHash .commit [])).isSome = false := by
        decide +kernel
      rw [← hcommit, hcd] at hnone
      cases hnone

def afterSession : RequestState := ⟨JournalState.withSession, []⟩

/-- The session of `withSession` is linked to its base only, a root without links. -/
theorem linksClosed_sessionRequest :
    LinksClosed afterBase.files.store {} AppendState.sessionRequest.record := by
  have hroot : ((readAgentStateRecord afterBase.files.store JournalState.baseId).toOption.any
      fun r => r.parentStateId == [] && r.payloadRef == [] && r.unionStateId == [] &&
        r.snapshotBaseStateId == [] && r.fsCommit == zeroHash) = true := by decide +kernel
  have hclosed : RecordClosed afterBase.files.store {} (.state JournalState.baseId) := by
    cases hread : readAgentStateRecord afterBase.files.store JournalState.baseId with
    | error err =>
        rw [hread] at hroot
        cases hroot
    | ok rec =>
        rw [hread] at hroot
        change (rec.parentStateId == [] && rec.payloadRef == [] && rec.unionStateId == [] &&
          rec.snapshotBaseStateId == [] && rec.fsCommit == zeroHash) = true at hroot
        obtain ⟨⟨⟨⟨hparent, hpayload⟩, hunion⟩, hbase⟩, hcommit⟩ :
            (((rec.parentStateId = [] ∧ rec.payloadRef = []) ∧ rec.unionStateId = []) ∧
              rec.snapshotBaseStateId = []) ∧ rec.fsCommit = zeroHash := by
          simpa using hroot
        refine .of_links (.state hread (Or.inl hpayload) (Or.inl hunion) (Or.inl hparent)
          (Or.inl hbase)) (fun r' hl => ?_) fun c hc => ?_
        · cases hl with
          | stateUnion hr hh =>
              cases hread.symm.trans hr
              rw [hunion] at hh
              cases hh
          | stateParent hr hh =>
              cases hread.symm.trans hr
              rw [hparent] at hh
              cases hh
          | stateBase hr hh =>
              cases hread.symm.trans hr
              rw [hbase] at hh
              cases hh
        · cases hc with
          | state hr hz =>
              cases hread.symm.trans hr
              exact absurd hcommit hz
  have hparent : hexToHashStrict AppendState.sessionRequest.record.parentStateId =
      some JournalState.baseId := by decide +kernel
  refine ⟨fun hh => ?_, fun hh => ?_, fun hh => ?_, fun hz => absurd rfl hz⟩
  · cases hparent.symm.trans hh
    exact hclosed
  · cases hparent.symm.trans hh
    exact hclosed
  · cases hh

theorem reaches_afterBase :
    Reaches (fun σ => σ.MarkSucceeds {}) (Restrict Step (LinksKeptClosed {})) afterBase := by
  refine .step (.start (markSucceeds_emptyRequests {}))
    (show Restrict Step (LinksKeptClosed {}) _ (.append AppendState.baseRequest) afterBase from
      ⟨.append (by decide +kernel), fun hsync => ?_⟩)
  cases hsync

theorem mark_succeeds_afterSession : afterSession.MarkSucceeds {} := by
  refine mark_succeeds_after_requests {} afterSession (.step reaches_afterBase
    (show Restrict Step (LinksKeptClosed {}) _ (.append AppendState.sessionRequest) afterSession from
      ⟨.append (by decide +kernel), fun _ _ => ⟨linksClosed_sessionRequest, ?_⟩⟩)) (by decide +kernel)
  rintro ⟨⟨err, faults, hfaults⟩, -⟩
  have hquiet : afterBase.journal.disk.faults.isEmpty = true := by decide +kernel
  rw [hfaults] at hquiet
  cases hquiet

end DanglingCommit

end RequestState

end ContextFS
