import Mathlib.Data.Nat.Digits.Lemmas
import Mathlib.Logic.Function.Basic
import ContextFS.Store.Hash

/-!
# The runtime supervisor

A registry of cooperative runtimes, the snapshots and restores that are pending on them, the
boundaries their processes wait at and the templates forked there.  Every operation below runs
under the supervisor's lock; one that fails changes nothing but a counter.  Signals and liveness are
the answers of a process controller, which are arguments.
-/

namespace ContextFS

/-! ## Generated ids -/

/-- `"%016llx"`. -/
def hexCounter (n : Nat) : Bytes :=
  let digits := ((Nat.digits 16 n).map hexDigit).reverse
  List.replicate (16 - digits.length) 48 ++ digits

/-- The id a counter gives: `make_template_id_locked` and its siblings. -/
def generatedId (kind : List UInt8) (n : Nat) : Bytes := kind ++ hexCounter n

/-- The number that is read back from the digits; leading zeros do not count. -/
theorem ofDigits_hexCounter (n : Nat) :
    Nat.ofDigits 16 ((hexCounter n).reverse.map fun c => (hexVal c).getD 0) = n := by
  have hzero : (48 : UInt8) = hexDigit 0 := rfl
  have hform : (hexCounter n).reverse = (Nat.digits 16 n ++
      List.replicate (16 - (Nat.digits 16 n).length) 0).map hexDigit := by
    simp [hexCounter, hzero]
  have hread : ∀ d ∈ Nat.digits 16 n ++ List.replicate (16 - (Nat.digits 16 n).length) 0,
      ((fun c => (hexVal c).getD 0) ∘ hexDigit) d = id d := by
    intro d hd
    have hlt : d < 16 := by
      rcases List.mem_append.1 hd with hd | hd
      · exact Nat.digits_lt_base (by decide) hd
      · rw [List.eq_of_mem_replicate hd]
        decide
    simp [(hexDigit_spec d hlt).1]
  rw [hform, List.map_map, List.map_congr_left hread, List.map_id,
    Nat.ofDigits_append_replicate_zero, Nat.ofDigits_digits]

theorem hexCounter_injective {m n : Nat} (h : hexCounter m = hexCounter n) : m = n := by
  rw [← ofDigits_hexCounter m, h, ofDigits_hexCounter]

theorem generatedId_injective {kind : List UInt8} {m n : Nat}
    (h : generatedId kind m = generatedId kind n) : m = n :=
  hexCounter_injective (List.append_cancel_left h)

/-- `"rt-"`. -/
def runtimeKind : Bytes := [114, 116, 45]

/-- `"tmpl-"`. -/
def templateKind : Bytes := [116, 109, 112, 108, 45]

/-- `"bd-"`. -/
def boundaryKind : Bytes := [98, 100, 45]

/-- `"op-"`. -/
def operationKind : Bytes := [111, 112, 45]

/-! ## Records -/

/-- `RuntimeCreateRequest`. -/
structure RuntimeCreateRequest where
  runtimeId : Bytes
  branch : Bytes
  rootPid : Int := -1
  processGroupId : Int := -1
  commandRef : Bytes := []
  cwd : Bytes := []
  cooperative : Bool := false
  controlToken : Bytes

/-- `RuntimeSnapshotRequest`. -/
structure RuntimeSnapshotRequest where
  runtimeId : Bytes
  boundaryKind : Bytes
  agentStateId : Bytes := []
  timeoutMs : Nat := 1000

/-- `RuntimeRestoreIntent`. -/
structure RuntimeRestoreIntent where
  runtimeId : Bytes
  templateId : Bytes
  targetGeneration : UInt64

inductive BoundaryActionKind
  | continue
  | snapshot
  | error
deriving DecidableEq

/-- `RuntimeBoundaryAction`. -/
structure RuntimeBoundaryAction where
  action : BoundaryActionKind := .continue
  operationId : Bytes := []
  templateId : Bytes := []
  error : String := ""

/-- `RuntimeTemplateAction`. -/
inductive RuntimeTemplateAction
  | wait
  | restore (targetGeneration : UInt64)
  | drop
deriving DecidableEq

/-- `RuntimeSupervisor::Runtime`. -/
structure Runtime where
  runtimeId : Bytes
  branch : Bytes
  rootPid : Int := -1
  activeProcessGroupId : Int := -1
  generation : UInt64 := 0
  commandRef : Bytes := []
  cwd : Bytes := []
  cooperative : Bool := false
  controlToken : Bytes := []
  templateIds : List Bytes := []
  hasPendingSnapshot : Bool := false
  pendingOpId : Bytes := []
  pendingBoundaryKind : Bytes := []
  pendingAgentStateId : Bytes := []
  pendingTimeoutMs : Nat := 0
  pendingBoundaryId : Bytes := []
  boundaryObserved : Bool := false
  pendingTemplateId : Bytes := []
  hasPendingRestore : Bool := false
  restoreTemplateId : Bytes := []
  restoreTargetGeneration : UInt64 := 0
  generationReadyFlag : Bool := false
  retirePgid : Int := 0

/-- `RuntimeSupervisor::Boundary`. -/
structure Boundary where
  runtimeId : Bytes
  operationId : Bytes
  pid : Int
  generation : UInt64
  boundaryKind : Bytes
  templateId : Bytes := []
  actionSet : Bool := false
  action : RuntimeBoundaryAction := {}

/-- `RuntimeSupervisor::Template`. -/
structure Template where
  runtimeId : Bytes
  templatePid : Int := -1
  templateProcessGroupId : Int := -1
  generation : UInt64 := 0
  ready : Bool := false
  published : Bool := false
  publishError : String := ""
  unionStateId : Bytes := []
  fsCommit : Hash := zeroHash
  restorePending : Bool := false
  restoreReleased : Bool := false
  restoreInFlight : Bool := false
  targetGeneration : UInt64 := 0
  dropped : Bool := false

/-- `RestoreEligibility`. -/
inductive RestoreEligibility
  | metadataOnly
  | fsOnly
  | liveRuntimeRestorable
deriving DecidableEq

/-- `TemplateStatus`. -/
structure TemplateStatus where
  templateId : Bytes
  runtimeId : Bytes
  templatePid : Int
  templateProcessGroupId : Int
  generation : UInt64
  alive : Bool
  unionStateId : Bytes
  fsCommit : Hash
  restoreEligibility : RestoreEligibility

/-- `RuntimeStatus`. -/
structure RuntimeStatus where
  runtimeId : Bytes
  branch : Bytes
  rootPid : Int
  activeProcessGroupId : Int
  generation : UInt64
  commandRef : Bytes
  cooperative : Bool
  restoreEligibility : RestoreEligibility
  templates : List TemplateStatus

/-- A boundary released with an error. -/
def Boundary.fail (b : Boundary) (message : String) : Boundary :=
  { b with
    actionSet := true
    action := { action := .error, operationId := b.operationId, templateId := [], error := message } }

/-- A runtime without a pending snapshot. -/
def Runtime.clearSnapshot (r : Runtime) : Runtime :=
  { r with
    hasPendingSnapshot := false
    pendingOpId := []
    pendingBoundaryKind := []
    pendingAgentStateId := []
    pendingTimeoutMs := 0
    pendingBoundaryId := []
    boundaryObserved := false }

/-- `RuntimeSupervisor`. -/
structure RuntimeSupervisor where
  runtimes : Bytes → Option Runtime := fun _ => none
  boundaries : Bytes → Option Boundary := fun _ => none
  templates : Bytes → Option Template := fun _ => none
  runtimeCounter : Nat := 0
  templateCounter : Nat := 0
  boundaryCounter : Nat := 0
  operationCounter : Nat := 0

namespace RuntimeSupervisor

/-- `σ` with another record of the runtime. -/
def setRuntime (σ : RuntimeSupervisor) (rid : Bytes) (r : Runtime) : RuntimeSupervisor :=
  { σ with runtimes := Function.update σ.runtimes rid (some r) }

/-- `σ` with another record of the boundary. -/
def setBoundary (σ : RuntimeSupervisor) (bid : Bytes) (b : Boundary) : RuntimeSupervisor :=
  { σ with boundaries := Function.update σ.boundaries bid (some b) }

/-- `σ` with another record of the template. -/
def setTemplate (σ : RuntimeSupervisor) (tid : Bytes) (t : Template) : RuntimeSupervisor :=
  { σ with templates := Function.update σ.templates tid (some t) }

/-- An update of a template, if it is there. -/
def modifyTemplate (σ : RuntimeSupervisor) (tid : Bytes) (f : Template → Template) :
    RuntimeSupervisor :=
  { σ with templates := Function.update σ.templates tid ((σ.templates tid).map f) }

/-! ## The registry -/

/-- `register_runtime`. -/
def registerRuntime (σ : RuntimeSupervisor) (request : RuntimeCreateRequest) :
    Except String RuntimeSupervisor :=
  let generated := request.runtimeId = []
  let rid := if generated then generatedId runtimeKind (σ.runtimeCounter + 1) else request.runtimeId
  let σ := if generated then { σ with runtimeCounter := σ.runtimeCounter + 1 } else σ
  if (σ.runtimes rid).isSome then .error "runtime already registered"
  else
    .ok (σ.setRuntime rid {
      runtimeId := rid
      branch := request.branch
      rootPid := request.rootPid
      activeProcessGroupId := request.processGroupId
      generation := 1
      commandRef := request.commandRef
      cwd := request.cwd
      cooperative := request.cooperative
      controlToken := request.controlToken })

/-- The status of one template; `alive` is `process_alive`. -/
def templateRecordStatus (alive : Int → Bool) (tid : Bytes) (t : Template) : TemplateStatus :=
  let live := t.ready && decide (0 < t.templatePid) && alive t.templatePid
  { templateId := tid
    runtimeId := t.runtimeId
    templatePid := t.templatePid
    templateProcessGroupId := t.templateProcessGroupId
    generation := t.generation
    alive := live
    unionStateId := t.unionStateId
    fsCommit := t.fsCommit
    restoreEligibility := if live then .liveRuntimeRestorable else .fsOnly }

/-- `status`. -/
def status (σ : RuntimeSupervisor) (alive : Int → Bool) (rid : Bytes) :
    Except String RuntimeStatus :=
  match σ.runtimes rid with
  | none => .error "unknown runtime"
  | some r =>
      let templates := r.templateIds.filterMap fun tid =>
        (σ.templates tid).map (templateRecordStatus alive tid)
      .ok {
        runtimeId := r.runtimeId
        branch := r.branch
        rootPid := r.rootPid
        activeProcessGroupId := r.activeProcessGroupId
        generation := r.generation
        commandRef := r.commandRef
        cooperative := r.cooperative
        restoreEligibility :=
          if templates = [] then .metadataOnly
          else if templates.any (·.alive) then .liveRuntimeRestorable
          else .fsOnly
        templates := templates }

/-! ## Snapshots -/

/-- `begin_snapshot`. -/
def beginSnapshot (σ : RuntimeSupervisor) (request : RuntimeSnapshotRequest) :
    Except String (Bytes × RuntimeSupervisor) :=
  match σ.runtimes request.runtimeId with
  | none => .error "unknown runtime"
  | some r =>
      if r.hasPendingSnapshot then .error "snapshot already in progress"
      else
        let op := generatedId operationKind (σ.operationCounter + 1)
        .ok (op, { σ with operationCounter := σ.operationCounter + 1 }.setRuntime
          request.runtimeId {
            r with
            hasPendingSnapshot := true
            pendingOpId := op
            pendingBoundaryKind := request.boundaryKind
            pendingAgentStateId := request.agentStateId
            pendingTimeoutMs := request.timeoutMs
            pendingBoundaryId := []
            boundaryObserved := false })

/-- `cancel_snapshot`: a boundary that waits is released with an error. -/
def cancelSnapshot (σ : RuntimeSupervisor) (rid : Bytes) : Except String RuntimeSupervisor :=
  match σ.runtimes rid with
  | none => .error "unknown runtime"
  | some r =>
      let released :=
        if r.boundaryObserved && r.pendingBoundaryId ≠ [] then
          match σ.boundaries r.pendingBoundaryId with
          | some b =>
              if b.actionSet then σ
              else σ.setBoundary r.pendingBoundaryId (b.fail "snapshot cancelled")
          | none => σ
        else σ
      .ok (released.setRuntime rid r.clearSnapshot)

/-- `observe_boundary`. -/
def observeBoundary (σ : RuntimeSupervisor) (rid token : Bytes) (pid : Int) (generation : UInt64)
    (kind : Bytes) : Except String (Bytes × RuntimeSupervisor) :=
  match σ.runtimes rid with
  | none => .error "unknown runtime"
  | some r =>
      if r.controlToken = [] || token ≠ r.controlToken then .error "invalid control token"
      else if !r.hasPendingSnapshot || r.boundaryObserved then .error "no pending snapshot"
      else
        let bid := generatedId boundaryKind (σ.boundaryCounter + 1)
        let σ := { σ with boundaryCounter := σ.boundaryCounter + 1 }.setBoundary bid {
          runtimeId := rid
          operationId := r.pendingOpId
          pid := pid
          generation := generation
          boundaryKind := kind }
        .ok (bid, σ.setRuntime rid { r with pendingBoundaryId := bid, boundaryObserved := true })

/-- `release_boundary_for_snapshot`: the id of the new template. -/
def releaseBoundaryForSnapshot (σ : RuntimeSupervisor) (bid : Bytes) :
    Except String (RuntimeBoundaryAction × RuntimeSupervisor) :=
  match σ.boundaries bid with
  | none => .error "unknown boundary"
  | some b =>
      if b.actionSet then .error "boundary already released"
      else
        let tid := generatedId templateKind (σ.templateCounter + 1)
        let σ := { σ with templateCounter := σ.templateCounter + 1 }.setTemplate tid {
          runtimeId := b.runtimeId
          generation := b.generation }
        let σ :=
          match σ.runtimes b.runtimeId with
          -- the runtime may be gone; the template is made all the same
          | none => σ
          | some r =>
              σ.setRuntime b.runtimeId {
                r with
                templateIds := r.templateIds ++ [tid]
                pendingTemplateId := tid }
        let action : RuntimeBoundaryAction :=
          { action := .snapshot, operationId := b.operationId, templateId := tid, error := "" }
        .ok (action, σ.setBoundary bid {
          b with
          templateId := tid
          action := action
          actionSet := true })

/-- `release_boundary_with_error`. -/
def releaseBoundaryWithError (σ : RuntimeSupervisor) (bid : Bytes) (message : String) :
    Except String (RuntimeBoundaryAction × RuntimeSupervisor) :=
  match σ.boundaries bid with
  | none => .error "unknown boundary"
  | some b =>
      if b.actionSet then .error "boundary already released"
      else
        let σ :=
          match σ.runtimes b.runtimeId with
          | none => σ
          | some r =>
              σ.setRuntime b.runtimeId {
                r with
                hasPendingSnapshot := false
                boundaryObserved := false
                pendingOpId := []
                pendingBoundaryId := [] }
        .ok ((b.fail message).action, σ.setBoundary bid (b.fail message))

/-- `template_ready`. -/
def templateReady (σ : RuntimeSupervisor) (rid token tid : Bytes) (pid pgid : Int)
    (generation : UInt64) : Except String RuntimeSupervisor :=
  match σ.templates tid with
  | none => .error "unknown template"
  | some t =>
      if rid ≠ [] && t.runtimeId ≠ rid then .error "template runtime mismatch"
      else
        match σ.runtimes t.runtimeId with
        | none => .error "unknown runtime"
        | some r =>
            if r.controlToken = [] || token ≠ r.controlToken then .error "invalid control token"
            else
              .ok (σ.setTemplate tid {
                t with
                templatePid := pid
                templateProcessGroupId := pgid
                generation := generation
                ready := true })

/-- `template_status`. -/
def templateStatus (σ : RuntimeSupervisor) (alive : Int → Bool) (tid : Bytes) :
    Except String TemplateStatus :=
  match σ.templates tid with
  | none => .error "unknown template"
  | some t => .ok (templateRecordStatus alive tid t)

/-- `restore_template_status`. -/
def restoreTemplateStatus (σ : RuntimeSupervisor) (alive : Int → Bool) (rid : Bytes) :
    Except String TemplateStatus :=
  match σ.runtimes rid with
  | none => .error "unknown runtime"
  | some r =>
      if !r.hasPendingRestore || r.restoreTemplateId = [] then .error "no pending restore"
      else σ.templateStatus alive r.restoreTemplateId

/-- `attach_union_state`. -/
def attachUnionState (σ : RuntimeSupervisor) (tid unionStateId : Bytes) (fsCommit : Hash) :
    Except String RuntimeSupervisor :=
  match σ.templates tid with
  | none => .error "unknown template"
  | some t =>
      .ok (σ.setTemplate tid {
        t with
        unionStateId := unionStateId
        fsCommit := fsCommit
        published := true
        publishError := "" })

/-- `fail_template_publish`. -/
def failTemplatePublish (σ : RuntimeSupervisor) (tid : Bytes) (message : String) :
    Except String RuntimeSupervisor :=
  match σ.templates tid with
  | none => .error "unknown template"
  | some t => .ok (σ.setTemplate tid { t with publishError := message })

/-! ## Restores -/

/-- `begin_restore`; `freeze` is what `freeze_process_group` answers, an error text or success. -/
def beginRestore (σ : RuntimeSupervisor) (freeze : Int → Option String)
    (intent : RuntimeRestoreIntent) : Except String RuntimeSupervisor :=
  match σ.runtimes intent.runtimeId with
  | none => .error "unknown runtime"
  | some r =>
      match σ.templates intent.templateId with
      | none => .error "unknown template"
      | some t =>
          if t.runtimeId ≠ intent.runtimeId then .error "unknown template"
          else
            -- a runtime without a group is not frozen
            match if 0 < r.activeProcessGroupId then freeze r.activeProcessGroupId else none with
            | some err => .error ("freeze failed: " ++ err)
            | none =>
                .ok ((σ.setRuntime intent.runtimeId {
                  r with
                  hasPendingRestore := true
                  restoreTemplateId := intent.templateId
                  restoreTargetGeneration := intent.targetGeneration
                  generationReadyFlag := false
                  retirePgid := 0 }).setTemplate intent.templateId {
                    t with
                    restorePending := true
                    restoreReleased := false
                    restoreInFlight := false
                    targetGeneration := intent.targetGeneration })

/-- `publish_restore`. -/
def publishRestore (σ : RuntimeSupervisor) (rid : Bytes) : Except String RuntimeSupervisor :=
  match σ.runtimes rid with
  | none => .error "unknown runtime"
  | some r =>
      if !r.hasPendingRestore || r.restoreTemplateId = [] then .error "no pending restore"
      else
        match σ.templates r.restoreTemplateId with
        | none => .error "unknown template"
        | some t =>
            if !t.restorePending || t.runtimeId ≠ rid then .error "no pending restore"
            else .ok (σ.setTemplate r.restoreTemplateId { t with restoreReleased := true })

/-- `abort_restore` up to the signal: the process group that is resumed then, if positive. -/
def abortRestore (σ : RuntimeSupervisor) (rid : Bytes) : Except String (Int × RuntimeSupervisor) :=
  match σ.runtimes rid with
  | none => .error "unknown runtime"
  | some r =>
      let σ :=
        if r.restoreTemplateId ≠ [] then
          σ.modifyTemplate r.restoreTemplateId fun t => {
            t with
            restorePending := false
            restoreReleased := false
            restoreInFlight := false
            targetGeneration := 0 }
        else σ
      .ok (r.activeProcessGroupId, σ.setRuntime rid {
        r with
        hasPendingRestore := false
        generationReadyFlag := false
        restoreTemplateId := []
        restoreTargetGeneration := 0 })

/-- `template_poll`. -/
def templatePoll (σ : RuntimeSupervisor) (tid token : Bytes) :
    Except String (RuntimeTemplateAction × RuntimeSupervisor) :=
  match σ.templates tid with
  | none => .error "unknown template"
  | some t =>
      match σ.runtimes t.runtimeId with
      | none => .error "unknown runtime"
      | some r =>
          if r.controlToken = [] || token ≠ r.controlToken then .error "invalid control token"
          else if t.dropped then
            .ok (.drop, { σ with templates := Function.update σ.templates tid none })
          else if t.restorePending && t.restoreReleased && !t.restoreInFlight then
            .ok (.restore t.targetGeneration, σ.setTemplate tid { t with restoreInFlight := true })
          else .ok (.wait, σ)

/-- `generation_ready`. -/
def generationReady (σ : RuntimeSupervisor) (rid token : Bytes) (pid pgid : Int)
    (generation : UInt64) : Except String RuntimeSupervisor :=
  match σ.runtimes rid with
  | none => .error "unknown runtime"
  | some r =>
      -- an empty token is valid for no one
      if r.controlToken = [] || token ≠ r.controlToken then .error "invalid control token"
      else if !r.hasPendingRestore || r.restoreTargetGeneration ≠ generation then
        .error "restore aborted or stale"
      else
        let σ :=
          if r.restoreTemplateId ≠ [] then
            σ.modifyTemplate r.restoreTemplateId fun t => {
              t with
              restorePending := false
              restoreReleased := false
              restoreInFlight := false }
          else σ
        .ok (σ.setRuntime rid {
          r with
          -- the old group is retired only after the new one has reported
          retirePgid := r.activeProcessGroupId
          rootPid := pid
          activeProcessGroupId := pgid
          generation := generation
          generationReadyFlag := true
          hasPendingRestore := false
          restoreTemplateId := [] })

/-- `retire_pending_generation` up to the signal: the process group that is terminated then, if
positive. -/
def retirePendingGeneration (σ : RuntimeSupervisor) (rid : Bytes) :
    Except String (Int × RuntimeSupervisor) :=
  match σ.runtimes rid with
  | none => .error "unknown runtime"
  | some r => .ok (r.retirePgid, σ.setRuntime rid { r with retirePgid := 0 })

/-- `drop_template`. -/
def dropTemplate (σ : RuntimeSupervisor) (tid : Bytes) : Except String RuntimeSupervisor :=
  match σ.templates tid with
  | none => .error "unknown template"
  | some t =>
      match σ.runtimes t.runtimeId with
      | none => .ok (σ.setTemplate tid { t with dropped := true })
      | some r =>
          if r.hasPendingRestore && r.restoreTemplateId = tid then
            .error "template restore in progress"
          else
            .ok ((σ.setTemplate tid { t with dropped := true }).setRuntime t.runtimeId {
              r with
              templateIds := r.templateIds.filter (· ≠ tid)
              pendingTemplateId := if r.pendingTemplateId = tid then [] else r.pendingTemplateId })

/-! ## What the waiting threads look at -/

/-- The condition `wait_for_boundary` waits for. -/
def boundaryObserved (σ : RuntimeSupervisor) (rid : Bytes) : Bool :=
  match σ.runtimes rid with
  | none => false
  | some r => r.boundaryObserved

/-- The condition `wait_for_template_ready` waits for. -/
def pendingTemplateReady (σ : RuntimeSupervisor) (rid : Bytes) : Bool :=
  match σ.runtimes rid with
  | none => false
  | some r =>
      r.pendingTemplateId ≠ [] &&
        match σ.templates r.pendingTemplateId with
        | none => false
        | some t => t.ready

/-- The end of `wait_boundary_action`, after an action or a timeout: the record is consumed or
reaped. -/
def endBoundaryWait (σ : RuntimeSupervisor) (bid : Bytes) :
    Except String RuntimeBoundaryAction × RuntimeSupervisor :=
  match σ.boundaries bid with
  | none => (.error "unknown boundary", σ)
  | some b =>
      let σ := { σ with boundaries := Function.update σ.boundaries bid none }
      if b.actionSet then (.ok b.action, σ) else (.error "snapshot timeout", σ)

end RuntimeSupervisor
end ContextFS
