import ContextFS.Lib.Runs
import ContextFS.Runtime.Messages

/-!
# Snapshots of runtimes

`snapshot_runtime` step by step.  Between two steps any other thread can reach the supervisor.
What the steps meet outside of it (the branch, its checkpoint, the union state, the clock) is
part of the event: it may be anything.
-/

namespace ContextFS

open Lib

/-- `RuntimeSnapshotResult`. -/
structure RuntimeSnapshotResult where
  ok : Bool := false
  runtimeId : Bytes
  templateId : Bytes := []
  unionStateId : Bytes := []
  fsCommit : Hash := zeroHash
  generation : UInt64 := 0
  restoreEligibility : RestoreEligibility := .metadataOnly
  error : String := ""

/-- What is undone before `cancel_snapshot`. -/
inductive SnapshotUndo
  | dropTemplate (tid : Bytes)
  | failPublish (tid : Bytes) (message : String)

/-- Where `snapshot_runtime` is. -/
inductive SnapshotPc
  | start
  | validated (status : RuntimeStatus)
  | waitBoundary (status : RuntimeStatus)
  | checkpoint (status : RuntimeStatus) (bid : Bytes)
  | checkpointFailed (bid : Bytes) (error : String)
  | checkpointed (status : RuntimeStatus) (bid : Bytes) (commit : Hash)
  | waitTemplate (status : RuntimeStatus) (tid : Bytes) (commit : Hash)
  | writeUnion (status : RuntimeStatus) (tid : Bytes) (commit : Hash)
  | attach (status : RuntimeStatus) (tid : Bytes) (commit : Hash) (alive : Bool) (union : Bytes)
  | undo (u : SnapshotUndo) (result : RuntimeSnapshotResult)
  | cancel (result : RuntimeSnapshotResult)
  | returned (begun : Bool) (result : RuntimeSnapshotResult)

/-- What a step of `snapshot_runtime` meets. -/
inductive SnapshotOutcome
  /-- The support check, liveness and the lookup of the branch. -/
  | validate (unsupported : Option String) (alive : Int → Bool) (branchKnown : Bool)
  /-- The lookup of the branch and its checkpoint: the commit or an error text. -/
  | checkpoint (r : Except String Hash)
  /-- The end of a wait. -/
  | waited
  | timeout
  /-- The liveness of the template and the durable union state: its id or an error text. -/
  | union (alive : Int → Bool) (r : Except String Bytes)
  | go

namespace RuntimeSupervisor

/-- A failed result. -/
def snapshotFailed (rid : Bytes) (error : String) : RuntimeSnapshotResult :=
  { runtimeId := rid, error := error }

/-- One step of `snapshot_runtime`. -/
def snapshotStep (σ : RuntimeSupervisor) (request : RuntimeSnapshotRequest) :
    SnapshotPc → SnapshotOutcome → Option (RuntimeSupervisor × SnapshotPc)
  | .start, .validate unsupported alive branchKnown =>
      let failed := fun error => some (σ, .returned false (snapshotFailed request.runtimeId error))
      match unsupported with
      | some error => failed error
      | none =>
          match σ.status alive request.runtimeId with
          | .error error => failed error
          | .ok status =>
              if !status.cooperative then failed "runtime is not cooperative"
              else if !branchKnown then failed "unknown branch"
              else some (σ, .validated status)
  | .validated status, .go =>
      match σ.beginSnapshot request with
      | .error error => some (σ, .returned false (snapshotFailed request.runtimeId error))
      | .ok (_, σ') => some (σ', .waitBoundary status)
  | .waitBoundary status, .waited =>
      match σ.runtimes request.runtimeId with
      | none => none
      | some r =>
          -- the wait ends when the boundary has been observed, or times out
          if r.boundaryObserved then some (σ, .checkpoint status r.pendingBoundaryId) else none
  | .waitBoundary _, .timeout =>
      if σ.boundaryObserved request.runtimeId then none
      else some (σ, .cancel (snapshotFailed request.runtimeId "snapshot timeout"))
  | .checkpoint status bid, .checkpoint r =>
      match r with
      | .error error => some (σ, .checkpointFailed bid error)
      | .ok commit => some (σ, .checkpointed status bid commit)
  | .checkpointFailed bid error, .go =>
      let result := snapshotFailed request.runtimeId error
      match σ.releaseBoundaryWithError bid error with
      -- this exit does not cancel: the pending snapshot stays
      | .error _ => some (σ, .returned true result)
      | .ok (_, σ') => some (σ', .returned true result)
  | .checkpointed status bid commit, .go =>
      match σ.releaseBoundaryForSnapshot bid with
      | .error error => some (σ, .cancel (snapshotFailed request.runtimeId error))
      | .ok (action, σ') => some (σ', .waitTemplate status action.templateId commit)
  | .waitTemplate status tid commit, .waited =>
      if σ.pendingTemplateReady request.runtimeId then some (σ, .writeUnion status tid commit)
      else none
  | .waitTemplate _ tid _, .timeout =>
      if σ.pendingTemplateReady request.runtimeId then none
      else
        some (σ, .undo (.dropTemplate tid)
          (snapshotFailed request.runtimeId "snapshot timeout"))
  | .writeUnion status tid commit, .union alive r =>
      match r with
      | .error message =>
          some (σ, .undo (.failPublish tid message) (snapshotFailed request.runtimeId message))
      | .ok union =>
          some (σ, .attach status tid commit
            -- whether the template lives is asked before the state is attached
            (match σ.templateStatus alive tid with
              | .ok st => st.alive
              | .error _ => false) union)
  | .attach status tid commit alive union, .go =>
      match σ.attachUnionState tid union commit with
      | .error error =>
          some (σ, .undo (.failPublish tid error) (snapshotFailed request.runtimeId error))
      | .ok σ' =>
          some (σ', .cancel {
            ok := true
            runtimeId := request.runtimeId
            unionStateId := union
            fsCommit := commit
            templateId := tid
            generation := status.generation
            restoreEligibility := if alive then .liveRuntimeRestorable else .fsOnly })
  | .undo (.dropTemplate tid) result, .go => some (σ.after (σ.dropTemplate tid), .cancel result)
  | .undo (.failPublish tid message) result, .go =>
      some (σ.after (σ.failTemplatePublish tid message), .cancel result)
  | .cancel result, .go =>
      some (σ.after (σ.cancelSnapshot request.runtimeId), .returned true result)
  | _, _ => none

end RuntimeSupervisor

/-- The supervisor with the snapshot that holds the publication gate. -/
structure SnapshotSystem where
  supervisor : RuntimeSupervisor
  request : RuntimeSnapshotRequest
  pc : SnapshotPc

inductive SnapshotEvent
  | message (m : RuntimeMessage)
  | call (request : RuntimeSnapshotRequest)
  | step (o : SnapshotOutcome)
  | beginRestore (freeze : Int → Option String) (intent : RuntimeRestoreIntent)
  | publishRestore (rid : Bytes)
  | abortRestore (rid : Bytes)
  | retire (rid : Bytes)

namespace SnapshotSystem

/-- No snapshot holds the gate. -/
def gateFree (σ : SnapshotSystem) : Bool :=
  match σ.pc with
  | .returned _ _ => true
  | _ => false

/-- `σ` with another supervisor. -/
def withSupervisor (σ : SnapshotSystem) (s : RuntimeSupervisor) : SnapshotSystem :=
  { σ with supervisor := s }

/-- What an event leads to.  Restores hold the same gate. -/
def next (σ : SnapshotSystem) : SnapshotEvent → Option SnapshotSystem
  | .message m => some (σ.withSupervisor (σ.supervisor.deliver m))
  | .call request => if σ.gateFree then some { σ with request := request, pc := .start } else none
  | .step o =>
      (σ.supervisor.snapshotStep σ.request σ.pc o).map fun r => {
        σ with
        supervisor := r.1
        pc := r.2 }
  | .beginRestore freeze intent =>
      if σ.gateFree then
        some (σ.withSupervisor (σ.supervisor.after (σ.supervisor.beginRestore freeze intent)))
      else none
  | .publishRestore rid =>
      if σ.gateFree then
        some (σ.withSupervisor (σ.supervisor.after (σ.supervisor.publishRestore rid)))
      else none
  | .abortRestore rid =>
      if σ.gateFree then
        some (σ.withSupervisor
          (σ.supervisor.after ((σ.supervisor.abortRestore rid).map (·.2))))
      else none
  | .retire rid =>
      if σ.gateFree then
        some (σ.withSupervisor
          (σ.supervisor.after ((σ.supervisor.retirePendingGeneration rid).map (·.2))))
      else none

def Step (σ : SnapshotSystem) (ev : SnapshotEvent) (σ' : SnapshotSystem) : Prop :=
  σ.next ev = some σ'

/-- A supervisor that has just started; no snapshot has been asked for. -/
def Init (σ : SnapshotSystem) : Prop :=
  σ.supervisor = {} ∧ ∃ result, σ.pc = .returned false result

/-- The runtime has a pending snapshot. -/
def Pending (σ : SnapshotSystem) (rid : Bytes) : Prop :=
  ∃ r, σ.supervisor.runtimes rid = some r ∧ r.hasPendingSnapshot = true

end SnapshotSystem

end ContextFS
