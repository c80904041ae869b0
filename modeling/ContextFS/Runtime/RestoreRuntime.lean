import ContextFS.Runtime.Handlers

/-!
# `restore_runtime`

The thread of `runtime.restore`: the active process group is frozen, the branch is rolled back, the
parked template is released, and when its child has reported the old group is terminated.  Every
failure behind the freeze resumes the active group.
-/

namespace ContextFS

open Lib ControlProtocol

namespace Handler

/-- `abort_restore` with the signal behind it. -/
def abortRestore (rid : Bytes) : Handler Unit := do
  let aborted : Except String Int ← ask (.abortRestore rid)
  match aborted with
  | .error _ => pure ()
  | .ok frozen =>
      if 0 < frozen then do
        let _ ← ask (.signal .cont frozen)
        pure ()
      else pure ()

/-- `retire_pending_generation` with the signal behind it; a signal that fails is only logged. -/
def retirePendingGeneration (rid : Bytes) : Handler Unit := do
  let prior ← demand (Thread.query (Question.retire rid))
  if 0 < prior then do
    let _ ← ask (.signal .kill prior)
    pure ()
  else pure ()

/-- `branch_by_name_locked` and `rollback_locked`. -/
def rollBack (branch : Bytes) (commit : Hash) : Handler Unit := do
  let found ← ask (.branch branch)
  if !found then throw "unknown branch" else demand (Thread.query (Question.rollback branch commit))

/-- A thread that may fail, with what it comes to. -/
def attempt {α : Type} (p : Handler α) : Handler (Except String α) := liftM p.run

/-- Whether `recover_branch_tip` succeeds. -/
def recoverBranchTip (branch : Bytes) (recovery : Hash) : Handler Bool := do
  let recovered ← attempt (rollBack branch recovery)
  pure recovered.toBool

/-- An answer with `result.partial`. -/
def partialDocument (label error : String) : Document :=
  .object [(ascii "ok", .flag false), (ascii "partial", textOf label), (ascii "error", textOf error)]

/-- The way out when the template was not released or its child did not report: the branch goes back
to its tip and the active group goes on. -/
def recoverFrom (us : UnionRuntimeState) (recovery : Hash) (error shown : String) :
    Handler Document := do
  let recovered ← recoverBranchTip us.branch recovery
  abortRestore us.runtimeId
  if !recovered then pure (partialDocument "recovery_failed_runtime_resumed" shown)
  else throw error

/-- What is checked before anything is frozen: the union state and the tip of its branch. -/
def checkRestore (uid : Bytes) : Handler (UnionRuntimeState × Hash) := do
  let us : UnionRuntimeState ← demand (Thread.query (Question.unionState uid))
  let tmpl : Except String TemplateStatus ← ask (.templateStatus us.templateId)
  match tmpl with
  | .error _ => throw "unknown template"
  | .ok t =>
      if !t.alive then throw "template is not live"
      else do
        let found ← ask (.branch us.branch)
        if !found then throw "unknown branch"
        else do
          let recovery : Hash ← ask (.currentCommit us.branch)
          if recovery = zeroHash then throw "recovery commit not found"
          else do
            let readable ← ask (.readCommit recovery)
            if !readable then throw "failed to read recovery commit"
            else do
              let target ← ask (.readCommit us.fsCommit)
              if !target then throw "failed to read target commit" else pure (us, recovery)

/-- What `begin_restore` is called with. -/
def restoreIntent (us : UnionRuntimeState) : RuntimeRestoreIntent where
  runtimeId := us.runtimeId
  templateId := us.templateId
  targetGeneration := us.runtimeGeneration + 1

/-- The answer of a restore that succeeded. -/
def restoredDocument (us : UnionRuntimeState) : Handler Document := do
  let after : Except String TemplateStatus ← ask (.templateStatus us.templateId)
  let eligibility : RestoreEligibility :=
    match after with
    | .ok t => if t.alive then .liveRuntimeRestorable else .fsOnly
    | .error _ => .fsOnly
  pure (okDocument [
    ("template_id", .text us.templateId),
    ("target_generation", .number (us.runtimeGeneration + 1).toNat),
    ("fs_commit", .text (hashToHex us.fsCommit)),
    ("runtime_id", .text us.runtimeId),
    ("restore_eligibility", textOf (eligibilityText eligibility))])

/-- The restore from the release of the template on. -/
def releaseTemplate (us : UnionRuntimeState) (recovery : Hash) : Handler Document := do
  let published : Except String Unit ← ask (.publishRestore us.runtimeId)
  match published with
  | .error e => recoverFrom us recovery e e
  | .ok _ => do
      let ready : Except String Unit ← ask (.endGenerationWait us.runtimeId)
      match ready with
      -- the text of a timeout is not shown beside the label
      | .error e => recoverFrom us recovery e ""
      | .ok _ => do
          let retired ← attempt (retirePendingGeneration us.runtimeId)
          match retired with
          | .error e => do
              abortRestore us.runtimeId
              pure (partialDocument "retire_unknown_prior_frozen" e)
          | .ok _ => restoredDocument us

/-- `restore_runtime`. -/
def restoreRuntime (uid : Bytes) : Handler Document := do
  let (us, recovery) ← checkRestore uid
  demand (Thread.query (Question.beginRestore (restoreIntent us)))
  let rolledBack ← attempt (rollBack us.branch us.fsCommit)
  match rolledBack with
  | .error e => do
      abortRestore us.runtimeId
      throw e
  | .ok _ => releaseTemplate us recovery

/-- `runtime.restore`, with the publication lock around the restore. -/
def runtimeRestore (rest : Bytes) : Handler Document :=
  match extractStrChecked rest (ascii "union_state_id") with
  | .malformed => throw "invalid union_state_id"
  | .missing => throw "missing union_state_id"
  | .found uid =>
      if uid = [] then throw "missing union_state_id"
      else if !isHexHash uid then throw "invalid union_state_id"
      else do
        ask .lock
        let result ← attempt (restoreRuntime uid)
        ask .unlock
        ExceptT.mk (pure result)

end Handler
end ContextFS
