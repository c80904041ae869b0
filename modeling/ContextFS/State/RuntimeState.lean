import ContextFS.State.AgentState

/-!
# Union runtime states

The record of a runtime snapshot.  Its references are free text: an id that is not a hash is
kept as it is, and the commit is read by the lenient hexadecimal reader.
-/

namespace ContextFS

open ObjectStore

/-- `ResourceWarning`. -/
structure ResourceWarning where
  kind : Bytes
  description : Bytes
  blocker : Bool

/-- `UnionRuntimeState`. -/
structure UnionRuntimeState where
  recordVersion : UInt32 := 1
  unionStateId : Bytes := []
  parentUnionStateId : Bytes := []
  branch : Bytes := ascii "main"
  fsCommit : Hash := zeroHash
  agentStateId : Bytes := []
  runtimeId : Bytes := []
  runtimeGeneration : UInt64 := 0
  templateId : Bytes := []
  templateKind : Bytes := ascii "live_fork"
  boundaryKind : Bytes := []
  commandRef : Bytes := []
  resourceManifestRef : Bytes := []
  timestampNs : UInt64 := 0
  warnings : List ResourceWarning := []

/-- `assign_warning`: kind, flag and description between bars. -/
def assignWarning (state : UnionRuntimeState) (value : Bytes) : Except String UnionRuntimeState :=
  if !value.contains 124 then .error "warning line missing field separators"
  else
    let rest := (value.dropWhile (· != 124)).drop 1
    if !rest.contains 124 then .error "warning line missing description separator"
    else do
      let kind ← percentDecode (value.takeWhile (· != 124))
      let flag := rest.takeWhile (· != 124)
      if flag ≠ [49] ∧ flag ≠ [48] then .error "warning blocker flag must be 0 or 1"
      else
        let description ← percentDecode ((rest.dropWhile (· != 124)).drop 1)
        .ok { state with warnings := state.warnings ++ [⟨kind, description, flag = [49]⟩] }

/-- `assign_field`; an unknown key is ignored. -/
def UnionRuntimeState.assignField (state : UnionRuntimeState) (key value : Bytes) :
    Except String UnionRuntimeState :=
  if key = ascii "record_version" then
    (parseU32 value).map fun v => { state with recordVersion := v }
  else if key = ascii "parent_union_state_id" then
    (percentDecode value).map fun v => { state with parentUnionStateId := v }
  else if key = ascii "branch" then
    (percentDecode value).map fun v => { state with branch := v }
  else if key = ascii "fs_commit" then
    match hexToHash value with
    | none => .error "invalid fs_commit hash"
    | some h => .ok { state with fsCommit := h }
  else if key = ascii "agent_state_id" then
    (percentDecode value).map fun v => { state with agentStateId := v }
  else if key = ascii "runtime_id" then
    (percentDecode value).map fun v => { state with runtimeId := v }
  else if key = ascii "runtime_generation" then
    (parseU64 value).map fun v => { state with runtimeGeneration := v }
  else if key = ascii "template_id" then
    (percentDecode value).map fun v => { state with templateId := v }
  else if key = ascii "template_kind" then
    (percentDecode value).map fun v => { state with templateKind := v }
  else if key = ascii "boundary_kind" then
    (percentDecode value).map fun v => { state with boundaryKind := v }
  else if key = ascii "command_ref" then
    (percentDecode value).map fun v => { state with commandRef := v }
  else if key = ascii "resource_manifest_ref" then
    (percentDecode value).map fun v => { state with resourceManifestRef := v }
  else if key = ascii "timestamp_ns" then
    (parseU64 value).map fun v => { state with timestampNs := v }
  else if key = ascii "warning" then assignWarning state value
  else .ok state

/-- `deserialize_union_runtime_state`. -/
def deserializeUnionRuntimeState (body : Bytes) : Except String UnionRuntimeState :=
  readTextRecord "union runtime state" (ascii "agentvfs.union_runtime_state.v1\n")
    UnionRuntimeState.assignField {} body

/-- `read_union_runtime_state`. -/
def readUnionRuntimeState (s : ObjectStore) (id : Hash) : Except String UnionRuntimeState :=
  match s.readBlob id with
  | none => .error (readBlobError s)
  | some body =>
      (deserializeUnionRuntimeState body).map fun u => { u with unionStateId := hashToHex id }

theorem readUnionRuntimeState_of_extends {s s' : ObjectStore} (he : Extends s s') {id : Hash}
    {us : UnionRuntimeState} (hr : readUnionRuntimeState s id = .ok us) :
    readUnionRuntimeState s' id = .ok us := by
  unfold readUnionRuntimeState at hr ⊢
  cases hb : s.readBlob id with
  | none =>
      rw [hb] at hr
      cases hr
  | some body =>
      rw [hb] at hr
      rw [he.readBlob hb]
      exact hr

end ContextFS
