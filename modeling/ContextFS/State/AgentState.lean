import ContextFS.State.TextRecord
import ContextFS.Store.ObjectStore

/-!
# Agent-state records

A record is a blob whose text names the records it builds on, the commit it was taken at and
the objects it needs.  Its own id is the hash of the blob and is not part of the text.
-/

namespace ContextFS

open ObjectStore

inductive AgentStateKind
  | session
  | execution
  | toolCall
  | runtimeResource
  | externalHandle
  | fsLink
  | runtimeSnapshot
deriving DecidableEq

/-- `agent_state_kind_label`. -/
def AgentStateKind.label : AgentStateKind → Bytes
  | .session => ascii "session"
  | .execution => ascii "execution"
  | .toolCall => ascii "tool_call"
  | .runtimeResource => ascii "runtime_resource"
  | .externalHandle => ascii "external_handle"
  | .fsLink => ascii "fs_link"
  | .runtimeSnapshot => ascii "runtime_snapshot"

/-- `parse_agent_state_kind`. -/
def parseAgentStateKind (text : Bytes) : Option AgentStateKind :=
  [.session, .execution, .toolCall, .runtimeResource, .externalHandle, .fsLink,
    .runtimeSnapshot].find? fun (k : AgentStateKind) => text = k.label

/-- `AgentStateRecord`. -/
structure AgentStateRecord where
  recordVersion : UInt32 := 1
  stateId : Bytes := []
  parentStateId : Bytes := []
  snapshotBaseStateId : Bytes := []
  branch : Bytes := ascii "main"
  fsCommit : Hash := zeroHash
  unionStateId : Bytes := []
  runtimeId : Bytes := []
  agentId : Bytes := []
  sequence : UInt64 := 0
  kind : AgentStateKind := .session
  payloadSchema : Bytes := []
  payloadInline : Bytes := []
  payloadRef : Bytes := []
  dependencyHashes : List Hash := []
  timestampNs : UInt64 := 0
  boundary : Bool := false

/-- `is_valid_state_id`: unset, or a full hash. -/
def isValidStateId (s : Bytes) : Bool := s.isEmpty || isHexHash s

/-- `assign_state_id_field`: the decoded value, if it is a state id. -/
def stateIdField (value : Bytes) (fieldName : String) : Except String Bytes :=
  match percentDecode value with
  | .error err => .error err
  | .ok decoded =>
      if isValidStateId decoded then .ok decoded
      else .error ("invalid " ++ fieldName ++ " hash")

/-- `append_dependency_hash`. -/
def appendDependencyHash (state : AgentStateRecord) (value : Bytes) :
    Except String AgentStateRecord :=
  match hexToHashStrict value with
  | none => .error "invalid dependency_hash"
  | some dependency =>
      if dependency = zeroHash then .error "invalid dependency_hash"
      else .ok { state with dependencyHashes := state.dependencyHashes ++ [dependency] }

/-- `assign_field`; an unknown key is ignored. -/
def AgentStateRecord.assignField (state : AgentStateRecord) (key value : Bytes) :
    Except String AgentStateRecord :=
  if key = ascii "record_version" then
    (parseU32 value).map fun v => { state with recordVersion := v }
  else if key = ascii "parent_state_id" then
    (stateIdField value "parent_state_id").map fun v => { state with parentStateId := v }
  else if key = ascii "snapshot_base_state_id" then
    (stateIdField value "snapshot_base_state_id").map fun v =>
      { state with snapshotBaseStateId := v }
  else if key = ascii "branch" then
    (percentDecode value).map fun v => { state with branch := v }
  else if key = ascii "fs_commit" then
    match hexToHashStrict value with
    | none => .error "invalid fs_commit hash"
    | some h => .ok { state with fsCommit := h }
  else if key = ascii "union_state_id" then
    (stateIdField value "union_state_id").map fun v => { state with unionStateId := v }
  else if key = ascii "runtime_id" then
    (percentDecode value).map fun v => { state with runtimeId := v }
  else if key = ascii "agent_id" then
    (percentDecode value).map fun v => { state with agentId := v }
  else if key = ascii "sequence" then
    (parseU64 value).map fun v => { state with sequence := v }
  else if key = ascii "kind" then
    match parseAgentStateKind value with
    | none => .error "invalid agent state kind"
    | some k => .ok { state with kind := k }
  else if key = ascii "payload_schema" then
    (percentDecode value).map fun v => { state with payloadSchema := v }
  else if key = ascii "payload_inline" then
    (percentDecode value).map fun v => { state with payloadInline := v }
  else if key = ascii "payload_ref" then
    (stateIdField value "payload_ref").map fun v => { state with payloadRef := v }
  else if key = ascii "dependency_hash" then appendDependencyHash state value
  else if key = ascii "timestamp_ns" then
    (parseU64 value).map fun v => { state with timestampNs := v }
  else if key = ascii "boundary" then
    if value = [49] then .ok { state with boundary := true }
    else if value = [48] then .ok { state with boundary := false }
    else .error "boundary flag must be 0 or 1"
  -- a key of a later version
  else .ok state

/-- `deserialize_agent_state_record`. -/
def deserializeAgentStateRecord (body : Bytes) : Except String AgentStateRecord :=
  readTextRecord "agent state" (ascii "agentvfs.agent_state.v1\n") AgentStateRecord.assignField {} body

/-- The error of a reader whose blob cannot be read. -/
def readBlobError (s : ObjectStore) : String :=
  if s.lastError = "" then "object store read_blob failed" else s.lastError

/-- `read_agent_state_record`. -/
def readAgentStateRecord (s : ObjectStore) (id : Hash) : Except String AgentStateRecord :=
  match s.readBlob id with
  | none => .error (readBlobError s)
  | some body =>
      (deserializeAgentStateRecord body).map fun r => { r with stateId := hashToHex id }

/-- What was read once is read the same while objects are only added. -/
theorem readAgentStateRecord_of_extends {s s' : ObjectStore} (he : Extends s s') {id : Hash}
    {rec : AgentStateRecord} (hr : readAgentStateRecord s id = .ok rec) :
    readAgentStateRecord s' id = .ok rec := by
  unfold readAgentStateRecord at hr ⊢
  cases hb : s.readBlob id with
  | none =>
      rw [hb] at hr
      cases hr
  | some body =>
      rw [hb] at hr
      rw [he.readBlob hb]
      exact hr

end ContextFS
