import ContextFS.Control.Documents
import ContextFS.Control.NumberFields
import ContextFS.Runtime.Peers

/-!
# Runtime messages

The `runtime.*` commands of `dispatch`, each as the thread that serves it: the members of the
request, the checks of the peer, the calls to the supervisor and the answer.  `restore_runtime`
is the thread of `runtime.restore`.
-/

namespace ContextFS

open Lib ControlProtocol

/-- A thread that serves a request. -/
abbrev Handler := Attempt Question AnswerTo

namespace Handler

/-- A question with a plain answer. -/
def ask (e : Question) : Handler (AnswerTo e) := liftM (Thread.query e : Thread Question AnswerTo _)

/-- A question whose answer may be an error, which ends the thread. -/
def demand {α : Type} (p : Thread Question AnswerTo (Except String α)) : Handler α := ExceptT.mk p

/-! ## The checks -/

/-- `peer_available_or_trusted`. -/
def peerAvailableOrTrusted (peer : PeerCredentials) : Handler Unit :=
  if peer.trusted then pure ()
  else if peer.available && decide (0 < peer.pid) then pure ()
  else throw "peer credentials unavailable"

/-- `require_peer_pid`. -/
def requirePeerPid (peer : PeerCredentials) (claimedPid : Int) : Handler Unit :=
  if peer.trusted then pure ()
  else do
    peerAvailableOrTrusted peer
    if peer.pid ≠ claimedPid then throw "peer pid mismatch" else pure ()

/-- `require_process_group`. -/
def requireProcessGroup (pid claimedPgid : Int) : Handler Unit :=
  if pid ≤ 0 ∨ claimedPgid ≤ 0 then throw "invalid process group"
  else do
    let actual ← ask (.group pid)
    match actual with
    | none => throw "runtime process not live"
    | some actualPgid =>
        if actualPgid ≠ claimedPgid then throw "process group mismatch" else pure ()

/-- The end of `require_launcher_peer` and `require_generation_peer`: who the parent has to be,
and the texts when it cannot be found or is another. -/
def requireParent (pid expected : Int) (unverifiable mismatch : String) : Handler Unit := do
  let parent ← ask (.parent pid)
  match parent with
  | none => throw unverifiable
  | some ppid => if ppid ≠ expected then throw mismatch else pure ()

/-- `require_launcher_peer`. -/
def requireLauncherPeer (peer : PeerCredentials) (rootPid processGroupId : Int) : Handler Unit := do
  requireProcessGroup rootPid processGroupId
  if peer.trusted then pure ()
  else do
    peerAvailableOrTrusted peer
    requireParent rootPid peer.pid "runtime parent not verifiable" "runtime launcher mismatch"

/-- `require_runtime_peer`. -/
def requireRuntimePeer (peer : PeerCredentials) (pid : Int) (st : RuntimeStatus)
    (generation : UInt64) : Handler Unit := do
  requirePeerPid peer pid
  if peer.trusted then pure ()
  else if st.rootPid ≠ pid then throw "runtime peer mismatch"
  else if st.generation ≠ generation then throw "runtime generation mismatch"
  else do
    let actual ← ask (.group pid)
    match actual with
    | none => throw "runtime process not live"
    | some actualPgid =>
        if actualPgid ≠ st.activeProcessGroupId then throw "process group mismatch" else pure ()

/-- `require_template_peer`. -/
def requireTemplatePeer (peer : PeerCredentials) (templatePid templatePgid : Int) : Handler Unit := do
  requirePeerPid peer templatePid
  if peer.trusted then pure () else requireProcessGroup templatePid templatePgid

/-- `require_generation_peer`. -/
def requireGenerationPeer (peer : PeerCredentials) (pid pgid : Int)
    (restoreTemplate : TemplateStatus) : Handler Unit := do
  requirePeerPid peer pid
  requireProcessGroup pid pgid
  if peer.trusted then pure ()
  else
    requireParent pid restoreTemplate.templatePid "generation parent not verifiable"
      "generation template mismatch"

/-! ## The commands -/

/-- A string member, or its default when it is empty. -/
def stringOr (rest key dflt : Bytes) : Bytes :=
  if extractStr rest key = [] then dflt else extractStr rest key

/-- A text of the source. -/
def textOf (s : String) : Document := .text (ascii s)

/-- `{"ok":true,…}`. -/
def okDocument (members : List (String × Document)) : Document :=
  .object ((ascii "ok", .flag true) :: members.map fun m => (ascii m.1, m.2))

/-- `restore_eligibility_to_string`. -/
def eligibilityText : RestoreEligibility → String
  | .liveRuntimeRestorable => "live_runtime_restorable"
  | .fsOnly => "fs_only"
  | .metadataOnly => "metadata_only"

/-- What `runtime.create` writes. -/
def createdDocument (rid : Bytes) : Document :=
  okDocument [("runtime_id", .text rid), ("generation", .number 1)]

/-- `runtime.create`. -/
def runtimeCreate (peer : PeerCredentials) (rest : Bytes) : Handler Document := do
  let request : RuntimeCreateRequest := {
    runtimeId := extractStr rest (ascii "runtime_id")
    branch := stringOr rest (ascii "branch") (ascii "main")
    rootPid := extractInt rest (ascii "root_pid") (-1)
    processGroupId := extractInt rest (ascii "process_group_id") (-1)
    commandRef := extractStr rest (ascii "command_ref")
    cwd := extractStr rest (ascii "cwd")
    cooperative := extractBool rest (ascii "cooperative") false
    controlToken := extractStr rest (ascii "control_token") }
  if request.runtimeId = [] then throw "missing runtime_id"
  else do
    let known ← ask (.branch request.branch)
    if !known then throw "unknown branch"
    else if request.controlToken = [] then throw "missing control token"
    else do
      let live ← ask (.live request.rootPid)
      if !live then throw "runtime process not live"
      else if request.processGroupId ≤ 0 then throw "invalid process group"
      else do
        requireLauncherPeer peer request.rootPid request.processGroupId
        demand (Thread.query (Question.register request))
        pure (createdDocument request.runtimeId)

/-- `runtime.status`. -/
def runtimeStatus (rest : Bytes) : Handler Document := do
  let rid := extractStr rest (ascii "runtime_id")
  if rid = [] then throw "missing runtime_id"
  else do
    let st : RuntimeStatus ← demand (Thread.query (Question.status rid))
    pure (okDocument [
      ("runtime_id", .text st.runtimeId),
      ("branch", .text st.branch),
      ("root_pid", .number st.rootPid),
      ("active_process_group_id", .number st.activeProcessGroupId),
      ("generation", .number st.generation.toNat),
      ("cooperative", .flag st.cooperative),
      ("command_ref", .text st.commandRef),
      ("restore_eligibility", textOf (eligibilityText st.restoreEligibility)),
      ("templates", .array (st.templates.map fun t => .object [
        (ascii "template_id", .text t.templateId),
        (ascii "alive", .flag t.alive)]))])

/-- `runtime.drop`. -/
def runtimeDrop (rest : Bytes) : Handler Document := do
  let tid := extractStr rest (ascii "template_id")
  if tid = [] then throw "missing template_id"
  else do
    demand (Thread.query (Question.drop tid))
    pure (okDocument [])

/-- `runtime.boundary`. -/
def runtimeBoundary (peer : PeerCredentials) (rest : Bytes) : Handler Document := do
  let rid := extractStr rest (ascii "runtime_id")
  let token := extractStr rest (ascii "control_token")
  let pid := extractInt rest (ascii "pid") (-1)
  let generation := UInt64.ofInt (extractInt rest (ascii "generation") 0)
  let kind := stringOr rest (ascii "boundary_kind") (ascii "manual")
  if rid = [] then throw "missing runtime_id"
  else do
    let st : RuntimeStatus ← demand (Thread.query (Question.status rid))
    requireRuntimePeer peer pid st generation
    let observed : Except String Bytes ← ask (.observe rid token pid generation kind)
    match observed with
    | .error e =>
        -- without a pending snapshot the runtime goes on
        if e = "no pending snapshot" then pure (okDocument [("action", textOf "continue")])
        else throw e
    | .ok bid => do
        let action : RuntimeBoundaryAction ← demand (Thread.query (Question.endBoundaryWait bid))
        if action.action = .error then throw action.error
        else
          pure (okDocument [
            ("action", textOf "snapshot"),
            ("operation_id", .text action.operationId),
            ("template_id", .text action.templateId)])

/-- `runtime.template.ready`. -/
def runtimeTemplateReady (peer : PeerCredentials) (rest : Bytes) : Handler Document := do
  let rid := extractStr rest (ascii "runtime_id")
  let tid := extractStr rest (ascii "template_id")
  let token := extractStr rest (ascii "control_token")
  let tpid := extractInt rest (ascii "template_pid") (-1)
  let tpgid := extractInt rest (ascii "template_process_group_id") (-1)
  let generation := UInt64.ofInt (extractInt rest (ascii "generation") 0)
  if tid = [] then throw "missing template_id"
  else do
    requireTemplatePeer peer tpid tpgid
    demand (Thread.query (Question.templateReady rid token tid tpid tpgid generation))
    demand (Thread.query (Question.endPublishWait tid))
    pure (okDocument [])

/-- `runtime.template.poll`. -/
def runtimeTemplatePoll (peer : PeerCredentials) (rest : Bytes) : Handler RuntimeTemplateAction := do
  let tid := extractStr rest (ascii "template_id")
  let token := extractStr rest (ascii "control_token")
  if tid = [] then throw "missing template_id"
  else do
    let tmpl : TemplateStatus ← demand (Thread.query (Question.templateStatus tid))
    requirePeerPid peer tmpl.templatePid
    demand (Thread.query (Question.poll tid token))

/-- What `runtime.template.poll` writes. -/
def pollDocument : RuntimeTemplateAction → Document
  | .wait => okDocument [("action", textOf "wait")]
  | .restore target =>
      okDocument [("action", textOf "restore"), ("target_generation", .number target.toNat)]
  | .drop => okDocument [("action", textOf "drop")]

/-- `runtime.generation.ready`. -/
def runtimeGenerationReady (peer : PeerCredentials) (rest : Bytes) : Handler Document := do
  let rid := extractStr rest (ascii "runtime_id")
  let token := extractStr rest (ascii "control_token")
  let pid := extractInt rest (ascii "pid") (-1)
  let apgid := extractInt rest (ascii "active_process_group_id") (-1)
  let generation := UInt64.ofInt (extractInt rest (ascii "generation") 0)
  if rid = [] then throw "missing runtime_id"
  else do
    let restoreTemplate : TemplateStatus ← demand (Thread.query (Question.restoreTemplate rid))
    if !restoreTemplate.alive then throw "no live restore template"
    else do
      requireGenerationPeer peer pid apgid restoreTemplate
      demand (Thread.query (Question.generationReady rid token pid apgid generation))
      pure (okDocument [])

end Handler
end ContextFS
