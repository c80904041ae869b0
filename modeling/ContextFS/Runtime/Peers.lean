import ContextFS.Lib.Threads
import ContextFS.Runtime.ProcStat
import ContextFS.Runtime.DroppedTemplates
import ContextFS.State.RuntimeState

/-!
# Peers of the control socket

Whoever can connect can send runtime messages, so the daemon asks the kernel who is at the other
end of the socket and compares it with the process the message is about.  The kernel is asked
outside the supervisor's lock, and processes come and go between any two answers.
-/

namespace ContextFS

open Lib

/-! ## The kernel -/

/-- What the kernel answers.  `reachable` is whether `kill(pid, 0)` finds anything. -/
structure Kernel where
  process : Int → Option Process
  pids : ∀ {pid p}, process pid = some p → 1 ≤ pid ∧ pid ≤ pidMax
  reachable : Int → Bool
  ownGroup : Int
  ownGroup_range : 0 ≤ ownGroup ∧ ownGroup ≤ pidMax

/-- `(pid_t)pid`. -/
def toPidT (pid : Int) : Int := pid.bmod (2 ^ 32)

namespace Kernel

variable (k : Kernel)

/-- `getpgid`. -/
def getpgid (pid : Int) : Option Int :=
  if pid = 0 then some k.ownGroup else (k.process pid).map (·.group)

/-- `process_live`, and `process_alive` of the process controller. -/
def processLive (pid : Int) : Bool := decide (0 < pid) && k.reachable (toPidT pid)

/-- `process_group_for_pid`. -/
def processGroupForPid (pid : Int) : Option Int := if pid ≤ 0 then none else k.getpgid (toPidT pid)

/-- `parent_for_pid`. -/
def parentForPid (pid : Int) : Option Int :=
  if pid ≤ 0 then none else (k.process pid).bind fun p => parentFromStat (p.statText pid)

end Kernel

/-- `PeerCredentials`.  The socket gives a `pid_t`. -/
structure PeerCredentials where
  trusted : Bool := false
  available : Bool := false
  pid : Int := -1
  pid_range : -pidMax - 1 ≤ pid ∧ pid ≤ pidMax := by decide

/-! ## The world -/

/-- What can change at any time. -/
structure Instant where
  kernel : Kernel
  supervisor : RuntimeSupervisor := {}

/-- The signals the supervisor sends. -/
inductive SignalKind
  | stop
  | cont
  | kill
deriving DecidableEq

/-- Everything up to now: `past` and `signals` have the newest first, and a signal comes with the
first argument of `kill`.  `publishing` is whether `gc_publish_mu_` is held. -/
structure World where
  now : Instant
  past : List Instant := []
  signals : List (SignalKind × Int) := []
  publishing : Bool := false

namespace World

variable (w : World)

def moments : List Instant := w.now :: w.past

/-- Some time or other. -/
def Once (P : Instant → Prop) : Prop := ∃ m ∈ w.moments, P m

def move (m : Instant) : World :=
  { w with
    now := m
    past := w.moments }

/-- The world with another state of the supervisor. -/
def put (σ : RuntimeSupervisor) : World := w.move { w.now with supervisor := σ }

/-- Processes come, go and change. -/
def turn (k : Kernel) : World := w.move { w.now with kernel := k }

def send (kind : SignalKind) (pgid : Int) : World :=
  { w with signals := (kind, -toPidT pgid) :: w.signals }

end World

/-! ## What the threads ask -/

/-- `kill`, `getpgid`, the branch table and the store; calls to the supervisor; signals outside
its lock; and the publication lock. -/
inductive Question
  | live (pid : Int)
  | group (pid : Int)
  | parent (pid : Int)
  | branch (name : Bytes)
  | unionState (id : Bytes)
  | currentCommit (branch : Bytes)
  | readCommit (commit : Hash)
  | rollback (branch : Bytes) (commit : Hash)
  | register (request : RuntimeCreateRequest)
  | status (rid : Bytes)
  | observe (rid token : Bytes) (pid : Int) (generation : UInt64) (kind : Bytes)
  | endBoundaryWait (bid : Bytes)
  | templateReady (rid token tid : Bytes) (pid pgid : Int) (generation : UInt64)
  | endPublishWait (tid : Bytes)
  | templateStatus (tid : Bytes)
  | poll (tid token : Bytes)
  | restoreTemplate (rid : Bytes)
  | generationReady (rid token : Bytes) (pid pgid : Int) (generation : UInt64)
  | drop (tid : Bytes)
  | snapshot (op : RuntimeSupervisor.Operation)
  | beginRestore (intent : RuntimeRestoreIntent)
  | publishRestore (rid : Bytes)
  | endGenerationWait (rid : Bytes)
  | abortRestore (rid : Bytes)
  | retire (rid : Bytes)
  | signal (kind : SignalKind) (pgid : Int)
  | lock
  | unlock

/-- What is answered. -/
def AnswerTo : Question → Type
  | .live _ | .branch _ | .readCommit _ => Bool
  | .group _ | .parent _ => Option Int
  | .unionState _ => Except String UnionRuntimeState
  | .currentCommit _ => Hash
  | .rollback _ _ => Except String Unit
  | .register _ | .templateReady .. | .endPublishWait _ | .generationReady .. | .drop _
  | .beginRestore _ | .publishRestore _ | .endGenerationWait _ => Except String Unit
  | .status _ => Except String RuntimeStatus
  | .observe .. => Except String Bytes
  | .endBoundaryWait _ => Except String RuntimeBoundaryAction
  | .templateStatus _ | .restoreTemplate _ => Except String TemplateStatus
  | .poll .. => Except String RuntimeTemplateAction
  | .abortRestore _ | .retire _ => Except String Int
  | .signal .. => Option String
  | .snapshot _ | .lock | .unlock => Unit

/-- What the outside decides: whether it finds something, what it finds, and how a system call
fails. -/
structure Outside where
  found : Bool := true
  failure : Option String := none
  union : Except String UnionRuntimeState := .error "invalid union state"
  commit : Hash := zeroHash

namespace RuntimeSupervisor

variable (σ : RuntimeSupervisor)

/-- The end of `wait_template_published`. -/
def endPublishWait (tid : Bytes) : Except String Unit :=
  match σ.templates tid with
  | none => .error "unknown template"
  | some t =>
      if t.dropped then .error "template dropped"
      else if t.publishError ≠ "" then .error t.publishError
      else if t.published then .ok ()
      else .error "snapshot timeout"

/-- The end of `wait_for_generation_ready`. -/
def endGenerationWait (rid : Bytes) : Except String Unit :=
  match σ.runtimes rid with
  | none => .error "unknown runtime"
  | some r => if r.generationReadyFlag then .ok () else .error "restore timeout"

/-- The process group that `begin_restore` freezes. -/
def frozenGroup (intent : RuntimeRestoreIntent) : Option Int :=
  match σ.runtimes intent.runtimeId, σ.templates intent.templateId with
  | some r, some t =>
      if t.runtimeId = intent.runtimeId ∧ 0 < r.activeProcessGroupId then
        some r.activeProcessGroupId
      else none
  | _, _ => none

end RuntimeSupervisor

/-- A call to the supervisor with the state it leaves. -/
def World.supervise {α : Type} (w : World) (r : Except String (α × RuntimeSupervisor)) :
    Except String α × World :=
  (r.map (·.1), w.put (w.now.supervisor.after (r.map (·.2))))

/-- A call that answers success. -/
def World.change (w : World) (r : Except String RuntimeSupervisor) : Except String Unit × World :=
  (r.map fun _ => (), w.put (w.now.supervisor.after r))

/-- How a question is answered; only the publication lock makes a thread wait. -/
def World.serve (w : World) (o : Outside) : (e : Question) → Option (AnswerTo e × World)
  | .live pid => some (w.now.kernel.processLive pid, w)
  | .group pid => some (w.now.kernel.processGroupForPid pid, w)
  | .parent pid => some (w.now.kernel.parentForPid pid, w)
  | .branch _ => some (o.found, w)
  | .unionState _ => some (o.union, w)
  | .currentCommit _ => some (o.commit, w)
  | .readCommit _ => some (o.found, w)
  | .rollback _ _ => some ((match o.failure with | none => .ok () | some e => .error e), w)
  | .register request =>
      some ((w.now.supervisor.registerRuntime request).map fun _ => (),
        w.put (w.now.supervisor.registered request))
  | .status rid => some (w.now.supervisor.status w.now.kernel.processLive rid, w)
  | .observe rid token pid generation kind =>
      some (w.supervise (w.now.supervisor.observeBoundary rid token pid generation kind))
  | .endBoundaryWait bid =>
      some ((w.now.supervisor.endBoundaryWait bid).1,
        w.put (w.now.supervisor.endBoundaryWait bid).2)
  | .templateReady rid token tid pid pgid generation =>
      some (w.change (w.now.supervisor.templateReady rid token tid pid pgid generation))
  | .endPublishWait tid => some (w.now.supervisor.endPublishWait tid, w)
  | .templateStatus tid => some (w.now.supervisor.templateStatus w.now.kernel.processLive tid, w)
  | .poll tid token => some (w.supervise (w.now.supervisor.templatePoll tid token))
  | .restoreTemplate rid =>
      some (w.now.supervisor.restoreTemplateStatus w.now.kernel.processLive rid, w)
  | .generationReady rid token pid pgid generation =>
      some (w.change (w.now.supervisor.generationReady rid token pid pgid generation))
  | .drop tid => some (w.change (w.now.supervisor.dropTemplate tid))
  | .snapshot op => some ((), w.put (w.now.supervisor.perform op))
  | .beginRestore intent =>
      let sent :=
        match w.now.supervisor.frozenGroup intent with
        | some pgid => w.send .stop pgid
        | none => w
      some (sent.change (w.now.supervisor.beginRestore (fun _ => o.failure) intent))
  | .publishRestore rid => some (w.change (w.now.supervisor.publishRestore rid))
  | .endGenerationWait rid => some (w.now.supervisor.endGenerationWait rid, w)
  | .abortRestore rid => some (w.supervise (w.now.supervisor.abortRestore rid))
  | .retire rid => some (w.supervise (w.now.supervisor.retirePendingGeneration rid))
  | .signal kind pgid => some (o.failure, w.send kind pgid)
  | .lock => if w.publishing then none else some ((), { w with publishing := true })
  | .unlock => some ((), { w with publishing := false })

end ContextFS
