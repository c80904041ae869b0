import Mathlib.Data.List.Nodup
import ContextFS.Lib.Runs
import ContextFS.Telemetry.EventLog

/-!
# The telemetry registry

One thread adds backends, starts them all and stops them all; the threads of the backends deliver
events at any moment between the call of a backend's `start` and the return of its `stop`, and
every event of a source goes through the processors to the drain.  The registry holds its lock
only to look at its table or to change it, so deliveries and the other thread interleave freely.
-/

namespace ContextFS

open Lib

/-- The value of the enumeration. -/
def Verdict.code : Verdict → Nat
  | .allow => 0
  | .softWatch => 1
  | .deny => 2

/-- `std::max` of two verdicts. -/
def Verdict.max (a b : Verdict) : Verdict := if a.code < b.code then b else a

/-- `TelemetryRegistry::merge_verdicts`. -/
def mergeVerdicts (verdicts : List Verdict) : Verdict := verdicts.foldl Verdict.max .allow

/-- `TelemetryRegistry::BackendState`; a backend is its place in the table. -/
structure BackendState where
  name : String
  supportedOps : UInt32
  preOpVerdicts : Bool
  started : Bool := false
  status : String := "not started"

/-- `is_source`. -/
def BackendState.isSource (b : BackendState) : Bool := b.supportedOps ≠ 0

/-- What a backend itself is doing.  Its callbacks may come in every phase but `off`. -/
inductive Phase
  | off
  | starting
  | on
  | failed
  | stopping
deriving DecidableEq

/-- An event on its way through `on_event`, or through it: what its source `emitted`, what the
processors made of it so far, the verdicts collected, the processors it has still to go to, the
`answers` of those that threw nothing, and whether the drain has it. -/
structure Delivery where
  source : Nat
  emitted : TelemetryEvent
  event : TelemetryEvent
  verdicts : List Verdict
  todo : List Nat
  answers : List TelemetryEvent := []
  drained : Bool := false

/-- Where the thread is that starts and stops; `todo` are the backends still to be visited. -/
inductive RegistryThread
  | idle
  | starting (todo : List Nat)
  /-- inside `backend->start` -/
  | callingStart (b : Nat) (todo : List Nat)
  /-- `backend->start` has returned `ok`, the table does not show it yet -/
  | startReturned (b : Nat) (ok : Bool) (todo : List Nat)
  /-- inside `backend->stop` of a backend that failed to start -/
  | undoing (b : Nat) (todo : List Nat)
  | stopping (todo : List Nat)
  /-- inside `backend->stop` -/
  | callingStop (b : Nat) (todo : List Nat)
  /-- `backend->stop` has returned, the table does not show it yet -/
  | stopReturned (b : Nat) (todo : List Nat)
deriving DecidableEq

/-- `TelemetryRegistry` with its backends, the events delivered so far and what the drain got:
the number of a delivery and the event. -/
structure TelemetryRegistry where
  states : List BackendState := []
  started : Bool := false
  startAttempted : Bool := false
  thread : RegistryThread := .idle
  phase : Nat → Phase := fun _ => .off
  deliveries : List Delivery := []
  output : List (Nat × TelemetryEvent) := []

namespace TelemetryRegistry

/-- The table shows backend `b` as started. -/
def startedFlag (r : TelemetryRegistry) (b : Nat) : Bool :=
  match r.states[b]? with
  | some s => s.started
  | none => false

/-- Backend `b` is a source. -/
def isSource (r : TelemetryRegistry) (b : Nat) : Bool :=
  match r.states[b]? with
  | some s => s.isSource
  | none => false

/-- `configured_snapshot_locked`. -/
def configuredSnapshot (r : TelemetryRegistry) (source : Bool) : List Nat :=
  (List.range r.states.length).filter fun b => r.isSource b == source

/-- `active_processor_snapshot_locked`. -/
def activeProcessorSnapshot (r : TelemetryRegistry) : List Nat :=
  (List.range r.states.length).filter fun b => !r.isSource b && r.startedFlag b

/-- The order in which `start_all` visits the backends. -/
def startOrder (r : TelemetryRegistry) : List Nat :=
  r.configuredSnapshot false ++ r.configuredSnapshot true

/-- The order in which `stop_all` visits them. -/
def stopOrder (r : TelemetryRegistry) : List Nat :=
  r.configuredSnapshot true ++ r.configuredSnapshot false

/-- A change to one row of the table. -/
def setFlag (r : TelemetryRegistry) (b : Nat) (started : Bool) (status : String) :
    TelemetryRegistry :=
  { r with states := r.states.modify b fun s => { s with started := started, status := status } }

/-- A backend goes to another phase. -/
def setPhase (r : TelemetryRegistry) (b : Nat) (phase : Phase) : TelemetryRegistry :=
  { r with phase := fun c => if c = b then phase else r.phase c }

/-- No event of `b` is inside `on_event`. -/
def quiet (r : TelemetryRegistry) (b : Nat) : Bool :=
  r.deliveries.all fun d => d.source ≠ b || d.drained

end TelemetryRegistry

/-- What can happen. -/
inductive RegistryEvent
  /-- `add` of a backend with these capabilities -/
  | add (name : String) (supportedOps : UInt32) (preOpVerdicts : Bool)
  /-- `start_all` takes its snapshot -/
  | startAll
  /-- the next backend is marked and its `start` called -/
  | startNext
  /-- that `start` returns -/
  | startReturns (ok : Bool)
  /-- the table is told; a backend that failed is stopped -/
  | startNoted
  /-- the `stop` of a backend that failed returns -/
  | undone
  /-- `stop_all` takes its snapshot -/
  | stopAll
  /-- the next backend's `stop` is called, if the table shows it started -/
  | stopNext
  /-- that `stop` returns -/
  | stopReturns
  /-- the table is told -/
  | stopNoted
  /-- backend `b` calls back with an event -/
  | emit (b : Nat) (event : TelemetryEvent)
  /-- `process_event` of the next processor of delivery `i` returns an event, or throws -/
  | process (i : Nat) (answer : Option TelemetryEvent)
  /-- delivery `i` reaches the drain -/
  | drain (i : Nat)

namespace TelemetryRegistry

/-- One step of one thread; an event that cannot happen now gives nothing. -/
def step (r : TelemetryRegistry) : RegistryEvent → Option TelemetryRegistry
  | .add name supportedOps preOpVerdicts =>
      if r.thread ≠ .idle then none
      -- a backend that comes too late is refused
      else if r.startAttempted then some r
      else
        some { r with
          states := r.states ++
            [{ name := name, supportedOps := supportedOps, preOpVerdicts := preOpVerdicts }] }
  | .startAll =>
      if r.thread ≠ .idle then none
      else if r.started then some r
      else
        some { r with
          started := true
          startAttempted := true
          states := r.states.map fun s => { s with started := false, status := "not started" }
          thread := .starting r.startOrder }
  | .startNext =>
      match r.thread with
      | .starting [] => some { r with thread := .idle }
      | .starting (b :: todo) =>
          some { (r.setFlag b true "starting").setPhase b .starting with
            thread := .callingStart b todo }
      | _ => none
  | .startReturns ok =>
      match r.thread with
      -- the backend's own answer; its events may come from now on
      | .callingStart b todo =>
          some { r.setPhase b (if ok then .on else .failed) with
            thread := .startReturned b ok todo }
      | _ => none
  | .startNoted =>
      match r.thread with
      | .startReturned b true todo =>
          some { r.setFlag b true "started" with thread := .starting todo }
      | .startReturned b false todo =>
          some { (r.setFlag b false "start failed").setPhase b .stopping with
            thread := .undoing b todo }
      | _ => none
  | .undone =>
      match r.thread with
      | .undoing b todo =>
          -- `stop` joins the threads of the backend, so nothing of it is under way
          if r.quiet b then some { r.setPhase b .off with thread := .starting todo } else none
      | _ => none
  | .stopAll =>
      if r.thread ≠ .idle then none
      else if r.started then some { r with thread := .stopping r.stopOrder }
      else some r
  | .stopNext =>
      match r.thread with
      | .stopping [] => some { r with started := false, thread := .idle }
      | .stopping (b :: todo) =>
          if r.startedFlag b then
            some { r.setPhase b .stopping with thread := .callingStop b todo }
          else some { r with thread := .stopping todo }
      | _ => none
  | .stopReturns =>
      match r.thread with
      | .callingStop b todo =>
          if r.quiet b then some { r.setPhase b .off with thread := .stopReturned b todo } else none
      | _ => none
  | .stopNoted =>
      match r.thread with
      | .stopReturned b todo =>
          some { r.setFlag b false "stopped" with thread := .stopping todo }
      | _ => none
  | .emit b event =>
      if r.phase b = .off then none
      -- `on_event` drops what comes from a backend that is not started
      else if r.startedFlag b && r.isSource b then
        some { r with
          deliveries := r.deliveries ++
            [{ source := b, emitted := event, event := event, verdicts := [event.verdict],
               todo := r.activeProcessorSnapshot }] }
      else some r
  | .process i answer =>
      match r.deliveries[i]? with
      | some d =>
          match d.todo, answer with
          | _ :: todo, some event =>
              some { r with
                deliveries := r.deliveries.set i { d with
                  event := event
                  verdicts := d.verdicts ++ [event.verdict]
                  todo := todo
                  answers := d.answers ++ [event] } }
          -- the processor threw, and counts as having no answer
          | _ :: todo, none =>
              some { r with deliveries := r.deliveries.set i { d with todo := todo } }
          | [], _ => none
      | none => none
  | .drain i =>
      match r.deliveries[i]? with
      | some d =>
          if d.todo = [] ∧ d.drained = false then
            some { r with
              deliveries := r.deliveries.set i { d with drained := true }
              output := r.output ++ [(i, { d.event with verdict := mergeVerdicts d.verdicts })] }
          else none
      | none => none

/-- All states a registry can get to. -/
abbrev Reached : TelemetryRegistry → Prop :=
  Reaches (fun r => r = {}) fun r e r' => r.step e = some r'

end TelemetryRegistry
end ContextFS
