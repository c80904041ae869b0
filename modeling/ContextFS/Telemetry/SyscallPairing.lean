import ContextFS.Telemetry.PtraceBackend

/-!
# Pairing entries with exits

The kernel knows which stop is an entry and which an exit; the tracer is told neither.  Where an
entry and an exit of one call were both read, the tracer pairs them, and an exit that shows
`-ENOSYS` is overwritten by the next entry.  But a snapshot that no exit has used stays: when the
next entry cannot be read, the exit of that call is paired with the arguments of an older one.
-/

namespace ContextFS
namespace PtraceBackend

/-- A stop of the tracee, with what a read of its registers gives. -/
inductive Stop where
  | entry (read : Option Regs)
  | exit (read : Option Regs)
  | exec
  | group (stopSignal : Nat)
  | signal (sig : Fin 65)
deriving DecidableEq

/-- What the tracer sees of a stop. -/
def Stop.status : Stop → StopStatus × Option Regs
  | .entry read => (⟨sigtrap ||| 0x80, 0⟩, read)
  | .exit read => (⟨sigtrap ||| 0x80, 0⟩, read)
  | .exec => (⟨sigtrap, ptraceEventExec⟩, none)
  | .group stopSignal => (⟨stopSignal, ptraceEventStop⟩, none)
  | .signal sig => (⟨sig, 0⟩, none)

/-- Entries and exits alternate, `inside` a call at first or not, and an entry shows `-ENOSYS`. -/
def Alternating : Bool → List Stop → Prop
  | _, [] => True
  | inside, .entry read :: stops =>
      inside = false ∧ (∀ regs, read = some regs → regs.ret = -enosys) ∧ Alternating true stops
  | inside, .exit _ :: stops => inside = true ∧ Alternating false stops
  | inside, .exec :: stops => Alternating inside stops
  | inside, .group _ :: stops => Alternating inside stops
  | inside, .signal _ :: stops => Alternating inside stops

/-! ## The calls of a process -/

/-- What the stops so far tell: the system call stop read last since the last exec, and of the
call the process is in, what its entry showed and whether it succeeded in an exec. -/
structure Seen where
  lastRead : Option Regs := none
  entry : Option Regs := none
  execed : Bool := false

def Seen.step (k : Seen) : Stop → Seen
  | .entry read => { lastRead := read.or k.lastRead, entry := read, execed := false }
  | .exit read => { lastRead := read.or k.lastRead, entry := none, execed := false }
  | .exec => { k with lastRead := none, execed := true }
  | .group _ => k
  | .signal _ => k

/-- A system call that has returned: what its entry and its exit showed where they were read, and
whether it succeeded in an exec. -/
structure Call where
  entry : Option Regs
  execed : Bool
  exit : Option Regs

/-- The calls that return in a run. -/
def calls : Seen → List Stop → List Call
  | _, [] => []
  | k, .exit read :: stops => ⟨k.entry, k.execed, read⟩ :: calls (k.step (.exit read)) stops
  | k, s :: stops => calls (k.step s) stops

/-- The event of a call: its own arguments and its own result, when both were read. -/
def Call.event (pid : UInt32) (c : Call) : Option TelemetryEvent :=
  match c.entry, c.exit with
  | some regs, some regs' =>
      if c.execed = false ∧ regs'.ret ≠ -enosys ∧ regs.snapshot.tracked then
        some (makeSyscallEvent pid regs.snapshot regs'.ret)
      else none
  | _, _ => none

/-- The next stop is an exit that shows a result, the entry of its call was not read, and the last
system call stop that was read before it, since the last exec, shows `-ENOSYS` for a tracked
call. -/
def Seen.Stale (k : Seen) (s : Stop) : Prop :=
  ∃ regs last, s = .exit (some regs) ∧ regs.ret ≠ -enosys ∧ k.entry = none ∧
    k.lastRead = some last ∧ last.ret = -enosys ∧ last.snapshot.tracked = true

/-- No exit of the run is stale. -/
def NoStale (stops : List Stop) : Prop :=
  ∀ before s after, stops = before ++ s :: after → ¬ (before.foldl Seen.step {}).Stale s

/-- The events of system calls among all events. -/
def isSyscallEvent (ev : TelemetryEvent) : Bool :=
  ev.extra.any fun field => field.1 == ascii "syscall_nr"

def Watch.syscallEvents (w : Watch) : List TelemetryEvent := w.emitted.filter isSyscallEvent

/-! ## One stop -/

/-- The snapshot the watch holds. -/
def Watch.held (w : Watch) : Option SyscallSnapshot :=
  if w.haveSnapshot then some w.snapshot else none

/-- The snapshot that is held after the stop read last. -/
def Seen.held (k : Seen) : Option SyscallSnapshot :=
  (k.lastRead.filter fun regs => regs.ret == -enosys).map Regs.snapshot

/-- The events a stop adds, by the snapshot held before it. -/
def Stop.events (pid : UInt32) (held : Option SyscallSnapshot) : Stop → List TelemetryEvent
  | .entry (some regs) | .exit (some regs) =>
      if regs.ret = -enosys then []
      else (held.filter SyscallSnapshot.tracked).toList.map fun s => makeSyscallEvent pid s regs.ret
  | _ => []

theorem isSyscallEvent_make (pid : UInt32) (s : SyscallSnapshot) (ret : Int64) :
    isSyscallEvent (makeSyscallEvent pid s ret) = true := by
  simp [isSyscallEvent, makeSyscallEvent, extraField]

theorem isSyscallEvent_exec (pid : UInt32) : isSyscallEvent (execEvent pid) = false := by
  have hname : ascii "event" ≠ ascii "syscall_nr" := by decide +kernel
  simp [isSyscallEvent, execEvent, hname]

/-- A read system call stop: an entry is kept, anything else uses up what is held. -/
theorem Watch.onSyscall_some (pid : UInt32) (w : Watch) (regs : Regs) :
    (w.onSyscall pid (some regs)).held =
        (if regs.ret = -enosys then some regs.snapshot else none) ∧
      (w.onSyscall pid (some regs)).syscallEvents =
        w.syscallEvents ++ (Stop.exit (some regs)).events pid w.held := by
  simp only [Watch.onSyscall, getSyscallState, Option.map_some]
  by_cases hret : regs.ret = -enosys
  · rw [if_pos (beq_iff_eq.2 hret), if_pos hret]
    refine ⟨rfl, ?_⟩
    simp only [Stop.events, if_pos hret, List.append_nil]
    rfl
  · have hbeq : ¬ (regs.ret == -enosys) = true := fun h => hret (beq_iff_eq.1 h)
    rw [if_neg hbeq, if_neg hret]
    simp only [Stop.events, if_neg hret]
    cases hhave : w.haveSnapshot with
    | false => exact ⟨by simp [Watch.held, hhave], by simp [Watch.held, hhave]⟩
    | true =>
        refine ⟨rfl, ?_⟩
        cases htracked : w.snapshot.tracked with
        | false => simp [Watch.syscallEvents, Watch.held, hhave, htracked, Option.filter_some]
        | true =>
            simp [Watch.syscallEvents, Watch.held, hhave, htracked, Option.filter_some,
              List.filter_append, isSyscallEvent_make]

theorem Seen.held_step_some (k : Seen) (regs : Regs) {s : Stop}
    (hs : s = .entry (some regs) ∨ s = .exit (some regs)) :
    (k.step s).held = if regs.ret = -enosys then some regs.snapshot else none := by
  have hlast : (k.step s).lastRead = some regs := by
    rcases hs with rfl | rfl
    · rfl
    · rfl
  rw [Seen.held, hlast]
  by_cases hret : regs.ret = -enosys
  · simp [hret]
  · simp [hret]

/-- What the watch holds follows what was read last, and a stop adds its events. -/
theorem Watch.onStop_spec (pid : UInt32) {w : Watch} {k : Seen} (hheld : w.held = k.held) (s : Stop) :
    (w.onStop pid s.status.1 s.status.2).1.held = (k.step s).held ∧
      (w.onStop pid s.status.1 s.status.2).1.syscallEvents =
        w.syscallEvents ++ s.events pid k.held := by
  have hsyscall : ∀ read, (w.onStop pid ⟨sigtrap ||| 0x80, 0⟩ read).1 = w.onSyscall pid read :=
    fun read => rfl
  cases s with
  | entry read =>
      cases read with
      | none => exact ⟨hheld, (List.append_nil _).symm⟩
      | some regs =>
          obtain ⟨hkept, hevents⟩ := w.onSyscall_some pid regs
          rw [k.held_step_some regs (Or.inl rfl), ← hheld]
          exact ⟨hkept, hevents⟩
  | exit read =>
      cases read with
      | none => exact ⟨hheld, (List.append_nil _).symm⟩
      | some regs =>
          obtain ⟨hkept, hevents⟩ := w.onSyscall_some pid regs
          rw [k.held_step_some regs (Or.inr rfl), ← hheld]
          exact ⟨hkept, hevents⟩
  | exec =>
      refine ⟨rfl, ?_⟩
      show (w.emitted ++ [execEvent pid]).filter isSyscallEvent = _
      rw [List.filter_append, List.filter_cons_of_neg (by rw [isSyscallEvent_exec]; decide)]
      rfl
  | group stopSignal => exact ⟨hheld, (List.append_nil _).symm⟩
  | signal sig =>
      have hsig : sig.val ≠ sigtrap ||| 0x80 := by
        have hlt := sig.isLt
        have hval : sigtrap ||| 0x80 = 133 := rfl
        omega
      have hstop : (w.onStop pid ⟨sig, 0⟩ none).1 = w := by
        have hstop : ¬ (0 = ptraceEventStop) := by decide
        have hexec : ¬ (0 = ptraceEventExec) := by decide
        rw [Watch.onStop, if_neg hstop, if_neg hexec, if_neg hsig]
      simp only [Stop.status, hstop]
      exact ⟨hheld, (List.append_nil _).symm⟩

/-- The events of a run, by the stops seen before. -/
def eventsOf (pid : UInt32) (k : Seen) : List Stop → List TelemetryEvent
  | [] => []
  | s :: stops => s.events pid k.held ++ eventsOf pid (k.step s) stops

theorem Watch.run_syscallEvents (pid : UInt32) {w : Watch} {k : Seen} (hheld : w.held = k.held)
    (stops : List Stop) :
    (w.run pid (stops.map Stop.status)).syscallEvents = w.syscallEvents ++ eventsOf pid k stops := by
  induction stops generalizing w k with
  | nil => exact (List.append_nil _).symm
  | cons s stops ih =>
      obtain ⟨hnext, hevents⟩ := Watch.onStop_spec pid hheld s
      calc (w.run pid ((s :: stops).map Stop.status)).syscallEvents
          = (Watch.run pid (w.onStop pid s.status.1 s.status.2).1
              (stops.map Stop.status)).syscallEvents := rfl
        _ = w.syscallEvents ++ s.events pid k.held ++ eventsOf pid (k.step s) stops := by
            rw [ih hnext, hevents]
        _ = w.syscallEvents ++ eventsOf pid k (s :: stops) := by
            rw [List.append_assoc]
            rfl

/-! ## The calls and their events -/

/-- What is known inside a call: a read entry was the last stop read, unless an exec came after
it, and after an exec nothing is held. -/
structure Seen.Ok (k : Seen) : Prop where
  entry : ∀ regs, k.entry = some regs → regs.ret = -enosys ∧
    (k.execed = false → k.lastRead = some regs)
  execed : k.execed = true → k.lastRead = none

theorem Seen.Ok.init : Seen.Ok {} := ⟨fun _ h => (by cases h), fun h => (by cases h)⟩

theorem Seen.Ok.step {k : Seen} (h : k.Ok) {s : Stop}
    (hs : ∀ regs, s = .entry (some regs) → regs.ret = -enosys) : (k.step s).Ok := by
  cases s with
  | entry read =>
      refine ⟨fun regs hread => ?_, fun hexec => (by cases hexec)⟩
      obtain rfl : read = some regs := hread
      exact ⟨hs regs rfl, fun _ => rfl⟩
  | exit read => exact ⟨fun _ hread => (by cases hread), fun hexec => (by cases hexec)⟩
  | exec => exact ⟨fun regs hread => ⟨(h.entry regs hread).1, fun hexec => (by cases hexec)⟩, fun _ => rfl⟩
  | group stopSignal => exact h
  | signal sig => exact h

/-- The event of the call that a stop ends. -/
def Seen.callEvents (pid : UInt32) (k : Seen) : Stop → List TelemetryEvent
  | .exit read => (Call.event pid ⟨k.entry, k.execed, read⟩).toList
  | _ => []

theorem filterMap_calls_cons (pid : UInt32) (k : Seen) (s : Stop) (stops : List Stop) :
    (calls k (s :: stops)).filterMap (Call.event pid) =
      k.callEvents pid s ++ (calls (k.step s) stops).filterMap (Call.event pid) := by
  cases s with
  | exit read =>
      rw [calls, List.filterMap_cons, Seen.callEvents]
      cases Call.event pid ⟨k.entry, k.execed, read⟩ with
      | none => rfl
      | some ev => rfl
  | entry read => rfl
  | exec => rfl
  | group stopSignal => rfl
  | signal sig => rfl

/-- A stop that is not stale adds the event of the call it ends. -/
theorem Seen.Ok.events_eq {k : Seen} (h : k.Ok) (pid : UInt32) {s : Stop}
    (hs : ∀ regs, s = .entry (some regs) → regs.ret = -enosys) (hfresh : ¬ k.Stale s) :
    s.events pid k.held = k.callEvents pid s := by
  cases s with
  | entry read =>
      cases read with
      | none => rfl
      | some regs => exact if_pos (hs regs rfl)
  | exec => rfl
  | group stopSignal => rfl
  | signal sig => rfl
  | exit read =>
      cases read with
      | none =>
          rw [Seen.callEvents]
          cases hentry : k.entry with
          | none => rfl
          | some regs => rfl
      | some regs' =>
          rw [Seen.callEvents]
          by_cases hret : regs'.ret = -enosys
          · rw [Stop.events, if_pos hret]
            cases hentry : k.entry with
            | none => rfl
            | some regs => simp [Call.event, hret]
          rw [Stop.events, if_neg hret]
          cases hentry : k.entry with
          | none =>
              -- nothing tracked is held, as the exit is not stale
              cases hlast : k.lastRead with
              | none => simp [Seen.held, hlast, Call.event]
              | some last =>
                  by_cases hlastRet : last.ret = -enosys
                  · have htracked : last.snapshot.tracked = false := by
                      by_contra hne
                      exact hfresh ⟨regs', last, rfl, hret, hentry, hlast, hlastRet,
                        Bool.eq_true_of_not_eq_false hne⟩
                    simp [Seen.held, hlast, hlastRet, htracked, Option.filter_some, Call.event]
                  · simp [Seen.held, hlast, hlastRet, Call.event]
          | some regs =>
              obtain ⟨hentryRet, hkept⟩ := h.entry regs hentry
              cases hexec : k.execed with
              | true => simp [Seen.held, h.execed hexec, Call.event]
              | false =>
                  have hheld : k.held = some regs.snapshot := by
                    simp [Seen.held, hkept hexec, hentryRet]
                  rw [hheld]
                  cases htracked : regs.snapshot.tracked with
                  | true => simp [Call.event, hret, htracked, Option.filter_some]
                  | false => simp [Call.event, htracked, Option.filter_some]

/-- A stale exit adds an event that no call has. -/
theorem Seen.Stale.events {k : Seen} {s : Stop} (h : k.Stale s) (pid : UInt32) :
    (s.events pid k.held).length = 1 ∧ k.callEvents pid s = [] := by
  obtain ⟨regs, last, rfl, hret, hentry, hlast, hlastRet, htracked⟩ := h
  constructor
  · simp [Stop.events, hret, Seen.held, hlast, hlastRet, htracked, Option.filter_some]
  · rw [Seen.callEvents, hentry]
    rfl

/-- Every call has its event among those of the run. -/
theorem length_calls_le (pid : UInt32) {k : Seen} (h : k.Ok) {stops : List Stop}
    (hs : ∀ regs, Stop.entry (some regs) ∈ stops → regs.ret = -enosys) :
    ((calls k stops).filterMap (Call.event pid)).length ≤ (eventsOf pid k stops).length := by
  induction stops generalizing k with
  | nil => exact Nat.le_refl _
  | cons s stops ih =>
      have hhead : ∀ regs, s = .entry (some regs) → regs.ret = -enosys :=
        fun regs hread => hs regs (by rw [hread]; exact List.mem_cons_self)
      have hrest := ih (h.step hhead) fun regs hread => hs regs (List.mem_cons_of_mem _ hread)
      rw [filterMap_calls_cons, eventsOf, List.length_append, List.length_append]
      by_cases hstale : k.Stale s
      · obtain ⟨-, hnone⟩ := hstale.events pid
        rw [hnone, List.length_nil]
        omega
      · rw [h.events_eq pid hhead hstale]
        omega

/-- The events of a run are those of its calls exactly when no exit is stale. -/
theorem eventsOf_eq_iff (pid : UInt32) {k : Seen} (h : k.Ok) {stops : List Stop}
    (hs : ∀ regs, Stop.entry (some regs) ∈ stops → regs.ret = -enosys) :
    eventsOf pid k stops = (calls k stops).filterMap (Call.event pid) ↔
      ∀ before s after, stops = before ++ s :: after → ¬ (before.foldl Seen.step k).Stale s := by
  induction stops generalizing k with
  | nil =>
      refine iff_of_true rfl fun before s after hsplit => ?_
      exact absurd hsplit.symm (by simp)
  | cons s stops ih =>
      have hhead : ∀ regs, s = .entry (some regs) → regs.ret = -enosys :=
        fun regs hread => hs regs (by rw [hread]; exact List.mem_cons_self)
      have hmore : ∀ regs, Stop.entry (some regs) ∈ stops → regs.ret = -enosys :=
        fun regs hread => hs regs (List.mem_cons_of_mem _ hread)
      have hnext := h.step hhead
      rw [filterMap_calls_cons, eventsOf]
      by_cases hstale : k.Stale s
      · -- one event too many, and no later one is missing
        obtain ⟨hone, hnone⟩ := hstale.events pid
        refine iff_of_false (fun heq => ?_) fun hall => hall [] s stops rfl hstale
        have hlen := congrArg List.length heq
        have hle := length_calls_le pid hnext hmore
        rw [hnone, List.length_append, hone, List.nil_append] at hlen
        omega
      · rw [h.events_eq pid hhead hstale, List.append_cancel_left_eq, ih hnext hmore]
        constructor
        · intro hall before t after hsplit
          cases before with
          | nil =>
              obtain ⟨rfl, -⟩ := List.cons.inj hsplit
              exact hstale
          | cons u before =>
              obtain ⟨rfl, hrest⟩ := List.cons.inj hsplit
              exact hall before t after hrest
        · intro hall before t after hsplit
          exact hall (s :: before) t after (by rw [hsplit]; rfl)

theorem Alternating.entry_enosys {inside : Bool} {stops : List Stop} (h : Alternating inside stops) :
    ∀ regs, Stop.entry (some regs) ∈ stops → regs.ret = -enosys := by
  induction stops generalizing inside with
  | nil => exact fun _ hin => (by cases hin)
  | cons s stops ih =>
      intro regs hin
      cases s with
      | entry read =>
          obtain ⟨-, hread, hmore⟩ := h
          rcases List.mem_cons.1 hin with heq | hin
          · exact hread regs (Stop.entry.inj heq).symm
          · exact ih hmore regs hin
      | exit read => exact ih h.2 regs ((List.mem_cons.1 hin).resolve_left (by simp))
      | exec => exact ih h regs ((List.mem_cons.1 hin).resolve_left (by simp))
      | group stopSignal => exact ih h regs ((List.mem_cons.1 hin).resolve_left (by simp))
      | signal sig => exact ih h regs ((List.mem_cons.1 hin).resolve_left (by simp))

/-- In a run of the tracer over the stops of a process the emitted system call events are, in
order, those of the calls whose entry and exit were read, that did not succeed in an exec and did
not return `-ENOSYS`, each once and with the arguments and the result of its own call, exactly when
no exit of the run is stale. -/
theorem traceLoop_pairs_iff (pid : UInt32) {inside : Bool} {stops : List Stop}
    (hstops : Alternating inside stops) {rounds : List Round}
    (hrounds : handled rounds = stops.map Stop.status) :
    (traceLoop pid none rounds).watch.syscallEvents =
      (calls {} stops).filterMap (Call.event pid) ↔ NoStale stops := by
  have hheld : Watch.held {} = Seen.held {} := rfl
  have hrun := Watch.run_syscallEvents pid hheld stops
  rw [traceLoop_watch, hrounds, hrun]
  exact eventsOf_eq_iff pid Seen.Ok.init hstops.entry_enosys

/-- A round that handles a stop and resumes. -/
def Stop.round (s : Stop) : Round := { waited := .stopped s.status.1 s.status.2 }

theorem handled_round (stops : List Stop) :
    handled (stops.map Stop.round) = stops.map Stop.status := by
  induction stops with
  | nil => rfl
  | cons s stops ih =>
      rw [List.map_cons, handled, ih]
      rfl

/-- The registers at the entry of `read(fd, 0, 0)`. -/
def readEntry (fd : UInt64) : Regs := { origRax := 0, rdi := fd, rax := (-enosys).toUInt64 }

/-- Attached inside a call; then a read with a signal in it. -/
def signalledRead : List Stop :=
  [.exit (some { readEntry 9 with rax := 1 }), .entry (some (readEntry 3)), .signal 10,
    .exit (some { readEntry 3 with rax := 5 })]

theorem traceLoop_pairs_signalledRead : NoStale signalledRead := by
  have hstops : Alternating true signalledRead :=
    ⟨rfl, rfl, fun regs hread => (by rw [← Option.some.inj hread]; decide), rfl, trivial⟩
  exact (traceLoop_pairs_iff 7 hstops (handled_round signalledRead)).1 (by decide +kernel)

/-- A read whose exit cannot be read, and a write whose entry cannot be read. -/
def unreadStops : List Stop :=
  [.entry (some (readEntry 3)), .exit none, .entry none,
    .exit (some { origRax := 1, rdi := 4, rax := 5 })]

/-- The result of the write comes with the number and the arguments of the read. -/
theorem traceLoop_mixes_calls :
    ¬ ∀ (pid : UInt32) (inside : Bool) (stops : List Stop) (rounds : List Round),
        Alternating inside stops → handled rounds = stops.map Stop.status →
        (traceLoop pid none rounds).watch.syscallEvents =
          (calls {} stops).filterMap (Call.event pid) := by
  intro h
  have hstops : Alternating false unreadStops :=
    ⟨rfl, fun regs hread => (by rw [← Option.some.inj hread]; decide), rfl, rfl,
      fun regs hread => (by cases hread), rfl, trivial⟩
  have hmixed : (traceLoop 7 none (unreadStops.map Stop.round)).watch.syscallEvents =
      [makeSyscallEvent 7 (readEntry 3).snapshot 5] := by decide +kernel
  have hnone : (calls {} unreadStops).filterMap (Call.event 7) = [] := rfl
  have heq := h 7 false unreadStops _ hstops (handled_round unreadStops)
  rw [hmixed, hnone] at heq
  exact List.cons_ne_nil _ _ heq

end PtraceBackend
end ContextFS
