import ContextFS.Telemetry.Event

/-!
# Tracing one process

`trace_loop` on x86-64.  Every round asks `waitpid` what became of the tracee.  At a system call
stop the registers are read; whether the stop is an entry or an exit is told by the result
register, which shows `-ENOSYS` at an entry.  What an entry showed is kept until an exit.

The numbers of the system calls and the constants are those of the Linux headers.  `Regs` says
what a read of the registers gives, together with the word `read_openat2_flags` finds in the
memory of the tracee.  An event counts as emitted when it is handed to `emit_event`.
-/

namespace ContextFS
namespace PtraceBackend

/-- The arguments of a system call. -/
structure SyscallArgs where
  arg0 : UInt64 := 0
  arg1 : UInt64 := 0
  arg2 : UInt64 := 0
  arg3 : UInt64 := 0
  arg4 : UInt64 := 0
  arg5 : UInt64 := 0
deriving DecidableEq

/-- `user_regs_struct`, as far as it is used, and the first word of the `open_how` that `rdx`
points to, unless it cannot be read. -/
structure Regs where
  origRax : UInt64
  rdi : UInt64 := 0
  rsi : UInt64 := 0
  rdx : UInt64 := 0
  r10 : UInt64 := 0
  r8 : UInt64 := 0
  r9 : UInt64 := 0
  rax : UInt64
  openHow : Option UInt64 := none
deriving DecidableEq

structure SyscallSnapshot where
  nr : Int64 := -1
  args : SyscallArgs := {}
  op : OpType := .read
  tracked : Bool := false
deriving DecidableEq

def enosys : Int64 := 38
def oCreat : UInt64 := 0o100

/-- `read_openat2_flags`. -/
def readOpenat2Flags (args : SyscallArgs) (openHow : Option UInt64) : Option UInt64 :=
  if args.arg2 = 0 ∨ args.arg3 < 8 then none else openHow

/-- `SYS_read`, `SYS_pread64`, `SYS_readv`, `SYS_preadv`, `SYS_preadv2`. -/
def readCalls : List Int64 := [0, 17, 19, 295, 327]

/-- `SYS_write`, `SYS_pwrite64`, `SYS_writev`, `SYS_pwritev`, `SYS_pwritev2`. -/
def writeCalls : List Int64 := [1, 18, 20, 296, 328]

/-- `SYS_creat`, `SYS_mkdir`, `SYS_mkdirat`, `SYS_mknod`, `SYS_mknodat`, `SYS_symlink`,
`SYS_symlinkat`, `SYS_link`, `SYS_linkat`. -/
def createCalls : List Int64 := [85, 83, 258, 133, 259, 88, 266, 86, 265]

/-- `SYS_unlink`, `SYS_unlinkat`. -/
def unlinkCalls : List Int64 := [87, 263]

/-- `SYS_rename`, `SYS_renameat`, `SYS_renameat2`. -/
def renameCalls : List Int64 := [82, 264, 316]

/-- `SYS_truncate`, `SYS_ftruncate`. -/
def truncateCalls : List Int64 := [76, 77]

/-- `SYS_stat`, `SYS_lstat`, `SYS_fstat`, `SYS_newfstatat`, `SYS_statx`. -/
def statCalls : List Int64 := [4, 6, 5, 262, 332]

/-- `SYS_execve`, `SYS_execveat`. -/
def execCalls : List Int64 := [59, 322]

/-- An opening call creates when its flags say so. -/
def openOp (flags : UInt64) : OpType := if flags &&& oCreat ≠ 0 then .create else .open

/-- `map_syscall`: `none` for a system call that is not tracked. -/
def mapSyscall (nr : Int64) (args : SyscallArgs) (openHow : Option UInt64) : Option OpType :=
  if nr ∈ readCalls then some .read
  else if nr ∈ writeCalls then some .write
  -- `SYS_open`, `SYS_openat`, `SYS_openat2`
  else if nr = 2 then some (openOp args.arg1)
  else if nr = 257 then some (openOp args.arg2)
  else if nr = 437 then some (openOp ((readOpenat2Flags args openHow).getD 0))
  else if nr ∈ createCalls then some .create
  -- `SYS_close`
  else if nr = 3 then some .close
  else if nr ∈ unlinkCalls then some .unlink
  else if nr ∈ renameCalls then some .rename
  else if nr ∈ truncateCalls then some .truncate
  else if nr ∈ statCalls then some .stat
  else if nr ∈ execCalls then some .exec
  else none

/-- The snapshot `get_syscall_state` takes of the registers. -/
def Regs.snapshot (regs : Regs) : SyscallSnapshot :=
  let args := ⟨regs.rdi, regs.rsi, regs.rdx, regs.r10, regs.r8, regs.r9⟩
  let nr := regs.origRax.toInt64
  { nr := nr, args := args, op := (mapSyscall nr args regs.openHow).getD .read,
    tracked := (mapSyscall nr args regs.openHow).isSome }

/-- The result register. -/
def Regs.ret (regs : Regs) : Int64 := regs.rax.toInt64

/-- `get_syscall_state`: the snapshot, the result, and whether the stop passes for an entry. -/
def getSyscallState (read : Option Regs) : Option (SyscallSnapshot × Int64 × Bool) :=
  read.map fun regs => (regs.snapshot, regs.ret, regs.ret == -enosys)

/-- A pair of `extra` with a number. -/
def extraField {α : Type} [ToString α] (name : String) (value : α) : Bytes × Bytes :=
  (ascii name, ascii (toString value))

/-- `make_syscall_event`, without the time. -/
def makeSyscallEvent (pid : UInt32) (snapshot : SyscallSnapshot) (ret : Int64) : TelemetryEvent where
  op := snapshot.op
  pid := pid
  backend := ascii "ptrace"
  extra := [extraField "syscall_nr" snapshot.nr, extraField "arg0" snapshot.args.arg0,
    extraField "arg1" snapshot.args.arg1, extraField "arg2" snapshot.args.arg2,
    extraField "arg3" snapshot.args.arg3, extraField "arg4" snapshot.args.arg4,
    extraField "arg5" snapshot.args.arg5, extraField "ret" ret]
  bytes :=
    if 0 < ret ∧ (snapshot.op = .read ∨ snapshot.op = .write) then ret.toUInt64 else 0

/-- The event of a replaced image, without the time. -/
def execEvent (pid : UInt32) : TelemetryEvent where
  op := .exec
  pid := pid
  backend := ascii "ptrace"
  extra := [(ascii "event", ascii "exec")]

/-! ## One stop -/

def sigtrap : Nat := 5
def ptraceEventExec : Nat := 4
def ptraceEventStop : Nat := 128

/-- The status of a stopped tracee: `WSTOPSIG(status)` and `status >> 16`. -/
structure StopStatus where
  stopSignal : Nat
  event : Nat
deriving DecidableEq

/-- What `trace_loop` remembers of the system calls, and the events it has emitted. -/
structure Watch where
  haveSnapshot : Bool := false
  snapshot : SyscallSnapshot := {}
  emitted : List TelemetryEvent := []
deriving DecidableEq

/-- A stop at the boundary of a system call. -/
def Watch.onSyscall (pid : UInt32) (w : Watch) (read : Option Regs) : Watch :=
  match getSyscallState read with
  | none => w
  | some (current, ret, isEntry) =>
      if isEntry then { w with snapshot := current, haveSnapshot := true }
      else if w.haveSnapshot then
        { w with
          haveSnapshot := false
          emitted :=
            if w.snapshot.tracked then w.emitted ++ [makeSyscallEvent pid w.snapshot ret]
            else w.emitted }
      else w

/-- The body of the loop at a stop, and the signal the tracee is resumed with. -/
def Watch.onStop (pid : UInt32) (w : Watch) (status : StopStatus) (read : Option Regs) :
    Watch × Nat :=
  if status.event = ptraceEventStop then (w, 0)
  else if status.event = ptraceEventExec then
    -- the image is new: what the entry showed belongs to the old one
    ({ w with haveSnapshot := false, emitted := w.emitted ++ [execEvent pid] }, 0)
  else if status.stopSignal = sigtrap ||| 0x80 then (w.onSyscall pid read, 0)
  else (w, if status.stopSignal = sigtrap then 0 else status.stopSignal)

/-! ## The loop -/

/-- What `waitpid` reports; `nothing` also stands for an interrupted wait and for a status that
is neither an exit nor a stop. -/
inductive Waited where
  | nothing
  | failed (errno : Int)
  | exited
  | stopped (status : StopStatus) (read : Option Regs)
deriving DecidableEq

/-- One round: whether a detach is requested at its head and at its stop (with the error
`PTRACE_DETACH` ends with, 0 for none), and the error of `resume_syscall`, if any. -/
structure Round where
  detachRequested : Bool := false
  waited : Waited
  detachAtStop : Option Int := none
  resumeError : Option Int := none
deriving DecidableEq

/-- What `mark_completed` records. -/
structure Completed where
  exited : Bool
  error : Int
deriving DecidableEq

structure TraceLoop where
  watch : Watch := {}
  interruptSent : Bool := true
  interrupts : Nat := 1
  resumedWith : List Nat := []
  completed : Option Completed := none
deriving DecidableEq

/-- The head of a round: a requested detach interrupts the tracee once. -/
def TraceLoop.interruptOnce (l : TraceLoop) (r : Round) : TraceLoop :=
  if r.detachRequested = true ∧ l.interruptSent = false then
    { l with interrupts := l.interrupts + 1, interruptSent := true }
  else l

/-- A stop: detach, or handle it and resume. -/
def TraceLoop.atStop (pid : UInt32) (l : TraceLoop) (r : Round) (status : StopStatus)
    (read : Option Regs) : TraceLoop :=
  match r.detachAtStop with
  | some errno => { l with interruptSent := false, completed := some ⟨false, errno⟩ }
  | none =>
      let (watch, signal) := l.watch.onStop pid status read
      match r.resumeError with
      | none => { l with interruptSent := false, watch, resumedWith := l.resumedWith ++ [signal] }
      | some errno => { l with interruptSent := false, watch, completed := some ⟨false, errno⟩ }

/-- What `waitpid` reported is dealt with. -/
def TraceLoop.afterWait (pid : UInt32) (l : TraceLoop) (r : Round) : TraceLoop :=
  match r.waited with
  | .nothing => l
  | .failed errno => { l with completed := some ⟨false, errno⟩ }
  | .exited => { l with completed := some ⟨true, 0⟩ }
  | .stopped status read => l.atStop pid r status read

/-- One round of the loop; nothing happens once it has ended. -/
def TraceLoop.round (pid : UInt32) (l : TraceLoop) (r : Round) : TraceLoop :=
  if l.completed.isSome then l else (l.interruptOnce r).afterWait pid r

/-- `trace_loop`: when `PTRACE_SEIZE` fails the loop is not entered. -/
def traceLoop (pid : UInt32) (seizeError : Option Int) (rounds : List Round) : TraceLoop :=
  match seizeError with
  | some errno =>
      { interruptSent := false, interrupts := 0, completed := some ⟨false, errno⟩ }
  | none => rounds.foldl (TraceLoop.round pid) {}

/-! ## The stops a run handles -/

/-- The stop a round hands to the body of the loop. -/
def Round.handles (r : Round) : List (StopStatus × Option Regs) :=
  match r.waited with
  | .stopped status read => if r.detachAtStop.isSome then [] else [(status, read)]
  | _ => []

/-- The loop is left in this round. -/
def Round.leaves (r : Round) : Bool :=
  match r.waited with
  | .nothing => false
  | .failed _ => true
  | .exited => true
  | .stopped _ _ => r.detachAtStop.isSome || r.resumeError.isSome

/-- The stops that are handled before the loop is left. -/
def handled : List Round → List (StopStatus × Option Regs)
  | [] => []
  | r :: rounds => r.handles ++ if r.leaves then [] else handled rounds

/-- The watch after some stops. -/
def Watch.run (pid : UInt32) (w : Watch) (stops : List (StopStatus × Option Regs)) : Watch :=
  stops.foldl (fun w stop => (w.onStop pid stop.1 stop.2).1) w

theorem round_of_completed {pid : UInt32} {l : TraceLoop} {c : Completed}
    (h : l.completed = some c) (rounds : List Round) :
    rounds.foldl (TraceLoop.round pid) l = l := by
  induction rounds with
  | nil => rfl
  | cons r rounds ih =>
      have hround : l.round pid r = l := by
        rw [TraceLoop.round, h]
        rfl
      rw [List.foldl_cons, hround, ih]

/-- A round handles its stop and ends the loop where it says so. -/
theorem round_watch (pid : UInt32) {l : TraceLoop} (h : l.completed = none) (r : Round) :
    (l.round pid r).watch = l.watch.run pid r.handles ∧
      (l.round pid r).completed.isSome = r.leaves := by
  have hinterrupt : (l.interruptOnce r).watch = l.watch ∧
      (l.interruptOnce r).completed = none := by
    unfold TraceLoop.interruptOnce
    split
    · exact ⟨rfl, h⟩
    · exact ⟨rfl, h⟩
  obtain ⟨hwatch, hnone⟩ := hinterrupt
  have hround : l.round pid r = (l.interruptOnce r).afterWait pid r := by
    rw [TraceLoop.round, h]
    rfl
  rw [hround]
  unfold TraceLoop.afterWait Round.handles Round.leaves
  cases r.waited with
  | nothing => exact ⟨hwatch, by rw [hnone]; rfl⟩
  | failed errno => exact ⟨hwatch, rfl⟩
  | exited => exact ⟨hwatch, rfl⟩
  | stopped status read =>
      simp only [TraceLoop.atStop]
      cases r.detachAtStop with
      | some errno => exact ⟨hwatch, rfl⟩
      | none =>
          simp only [hwatch]
          cases r.resumeError with
          | none => exact ⟨rfl, by rw [hnone]; rfl⟩
          | some errno => exact ⟨rfl, rfl⟩

/-- A run of the loop watches the stops it handles. -/
theorem watch_of_rounds {pid : UInt32} {l : TraceLoop} (h : l.completed = none)
    (rounds : List Round) :
    (rounds.foldl (TraceLoop.round pid) l).watch = l.watch.run pid (handled rounds) := by
  induction rounds generalizing l with
  | nil => rfl
  | cons r rounds ih =>
      obtain ⟨hwatch, hleaves⟩ := round_watch pid h r
      rw [List.foldl_cons, handled]
      cases hl : r.leaves with
      | true =>
          rw [hl] at hleaves
          obtain ⟨c, hc⟩ := Option.isSome_iff_exists.1 hleaves
          rw [round_of_completed hc, hwatch, if_pos rfl, List.append_nil]
      | false =>
          rw [hl] at hleaves
          have hnone := Option.isSome_eq_false_iff.1 hleaves
          rw [ih (Option.isNone_iff_eq_none.1 hnone), hwatch]
          simp [Watch.run, List.foldl_append]

theorem traceLoop_watch (pid : UInt32) (rounds : List Round) :
    (traceLoop pid none rounds).watch = Watch.run pid {} (handled rounds) :=
  watch_of_rounds rfl rounds

end PtraceBackend
end ContextFS
