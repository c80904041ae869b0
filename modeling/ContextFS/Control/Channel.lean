import ContextFS.Lib.Lines
import ContextFS.Lib.Runs
import ContextFS.Store.Hash

/-!
# The control socket

One thread of the daemon serves one connection: it collects bytes up to a newline, hands the line
to the request handler, writes the answer with a single `write` whose result it ignores, and goes
on.  The cooperative runtime and the `agentvfs` tool each bring a client of their own, and any
other process may connect too.  Bytes are taken from a stream in the order they were put there;
how many one call takes, when a call fails and what the handler answers is left open.
-/

namespace ContextFS
namespace ControlChannel

open Lib

/-- `'\n'`. -/
def newline : UInt8 := 10

/-- The cap of `serve_client` and `kMaxLine` of the runtime's client: 64 KiB. -/
def maxLine : Nat := 64 * 1024

/-- The cap of `send_control_line`: 128 KiB. -/
def maxResponse : Nat := 128 * 1024

/-- Who is at the other end: `control_request` of `runtime_io.h`, `send_control_line` of the tool,
or a process that keeps to no protocol. -/
inductive Program
  | controlRequest (line : Bytes)
  | sendControlLine (line : Bytes)
  | other
deriving DecidableEq

/-- What a client writes; the tool adds a newline only where there is none. -/
def Program.message : Program → Bytes
  | .controlRequest line => line ++ [newline]
  | .sendControlLine line => if line.getLast? = some newline then line else line ++ [newline]
  | .other => []

/-- Where a client's call is: `rest` is still to be written, `got` was read so far. -/
inductive Client
  | sending (rest : Bytes)
  | receiving (got : Bytes)
  | returned (result : Except String Bytes)

/-- The text of a failing write; `reason` is `strerror(errno)`. -/
def Program.writeError (program : Program) (reason : String) : String :=
  match program with
  | .sendControlLine _ => "write control socket: " ++ reason
  | _ => reason

/-- One turn of the reading loop, `read_line_fd` or the loop of `send_control_line`. -/
def Program.receive (program : Program) (got : Bytes) (ch : UInt8) : Client :=
  if ch = newline then .returned (.ok got)
  else
    match program with
    | .sendControlLine _ =>
        if maxResponse ≤ (got ++ [ch]).length then .returned (.ok (got ++ [ch]))
        else .receiving (got ++ [ch])
    | _ =>
        if maxLine < (got ++ [ch]).length then .returned (.error "no response line")
        else .receiving (got ++ [ch])

/-- The reading loop meets the end of the stream, an error or its timeout. -/
def Program.readEnds (program : Program) (got : Bytes) : Except String Bytes :=
  match program with
  | .sendControlLine _ =>
      if got = [] then .error "control socket closed without response" else .ok got
  | _ => .error "no response line"

/-- Where `serve_client` is: not yet accepted, collecting a line, inside `handler_`, returned. -/
inductive Server
  | backlog
  | reading (buf : Bytes)
  | running (request : Bytes)
  | closed

/-- One connection, with the bytes on their way in both directions and what has happened on it:
all the client `sent`, the `requests` handed to the handler, its `responses`, what was `written`
for each of them, and what the client has `read`.  Its worker is `retired` once it has counted
itself out. -/
structure Connection where
  program : Program
  client : Client
  clientClosed : Bool := false
  up : Bytes := []
  down : Bytes := []
  server : Server := .backlog
  retired : Bool := false
  sent : Bytes := []
  requests : List Bytes := []
  responses : List Bytes := []
  written : List Bytes := []
  read : Bytes := []

/-- A process has connected. -/
def Connection.fresh (program : Program) : Connection where
  program := program
  client := .sending program.message

/-- What can happen on a connection. -/
inductive ConnectionEvent
  /-- `write` or `send` takes `n` bytes of the client. -/
  | write (n : Nat)
  /-- It fails. -/
  | writeFails (reason : String)
  /-- The client's `read` gives a byte. -/
  | read
  /-- It meets the end of the stream. -/
  | readEnds
  /-- It fails or times out. -/
  | readFails
  /-- A process without a protocol writes something. -/
  | push (bytes : Bytes)
  /-- It closes its end. -/
  | hangUp
  /-- The server's `read` gives a byte. -/
  | serve
  /-- It meets the end of the stream. -/
  | serveEnds
  /-- It fails. -/
  | serveFails
  /-- `handler_` returns `response`, and `n` bytes of the answer are written. -/
  | respond (response : Bytes) (n : Nat)

namespace Connection

/-- A client's call returns; it closes the socket first. -/
def finish (x : Connection) (result : Except String Bytes) : Connection :=
  { x with client := .returned result, clientClosed := true }

/-- The client's state after its reading loop took a byte. -/
def follow (x : Connection) : Client → Connection
  | .returned result => x.finish result
  | client => { x with client := client }

/-- What `serve_client` does with one byte. -/
def serveByte (x : Connection) (buf : Bytes) (ch : UInt8) : Connection :=
  if ch = newline then { x with server := .running buf, requests := x.requests ++ [buf] }
  else if maxLine < (buf ++ [ch]).length then { x with server := .closed }
  else { x with server := .reading (buf ++ [ch]) }

/-- One step of one side; an event that cannot happen now gives nothing. -/
def step (x : Connection) : ConnectionEvent → Option Connection
  | .write n =>
      match x.client with
      | .sending rest =>
          if 0 < n ∧ n ≤ rest.length then
            some { x with
              client := if n = rest.length then .receiving [] else .sending (rest.drop n)
              up := x.up ++ rest.take n
              sent := x.sent ++ rest.take n }
          else none
      | _ => none
  | .writeFails reason =>
      match x.client with
      | .sending _ =>
          if x.program = .other then none
          else some (x.finish (.error (x.program.writeError reason)))
      | _ => none
  | .read =>
      match x.client, x.down with
      | .receiving got, ch :: down =>
          some ({ x with down := down, read := x.read ++ [ch] }.follow (x.program.receive got ch))
      | _, _ => none
  | .readEnds =>
      match x.client, x.down, x.server with
      -- the end of the stream is seen only after all bytes are read
      | .receiving got, [], .closed => some (x.finish (x.program.readEnds got))
      | _, _, _ => none
  | .readFails =>
      match x.client with
      | .receiving got => some (x.finish (x.program.readEnds got))
      | _ => none
  | .push bytes =>
      if x.program = .other ∧ x.clientClosed = false then
        some { x with up := x.up ++ bytes, sent := x.sent ++ bytes }
      else none
  | .hangUp => if x.program = .other then some { x with clientClosed := true } else none
  | .serve =>
      match x.server, x.up with
      | .reading buf, ch :: up => some ({ x with up := up }.serveByte buf ch)
      | _, _ => none
  | .serveEnds =>
      match x.server, x.up with
      | .reading _, [] => if x.clientClosed then some { x with server := .closed } else none
      | _, _ => none
  | .serveFails =>
      match x.server with
      | .reading _ => some { x with server := .closed }
      | _ => none
  | .respond response n =>
      match x.server with
      | .running _ =>
          -- the write may be cut short; the worker goes on reading all the same
          if n ≤ (response ++ [newline]).length then
            some { x with
              server := .reading []
              down := x.down ++ (response ++ [newline]).take n
              responses := x.responses ++ [response]
              written := x.written ++ [(response ++ [newline]).take n] }
          else none
      | _ => none

/-- A worker was started for this connection and is still counted. -/
def working (x : Connection) : Bool :=
  match x.server with
  | .backlog => false
  | _ => !x.retired

end Connection

/-! ## The socket -/

/-- `ControlSocket`; `stopped` says that `stop()` has returned. -/
structure ControlSocket where
  connections : List Connection := []
  accepting : Bool := true
  stopFlag : Bool := false
  activeWorkers : Nat := 0
  stopped : Bool := false

inductive SocketEvent
  /-- A process connects. -/
  | connect (program : Program)
  /-- `accept` returns a connection, a worker is counted and its thread is started. -/
  | accept (i : Nat)
  /-- `accept_loop` sees `stop_` and returns. -/
  | acceptEnds
  /-- Something happens on a connection. -/
  | on (i : Nat) (e : ConnectionEvent)
  /-- A worker whose `serve_client` has returned counts itself out. -/
  | retire (i : Nat)
  /-- `stop` sets its flag. -/
  | stop
  /-- `stop` returns: `accept_loop` has been joined and no worker is active. -/
  | stopReturns

namespace ControlSocket

/-- One step of the system. -/
def step (s : ControlSocket) : SocketEvent → Option ControlSocket
  | .connect program =>
      some { s with connections := s.connections ++ [.fresh program] }
  | .accept i =>
      match s.connections[i]? with
      | some x =>
          match x.server with
          | .backlog =>
              if s.accepting then
                some { s with
                  connections := s.connections.set i { x with server := .reading [] }
                  activeWorkers := s.activeWorkers + 1 }
              else none
          | _ => none
      | none => none
  | .acceptEnds => if s.stopFlag then some { s with accepting := false } else none
  | .on i e => do
      let x ← s.connections[i]?
      let x' ← x.step e
      some { s with connections := s.connections.set i x' }
  | .retire i =>
      match s.connections[i]? with
      | some x =>
          match x.server with
          | .closed =>
              if x.retired then none
              else
                some { s with
                  connections := s.connections.set i { x with retired := true }
                  activeWorkers := s.activeWorkers - 1 }
          | _ => none
      | none => none
  | .stop => some { s with stopFlag := true }
  | .stopReturns =>
      if s.stopFlag ∧ s.accepting = false ∧ s.activeWorkers = 0 then some { s with stopped := true }
      else none

/-- The states of a socket nobody has connected to yet and everything that can follow. -/
abbrev Reached : ControlSocket → Prop :=
  Reaches (fun s => s = {}) fun s e s' => s.step e = some s'

end ControlSocket
end ControlChannel
end ContextFS
