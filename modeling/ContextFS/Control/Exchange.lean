import ContextFS.Control.Channel

/-!
# One request, one answer

What a connection of the control socket keeps however its two sides and the handler take turns:
the handler gets complete lines only, in the order they were sent and none of them twice, and a
client that reports success has the answer to its own request.
-/

namespace ContextFS
namespace ControlChannel

open Lib

/-- A client goes on reading while it has less than this. -/
def Program.room : Program → Nat
  | .sendControlLine _ => maxResponse
  | _ => maxLine + 1

theorem Program.room_pos (program : Program) : 0 < program.room := by
  cases program
  · exact Nat.succ_pos _
  · exact (by decide : 0 < maxResponse)
  · exact Nat.succ_pos _

theorem Program.receive_newline (program : Program) (got : Bytes) :
    program.receive got newline = .returned (.ok got) := if_pos rfl

/-- What a byte that ends no line does to a client. -/
theorem Program.receive_cases {program : Program} {got : Bytes} {ch : UInt8}
    (hother : program ≠ .other) (hch : ch ≠ newline) (hroom : got.length < program.room) :
    program.receive got ch = .receiving (got ++ [ch]) ∧ (got ++ [ch]).length < program.room ∨
      (∃ line, program = .sendControlLine line) ∧
        program.receive got ch = .returned (.ok (got ++ [ch])) ∧
        (got ++ [ch]).length ≤ maxResponse ∨
      program.receive got ch = .returned (.error "no response line") := by
  unfold Program.receive
  rw [if_neg hch]
  cases program with
  | controlRequest line =>
      by_cases hcap : maxLine < (got ++ [ch]).length
      · exact Or.inr (Or.inr (if_pos hcap))
      · exact Or.inl ⟨if_neg hcap, Nat.lt_succ_of_le (Nat.le_of_not_lt hcap)⟩
  | sendControlLine line =>
      by_cases hcap : maxResponse ≤ (got ++ [ch]).length
      · have hlen : (got ++ [ch]).length ≤ maxResponse := by
          rw [List.length_append, List.length_singleton]
          exact hroom
        exact Or.inr (Or.inl ⟨⟨line, rfl⟩, if_pos hcap, hlen⟩)
      · exact Or.inl ⟨if_neg hcap, Nat.lt_of_not_le hcap⟩
  | other => exact absurd rfl hother

/-- Requests the handler still works on. -/
def Server.unanswered : Server → Nat
  | .running _ => 1
  | _ => 0

namespace Connection

variable {x x' : Connection}

/-- What one step of `x` can be: the guard of each event and where it leads. -/
inductive Moved (x : Connection) : ConnectionEvent → Connection → Prop
  | write {rest : Bytes} {n : Nat} (hclient : x.client = .sending rest)
      (hn : 0 < n ∧ n ≤ rest.length) :
      Moved x (.write n) { x with
        client := if n = rest.length then .receiving [] else .sending (rest.drop n)
        up := x.up ++ rest.take n
        sent := x.sent ++ rest.take n }
  | writeFails {rest : Bytes} {reason : String} (hclient : x.client = .sending rest)
      (hother : x.program ≠ .other) :
      Moved x (.writeFails reason) (x.finish (.error (x.program.writeError reason)))
  | read {got : Bytes} {ch : UInt8} {down : Bytes} (hclient : x.client = .receiving got)
      (hdown : x.down = ch :: down) :
      Moved x .read
        ({ x with down := down, read := x.read ++ [ch] }.follow (x.program.receive got ch))
  | readEnds {got : Bytes} (hclient : x.client = .receiving got) (hdown : x.down = [])
      (hserver : x.server = .closed) : Moved x .readEnds (x.finish (x.program.readEnds got))
  | readFails {got : Bytes} (hclient : x.client = .receiving got) :
      Moved x .readFails (x.finish (x.program.readEnds got))
  | push {bytes : Bytes} (hother : x.program = .other) (hopen : x.clientClosed = false) :
      Moved x (.push bytes) { x with up := x.up ++ bytes, sent := x.sent ++ bytes }
  | hangUp (hother : x.program = .other) : Moved x .hangUp { x with clientClosed := true }
  | serve {buf : Bytes} {ch : UInt8} {up : Bytes} (hserver : x.server = .reading buf)
      (hup : x.up = ch :: up) : Moved x .serve ({ x with up := up }.serveByte buf ch)
  | serveEnds {buf : Bytes} (hserver : x.server = .reading buf) (hup : x.up = [])
      (hclosed : x.clientClosed = true) : Moved x .serveEnds { x with server := .closed }
  | serveFails {buf : Bytes} (hserver : x.server = .reading buf) :
      Moved x .serveFails { x with server := .closed }
  | respond {request response : Bytes} {n : Nat} (hserver : x.server = .running request)
      (hn : n ≤ (response ++ [newline]).length) :
      Moved x (.respond response n) { x with
        server := .reading []
        down := x.down ++ (response ++ [newline]).take n
        responses := x.responses ++ [response]
        written := x.written ++ [(response ++ [newline]).take n] }

theorem moved_of_step {e : ConnectionEvent} (hs : x.step e = some x') : x.Moved e x' := by
  cases e with
  | write n =>
      simp only [step] at hs
      split at hs
      · rename_i rest hclient
        obtain ⟨hn, heq⟩ := Option.ite_none_right_eq_some.1 hs
        exact Option.some.inj heq ▸ .write hclient hn
      · cases hs
  | writeFails reason =>
      simp only [step] at hs
      split at hs
      · rename_i rest hclient
        obtain ⟨hother, heq⟩ := Option.ite_none_left_eq_some.1 hs
        exact Option.some.inj heq ▸ .writeFails hclient hother
      · cases hs
  | read =>
      simp only [step] at hs
      split at hs
      · rename_i got ch down hclient hdown
        exact Option.some.inj hs ▸ .read hclient hdown
      · cases hs
  | readEnds =>
      simp only [step] at hs
      split at hs
      · rename_i got hclient hdown hserver
        exact Option.some.inj hs ▸ .readEnds hclient hdown hserver
      · cases hs
  | readFails =>
      simp only [step] at hs
      split at hs
      · rename_i got hclient
        exact Option.some.inj hs ▸ .readFails hclient
      · cases hs
  | push bytes =>
      obtain ⟨hopen, heq⟩ := Option.ite_none_right_eq_some.1 hs
      exact Option.some.inj heq ▸ .push hopen.1 hopen.2
  | hangUp =>
      obtain ⟨hother, heq⟩ := Option.ite_none_right_eq_some.1 hs
      exact Option.some.inj heq ▸ .hangUp hother
  | serve =>
      simp only [step] at hs
      split at hs
      · rename_i buf ch up hserver hup
        exact Option.some.inj hs ▸ .serve hserver hup
      · cases hs
  | serveEnds =>
      simp only [step] at hs
      split at hs
      · rename_i buf hserver hup
        obtain ⟨hclosed, heq⟩ := Option.ite_none_right_eq_some.1 hs
        exact Option.some.inj heq ▸ .serveEnds hserver hup hclosed
      · cases hs
  | serveFails =>
      simp only [step] at hs
      split at hs
      · rename_i buf hserver
        exact Option.some.inj hs ▸ .serveFails hserver
      · cases hs
  | respond response n =>
      simp only [step] at hs
      split at hs
      · rename_i request hserver
        obtain ⟨hn, heq⟩ := Option.ite_none_right_eq_some.1 hs
        exact Option.some.inj heq ▸ .respond hserver hn
      · cases hs

/-- What was sent behind the last complete request: the server has some of it, the rest is on its
way. -/
def Behind (x : Connection) (rest : Bytes) : Prop :=
  match x.server with
  | .backlog => rest = x.up
  | .reading buf => rest = buf ++ x.up ∧ newline ∉ buf ∧ buf.length ≤ maxLine
  | .running _ => rest = x.up
  | .closed => True

/-- The server's side: complete lines only, and answers in their order. -/
structure ServerSound (x : Connection) : Prop where
  clean : ∀ r ∈ x.requests, newline ∉ r ∧ r.length ≤ maxLine
  behind : ∃ rest, x.sent = joinLines newline x.requests ++ rest ∧ x.Behind rest
  answered : x.requests.length = x.responses.length + x.server.unanswered
  written : List.Forall₂ (fun piece response => piece <+: response ++ [newline])
    x.written x.responses
  stream : x.written.flatten = x.read ++ x.down

/-- What a client that has its answer has read: a line with its end, or, for the tool, a part
of one. -/
def Accepted (x : Connection) (answer : Bytes) : Prop :=
  x.read = answer ++ [newline] ∧ answer.length < x.program.room ∨
    (∃ line, x.program = .sendControlLine line) ∧ answer ≠ [] ∧ x.read = answer ∧
      answer.length ≤ maxResponse

/-- The client's side. -/
def ClientSound (x : Connection) : Prop :=
  match x.client with
  | .sending rest => x.read = [] ∧ (x.program = .other → rest = []) ∧
      (x.program ≠ .other → x.sent ++ rest = x.program.message)
  | .receiving got => x.read = got ∧ newline ∉ got ∧ got.length < x.program.room ∧
      x.program ≠ .other ∧ x.sent = x.program.message
  | .returned (.ok answer) => newline ∉ answer ∧ x.program ≠ .other ∧
      x.sent = x.program.message ∧ x.Accepted answer
  | .returned (.error _) => x.program ≠ .other ∧ x.sent <+: x.program.message

/-- Both sides. -/
structure Sound (x : Connection) : Prop where
  server : x.ServerSound
  client : x.ClientSound

theorem sound_fresh (program : Program) : (fresh program).Sound where
  server :=
    { clean := fun r hr => by cases hr
      behind := ⟨[], rfl, rfl⟩
      answered := rfl
      written := .nil
      stream := rfl }
  client := by
    refine ⟨rfl, fun hother => ?_, fun _ => rfl⟩
    change program = .other at hother
    rw [hother]
    rfl

/-! ## The server's side -/

namespace ServerSound

/-- Nothing of the server's side depends on where the client is. -/
theorem setClient (h : x.ServerSound) (client : Client) (closed : Bool) :
    ServerSound { x with client := client, clientClosed := closed } :=
  ⟨h.clean, h.behind, h.answered, h.written, h.stream⟩

theorem follow (h : x.ServerSound) (client : Client) : (x.follow client).ServerSound := by
  cases client with
  | sending rest => exact h.setClient (.sending rest) x.clientClosed
  | receiving got => exact h.setClient (.receiving got) x.clientClosed
  | returned result => exact h.setClient (.returned result) true

/-- More bytes are put into the stream. -/
theorem send (h : x.ServerSound) (bytes : Bytes) :
    ServerSound { x with up := x.up ++ bytes, sent := x.sent ++ bytes } := by
  refine ⟨h.clean, ?_, h.answered, h.written, h.stream⟩
  obtain ⟨rest, hsent, hrest⟩ := h.behind
  refine ⟨rest ++ bytes, by simp [hsent], ?_⟩
  unfold Behind at hrest ⊢
  cases hserver : x.server with
  | backlog =>
      simp only [hserver] at hrest ⊢
      rw [hrest]
  | reading buf =>
      simp only [hserver] at hrest ⊢
      obtain ⟨rfl, hclean, hlen⟩ := hrest
      exact ⟨List.append_assoc .., hclean, hlen⟩
  | running request =>
      simp only [hserver] at hrest ⊢
      rw [hrest]
  | closed => trivial

/-- The client takes a byte from the stream of answers. -/
theorem receive (h : x.ServerSound) {ch : UInt8} {down : Bytes} (hdown : x.down = ch :: down) :
    ServerSound { x with down := down, read := x.read ++ [ch] } := by
  refine ⟨h.clean, h.behind, h.answered, h.written, ?_⟩
  simp [h.stream, hdown]

/-- `serve_client` is entered. -/
theorem accept (h : x.ServerSound) (hserver : x.server = .backlog) :
    ServerSound { x with server := .reading [] } := by
  refine ⟨h.clean, ?_, ?_, h.written, h.stream⟩
  · obtain ⟨rest, hsent, hrest⟩ := h.behind
    simp only [Behind, hserver] at hrest
    exact ⟨rest, hsent, hrest, List.not_mem_nil, Nat.zero_le _⟩
  · simpa [hserver, Server.unanswered] using h.answered

/-- `serve_client` returns from its loop. -/
theorem close (h : x.ServerSound) {buf : Bytes} (hserver : x.server = .reading buf) :
    ServerSound { x with server := .closed } := by
  refine ⟨h.clean, ?_, ?_, h.written, h.stream⟩
  · obtain ⟨rest, hsent, -⟩ := h.behind
    exact ⟨rest, hsent, trivial⟩
  · simpa [hserver, Server.unanswered] using h.answered

/-- One byte of the stream is served. -/
theorem serveByte (h : x.ServerSound) {buf : Bytes} {ch : UInt8} {up : Bytes}
    (hserver : x.server = .reading buf) (hup : x.up = ch :: up) :
    ServerSound (({ x with up := up } : Connection).serveByte buf ch) := by
  obtain ⟨rest, hsent, hrest⟩ := h.behind
  simp only [Behind, hserver, hup] at hrest
  obtain ⟨rfl, hclean, hlen⟩ := hrest
  have hans : x.requests.length = x.responses.length := by
    simpa [hserver, Server.unanswered] using h.answered
  unfold Connection.serveByte
  split
  · rename_i hch
    subst hch
    refine ⟨?_, ⟨up, ?_, rfl⟩, ?_, h.written, h.stream⟩
    · intro r hr
      rcases List.mem_append.1 hr with hr | hr
      · exact h.clean r hr
      · rw [List.mem_singleton.1 hr]
        exact ⟨hclean, hlen⟩
    · simp [hsent]
    · simp [Server.unanswered, hans]
  · rename_i hch
    split
    · exact ⟨h.clean, ⟨_, hsent, trivial⟩, by simpa [Server.unanswered] using hans,
        h.written, h.stream⟩
    · rename_i hcap
      refine ⟨h.clean, ⟨_, hsent, ?_, ?_, Nat.le_of_not_lt hcap⟩,
        by simpa [Server.unanswered] using hans, h.written, h.stream⟩
      · simp
      · simpa using ⟨hclean, fun heq => hch heq.symm⟩

/-- The handler returns and some of its answer is written. -/
theorem respond (h : x.ServerSound) {request : Bytes} (hserver : x.server = .running request)
    (response : Bytes) (n : Nat) :
    ServerSound { x with
      server := .reading []
      down := x.down ++ (response ++ [newline]).take n
      responses := x.responses ++ [response]
      written := x.written ++ [(response ++ [newline]).take n] } := by
  obtain ⟨rest, hsent, hrest⟩ := h.behind
  simp only [Behind, hserver] at hrest
  refine ⟨h.clean, ⟨rest, hsent, hrest, List.not_mem_nil, Nat.zero_le _⟩, ?_, ?_, ?_⟩
  · simpa [hserver, Server.unanswered] using h.answered
  · exact List.rel_append h.written (.cons (List.take_prefix _ _) .nil)
  · simp [h.stream]

end ServerSound

/-! ## The client's side -/

/-- A client that has read a byte is still as it should be. -/
theorem ClientSound.receive {got : Bytes} (h : x.ClientSound) (hclient : x.client = .receiving got)
    (ch : UInt8) (down : Bytes) :
    ClientSound (({ x with down := down, read := x.read ++ [ch] } : Connection).follow
      (x.program.receive got ch)) := by
  simp only [ClientSound, hclient] at h
  obtain ⟨rfl, hclean, hroom, hother, hsent⟩ := h
  by_cases hch : ch = newline
  · subst hch
    rw [Program.receive_newline]
    exact ⟨hclean, hother, hsent, Or.inl ⟨rfl, hroom⟩⟩
  · have hmore : newline ∉ x.read ++ [ch] := by simpa using ⟨hclean, fun heq => hch heq.symm⟩
    rcases Program.receive_cases hother hch hroom with ⟨hnext, hless⟩ | ⟨htool, hnext, hlen⟩ | hnext
    · rw [hnext]
      exact ⟨rfl, hmore, hless, hother, hsent⟩
    · rw [hnext]
      exact ⟨hmore, hother, hsent, Or.inr ⟨htool, by simp, rfl, hlen⟩⟩
    · rw [hnext]
      exact ⟨hother, hsent ▸ List.prefix_refl _⟩

/-- The end of the stream leaves a client with what it has. -/
theorem ClientSound.readEnds {got : Bytes} (h : x.ClientSound) (hclient : x.client = .receiving got) :
    ClientSound (x.finish (x.program.readEnds got)) := by
  simp only [ClientSound, hclient] at h
  obtain ⟨rfl, hclean, hroom, hother, hsent⟩ := h
  have hpre : x.sent <+: x.program.message := hsent.symm ▸ List.prefix_refl _
  cases hprogram : x.program with
  | sendControlLine line =>
      simp only [hprogram, Program.room] at hroom
      unfold Program.readEnds
      simp only
      split
      · exact ⟨hother, hpre⟩
      · rename_i hsome
        exact ⟨hclean, hother, hsent, Or.inr ⟨⟨line, hprogram⟩, hsome, rfl, Nat.le_of_lt hroom⟩⟩
  | controlRequest line => exact ⟨hother, hpre⟩
  | other => exact absurd hprogram hother

/-- What a client has put into the stream is a front part of its message. -/
theorem ClientSound.write {rest : Bytes} (h : x.ClientSound) (hclient : x.client = .sending rest)
    (n : Nat) (hprogram : x.program ≠ .other) :
    ClientSound { x with
      client := if n = rest.length then .receiving [] else .sending (rest.drop n)
      up := x.up ++ rest.take n
      sent := x.sent ++ rest.take n } := by
  simp only [ClientSound, hclient] at h
  obtain ⟨hread, -, hmessage⟩ := h
  by_cases hall : n = rest.length
  · rw [if_pos hall]
    have hsent : x.sent ++ rest.take n = x.program.message := by
      rw [hall, List.take_length, hmessage hprogram]
    exact ⟨hread, List.not_mem_nil, x.program.room_pos, hprogram, hsent⟩
  · rw [if_neg hall]
    refine ⟨hread, fun hother => absurd hother hprogram, fun _ => ?_⟩
    show (x.sent ++ rest.take n) ++ rest.drop n = x.program.message
    rw [List.append_assoc, List.take_append_drop, hmessage hprogram]

/-- A process without a protocol is not bound to a message. -/
theorem ClientSound.push (h : x.ClientSound) (hother : x.program = .other) (bytes : Bytes) :
    ClientSound { x with up := x.up ++ bytes, sent := x.sent ++ bytes } := by
  cases hclient : x.client with
  | sending rest =>
      simp only [ClientSound, hclient] at h ⊢
      exact ⟨h.1, h.2.1, fun hne => absurd hother hne⟩
  | receiving got =>
      simp only [ClientSound, hclient] at h
      exact absurd hother h.2.2.2.1
  | returned result =>
      cases result with
      | ok answer =>
          simp only [ClientSound, hclient] at h
          exact absurd hother h.2.1
      | error message =>
          simp only [ClientSound, hclient] at h
          exact absurd hother h.1

theorem ClientSound.serveByte (h : x.ClientSound) (up buf : Bytes) (ch : UInt8) :
    ClientSound (({ x with up := up } : Connection).serveByte buf ch) := by
  unfold Connection.serveByte
  split
  · exact h
  · split
    · exact h
    · exact h

/-- Every step of either side keeps both as they should be. -/
theorem Sound.step (h : x.Sound) {e : ConnectionEvent} (hs : x.step e = some x') : x'.Sound := by
  obtain ⟨hserver, hclient⟩ := h
  cases moved_of_step hs with
  | @write rest n hsending hn =>
      have hother : x.program ≠ .other := by
        intro heq
        simp only [ClientSound, hsending] at hclient
        rw [hclient.2.1 heq] at hn
        exact absurd hn.1 (Nat.not_lt.2 hn.2)
      exact ⟨(hserver.send (rest.take n)).setClient _ _, hclient.write hsending n hother⟩
  | @writeFails rest reason hsending hother =>
      simp only [ClientSound, hsending] at hclient
      exact ⟨hserver.setClient _ _, hother, ⟨rest, hclient.2.2 hother⟩⟩
  | @read got ch down hreceiving hdown =>
      exact ⟨(hserver.receive hdown).follow _, hclient.receive hreceiving ch down⟩
  | readEnds hreceiving => exact ⟨hserver.setClient _ _, hclient.readEnds hreceiving⟩
  | readFails hreceiving => exact ⟨hserver.setClient _ _, hclient.readEnds hreceiving⟩
  | @push bytes hother hopen => exact ⟨hserver.send bytes, hclient.push hother bytes⟩
  | hangUp => exact ⟨hserver.setClient x.client true, hclient⟩
  | @serve buf ch up hreading hup =>
      exact ⟨hserver.serveByte hreading hup, hclient.serveByte up buf ch⟩
  | serveEnds hreading => exact ⟨hserver.close hreading, hclient⟩
  | serveFails hreading => exact ⟨hserver.close hreading, hclient⟩
  | @respond request response n hrunning hn => exact ⟨hserver.respond hrunning response n, hclient⟩

/-! ## Workers -/

theorem working_fresh (program : Program) : (fresh program).working = false := rfl

theorem working_of_ne {x : Connection} (h : x.server ≠ .backlog) : x.working = !x.retired := by
  unfold working
  cases hserver : x.server with
  | backlog => exact absurd hserver h
  | reading buf => rfl
  | running request => rfl
  | closed => rfl

@[simp]
theorem follow_client (x : Connection) (client : Client) : (x.follow client).client = client := by
  cases client <;> rfl

/-- Reading loops of the client do not touch the server. -/
theorem follow_server (x : Connection) (client : Client) :
    (x.follow client).server = x.server ∧ (x.follow client).retired = x.retired ∧
      (x.follow client).up = x.up ∧ (x.follow client).down = x.down := by
  cases client with
  | sending rest => exact ⟨rfl, rfl, rfl, rfl⟩
  | receiving got => exact ⟨rfl, rfl, rfl, rfl⟩
  | returned result => exact ⟨rfl, rfl, rfl, rfl⟩

/-- A byte never brings a connection back to the backlog. -/
theorem serveByte_server (x : Connection) (buf : Bytes) (ch : UInt8) :
    (x.serveByte buf ch).server ≠ .backlog ∧ (x.serveByte buf ch).retired = x.retired := by
  unfold serveByte
  split
  · exact ⟨nofun, rfl⟩
  · split
    · exact ⟨nofun, rfl⟩
    · exact ⟨nofun, rfl⟩

/-- A step starts no worker and retires none, and a closed connection stays closed. -/
theorem worker_step {e : ConnectionEvent} (hs : x.step e = some x') :
    x'.retired = x.retired ∧ (x'.server = .backlog ↔ x.server = .backlog) ∧
      (x.server = .closed → x'.server = .closed) := by
  cases moved_of_step hs with
  | write => exact ⟨rfl, Iff.rfl, id⟩
  | writeFails => exact ⟨rfl, Iff.rfl, id⟩
  | read =>
      obtain ⟨hserver, hretired, -, -⟩ := follow_server _ _
      rw [hserver, hretired]
      exact ⟨rfl, Iff.rfl, id⟩
  | readEnds => exact ⟨rfl, Iff.rfl, id⟩
  | readFails => exact ⟨rfl, Iff.rfl, id⟩
  | push => exact ⟨rfl, Iff.rfl, id⟩
  | hangUp => exact ⟨rfl, Iff.rfl, id⟩
  | @serve buf ch up hserver hup =>
      obtain ⟨hne, hretired⟩ := serveByte_server { x with up := up } buf ch
      have hopen : x.server ≠ .backlog ∧ x.server ≠ .closed := by
        rw [hserver]
        exact ⟨nofun, nofun⟩
      exact ⟨hretired, ⟨fun h => absurd h hne, fun h => absurd h hopen.1⟩,
        fun h => absurd h hopen.2⟩
  | serveEnds hserver =>
      rw [hserver]
      exact ⟨rfl, ⟨nofun, nofun⟩, fun _ => rfl⟩
  | serveFails hserver =>
      rw [hserver]
      exact ⟨rfl, ⟨nofun, nofun⟩, fun _ => rfl⟩
  | respond hserver =>
      rw [hserver]
      exact ⟨rfl, ⟨nofun, nofun⟩, nofun⟩

theorem working_step {e : ConnectionEvent} (hs : x.step e = some x') : x'.working = x.working := by
  obtain ⟨hretired, hbacklog, -⟩ := worker_step hs
  by_cases h : x.server = .backlog
  · have h' := hbacklog.2 h
    simp [working, h, h']
  · rw [working_of_ne h, working_of_ne (fun h' => h (hbacklog.1 h')), hretired]

end Connection

/-! ## The whole socket -/

namespace ControlSocket

variable {s s' : ControlSocket}

/-- What holds of the socket at any time. -/
structure Ok (s : ControlSocket) : Prop where
  sound : ∀ x ∈ s.connections, x.Sound
  retired : ∀ x ∈ s.connections, x.retired = true → x.server = .closed
  counted : s.activeWorkers = s.connections.countP Connection.working
  stopped : s.stopped = true → s.accepting = false ∧ s.activeWorkers = 0

theorem ok_start : Ok {} where
  sound := fun x hx => by cases hx
  retired := fun x hx => by cases hx
  counted := rfl
  stopped := fun h => by cases h

/-- A connection is replaced by one that is as it should be. -/
theorem Ok.set (h : s.Ok) {i : Nat} {x : Connection} (x' : Connection) (hx : s.connections[i]? = some x)
    (hsound : x'.Sound) (hretired : x'.retired = true → x'.server = .closed) {workers : Nat}
    (hworkers : workers + (if x.working then 1 else 0) =
      s.activeWorkers + (if x'.working then 1 else 0))
    (hstopped : s.stopped = true → workers = 0) :
    Ok { s with connections := s.connections.set i x', activeWorkers := workers } where
  sound := by
    intro y hy
    rcases List.mem_or_eq_of_mem_set hy with hy | rfl
    · exact h.sound y hy
    · exact hsound
  retired := by
    intro y hy
    rcases List.mem_or_eq_of_mem_set hy with hy | rfl
    · exact h.retired y hy
    · exact hretired
  counted := by
    obtain ⟨hi, hget⟩ := List.getElem?_eq_some_iff.1 hx
    have hle : (if x.working then 1 else 0) ≤ s.connections.countP Connection.working := by
      rw [← hget]
      exact List.boole_getElem_le_countP hi
    have hcount := h.counted
    show workers = (s.connections.set i x').countP Connection.working
    rw [List.countP_set hi, hget]
    omega
  stopped := fun hstop => ⟨(h.stopped hstop).1, hstopped hstop⟩

theorem Ok.step (h : s.Ok) {e : SocketEvent} (hs : s.step e = some s') : s'.Ok := by
  cases e with
  | connect program =>
      cases hs
      refine ⟨?_, ?_, ?_, h.stopped⟩
      · intro x hx
        rcases List.mem_append.1 hx with hx | hx
        · exact h.sound x hx
        · rw [List.mem_singleton.1 hx]
          exact Connection.sound_fresh program
      · intro x hx
        rcases List.mem_append.1 hx with hx | hx
        · exact h.retired x hx
        · rw [List.mem_singleton.1 hx]
          intro hretired
          cases hretired
      · simpa [Connection.working_fresh] using h.counted
  -- the worker is counted from here on
  | accept i =>
      simp only [ControlSocket.step] at hs
      split at hs
      · rename_i x hx
        split at hs
        · rename_i hbacklog
          split at hs
          · rename_i haccepting
            cases hs
            have hmem := List.mem_of_getElem? hx
            have hretired : x.retired = false := by
              cases hret : x.retired with
              | false => rfl
              | true =>
                  have hclosed := h.retired x hmem hret
                  rw [hbacklog] at hclosed
                  cases hclosed
            refine h.set _ hx ⟨(h.sound x hmem).server.accept hbacklog, (h.sound x hmem).client⟩ ?_ ?_ ?_
            · intro hret
              rw [hretired] at hret
              cases hret
            · simp [Connection.working, hbacklog, hretired]
            · intro hstop
              rw [(h.stopped hstop).1] at haccepting
              cases haccepting
          · cases hs
        · cases hs
      · cases hs
  | acceptEnds =>
      simp only [ControlSocket.step] at hs
      split at hs
      · cases hs
        exact ⟨h.sound, h.retired, h.counted, fun hstop => ⟨rfl, (h.stopped hstop).2⟩⟩
      · cases hs
  | on i e =>
      simp only [ControlSocket.step, Option.bind_eq_bind, Option.bind_eq_some_iff] at hs
      obtain ⟨x, hx, x', hstep, hs⟩ := hs
      cases hs
      have hmem := List.mem_of_getElem? hx
      obtain ⟨hretired, -, hclosed⟩ := Connection.worker_step hstep
      refine h.set _ hx ((h.sound x hmem).step hstep) ?_ ?_ fun hstop => (h.stopped hstop).2
      · intro hret
        exact hclosed (h.retired x hmem (hretired ▸ hret))
      · rw [Connection.working_step hstep]
  -- the count goes down with the flag, so it stays positive until then
  | retire i =>
      simp only [ControlSocket.step] at hs
      split at hs
      · rename_i x hx
        split at hs
        · rename_i hclosed
          split at hs
          · cases hs
          · rename_i hretired
            cases hs
            have hmem := List.mem_of_getElem? hx
            have hsound := h.sound x hmem
            have hworks : x.working = true := by simp [Connection.working, hclosed, hretired]
            -- this worker is one of those counted
            have hpos : 0 < s.activeWorkers := by
              rw [h.counted]
              exact List.countP_pos_iff.2 ⟨x, hmem, hworks⟩
            refine h.set { x with retired := true } hx
              ⟨⟨hsound.server.clean, hsound.server.behind, hsound.server.answered,
                hsound.server.written, hsound.server.stream⟩, hsound.client⟩
              (fun _ => hclosed) ?_ ?_
            · have hgone : Connection.working { x with retired := true } = false := by
                simp [Connection.working, hclosed]
              simp only [hworks, hgone]
              simp
              omega
            · intro hstop
              rw [(h.stopped hstop).2]
        · cases hs
      · cases hs
  | stop =>
      cases hs
      exact ⟨h.sound, h.retired, h.counted, h.stopped⟩
  | stopReturns =>
      simp only [ControlSocket.step] at hs
      split at hs
      · rename_i hready
        cases hs
        exact ⟨h.sound, h.retired, h.counted, fun _ => hready.2⟩
      · cases hs

theorem Reached.ok (h : s.Reached) : s.Ok :=
  h.invariant (fun _ hs => hs ▸ ok_start) fun _ _ _ hok hs => hok.step hs

end ControlSocket

/-! ## What the handler gets -/

/-- Whoever is at the other end of a connection, and however reads, writes and failures fall, the
handler gets the complete lines of what was sent, in their order and each of them once; every
answer goes out in the order of the requests; and once `stop` has returned no connection is
served any more. -/
theorem ControlSocket.requests_are_lines {s : ControlSocket} (hs : s.Reached) {x : Connection}
    (hx : x ∈ s.connections) :
    (∀ r ∈ x.requests, newline ∉ r ∧ r.length ≤ maxLine) ∧
      (∃ rest, x.sent = joinLines newline x.requests ++ rest ∧
        ∀ buf, x.server = .reading buf → rest = buf ++ x.up ∧ newline ∉ buf) ∧
      (∃ pieces : List Bytes,
        List.Forall₂ (fun piece response => piece <+: response ++ [newline]) pieces x.responses ∧
          x.read ++ x.down = pieces.flatten) ∧
      x.responses.length ≤ x.requests.length ∧ x.requests.length ≤ x.responses.length + 1 ∧
      (s.stopped = true → x.server = .backlog ∨ x.server = .closed) := by
  have hok := hs.ok
  have hserver := (hok.sound x hx).server
  refine ⟨hserver.clean, ?_, ⟨x.written, hserver.written, hserver.stream.symm⟩, ?_, ?_, ?_⟩
  · obtain ⟨rest, hsent, hrest⟩ := hserver.behind
    refine ⟨rest, hsent, fun buf hreading => ?_⟩
    simp only [Connection.Behind, hreading] at hrest
    exact ⟨hrest.1, hrest.2.1⟩
  · rw [hserver.answered]
    exact Nat.le_add_right _ _
  · rw [hserver.answered]
    have hone : x.server.unanswered ≤ 1 := by
      cases x.server with
      | running request => exact Nat.le_refl 1
      | backlog => exact Nat.zero_le 1
      | reading buf => exact Nat.zero_le 1
      | closed => exact Nat.zero_le 1
    exact Nat.add_le_add_left hone _
  · intro hstopped
    have hnone : s.connections.countP Connection.working = 0 := by
      rw [← hok.counted]
      exact (hok.stopped hstopped).2
    have hidle : ¬ x.working = true := fun hworks =>
      absurd (List.countP_pos_iff.2 ⟨x, hx, hworks⟩) (by omega)
    by_cases hbacklog : x.server = .backlog
    · exact Or.inl hbacklog
    · rw [Connection.working_of_ne hbacklog, Bool.not_eq_true, Bool.not_eq_false'] at hidle
      exact Or.inr (hok.retired x hx hidle)

/-- A runtime asks `p`, is answered `ok`, and the daemon stops. -/
def exchangeRun : List SocketEvent :=
  [.connect (.controlRequest [112]), .accept 0, .on 0 (.write 1), .on 0 .serve, .on 0 (.write 1),
    .on 0 .serve, .on 0 (.respond [111, 107] 3), .on 0 .read, .on 0 .read, .on 0 .read,
    .on 0 .serveEnds, .retire 0, .stop, .acceptEnds, .stopReturns]

/-- The connection after that run. -/
def exchanged : Connection where
  program := .controlRequest [112]
  client := .returned (.ok [111, 107])
  clientClosed := true
  server := .closed
  retired := true
  sent := [112, 10]
  requests := [[112]]
  responses := [[111, 107]]
  written := [[111, 107, 10]]
  read := [111, 107, 10]

/-- The socket after that run. -/
def exchangedSocket : ControlSocket where
  connections := [exchanged]
  accepting := false
  stopFlag := true
  stopped := true

theorem reached_exchangedSocket : exchangedSocket.Reached :=
  Reaches.run exchangeRun (fun _ _ _ _ h => h) (.start rfl) (by rfl)

theorem requests_are_lines_exchanged :
    (∃ rest, exchanged.sent = joinLines newline [[112]] ++ rest) ∧
      (exchanged.server = .backlog ∨ exchanged.server = .closed) := by
  obtain ⟨-, ⟨rest, hsent, -⟩, -, -, -, hstopped⟩ :=
    ControlSocket.requests_are_lines reached_exchangedSocket List.mem_cons_self
  exact ⟨⟨rest, hsent⟩, hstopped rfl⟩

/-! ## What a client gets -/

/-- The line a client's call is about. -/
def Program.Asks (program : Program) (line : Bytes) : Prop :=
  program = .controlRequest line ∨ program = .sendControlLine line ∨
    program = .sendControlLine (line ++ [newline])

theorem Program.Asks.message {program : Program} {line : Bytes} (h : program.Asks line)
    (hline : newline ∉ line) : program.message = line ++ [newline] ∧ program ≠ .other := by
  rcases h with rfl | rfl | rfl
  · exact ⟨rfl, nofun⟩
  · refine ⟨if_neg fun hlast => hline ?_, nofun⟩
    exact List.mem_of_getLast? hlast
  · exact ⟨if_pos (by simp), nofun⟩

namespace Connection

variable {x : Connection}

/-- Nothing but the message is sent. -/
theorem Sound.sent_isFront (h : x.Sound) {line : Bytes} (hasks : x.program.Asks line)
    (hline : newline ∉ line) : x.sent <+: line ++ [newline] := by
  obtain ⟨hmessage, hother⟩ := hasks.message hline
  rw [← hmessage]
  have hclient := h.client
  unfold ClientSound at hclient
  cases hphase : x.client with
  | sending rest =>
      simp only [hphase] at hclient
      exact ⟨rest, hclient.2.2 hother⟩
  | receiving got =>
      simp only [hphase] at hclient
      exact hclient.2.2.2.2 ▸ List.prefix_refl _
  | returned result =>
      cases result with
      | ok answer =>
          simp only [hphase] at hclient
          exact hclient.2.2.1 ▸ List.prefix_refl _
      | error message =>
          simp only [hphase] at hclient
          exact hclient.2

/-- So nothing but its line is requested. -/
theorem Sound.requests (h : x.Sound) {line : Bytes} (hasks : x.program.Asks line)
    (hline : newline ∉ line) : x.requests = [] ∨ x.requests = [line] := by
  obtain ⟨rest, hrest, -⟩ := h.server.behind
  have hjoin : joinLines newline x.requests <+: line ++ [newline] :=
    List.IsPrefix.trans ⟨rest, hrest.symm⟩ (h.sent_isFront hasks hline)
  exact lines_of_prefix_line (fun r hr => (h.server.clean r hr).1) hline hjoin

/-- Something was read, so the one request was answered, and what was read is of that answer. -/
theorem ServerSound.response (h : x.ServerSound) {line : Bytes}
    (hrequests : x.requests = [] ∨ x.requests = [line]) (hread : x.read ≠ []) :
    ∃ response, x.requests = [line] ∧ x.responses = [response] ∧
      x.read <+: response ++ [newline] := by
  have hanswered := h.answered
  have hstream := h.stream
  cases hresponses : x.responses with
  | nil =>
      have hwritten : x.written = [] := List.forall₂_nil_right_iff.1 (hresponses ▸ h.written)
      rw [hwritten, List.flatten_nil] at hstream
      exact absurd (List.append_eq_nil_iff.1 hstream.symm).1 hread
  | cons response more =>
      rw [hresponses, List.length_cons] at hanswered
      rcases hrequests with hnone | hone
      · rw [hnone, List.length_nil] at hanswered
        omega
      · rw [hone, List.length_singleton] at hanswered
        have hmore : more = [] := List.length_eq_zero_iff.1 (by omega)
        subst hmore
        obtain ⟨piece, pieces, hpiece, hpieces, hwritten⟩ :=
          List.forall₂_cons_right_iff.1 (hresponses ▸ h.written)
        rw [List.forall₂_nil_right_iff.1 hpieces] at hwritten
        rw [hwritten, List.flatten_singleton] at hstream
        exact ⟨response, hone, rfl, List.IsPrefix.trans ⟨x.down, hstream.symm⟩ hpiece⟩

end Connection

/-- A client that asks one line has it run at most once and nothing else, and not at all when it is
longer than the cap.  When its call succeeds, the line was run exactly once and the answer is the
first line the handler returned for it, of which the tool may have got a front part only. -/
theorem ControlSocket.answer_is_own {s : ControlSocket} (hs : s.Reached) {x : Connection}
    (hx : x ∈ s.connections) {line : Bytes} (hasks : x.program.Asks line)
    (hline : newline ∉ line) :
    (x.requests = [] ∨ x.requests = [line]) ∧ (maxLine < line.length → x.requests = []) ∧
      ∀ answer, x.client = .returned (.ok answer) →
        ∃ response, x.requests = [line] ∧ x.responses = [response] ∧
          answer <+: firstLine newline response ∧
          (x.program = .controlRequest line →
            answer = firstLine newline response ∧ answer.length ≤ maxLine) := by
  have hsound := hs.ok.sound x hx
  refine ⟨hsound.requests hasks hline, fun hlong => ?_, fun answer hanswer => ?_⟩
  · rcases hsound.requests hasks hline with hnone | hone
    · exact hnone
    · have hshort := (hsound.server.clean line (by rw [hone]; exact List.mem_singleton_self _)).2
      exact absurd hshort (Nat.not_le.2 hlong)
  · have hclient := hsound.client
    simp only [Connection.ClientSound, hanswer] at hclient
    obtain ⟨hclean, -, -, haccepted⟩ := hclient
    rcases haccepted with ⟨hread, hroom⟩ | ⟨htool, hsome, hread, -⟩
    · obtain ⟨response, hrequests, hresponses, hpre⟩ :=
        hsound.server.response (hsound.requests hasks hline) (by rw [hread]; simp)
      rw [hread] at hpre
      have heq := eq_firstLine hclean hpre
      refine ⟨response, hrequests, hresponses, heq ▸ List.prefix_refl _, fun hprogram => ⟨heq, ?_⟩⟩
      rw [hprogram] at hroom
      exact Nat.le_of_lt_succ hroom
    · obtain ⟨response, hrequests, hresponses, hpre⟩ :=
        hsound.server.response (hsound.requests hasks hline) (hread ▸ hsome)
      rw [hread] at hpre
      refine ⟨response, hrequests, hresponses, prefix_firstLine hclean hpre, fun hprogram => ?_⟩
      obtain ⟨line', htool⟩ := htool
      rw [hprogram] at htool
      cases htool

theorem answer_is_own_exchanged :
    exchanged.requests = [[112]] ∧ [111, 107] = firstLine newline [111, 107] := by
  obtain ⟨-, -, hanswer⟩ :=
    ControlSocket.answer_is_own reached_exchangedSocket List.mem_cons_self
      (Or.inl rfl : exchanged.program.Asks [112]) (by decide)
  obtain ⟨response, hrequests, hresponses, -, hwhole⟩ := hanswer [111, 107] rfl
  cases hresponses
  exact ⟨hrequests, (hwhole rfl).1⟩

end ControlChannel
end ContextFS
