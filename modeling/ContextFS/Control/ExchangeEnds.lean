import Mathlib.Order.WellFounded
import ContextFS.Control.Exchange

/-!
# An exchange ends

A connection on which nothing fails: writes take what they take, the handler answers with a line
that fits, and the whole answer goes out.  Such an exchange cannot go on for ever, and the only
place where it can stop is the client's return with its answer.
-/

namespace ContextFS
namespace ControlChannel

open Lib

/-- Nothing fails and nothing is cut off; the answer's line fits into both clients. -/
def ConnectionEvent.Lossless : ConnectionEvent → Prop
  | .write _ | .read | .readEnds | .serve | .serveEnds => True
  | .respond response n =>
      n = (response ++ [newline]).length ∧ (firstLine newline response).length ≤ maxLine
  | .writeFails _ | .readFails | .push _ | .hangUp | .serveFails => False

/-- What the client has still to write. -/
def Client.unsent : Client → Bytes
  | .sending rest => rest
  | _ => []

/-- A client that has not returned has a step to go. -/
def Client.pending : Client → Nat
  | .returned _ => 0
  | _ => 1

/-- Steps the server has before it besides those for the bytes on their way. -/
def Server.pending : Server → Nat
  | .running _ => 2
  | .closed => 0
  | _ => 1

/-- A client that reads never goes back to writing. -/
theorem Program.unsent_receive (program : Program) (got : Bytes) (ch : UInt8) :
    (program.receive got ch).unsent = [] ∧ (program.receive got ch).pending ≤ 1 := by
  have hends (b : Prop) [Decidable b] (result : Except String Bytes) (more : Bytes) :
      (if b then Client.returned result else .receiving more).unsent = [] ∧
        (if b then Client.returned result else .receiving more).pending ≤ 1 := by
    split
    · exact ⟨rfl, Nat.zero_le 1⟩
    · exact ⟨rfl, Nat.le_refl 1⟩
  unfold Program.receive
  by_cases hch : ch = newline
  · rw [if_pos hch]
    exact ⟨rfl, Nat.zero_le 1⟩
  · rw [if_neg hch]
    cases program with
    | controlRequest line => exact hends _ _ _
    | sendControlLine line => exact hends _ _ _
    | other => exact hends _ _ _

namespace Connection

variable {x x' : Connection}

/-- A step on which nothing is lost. -/
def LosslessStep (x : Connection) (e : ConnectionEvent) (x' : Connection) : Prop :=
  x.step e = some x' ∧ e.Lossless

/-- What is left to do: first what has to reach the server and be handled, then what has to reach
the client. -/
def work (x : Connection) : Nat ×ₗ Nat :=
  toLex (3 * x.client.unsent.length + 2 * x.up.length + x.server.pending,
    x.down.length + x.client.pending)

/-- A byte that is served is less work for the server. -/
theorem pending_serveByte (x : Connection) (buf : Bytes) (ch : UInt8) :
    (x.serveByte buf ch).server.pending ≤ 2 ∧ (x.serveByte buf ch).up = x.up ∧
      (x.serveByte buf ch).client = x.client := by
  unfold serveByte
  split
  · exact ⟨Nat.le_refl 2, rfl, rfl⟩
  · split
    · exact ⟨Nat.zero_le 2, rfl, rfl⟩
    · exact ⟨Nat.le_succ 1, rfl, rfl⟩

/-- Every lossless step leaves less to do. -/
theorem LosslessStep.work_lt {e : ConnectionEvent} (h : x.LosslessStep e x') :
    x'.work < x.work := by
  obtain ⟨hs, hlossless⟩ := h
  unfold work
  rw [Prod.Lex.toLex_lt_toLex]
  cases moved_of_step hs with
  | @write rest n hclient hn =>
      refine Or.inl ?_
      by_cases hall : n = rest.length
      · simp [hclient, Client.unsent, hall]
        omega
      · simp [hclient, Client.unsent, hall]
        omega
  | writeFails => exact absurd hlossless id
  | @read got ch down hclient hdown =>
      obtain ⟨hunsent, hpending⟩ := x.program.unsent_receive got ch
      obtain ⟨hserver, -, hup, hrest⟩ := follow_server
        { x with down := down, read := x.read ++ [ch] } (x.program.receive got ch)
      refine Or.inr ⟨?_, ?_⟩
      · rw [hserver, hup, follow_client, hunsent, hclient]
        rfl
      · rw [hrest, follow_client, hclient, hdown]
        simp only [List.length_cons, Client.pending] at hpending ⊢
        omega
  | @readEnds got hclient hdown hserver =>
      refine Or.inr ⟨?_, ?_⟩
      · simp [finish, hclient, Client.unsent]
      · simp [finish, hclient, Client.pending]
  | readFails => exact absurd hlossless id
  | push => exact absurd hlossless id
  | hangUp => exact absurd hlossless id
  | @serve buf ch up hserver hup =>
      obtain ⟨hpending, hsame, hclient⟩ := pending_serveByte { x with up := up } buf ch
      have hbefore : x.server.pending = 1 := by
        rw [hserver]
        rfl
      refine Or.inl ?_
      rw [hclient, hsame, hbefore, hup]
      simp only [List.length_cons]
      omega
  | @serveEnds buf hserver hup hclosed =>
      refine Or.inl ?_
      simp [hserver, Server.pending]
  | serveFails => exact absurd hlossless id
  | @respond request response n hserver hn =>
      refine Or.inl ?_
      simp [hserver, Server.pending]

/-- No lossless run goes on for ever. -/
theorem losslessStep_wellFounded :
    WellFounded fun x' x : Connection => ∃ e, x.LosslessStep e x' :=
  Subrelation.wf (fun ⟨_, h⟩ => h.work_lt) (InvImage.wf work wellFounded_lt)

/-! ## Where it can stop -/

/-- What a lossless run keeps besides. -/
structure Whole (x : Connection) : Prop where
  sound : x.Sound
  unsent : ∀ rest, x.client = .sending rest → rest ≠ []
  accepted : x.server ≠ .backlog
  served : x.server = .closed → x.clientClosed = true
  closed : x.clientClosed = true → ∃ result, x.client = .returned result
  complete : x.written = x.responses.map (· ++ [newline])
  short : ∀ response ∈ x.responses, (firstLine newline response).length ≤ maxLine
  answer : ∀ result, x.client = .returned result →
    ∃ answer, result = .ok answer ∧ x.read = answer ++ [newline]

/-- A short byte string without a newline is read on. -/
theorem receive_short {program : Program} {got : Bytes} {ch : UInt8} (hch : ch ≠ newline)
    (hshort : (got ++ [ch]).length ≤ maxLine) :
    program.receive got ch = .receiving (got ++ [ch]) := by
  have hless : ¬ maxResponse ≤ (got ++ [ch]).length := by
    have hcaps : maxLine < maxResponse := by decide
    omega
  unfold Program.receive
  rw [if_neg hch]
  cases program with
  | controlRequest line => exact if_neg (Nat.not_lt.2 hshort)
  | sendControlLine line => exact if_neg hless
  | other => exact if_neg (Nat.not_lt.2 hshort)

theorem whole_accepted {program : Program} {line : Bytes} (hasks : program.Asks line)
    (hline : newline ∉ line) : Whole { fresh program with server := .reading [] } where
  sound := ⟨(sound_fresh program).server.accept rfl, (sound_fresh program).client⟩
  unsent := by
    intro rest hrest
    cases hrest
    rw [(hasks.message hline).1]
    simp
  accepted := nofun
  served := nofun
  closed := nofun
  complete := rfl
  short := fun response hresponse => by cases hresponse
  answer := nofun

/-- The bytes in the server's buffer are a front part of the line, or there are none. -/
theorem Sound.buffer (h : x.Sound) {line : Bytes} (hasks : x.program.Asks line)
    (hline : newline ∉ line) {buf : Bytes} (hserver : x.server = .reading buf) (front back : Bytes)
    (hup : buf ++ x.up = front ++ back) (hclean : newline ∉ front) (hsome : front ≠ []) :
    front.length ≤ line.length := by
  obtain ⟨rest, hsent, hrest⟩ := h.server.behind
  simp only [Behind, hserver] at hrest
  have hwhole := h.sent_isFront hasks hline
  rw [hsent, hrest.1, hup] at hwhole
  rcases h.requests hasks hline with hnone | hone
  · rw [hnone, joinLines_nil, List.nil_append] at hwhole
    have hfront : front <+: line ++ [newline] := List.IsPrefix.trans ⟨back, rfl⟩ hwhole
    have hfirst := prefix_firstLine hclean hfront
    rw [firstLine_of_not_mem hline] at hfirst
    exact hfirst.length_le
  · rw [hone] at hwhole
    have hlen := hwhole.length_le
    simp only [joinLines_cons, joinLines_nil, List.length_append, List.length_cons,
      List.length_nil] at hlen
    exact absurd (List.length_eq_zero_iff.1 (by omega)) hsome

/-- Every lossless step keeps it. -/
theorem Whole.step (h : x.Whole) {line : Bytes} (hasks : x.program.Asks line)
    (hline : newline ∉ line) (hshort : line.length ≤ maxLine) {e : ConnectionEvent}
    (hs : x.LosslessStep e x') : x'.Whole := by
  obtain ⟨hs, hlossless⟩ := hs
  have hsound := h.sound.step hs
  cases moved_of_step hs with
  | @write rest n hclient hn =>
      refine ⟨hsound, ?_, h.accepted, h.served, ?_, h.complete, h.short, ?_⟩
      · intro rest' hrest
        by_cases hall : n = rest.length
        · simp [hall] at hrest
        · simp only [hall, if_false, Client.sending.injEq] at hrest
          rw [← hrest]
          intro hnil
          have hlen := List.drop_eq_nil_iff.1 hnil
          omega
      · intro hclosed
        obtain ⟨result, hresult⟩ := h.closed hclosed
        rw [hclient] at hresult
        cases hresult
      · intro result hresult
        by_cases hall : n = rest.length
        · simp [hall] at hresult
        · simp [hall] at hresult
  | writeFails => exact absurd hlossless id
  | @read got ch down hclient hdown =>
      -- what the client reads is the server's answer, in order
      have hserver := h.sound.server.receive hdown
      have hrequests := h.sound.requests hasks hline
      obtain ⟨hread, hclean, -, -, -⟩ : x.read = got ∧ newline ∉ got ∧ _ := by
        simpa only [ClientSound, hclient] using h.sound.client
      by_cases hch : ch = newline
      · subst hch
        rw [Program.receive_newline] at hsound ⊢
        refine ⟨hsound, (by simp), h.accepted, fun _ => rfl, fun _ => ⟨_, rfl⟩, h.complete, h.short, ?_⟩
        intro result hresult
        cases hresult
        exact ⟨got, rfl, congrArg (· ++ [newline]) hread⟩
      · -- a line that fits is never cut off
        obtain ⟨response, -, hresponses, hpre⟩ := hserver.response hrequests (by simp)
        have hmore : newline ∉ got ++ [ch] := by simpa using ⟨hclean, fun heq => hch heq.symm⟩
        have hfits : (got ++ [ch]).length ≤ maxLine := by
          have hfirst := prefix_firstLine hmore (hread ▸ hpre)
          exact hfirst.length_le.trans (h.short response (hresponses ▸ List.mem_singleton_self _))
        rw [receive_short hch hfits] at hsound ⊢
        refine ⟨hsound, (by simp), h.accepted, h.served, ?_, h.complete, h.short, (by simp)⟩
        intro hclosed
        obtain ⟨result, hresult⟩ := h.closed hclosed
        rw [hclient] at hresult
        cases hresult
  | @readEnds got hclient hdown hserver =>
      -- the server closes only after the client has its answer
      obtain ⟨result, hresult⟩ := h.closed (h.served hserver)
      rw [hclient] at hresult
      cases hresult
  | readFails => exact absurd hlossless id
  | push => exact absurd hlossless id
  | hangUp => exact absurd hlossless id
  | @serve buf ch up hserver hup =>
      have hbehind : newline ∉ buf := by
        obtain ⟨rest, -, hrest⟩ := h.sound.server.behind
        simp only [Behind, hserver] at hrest
        exact hrest.2.1
      by_cases hch : ch = newline
      · have hnext : ({ x with up := up } : Connection).serveByte buf ch = { x with
            up := up
            server := .running buf
            requests := x.requests ++ [buf] } := if_pos hch
        rw [hnext] at hsound ⊢
        exact ⟨hsound, h.unsent, (by simp), (by simp), h.closed, h.complete, h.short, h.answer⟩
      · -- the line fits, so the server does not give up on it
        have hfits : ¬ maxLine < (buf ++ [ch]).length := by
          have hlen := h.sound.buffer hasks hline hserver (buf ++ [ch]) up
            (by simp [hup]) (by simpa using ⟨hbehind, fun heq => hch heq.symm⟩) (by simp)
          omega
        have hnext : ({ x with up := up } : Connection).serveByte buf ch = { x with
            up := up
            server := .reading (buf ++ [ch]) } := by
          unfold serveByte
          rw [if_neg hch, if_neg hfits]
        rw [hnext] at hsound ⊢
        exact ⟨hsound, h.unsent, (by simp), (by simp), h.closed, h.complete, h.short, h.answer⟩
  | @serveEnds buf hserver hup hclosed =>
      exact ⟨hsound, h.unsent, (by simp), fun _ => hclosed, h.closed, h.complete, h.short, h.answer⟩
  | serveFails => exact absurd hlossless id
  | @respond request response n hserver hn =>
      -- the whole answer is written, with its newline
      obtain ⟨hall, hfirst⟩ := hlossless
      refine ⟨hsound, h.unsent, (by simp), (by simp), h.closed, ?_, ?_, h.answer⟩
      · show x.written ++ [(response ++ [newline]).take n] =
          (x.responses ++ [response]).map (· ++ [newline])
        rw [hall, List.take_length, h.complete, List.map_append]
        rfl
      · intro response' hmem
        rcases List.mem_append.1 hmem with hmem | hmem
        · exact h.short response' hmem
        · rw [List.mem_singleton.1 hmem]
          exact hfirst

/-- Who is at the other end does not change. -/
theorem program_step {e : ConnectionEvent} (hs : x.step e = some x') : x'.program = x.program := by
  cases moved_of_step hs with
  | @read got ch down hclient hdown => cases x.program.receive got ch <;> rfl
  | @serve buf ch up hserver hup =>
      unfold serveByte
      split
      · rfl
      · split
        · rfl
        · rfl
  | _ => rfl

/-- Where no lossless step is left, the client has the answer to its line. -/
theorem Whole.stuck (h : x.Whole) {line : Bytes} (hasks : x.program.Asks line)
    (hline : newline ∉ line) (hstuck : ∀ e x', ¬ x.LosslessStep e x') :
    ∃ response, x.requests = [line] ∧ x.responses = [response] ∧
      x.client = .returned (.ok (firstLine newline response)) := by
  have hclient := h.sound.client
  -- in every phase but the last some lossless step is left
  cases hphase : x.client with
  | sending rest =>
      have hpos : 0 < rest.length := List.length_pos_of_ne_nil (h.unsent rest hphase)
      obtain ⟨x', hgo⟩ : ∃ x', x.step (.write rest.length) = some x' := by
        simp [Connection.step, hphase, hpos]
      exact absurd ⟨hgo, trivial⟩ (hstuck (.write rest.length) x')
  | receiving got =>
      simp only [ClientSound, hphase] at hclient
      obtain ⟨hread, hclean, -, -, hsent⟩ := hclient
      cases hdown : x.down with
      | cons ch down =>
          obtain ⟨x', hgo⟩ : ∃ x', x.step .read = some x' := by simp [Connection.step, hphase, hdown]
          exact absurd ⟨hgo, trivial⟩ (hstuck .read x')
      | nil =>
          cases hserver : x.server with
          | backlog => exact absurd hserver h.accepted
          | running request =>
              obtain ⟨x', hgo⟩ : ∃ x', x.step (.respond [] 1) = some x' := by
                simp [Connection.step, hserver]
              exact absurd ⟨hgo, rfl, Nat.zero_le _⟩ (hstuck (.respond [] 1) x')
          | closed =>
              obtain ⟨result, hresult⟩ := h.closed (h.served hserver)
              rw [hphase] at hresult
              cases hresult
          | reading buf =>
              cases hup : x.up with
              | cons ch up =>
                  obtain ⟨x', hgo⟩ : ∃ x', x.step .serve = some x' := by
                    simp [Connection.step, hserver, hup]
                  exact absurd ⟨hgo, trivial⟩ (hstuck .serve x')
              | nil =>
                  -- all was served and all answers were read, so there was a newline among them
                  obtain ⟨rest, hrest, hbehind⟩ := h.sound.server.behind
                  simp only [Behind, hserver, hup, List.append_nil] at hbehind
                  obtain ⟨rfl, hbuf, -⟩ := hbehind
                  rw [hsent, (hasks.message hline).1] at hrest
                  have hanswered := h.sound.server.answered
                  have hstream := h.sound.server.stream
                  simp only [hserver, Server.unanswered, Nat.add_zero] at hanswered
                  rw [h.complete, hdown, List.append_nil, hread] at hstream
                  rcases h.sound.requests hasks hline with hnone | hone
                  · rw [hnone, joinLines_nil, List.nil_append] at hrest
                    exact absurd (hrest ▸ by simp : newline ∈ rest) hbuf
                  · rw [hone] at hanswered
                    obtain ⟨response, hresponse⟩ := List.length_eq_one_iff.1 hanswered.symm
                    rw [hresponse] at hstream
                    exact absurd (hstream ▸ by simp : newline ∈ got) hclean
  | returned result =>
      obtain ⟨answer, rfl, hread⟩ := h.answer result hphase
      simp only [ClientSound, hphase] at hclient
      obtain ⟨response, hrequests, hresponses, hpre⟩ :=
        h.sound.server.response (h.sound.requests hasks hline) (by rw [hread]; simp)
      rw [hread] at hpre
      exact ⟨response, hrequests, hresponses, by rw [eq_firstLine hclient.1 hpre]⟩

end Connection

/-- An exchange on which nothing is lost always ends, and it can only end with the client having
the first line of what the handler returned for its request. -/
theorem exchange_completes {program : Program} {line : Bytes} (hasks : program.Asks line)
    (hline : newline ∉ line) (hshort : line.length ≤ maxLine) :
    (WellFounded fun x' x : Connection => ∃ e, x.LosslessStep e x') ∧
      ∀ x, Reaches (fun x => x = { Connection.fresh program with server := .reading [] })
          Connection.LosslessStep x →
        (∀ e x', ¬ x.LosslessStep e x') →
          ∃ response, x.requests = [line] ∧ x.responses = [response] ∧
            x.client = .returned (.ok (firstLine newline response)) := by
  refine ⟨Connection.losslessStep_wellFounded, fun x hreach hstuck => ?_⟩
  have hinv : x.program = program ∧ x.Whole := by
    refine hreach.invariant (I := fun x => x.program = program ∧ x.Whole) ?_ ?_
    · rintro x rfl
      exact ⟨rfl, Connection.whole_accepted hasks hline⟩
    · rintro x e x' ⟨hprogram, hwhole⟩ hs
      exact ⟨(Connection.program_step hs.1).trans hprogram,
        hwhole.step (hprogram ▸ hasks) hline hshort hs⟩
  exact hinv.2.stuck (hinv.1 ▸ hasks) hline hstuck

/-- What happens on the connection of `exchangeRun`. -/
def exchangeEvents : List ConnectionEvent :=
  [.write 1, .serve, .write 1, .serve, .respond [111, 107] 3, .read, .read, .read, .serveEnds]

theorem exchange_completes_exchanged :
    ∃ response, exchanged.requests = [[112]] ∧ exchanged.responses = [response] ∧
      exchanged.client = .returned (.ok (firstLine newline response)) := by
  have hlossless : ∀ e ∈ exchangeEvents, e.Lossless := by
    simp [exchangeEvents, ConnectionEvent.Lossless, firstLine, newline, maxLine]
  refine (exchange_completes (Or.inl rfl : (Program.controlRequest [112]).Asks [112]) (by decide)
    (by decide)).2 { exchanged with retired := false } ?_ ?_
  · exact Reaches.run exchangeEvents (fun e he _ _ hs => ⟨hs, hlossless e he⟩) (.start rfl) (by rfl)
  · rintro e x' ⟨hs, -⟩
    cases e <;> simp [Connection.step, exchanged] at hs

end ControlChannel
end ContextFS
