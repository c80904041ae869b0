import ContextFS.Runtime.PeerRuns

/-!
# Who may poll and who may report

The answer to `runtime.template.poll` tells a parked template to fork or to exit, and
`runtime.generation.ready` puts a process in the place of the runtime.  Between the checks of a
request and its effect anything may happen; what the checks have seen is still something that was.
-/

namespace ContextFS

open Lib ControlProtocol

variable {Peers : PeerCredentials → Prop} {peer : PeerCredentials} {w : World}

/-- The peer is trusted, or is the process that was recorded as the template. -/
def World.IsTemplate (w : World) (peer : PeerCredentials) (tid : Bytes) : Prop :=
  peer.trusted = true ∨ 0 < peer.pid ∧
    w.Once fun m => ∃ t, m.supervisor.templates tid = some t ∧ t.templatePid = peer.pid

/-- The token was that of the runtime. -/
def Instant.Knows (m : Instant) (rid token : Bytes) : Prop :=
  token ≠ [] ∧ ∃ r, m.supervisor.runtimes rid = some r ∧ r.controlToken = token

namespace RuntimeSupervisor

variable {σ σ' : RuntimeSupervisor}

theorem templateStatus_pid {alive : Int → Bool} {tid : Bytes} {st : TemplateStatus}
    (h : σ.templateStatus alive tid = .ok st) :
    ∃ t, σ.templates tid = some t ∧ t.templatePid = st.templatePid := by
  unfold templateStatus at h
  split at h
  · cases h
  · rename_i t ht
    cases h
    exact ⟨t, ht, rfl⟩

theorem templatePoll_token {tid token : Bytes} {action : RuntimeTemplateAction}
    (h : σ.templatePoll tid token = .ok (action, σ')) :
    ∃ t r, σ.templates tid = some t ∧ σ.runtimes t.runtimeId = some r ∧ token ≠ [] ∧
      r.controlToken = token ∧ (action = .drop → t.dropped = true) ∧
      ∀ target, action = .restore target → t.Released ∧ t.targetGeneration = target := by
  unfold templatePoll at h
  split at h
  · cases h
  rename_i t ht
  split at h
  · cases h
  rename_i r hr
  split at h
  · cases h
  rename_i htoken
  simp only [Bool.or_eq_true, decide_eq_true_eq, not_or, ne_eq, not_not] at htoken
  obtain ⟨hsome, rfl⟩ := htoken
  refine ⟨t, r, ht, hr, hsome, rfl, ?_⟩
  split at h
  · rename_i hdropped
    cases h
    exact ⟨fun _ => hdropped, fun _ heq => (by cases heq)⟩
  rename_i hdropped
  split at h
  · rename_i hreleased
    cases h
    simp only [Bool.and_eq_true, Bool.not_eq_true'] at hreleased
    refine ⟨fun heq => (by cases heq), fun target heq => ?_⟩
    cases heq
    exact ⟨⟨by simpa using hdropped, hreleased.1.1, hreleased.1.2, hreleased.2⟩, rfl⟩
  · cases h
    exact ⟨fun heq => (by cases heq), fun _ heq => (by cases heq)⟩

theorem restoreTemplateStatus_pid {alive : Int → Bool} {rid : Bytes} {st : TemplateStatus}
    (h : σ.restoreTemplateStatus alive rid = .ok st) :
    ∃ r t, σ.runtimes rid = some r ∧ r.hasPendingRestore = true ∧
      σ.templates r.restoreTemplateId = some t ∧ t.templatePid = st.templatePid := by
  unfold restoreTemplateStatus at h
  split at h
  · cases h
  rename_i r hr
  split at h
  · cases h
  rename_i hpending
  simp only [Bool.or_eq_true, Bool.not_eq_true', not_or, Bool.not_eq_false] at hpending
  obtain ⟨t, ht, hpid⟩ := templateStatus_pid h
  exact ⟨r, t, hr, hpending.1, ht, hpid⟩

end RuntimeSupervisor

/-- What the answer to a poll needs: the peer is the template, its token is that of the template's
runtime, and it is told to exit only when the template was dropped and to fork only when a restore
had released it, with the generation of that restore. -/
structure PollAnswered (peer : PeerCredentials) (tid token : Bytes) (action : RuntimeTemplateAction)
    (w : World) : Prop where
  template : w.IsTemplate peer tid
  answered : w.Once fun m => ∃ t, m.supervisor.templates tid = some t ∧
    m.Knows t.runtimeId token ∧ (action = .drop → t.dropped = true) ∧
    ∀ target, action = .restore target → t.Released ∧ t.targetGeneration = target

open Handler in
/-- Whatever the others do meanwhile, `runtime.template.poll` fails or meets all of it. -/
theorem templatePoll_authentic (hok : w.Ok Peers) (peer : PeerCredentials) (rest : Bytes) :
    Attempt.Passes (runtimeService Peers)
      (PollAnswered peer (extractStr rest (ascii "template_id"))
        (extractStr rest (ascii "control_token")))
      (runtimeTemplatePoll peer rest) w := by
  unfold runtimeTemplatePoll
  dsimp only
  split
  · exact keeps_throw
  have hstatus : Keeps Peers (fun (st : TemplateStatus) w => w.Once fun m => ∃ t,
      m.supervisor.templates (extractStr rest (ascii "template_id")) = some t ∧
        t.templatePid = st.templatePid)
      (demand (Thread.query (Question.templateStatus (extractStr rest (ascii "template_id"))))) w := by
    refine keeps_demand (safe_query (by exact trivial) fun w' o r w'' _ _ hs => ?_)
    cases hs
    intro t ht _ st hst
    exact (World.once_now (RuntimeSupervisor.templateStatus_pid hst)).later ht
  -- the record of the template may change between its status and the poll
  refine hstatus.bind hok fun tmpl w₁ _ hok₁ htmpl => ?_
  refine (keeps_requirePeerPid hok₁ _).bind hok₁ fun _ w₂ hl₂ _ hpeer => ?_
  refine keeps_demand (safe_query (by exact trivial) fun w' o r w'' hl' hok' hs => ?_)
  have hl := (World.serve_ok hok' (by exact trivial) hs).2
  cases hs
  intro t ht _ action haction
  obtain ⟨⟨action', σ⟩, hpoll, rfl⟩ := exists_map_eq_ok haction
  obtain ⟨tm, rm, htm, hrm, hsome, htoken, hdrop, hrestore⟩ :=
    RuntimeSupervisor.templatePoll_token hpoll
  refine ⟨?_, ?_⟩
  · refine hpeer.imp_right fun hself => ⟨hself.1, ?_⟩
    have hthen := htmpl.later (hl₂.trans (hl'.trans (hl.trans ht)))
    exact hthen.imp fun m hm => by
      obtain ⟨tm', htm', hpid⟩ := hm
      exact ⟨tm', htm', hpid.trans hself.2.symm⟩
  · refine World.Once.later (World.Once.later (World.once_now ?_) hl) ht
    exact ⟨tm, htm, ⟨hsome, rm, hrm, htoken⟩, hdrop, hrestore⟩

/-- What a report of a new generation needs: the peer is trusted, or is the process it names and a
child of the template of a pending restore (or its name has a newline); its token is that of the
runtime, and the restore is one to that generation. -/
structure GenerationAccepted (peer : PeerCredentials) (rid token : Bytes) (pid : Int)
    (generation : UInt64) (w : World) : Prop where
  reporter : peer.trusted = true ∨ 0 < peer.pid ∧ peer.pid = pid ∧ ∃ q,
    (w.Once fun m => ∃ r t, m.supervisor.runtimes rid = some r ∧ r.hasPendingRestore = true ∧
      m.supervisor.templates r.restoreTemplateId = some t ∧ t.templatePid = q) ∧
    w.Once fun m => ∃ p, m.kernel.process pid = some p ∧ (p.parent = q ∨ 10 ∈ p.name)
  accepted : w.Once fun m => m.Knows rid token ∧ ∃ r, m.supervisor.runtimes rid = some r ∧
    r.hasPendingRestore = true ∧ r.restoreTargetGeneration = generation

open Handler in
/-- Whatever the others do meanwhile, `runtime.generation.ready` fails or meets all of it. -/
theorem generationReady_authentic (hok : w.Ok Peers) (hpeer : Peers peer) (rest : Bytes) :
    Attempt.Passes (runtimeService Peers)
      (fun _ w => GenerationAccepted peer (extractStr rest (ascii "runtime_id"))
        (extractStr rest (ascii "control_token")) (extractInt rest (ascii "pid") (-1))
        (UInt64.ofInt (extractInt rest (ascii "generation") 0)) w)
      (runtimeGenerationReady peer rest) w := by
  unfold runtimeGenerationReady
  dsimp only
  split
  · exact keeps_throw
  have hstatus : Keeps Peers (fun (st : TemplateStatus) w => w.Once fun m => ∃ r t,
      m.supervisor.runtimes (extractStr rest (ascii "runtime_id")) = some r ∧
        r.hasPendingRestore = true ∧ m.supervisor.templates r.restoreTemplateId = some t ∧
        t.templatePid = st.templatePid)
      (demand (Thread.query (Question.restoreTemplate (extractStr rest (ascii "runtime_id"))))) w := by
    refine keeps_demand (safe_query (by exact trivial) fun w' o r w'' _ _ hs => ?_)
    cases hs
    intro t ht _ st hst
    exact (World.once_now (RuntimeSupervisor.restoreTemplateStatus_pid hst)).later ht
  refine hstatus.bind hok fun tmpl w₁ _ hok₁ htmpl => ?_
  split
  · exact keeps_throw
  refine (keeps_requireGenerationPeer hpeer hok₁ _ _ _).bind hok₁ fun _ w₂ hl₂ hok₂ hchild => ?_
  -- the supervisor checks the token and the pending restore again, in one step
  have hcall : Keeps Peers (fun _ w => w.Once fun m =>
      m.Knows (extractStr rest (ascii "runtime_id")) (extractStr rest (ascii "control_token")) ∧
        ∃ r, m.supervisor.runtimes (extractStr rest (ascii "runtime_id")) = some r ∧
          r.hasPendingRestore = true ∧ r.restoreTargetGeneration =
            UInt64.ofInt (extractInt rest (ascii "generation") 0))
      (demand (Thread.query (Question.generationReady (extractStr rest (ascii "runtime_id"))
        (extractStr rest (ascii "control_token")) (extractInt rest (ascii "pid") (-1))
        (extractInt rest (ascii "active_process_group_id") (-1))
        (UInt64.ofInt (extractInt rest (ascii "generation") 0))))) w₂ := by
    refine keeps_demand (safe_query hchild.1 fun w' o r w'' hl' hok' hs => ?_)
    have hg := hchild.1.later hl'
    have hl := (World.serve_ok hok' (by exact hg) hs).2
    cases hs
    intro t ht _ u hu
    obtain ⟨σ, hready, -⟩ := exists_map_eq_ok hu
    obtain ⟨r, -, hr, -, htoken, hsome, -⟩ := RuntimeSupervisor.generationReady_spec hready
    obtain ⟨⟨r', hr', hpending, htarget⟩, -⟩ := RuntimeSupervisor.generationReady_ok hready
    refine World.Once.later (World.Once.later (World.once_now ?_) hl) ht
    exact ⟨⟨hsome, r, hr, htoken⟩, r', hr', hpending, htarget⟩
  refine hcall.bind hok₂ fun _ w₃ hl₃ _ haccepted => ?_
  refine keeps_pure fun t ht => ⟨?_, haccepted.later ht⟩
  refine hchild.2.imp_right ?_
  rintro ⟨hpos, hself, hparent⟩
  have hlater := hl₃.trans ht
  refine ⟨hpos, hself, tmpl.templatePid, htmpl.later (hl₂.trans hlater), ?_⟩
  exact (hparent.later hlater).imp fun m hm => (Kernel.process_of_parentForPid hm).2

/-! ## Two requests during a restore -/

/-- The child of the template. -/
def forked : PeerCredentials := { available := true, pid := 400 }

def ForkPeers (p : PeerCredentials) : Prop := RunPeers p ∨ p = forked

theorem template_pid_range : (0 : Int) ≤ 300 ∧ (300 : Int) ≤ pidMax := by decide

theorem forked_pid_range : (0 : Int) ≤ 400 ∧ (400 : Int) ≤ pidMax := by decide

/-- The processes after the template has forked. -/
def afterFork : Kernel :=
  { ownGroup with
    process := fun pid =>
      if pid = 400 then some (plainProcess 300 400 template_pid_range forked_pid_range)
      else ownGroup.process pid
    pids := by
      intro pid p h
      split at h
      · rename_i heq
        rw [heq]
        decide
      · exact ownGroup.pids h }

/-- The rest of the restore up to the release of the template, and the fork. -/
def releasedRun : List (PoolEvent Question Outside Kernel AnswerTo
    (Except String ControlProtocol.Document)) :=
  List.replicate 3 (.answer 4 favourable) ++ [.world afterFork]

/-- The template of the run. -/
def parkedTemplate : Bytes := generatedId templateKind 1

/-- Whether the template of the run has been released for generation 2, and its runtime waits for
that generation and has the token `t`. -/
def releasedFor2 (m : Instant) : Bool :=
  ((m.supervisor.templates parkedTemplate).any fun t => t.templatePid == 300 && !t.dropped &&
    t.restorePending && t.restoreReleased && !t.restoreInFlight && t.targetGeneration == 2) &&
  (m.supervisor.runtimes (ascii "r")).any fun r => r.hasPendingRestore &&
    r.restoreTemplateId == parkedTemplate && r.restoreTargetGeneration == 2

theorem exists_releasedRun : ∃ x : RuntimePool,
    Reaches (Pool.Init World.Fresh) (RuntimePool.Step ForkPeers) x ∧
      releasedFor2 x.state.now = true := by
  have hfacts : (((frozenRun createOwnGroup).foldlM (Pool.next World.serve World.turn)
      (freshPool ownGroup)).bind fun x =>
        releasedRun.foldlM (Pool.next World.serve World.turn) x).any
          (fun x => releasedFor2 x.state.now) = true := by decide +kernel
  obtain ⟨x, hx, hreleased⟩ := (Option.any_eq_true _ _).1 hfacts
  obtain ⟨x₁, hfrozen, hrest⟩ := Option.bind_eq_some_iff.1 hx
  refine ⟨x, Reaches.run releasedRun ?_ (reaches_frozenRun (fun _ h => Or.inl h) hfrozen) hrest,
    hreleased⟩
  intro e he _ _ hs
  refine ⟨hs, fun p hp => ?_⟩
  subst hp
  simp [releasedRun] at he

/-- The template's poll. -/
def pollRequest : Bytes :=
  ascii "\x7b\"template_id\":\"tmpl-0000000000000001\",\"control_token\":\"t\"\x7d"

/-- The poll that is to be told to restore. -/
theorem templatePoll_authentic_released : ∃ x : RuntimePool,
    Reaches (Pool.Init World.Fresh) (RuntimePool.Step ForkPeers) x ∧
      releasedFor2 x.state.now = true ∧
      Attempt.Passes (runtimeService ForkPeers) (PollAnswered parked parkedTemplate (ascii "t"))
        (Handler.runtimeTemplatePoll parked pollRequest) x.state := by
  obtain ⟨x, hreach, hreleased⟩ := exists_releasedRun
  have htid : extractStr pollRequest (ascii "template_id") = parkedTemplate := by decide +kernel
  have htoken : extractStr pollRequest (ascii "control_token") = ascii "t" := by decide +kernel
  have h := templatePoll_authentic (ok_of_reaches hreach) parked pollRequest
  rw [htid, htoken] at h
  exact ⟨x, hreach, hreleased, h⟩

/-- The report of the template's child. -/
def reportRequest : Bytes := ascii
  "\x7b\"runtime_id\":\"r\",\"control_token\":\"t\",\"pid\":400,\"active_process_group_id\":400,\"generation\":2\x7d"

/-- The report that the restore waits for. -/
theorem generationReady_authentic_released : ∃ x : RuntimePool,
    Reaches (Pool.Init World.Fresh) (RuntimePool.Step ForkPeers) x ∧
      releasedFor2 x.state.now = true ∧
      Attempt.Passes (runtimeService ForkPeers)
        (fun _ w => GenerationAccepted forked (ascii "r") (ascii "t") 400 2 w)
        (Handler.runtimeGenerationReady forked reportRequest) x.state := by
  obtain ⟨x, hreach, hreleased⟩ := exists_releasedRun
  have hrid : extractStr reportRequest (ascii "runtime_id") = ascii "r" := by decide +kernel
  have htoken : extractStr reportRequest (ascii "control_token") = ascii "t" := by decide +kernel
  have hpid : extractInt reportRequest (ascii "pid") (-1) = 400 := by decide +kernel
  have hgeneration : UInt64.ofInt (extractInt reportRequest (ascii "generation") 0) = 2 := by
    decide +kernel
  have h := generationReady_authentic (ok_of_reaches hreach) (Or.inr rfl : ForkPeers forked)
    reportRequest
  rw [hrid, htoken, hpid, hgeneration] at h
  exact ⟨x, hreach, hreleased, h⟩

end ContextFS
