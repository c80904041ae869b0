import ContextFS.Runtime.Handlers
import ContextFS.Runtime.IdentityFrame

/-!
# Who vouches for a process group

The daemon stops, resumes and kills process groups that others name.  A group is vouched for when
the kernel once reported it as the group of a process that was a peer of the socket itself, or a
child of one.  Every group a runtime is registered with is, whatever the peers send, in whatever
order their messages are served and however processes come and go between two checks.
-/

namespace ContextFS

open Lib

/-! ## Time -/

namespace World

variable {w w' w'' : World}

/-- Nothing that was is forgotten, and a registered runtime stays, with its token. -/
structure Later (w w' : World) : Prop where
  moments : w.moments <:+ w'.moments
  signals : w.signals <:+ w'.signals
  known : ∀ rid r, w.now.supervisor.runtimes rid = some r →
    ∃ r', w'.now.supervisor.runtimes rid = some r' ∧ r'.controlToken = r.controlToken

theorem Later.refl (w : World) : w.Later w :=
  ⟨List.suffix_refl _, List.suffix_refl _, fun _ r hr => ⟨r, hr, rfl⟩⟩

theorem Later.trans (h : w.Later w') (h' : w'.Later w'') : w.Later w'' := by
  refine ⟨h.moments.trans h'.moments, h.signals.trans h'.signals, fun rid r hr => ?_⟩
  obtain ⟨r', hr', htoken⟩ := h.known rid r hr
  obtain ⟨r'', hr'', htoken'⟩ := h'.known rid r' hr'
  exact ⟨r'', hr'', htoken'.trans htoken⟩

theorem Once.later {P : Instant → Prop} (h : w.Once P) (hl : w.Later w') : w'.Once P := by
  obtain ⟨m, hm, hP⟩ := h
  exact ⟨m, hl.moments.subset hm, hP⟩

theorem once_now {P : Instant → Prop} (h : P w.now) : w.Once P := ⟨w.now, List.mem_cons_self, h⟩

theorem Once.imp {P Q : Instant → Prop} (h : w.Once P) (himp : ∀ m, P m → Q m) : w.Once Q := by
  obtain ⟨m, hm, hP⟩ := h
  exact ⟨m, hm, himp m hP⟩

/-- A new state of the supervisor that knows the same runtimes by the same tokens. -/
theorem later_put {σ : RuntimeSupervisor} (h : ∀ rid r, w.now.supervisor.runtimes rid = some r →
    ∃ r', σ.runtimes rid = some r' ∧ r'.controlToken = r.controlToken) : w.Later (w.put σ) :=
  ⟨List.suffix_cons _ _, List.suffix_refl _, h⟩

theorem later_turn (w : World) (k : Kernel) : w.Later (w.turn k) :=
  ⟨List.suffix_cons _ _, List.suffix_refl _, fun _ r hr => ⟨r, hr, rfl⟩⟩

theorem later_send (w : World) (kind : SignalKind) (pgid : Int) : w.Later (w.send kind pgid) :=
  ⟨List.suffix_refl _, List.suffix_cons _ _, fun _ r hr => ⟨r, hr, rfl⟩⟩

end World

theorem IdentityFrame.known {s s' : RuntimeSupervisor} (h : IdentityFrame s s') (rid : Bytes)
    (r : Runtime) (hr : s.runtimes rid = some r) :
    ∃ r', s'.runtimes rid = some r' ∧ r'.controlToken = r.controlToken := by
  rcases h rid with ⟨r₀, r', hr₀, hr', hsame⟩ | ⟨hnone, -⟩
  · rw [hr] at hr₀
    cases hr₀
    exact ⟨r', hr', hsame.token⟩
  · rw [hr] at hnone
    cases hnone

/-! ## Vouching -/

variable {Peers : PeerCredentials → Prop}

/-- The process was the peer, or a child of it; or its name has a newline, and the daemon may have
read another parent than it has. -/
def World.ChildOrSelf (w : World) (peer : PeerCredentials) (pid : Int) : Prop :=
  pid = peer.pid ∨
    w.Once fun m => ∃ p, m.kernel.process pid = some p ∧ (p.parent = peer.pid ∨ 10 ∈ p.name)

/-- Some peer vouches for the process group. -/
structure World.Vouched (Peers : PeerCredentials → Prop) (w : World) (pgid : Int) : Prop where
  range : 1 ≤ pgid ∧ pgid ≤ pidMax
  peer : ∃ peer, Peers peer ∧ (peer.trusted = true ∨ ∃ pid,
    (w.Once fun m => ∃ p, m.kernel.process pid = some p ∧ p.group = pgid) ∧ w.ChildOrSelf peer pid)

theorem World.ChildOrSelf.later {w w' : World} {peer : PeerCredentials} {pid : Int}
    (h : w.ChildOrSelf peer pid) (hl : w.Later w') : w'.ChildOrSelf peer pid :=
  h.imp_right fun h => h.later hl

theorem World.Vouched.later {w w' : World} {pgid : Int} (h : w.Vouched Peers pgid)
    (hl : w.Later w') : w'.Vouched Peers pgid := by
  obtain ⟨peer, hpeer, htrusted | ⟨pid, hgroup, hchild⟩⟩ := h.peer
  · exact ⟨h.range, peer, hpeer, Or.inl htrusted⟩
  · exact ⟨h.range, peer, hpeer, Or.inr ⟨pid, hgroup.later hl, hchild.later hl⟩⟩

/-- A record whose groups are vouched for, under a token. -/
structure Runtime.Accepted (Peers : PeerCredentials → Prop) (w : World) (r : Runtime) : Prop where
  token : r.controlToken ≠ []
  group : w.Vouched Peers r.activeProcessGroupId
  retire : r.retirePgid = 0 ∨ w.Vouched Peers r.retirePgid

/-- Every runtime is, and every signal went to such a group. -/
structure World.Ok (Peers : PeerCredentials → Prop) (w : World) : Prop where
  runtimes : ∀ rid r, w.now.supervisor.runtimes rid = some r → r.Accepted Peers w
  signals : ∀ s ∈ w.signals, ∃ pgid, s.2 = -pgid ∧ w.Vouched Peers pgid

theorem Runtime.Accepted.later {w w' : World} {r : Runtime} (h : r.Accepted Peers w)
    (hl : w.Later w') : r.Accepted Peers w' :=
  ⟨h.token, h.group.later hl, h.retire.imp_right fun h => h.later hl⟩

/-- A record that is known by the same process group. -/
theorem Runtime.Accepted.same {w : World} {r r' : Runtime} (h : r.Accepted Peers w)
    (hs : r.SameIdentity r') : r'.Accepted Peers w := by
  refine ⟨?_, ?_, ?_⟩
  · rw [hs.token]
    exact h.token
  · rw [hs.group]
    exact h.group
  · rcases hs.retire with heq | hzero
    · rw [heq]
      exact h.retire
    · exact Or.inl hzero

theorem toPidT_of_range {pid : Int} (h : 1 ≤ pid ∧ pid ≤ pidMax) : toPidT pid = pid := by
  unfold toPidT pidMax at *
  rw [Int.bmod_eq_of_le (by omega) (by omega)]

namespace World.Ok

variable {w w' : World}

theorem later_signals (h : w.Ok Peers) (hl : w.Later w') (hs : w'.signals = w.signals) :
    ∀ s ∈ w'.signals, ∃ pgid, s.2 = -pgid ∧ w'.Vouched Peers pgid := by
  intro s hmem
  rw [hs] at hmem
  obtain ⟨pgid, heq, hv⟩ := h.signals s hmem
  exact ⟨pgid, heq, hv.later hl⟩

/-- Every call but the two that identify runtimes. -/
theorem frame (h : w.Ok Peers) {σ : RuntimeSupervisor} (hf : IdentityFrame w.now.supervisor σ) :
    (w.put σ).Ok Peers ∧ w.Later (w.put σ) := by
  have hl : w.Later (w.put σ) := later_put hf.known
  refine ⟨⟨?_, h.later_signals hl rfl⟩, hl⟩
  intro rid r' hr'
  obtain ⟨r, hr, hsame⟩ := hf.before hr'
  exact ((h.runtimes rid r hr).later hl).same hsame

theorem turn (h : w.Ok Peers) (k : Kernel) : (w.turn k).Ok Peers := by
  have hl := w.later_turn k
  exact ⟨fun rid r hr => (h.runtimes rid r hr).later hl, h.later_signals hl rfl⟩

theorem send (h : w.Ok Peers) (kind : SignalKind) {pgid : Int} (hv : w.Vouched Peers pgid) :
    (w.send kind pgid).Ok Peers := by
  have hl := w.later_send kind pgid
  refine ⟨fun rid r hr => (h.runtimes rid r hr).later hl, ?_⟩
  intro s hs
  rcases List.mem_cons.1 hs with rfl | hs
  · exact ⟨pgid, by rw [toPidT_of_range hv.range], hv.later hl⟩
  · obtain ⟨pgid', heq, hv'⟩ := h.signals s hs
    exact ⟨pgid', heq, hv'.later hl⟩

theorem register (h : w.Ok Peers) {request : RuntimeCreateRequest}
    (htoken : request.controlToken ≠ []) (hv : w.Vouched Peers request.processGroupId) :
    (w.put (w.now.supervisor.registered request)).Ok Peers ∧
      w.Later (w.put (w.now.supervisor.registered request)) := by
  have hspec := w.now.supervisor.registered_spec request
  have hl : w.Later (w.put (w.now.supervisor.registered request)) := by
    refine later_put fun rid r hr => ?_
    rcases hspec rid with hsame | ⟨hnone, -⟩
    · exact ⟨r, hsame.trans hr, rfl⟩
    · rw [hnone] at hr
      cases hr
  refine ⟨⟨?_, h.later_signals hl rfl⟩, hl⟩
  intro rid r' hr'
  rcases hspec rid with hsame | ⟨-, r, hr, htok, -, hgroup, hretire⟩
  · exact (h.runtimes rid r' (hsame.symm.trans hr')).later hl
  · obtain rfl : r = r' := Option.some.inj (hr.symm.trans hr')
    refine ⟨?_, ?_, Or.inl hretire⟩
    · rw [htok]
      exact htoken
    · rw [hgroup]
      exact hv.later hl

theorem generationReady (h : w.Ok Peers) {rid token : Bytes} {pid pgid : Int} {generation : UInt64}
    (hv : w.Vouched Peers pgid) {σ : RuntimeSupervisor}
    (hσ : w.now.supervisor.generationReady rid token pid pgid generation = .ok σ) :
    (w.put σ).Ok Peers ∧ w.Later (w.put σ) := by
  obtain ⟨r, r', hr, hruns, -, -, htoken, -, hgroup, hretire⟩ :=
    RuntimeSupervisor.generationReady_spec hσ
  have hl : w.Later (w.put σ) := by
    refine later_put fun k q hq => ?_
    rw [hruns, Function.update_apply]
    by_cases hk : k = rid
    · subst hk
      obtain rfl : r = q := Option.some.inj (hr.symm.trans hq)
      exact ⟨r', if_pos rfl, htoken⟩
    · exact ⟨q, by rw [if_neg hk, hq], rfl⟩
  refine ⟨⟨?_, h.later_signals hl rfl⟩, hl⟩
  intro k q hq
  change σ.runtimes k = some q at hq
  rw [hruns, Function.update_apply] at hq
  by_cases hk : k = rid
  · rw [if_pos hk] at hq
    cases hq
    have hold := (h.runtimes rid r hr).later hl
    refine ⟨?_, ?_, Or.inr ?_⟩
    · rw [htoken]
      exact hold.token
    · rw [hgroup]
      exact hv.later hl
    · rw [hretire]
      exact hold.group
  · rw [if_neg hk] at hq
    exact (h.runtimes k q hq).later hl

end World.Ok

/-! ## Questions -/

/-- What has to hold when a thread asks. -/
def Question.Guarded (Peers : PeerCredentials → Prop) (w : World) : Question → Prop
  | .register request => request.controlToken ≠ [] ∧ w.Vouched Peers request.processGroupId
  | .generationReady _ _ _ pgid _ => w.Vouched Peers pgid
  | .signal _ pgid => w.Vouched Peers pgid
  | .snapshot op => ∀ request, op ≠ .register request
  | _ => True

theorem Question.Guarded.later {w w' : World} {e : Question} (h : e.Guarded Peers w)
    (hl : w.Later w') : e.Guarded Peers w' := by
  cases e with
  | register request => exact ⟨h.1, h.2.later hl⟩
  | generationReady rid token pid pgid generation => exact World.Vouched.later h hl
  | signal kind pgid => exact World.Vouched.later h hl
  | snapshot op => exact h
  | _ => trivial

namespace RuntimeSupervisor

variable {σ : RuntimeSupervisor}

theorem identityFrame_after {r : Except String RuntimeSupervisor}
    (h : ∀ σ', r = .ok σ' → IdentityFrame σ σ') : IdentityFrame σ (σ.after r) :=
  after_cases (.refl σ) h

theorem identityFrame_after_map {α : Type} {r : Except String (α × RuntimeSupervisor)}
    (h : ∀ a σ', r = .ok (a, σ') → IdentityFrame σ σ') :
    IdentityFrame σ (σ.after (r.map (·.2))) :=
  after_map_cases (.refl σ) h

theorem identityFrame_perform (σ : RuntimeSupervisor) {op : Operation}
    (hop : ∀ request, op ≠ .register request) : IdentityFrame σ (σ.perform op) := by
  cases op with
  | register request => exact absurd rfl (hop request)
  | beginSnapshot => exact identityFrame_after_map fun _ _ h => identityFrame_beginSnapshot h
  | cancelSnapshot => exact identityFrame_after fun _ h => identityFrame_cancelSnapshot h
  | observe => exact identityFrame_after_map fun _ _ h => identityFrame_observeBoundary h
  | releaseForSnapshot =>
      exact identityFrame_after_map fun _ _ h => identityFrame_releaseBoundaryForSnapshot h
  | releaseWithError =>
      exact identityFrame_after_map fun _ _ h => identityFrame_releaseBoundaryWithError h
  | endWait bid => exact identityFrame_endBoundaryWait σ bid
  | templateReady => exact identityFrame_after fun _ h => identityFrame_templateReady h
  | attach => exact identityFrame_after fun _ h => identityFrame_attachUnionState h
  | failPublish => exact identityFrame_after fun _ h => identityFrame_failTemplatePublish h
  | retire =>
      exact identityFrame_after_map fun _ _ h => (identityFrame_retirePendingGeneration h).1
  | drop => exact identityFrame_after fun _ h => identityFrame_dropTemplate h

/-- The group that is frozen is that of a runtime. -/
theorem frozenGroup_eq_some {intent : RuntimeRestoreIntent} {pgid : Int}
    (h : σ.frozenGroup intent = some pgid) :
    ∃ r, σ.runtimes intent.runtimeId = some r ∧ r.activeProcessGroupId = pgid := by
  unfold frozenGroup at h
  split at h
  · rename_i r t hr ht
    split at h
    · exact ⟨r, hr, Option.some.inj h⟩
    · cases h
  · cases h

end RuntimeSupervisor

namespace World

variable {w w' : World}

theorem Ok.supervise {α : Type} (h : w.Ok Peers) {r : Except String (α × RuntimeSupervisor)}
    (hf : ∀ a σ', r = .ok (a, σ') → IdentityFrame w.now.supervisor σ') :
    (w.supervise r).2.Ok Peers ∧ w.Later (w.supervise r).2 :=
  h.frame (RuntimeSupervisor.identityFrame_after_map hf)

theorem Ok.change (h : w.Ok Peers) {r : Except String RuntimeSupervisor}
    (hf : ∀ σ', r = .ok σ' → IdentityFrame w.now.supervisor σ') :
    (w.change r).2.Ok Peers ∧ w.Later (w.change r).2 :=
  h.frame (RuntimeSupervisor.identityFrame_after hf)

/-- Taking or leaving the publication lock. -/
theorem Ok.publishing (h : w.Ok Peers) (b : Bool) :
    World.Ok Peers { w with publishing := b } ∧ w.Later { w with publishing := b } := by
  have hl : w.Later { w with publishing := b } :=
    ⟨List.suffix_refl _, List.suffix_refl _, fun _ r hr => ⟨r, hr, rfl⟩⟩
  exact ⟨⟨fun rid r hr => (h.runtimes rid r hr).later hl, h.later_signals hl rfl⟩, hl⟩

/-- The answer to a question asked when it may be keeps the invariant and the order. -/
theorem serve_ok {o : Outside} {e : Question} {r : AnswerTo e} (h : w.Ok Peers)
    (hg : e.Guarded Peers w) (hs : w.serve o e = some (r, w')) : w'.Ok Peers ∧ w.Later w' := by
  have hsame : w.Ok Peers ∧ w.Later w := ⟨h, .refl w⟩
  cases e with
  | register request =>
      cases hs
      exact h.register hg.1 hg.2
  | observe =>
      cases hs
      exact h.supervise fun _ _ hσ => RuntimeSupervisor.identityFrame_observeBoundary hσ
  | endBoundaryWait bid =>
      cases hs
      exact h.frame (RuntimeSupervisor.identityFrame_endBoundaryWait _ bid)
  | templateReady =>
      cases hs
      exact h.change fun _ hσ => RuntimeSupervisor.identityFrame_templateReady hσ
  | poll =>
      cases hs
      exact h.supervise fun _ _ hσ => RuntimeSupervisor.identityFrame_templatePoll hσ
  -- a report changes the group of its runtime to the one it was checked for
  | generationReady rid token pid pgid generation =>
      cases hs
      simp only [RuntimeSupervisor.after]
      split
      · rename_i σ hσ
        exact h.generationReady hg hσ
      · exact h.frame (.refl _)
  | drop =>
      cases hs
      exact h.change fun _ hσ => RuntimeSupervisor.identityFrame_dropTemplate hσ
  | snapshot op =>
      cases hs
      exact h.frame (RuntimeSupervisor.identityFrame_perform _ hg)
  | beginRestore intent =>
      cases hs
      -- the group is frozen before the records change
      cases hfrozen : w.now.supervisor.frozenGroup intent with
      | none => exact h.change fun _ hσ => RuntimeSupervisor.identityFrame_beginRestore hσ
      | some pgid =>
          obtain ⟨r, hr, rfl⟩ := RuntimeSupervisor.frozenGroup_eq_some hfrozen
          have hsent := h.send .stop (h.runtimes _ r hr).group
          obtain ⟨hok, hl⟩ := hsent.change (r := w.now.supervisor.beginRestore
            (fun _ => o.failure) intent) fun _ hσ => RuntimeSupervisor.identityFrame_beginRestore hσ
          exact ⟨hok, (w.later_send _ _).trans hl⟩
  | publishRestore =>
      cases hs
      exact h.change fun _ hσ => RuntimeSupervisor.identityFrame_publishRestore hσ
  | abortRestore =>
      cases hs
      exact h.supervise fun _ _ hσ => (RuntimeSupervisor.identityFrame_abortRestore hσ).1
  | retire =>
      cases hs
      exact h.supervise fun _ _ hσ =>
        (RuntimeSupervisor.identityFrame_retirePendingGeneration hσ).1
  -- a group that is signalled is vouched for by the guard
  | signal kind pgid =>
      cases hs
      exact ⟨h.send kind hg, w.later_send kind pgid⟩
  | lock =>
      change (if w.publishing then none else some ((), { w with publishing := true })) =
        some (r, w') at hs
      split at hs
      · cases hs
      · cases hs
        exact h.publishing true
  | unlock =>
      cases hs
      exact h.publishing false
  -- the outside answers, and nothing of the world changes
  | _ =>
      cases hs
      exact hsame

end World

/-- The service behind the socket. -/
def runtimeService (Peers : PeerCredentials → Prop) : Service World Question Outside AnswerTo where
  serve := World.serve
  Inv := World.Ok Peers
  Later := World.Later
  refl := .refl
  trans := .trans

end ContextFS
