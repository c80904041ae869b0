import ContextFS.Runtime.SnapshotFrame
import ContextFS.Runtime.SnapshotStep

/-!
# Snapshots and what they leave pending

A runtime refuses a snapshot while one is pending, so every exit of `snapshot_runtime` has to
clear the pending one.  The failure after the checkpoint does it through the record of the
boundary, which the handler of the boundary takes away when it stops waiting.
-/

namespace ContextFS

open Lib

/-! ## The invariant -/

namespace SnapshotPc

/-- `begin_snapshot` has succeeded, and the pending snapshot is not cleared yet. -/
def begun : SnapshotPc → Bool
  | .waitBoundary _ | .checkpoint _ _ | .checkpointFailed _ _ | .checkpointed _ _ _
  | .waitTemplate _ _ _ | .writeUnion _ _ _ | .attach _ _ _ _ _ | .undo _ _ | .cancel _ => true
  | .start | .validated _ | .returned _ _ => false

/-- The boundary that is to be released. -/
def boundary : SnapshotPc → Option Bytes
  | .checkpoint _ bid | .checkpointFailed bid _ | .checkpointed _ bid _ => some bid
  | _ => none

end SnapshotPc

/-- An id of a boundary of the runtime that nobody has released. -/
def OwnBoundary (s : RuntimeSupervisor) (rid bid : Bytes) : Prop :=
  (∃ n ≤ s.boundaryCounter, bid = generatedId boundaryKind n) ∧
    ∀ b, s.boundaries bid = some b → b.runtimeId = rid ∧ b.actionSet = false

theorem OwnBoundary.frame {s s' : RuntimeSupervisor} {rid bid : Bytes} (h : OwnBoundary s rid bid)
    (hf : SnapshotFrame s s') : OwnBoundary s' rid bid := by
  obtain ⟨⟨n, hn, rfl⟩, hb⟩ := h
  exact ⟨⟨n, hf.counter.symm ▸ hn, rfl⟩, fun b hb' => hb b (hf.boundaries _ b hb')⟩

namespace SnapshotSystem

/-- While a snapshot is on its way the runtime has it pending, and the boundary it works on is
one of its own. -/
structure Sound (σ : SnapshotSystem) : Prop where
  pending : σ.pc.begun = true → σ.Pending σ.request.runtimeId
  waiting : ∀ status r, σ.pc = .waitBoundary status →
    σ.supervisor.runtimes σ.request.runtimeId = some r → r.boundaryObserved = true →
      OwnBoundary σ.supervisor σ.request.runtimeId r.pendingBoundaryId
  boundary : ∀ bid, σ.pc.boundary = some bid →
    OwnBoundary σ.supervisor σ.request.runtimeId bid

theorem Pending.keeps {σ : SnapshotSystem} {s' : RuntimeSupervisor} {rid : Bytes}
    (h : σ.Pending rid) (hk : KeepsPending σ.supervisor s') :
    (σ.withSupervisor s').Pending rid := by
  obtain ⟨r, hr, hp⟩ := h
  obtain ⟨r', hr', hp', -⟩ := hk rid r hr
  exact ⟨r', hr', hp'.trans hp⟩

namespace Sound

variable {σ : SnapshotSystem}

/-- A step of another thread that leaves the pending snapshots alone. -/
theorem frame (h : σ.Sound) {s' : RuntimeSupervisor} (hf : SnapshotFrame σ.supervisor s') :
    (σ.withSupervisor s').Sound where
  pending := fun hb => (h.pending hb).keeps hf.pending
  waiting := by
    intro status r' hpc hr' hobs
    have hbegun : σ.pc.begun = true := by
      have hpc' : σ.pc = .waitBoundary status := hpc
      rw [hpc']
      rfl
    obtain ⟨r, hr, -⟩ := h.pending hbegun
    obtain ⟨r'', hr'', -, hobs', hbid, -⟩ := hf.pending _ r hr
    have hsame : r'' = r' := Option.some.inj (hr''.symm.trans hr')
    rw [hsame] at hobs' hbid
    rw [hbid]
    exact (h.waiting status r hpc hr (hobs'.symm.trans hobs)).frame hf
  boundary := fun bid hbid => (h.boundary bid hbid).frame hf

/-- A boundary is observed: its id is new. -/
theorem observe (h : σ.Sound) {rid token : Bytes} {pid : Int} {generation : UInt64} {kind bid : Bytes}
    {s' : RuntimeSupervisor}
    (ho : σ.supervisor.observeBoundary rid token pid generation kind = .ok (bid, s')) :
    (σ.withSupervisor s').Sound := by
  unfold RuntimeSupervisor.observeBoundary at ho
  split at ho
  · cases ho
  rename_i r hr
  split at ho
  · cases ho
  split at ho
  · cases ho
  cases ho
  -- What was released before has another id than the new boundary.
  have hold : ∀ {rid' bid'}, OwnBoundary σ.supervisor rid' bid' →
      bid' ≠ generatedId boundaryKind (σ.supervisor.boundaryCounter + 1) := by
    rintro rid' bid' ⟨⟨n, hn, rfl⟩, -⟩ heq
    have := generatedId_injective heq
    omega
  have hkeep : ∀ {rid' bid' s''}, OwnBoundary σ.supervisor rid' bid' →
      s''.boundaryCounter = σ.supervisor.boundaryCounter + 1 →
      (∀ k, k ≠ generatedId boundaryKind (σ.supervisor.boundaryCounter + 1) →
        s''.boundaries k = σ.supervisor.boundaries k) → OwnBoundary s'' rid' bid' := by
    intro rid' bid' s'' hown hcount hsame
    have hne := hold hown
    obtain ⟨⟨n, hn, hid⟩, hb⟩ := hown
    refine ⟨⟨n, by omega, hid⟩, fun b hb' => hb b ?_⟩
    rw [← hsame bid' hne, hb']
  have hbound : ∀ (q : Runtime) (k : Bytes) (b : Boundary),
      k ≠ generatedId boundaryKind (σ.supervisor.boundaryCounter + 1) →
      (({ σ.supervisor with boundaryCounter := σ.supervisor.boundaryCounter + 1 }.setBoundary
        (generatedId boundaryKind (σ.supervisor.boundaryCounter + 1)) b).setRuntime
          rid q).boundaries k = σ.supervisor.boundaries k := by
    intro q k b hk
    rw [RuntimeSupervisor.setRuntime_boundaries, RuntimeSupervisor.setBoundary_boundaries,
      if_neg hk]
  refine ⟨fun hb => ?_, fun status q hpc hq hobs => ?_, fun bid' hbid' => ?_⟩
  · obtain ⟨q, hq, hp⟩ := h.pending hb
    by_cases hrid : σ.request.runtimeId = rid
    · rw [hrid, hr] at hq
      cases hq
      exact ⟨{ r with pendingBoundaryId := _, boundaryObserved := true },
        (RuntimeSupervisor.setRuntime_runtimes ..).trans (if_pos hrid), hp⟩
    · exact ⟨q, ((RuntimeSupervisor.setRuntime_runtimes ..).trans (if_neg hrid)).trans hq, hp⟩
  · rw [withSupervisor, RuntimeSupervisor.setRuntime_runtimes] at hq
    split at hq
    · rename_i hrid
      cases hq
      refine ⟨⟨_, Nat.le_refl _, rfl⟩, fun b hb => ?_⟩
      rw [withSupervisor, RuntimeSupervisor.setRuntime_boundaries,
        RuntimeSupervisor.setBoundary_boundaries, if_pos rfl] at hb
      cases hb
      exact ⟨hrid.symm, rfl⟩
    · exact hkeep (h.waiting status q hpc hq hobs) rfl fun k hk => hbound _ k _ hk
  · exact hkeep (h.boundary bid' hbid') rfl fun k hk => hbound _ k _ hk

/-- A step that only moves on, to a place without new duties. -/
theorem go (h : σ.Sound) {pc : SnapshotPc} (hb : pc.begun = true → σ.pc.begun = true)
    (hw : ∀ status, pc ≠ .waitBoundary status)
    (hbid : ∀ bid, pc.boundary = some bid → σ.pc.boundary = some bid) :
    Sound { σ with pc := pc } where
  pending := fun hp => h.pending (hb hp)
  waiting := fun status _ hpc => (hw status hpc).elim
  boundary := fun bid hb' => h.boundary bid (hbid bid hb')

/-- A step to a place that works on no boundary. -/
theorem move (h : σ.Sound) {s' : RuntimeSupervisor} {pc : SnapshotPc}
    (hk : KeepsPending σ.supervisor s') (hb : pc.begun = true → σ.pc.begun = true)
    (hw : ∀ status, pc ≠ .waitBoundary status) (hbid : pc.boundary = none) :
    Sound { σ with supervisor := s', pc := pc } where
  pending := fun hp => (h.pending (hb hp)).keeps hk
  waiting := fun status _ hpc => (hw status hpc).elim
  boundary := fun bid hb' => by
    have hpc : pc.boundary = some bid := hb'
    simp [hbid] at hpc

/-- The end of a call leaves nothing to show. -/
theorem returned (request : RuntimeSnapshotRequest) (s' : RuntimeSupervisor) (begun : Bool)
    (result : RuntimeSnapshotResult) : Sound ⟨s', request, .returned begun result⟩ where
  pending := fun hp => (by cases hp)
  waiting := fun _ _ hpc => (by cases hpc)
  boundary := fun _ hb => (by cases hb)

end Sound

theorem keepsPending_releaseBoundaryForSnapshot {s s' : RuntimeSupervisor} {bid : Bytes}
    {action : RuntimeBoundaryAction}
    (h : s.releaseBoundaryForSnapshot bid = .ok (action, s')) : KeepsPending s s' := by
  unfold RuntimeSupervisor.releaseBoundaryForSnapshot at h
  split at h
  · cases h
  split at h
  · cases h
  rename_i b _ _
  cases h
  cases hr : s.runtimes b.runtimeId with
  | none => exact .of_runtimes (by simp [RuntimeSupervisor.setBoundary, hr])
  | some r =>
      refine .update hr (show _ = Function.update s.runtimes b.runtimeId (some { r with
        templateIds := r.templateIds ++ [generatedId templateKind (s.templateCounter + 1)]
        pendingTemplateId := generatedId templateKind (s.templateCounter + 1) }) from ?_)
        rfl rfl rfl rfl
      simp [RuntimeSupervisor.setBoundary, RuntimeSupervisor.setRuntime, hr]

/-- The snapshot is pending, and no boundary is observed yet. -/
theorem sound_beginSnapshot {s s' : RuntimeSupervisor} {request : RuntimeSnapshotRequest}
    {op : Bytes} (h : s.beginSnapshot request = .ok (op, s')) (status : RuntimeStatus) :
    Sound ⟨s', request, .waitBoundary status⟩ := by
  unfold RuntimeSupervisor.beginSnapshot at h
  split at h
  · cases h
  rename_i r hr
  split at h
  · cases h
  cases h
  refine ⟨fun _ => ⟨_, (RuntimeSupervisor.setRuntime_runtimes ..).trans (if_pos rfl), rfl⟩,
    fun _ q _ hq hobs => ?_, fun _ hb => (by cases hb)⟩
  have hq' := ((RuntimeSupervisor.setRuntime_runtimes ..).trans (if_pos rfl)).symm.trans hq
  cases hq'
  cases hobs

/-- Every step of a snapshot keeps the invariant. -/
theorem sound_snapshotStep {s s' : RuntimeSupervisor} {request : RuntimeSnapshotRequest}
    {pc pc' : SnapshotPc} {o : SnapshotOutcome} (h : Sound ⟨s, request, pc⟩)
    (hs : s.snapshotStep request pc o = some (s', pc')) : Sound ⟨s', request, pc'⟩ := by
  have hsame := KeepsPending.refl s
  unfold RuntimeSupervisor.snapshotStep at hs
  split at hs
  -- `start` and `validated`
  · simp only at hs
    repeat' split at hs
    all_goals cases hs
    all_goals exact h.move hsame (fun hp => (by cases hp)) (fun _ hpc => (by cases hpc)) rfl
  · split at hs
    · cases hs
      exact .returned ..
    · rename_i op s₁ hbegin
      cases hs
      exact sound_beginSnapshot hbegin _
  -- the wait for the boundary
  · rename_i status
    split at hs
    · cases hs
    rename_i r hr
    split at hs
    · rename_i hobs
      cases hs
      exact {
        pending := fun _ => h.pending rfl
        waiting := fun _ _ hpc => (by cases hpc)
        boundary := fun bid hb => by
          cases hb
          exact h.waiting status r rfl hr hobs }
    · cases hs
  · split at hs
    · cases hs
    · cases hs
      exact h.move hsame (fun _ => rfl) (fun _ hpc => (by cases hpc)) rfl
  -- the checkpoint
  · split at hs
    all_goals
      cases hs
      exact h.go (fun _ => rfl) (fun _ hpc => (by cases hpc)) fun _ hb => hb
  · simp only at hs
    split at hs
    all_goals
      cases hs
      exact .returned ..
  · split at hs
    · cases hs
      exact h.move hsame (fun _ => rfl) (fun _ hpc => (by cases hpc)) rfl
    · rename_i action s₁ hrelease
      cases hs
      exact h.move (keepsPending_releaseBoundaryForSnapshot hrelease) (fun _ => rfl)
        (fun _ hpc => (by cases hpc)) rfl
  -- the wait for the template
  · split at hs
    · cases hs
      exact h.move hsame (fun _ => rfl) (fun _ hpc => (by cases hpc)) rfl
    · cases hs
  · split at hs
    · cases hs
    · cases hs
      exact h.move hsame (fun _ => rfl) (fun _ hpc => (by cases hpc)) rfl
  -- the union state
  · split at hs
    all_goals
      cases hs
      exact h.move hsame (fun _ => rfl) (fun _ hpc => (by cases hpc)) rfl
  · split at hs
    · cases hs
      exact h.move hsame (fun _ => rfl) (fun _ hpc => (by cases hpc)) rfl
    · rename_i s₁ hattach
      cases hs
      exact h.move (RuntimeSupervisor.frame_attachUnionState hattach).pending (fun _ => rfl)
        (fun _ hpc => (by cases hpc)) rfl
  -- the end
  · cases hs
    exact h.move (RuntimeSupervisor.after_cases hsame
      fun _ hd => (RuntimeSupervisor.frame_dropTemplate hd).pending) (fun _ => rfl)
        (fun _ hpc => (by cases hpc)) rfl
  · cases hs
    exact h.move (RuntimeSupervisor.after_cases hsame
      fun _ hf => (RuntimeSupervisor.frame_failTemplatePublish hf).pending) (fun _ => rfl)
        (fun _ hpc => (by cases hpc)) rfl
  · cases hs
    exact .returned ..
  · cases hs

/-- Every event keeps the invariant. -/
theorem sound_step {σ σ' : SnapshotSystem} {ev : SnapshotEvent} (h : σ.Sound)
    (hs : Step σ ev σ') : σ'.Sound := by
  -- a call that changes nothing of the snapshot
  have hframe : ∀ {r : Except String RuntimeSupervisor},
      (∀ s', r = .ok s' → SnapshotFrame σ.supervisor s') →
      (σ.withSupervisor (σ.supervisor.after r)).Sound :=
    fun hr => h.frame (RuntimeSupervisor.after_cases (.refl _) hr)
  have hframeMap : ∀ {r : Except String (Int × RuntimeSupervisor)},
      (∀ a s', r = .ok (a, s') → SnapshotFrame σ.supervisor s') →
      (σ.withSupervisor (σ.supervisor.after (r.map (·.2)))).Sound :=
    fun hr => h.frame (RuntimeSupervisor.after_map_cases (.refl _) hr)
  unfold Step next at hs
  cases ev with
  | message m =>
      cases hs
      cases m with
      -- a boundary that is observed is the one waited for
      | observe rid token pid generation kind =>
          exact RuntimeSupervisor.after_map_cases (P := fun s => (σ.withSupervisor s).Sound)
            h fun bid s' ho => h.observe ho
      | _ => exact h.frame (σ.supervisor.frame_deliver _ fun _ _ _ _ _ heq => (by cases heq))
  -- a new call starts with nothing pending
  | call request =>
      simp only at hs
      split at hs
      · cases hs
        exact {
          pending := fun hp => (by cases hp)
          waiting := fun _ _ hpc => (by cases hpc)
          boundary := fun _ hb => (by cases hb) }
      · cases hs
  | step o =>
      obtain ⟨⟨s', pc'⟩, hstep, rfl⟩ := Option.map_eq_some_iff.1 hs
      exact sound_snapshotStep h hstep
  | beginRestore freeze intent =>
      simp only at hs
      split at hs
      · cases hs
        exact hframe fun _ hr => RuntimeSupervisor.frame_beginRestore hr
      · cases hs
  | publishRestore rid =>
      simp only at hs
      split at hs
      · cases hs
        exact hframe fun _ hr => RuntimeSupervisor.frame_publishRestore hr
      · cases hs
  | abortRestore rid =>
      simp only at hs
      split at hs
      · cases hs
        exact hframeMap fun _ _ hr => RuntimeSupervisor.frame_abortRestore hr
      · cases hs
  | retire rid =>
      simp only at hs
      split at hs
      · cases hs
        exact hframeMap fun _ _ hr => RuntimeSupervisor.frame_retirePendingGeneration hr
      · cases hs

theorem sound_of_reaches {σ : SnapshotSystem} (h : Reaches Init Step σ) : σ.Sound := by
  refine h.invariant (fun σ hi => ?_) fun _ _ _ hi hs => sound_step hi hs
  obtain ⟨-, result, hpc⟩ := hi
  obtain ⟨s, request, pc⟩ := σ
  cases hpc
  exact .returned ..

/-! ## What a snapshot leaves behind -/

/-- The failure after the checkpoint clears the pending snapshot through the boundary, if its
record is still there. -/
theorem pending_releaseBoundaryWithError {s : RuntimeSupervisor} {rid bid : Bytes} (error : String)
    (hown : OwnBoundary s rid bid) {r : Runtime} (hr : s.runtimes rid = some r) :
    (s.boundaries bid = none → s.releaseBoundaryWithError bid error = .error "unknown boundary") ∧
      (s.boundaries bid ≠ none → ∃ action s' r',
        s.releaseBoundaryWithError bid error = .ok (action, s') ∧ s'.runtimes rid = some r' ∧
          r'.hasPendingSnapshot = false) := by
  unfold RuntimeSupervisor.releaseBoundaryWithError
  refine ⟨fun hb => by rw [hb], fun hb => ?_⟩
  obtain ⟨b, hb⟩ := Option.ne_none_iff_exists'.1 hb
  obtain ⟨hrid, hset⟩ := hown.2 b hb
  simp only [hb, hset, hrid, hr, Bool.false_eq_true, if_false]
  exact ⟨_, _, _, rfl, (RuntimeSupervisor.setRuntime_runtimes ..).trans (if_pos rfl), rfl⟩

theorem runtimes_cancelSnapshot {s : RuntimeSupervisor} {rid : Bytes} {r : Runtime}
    (hr : s.runtimes rid = some r) :
    (s.after (s.cancelSnapshot rid)).runtimes rid = some r.clearSnapshot := by
  unfold RuntimeSupervisor.cancelSnapshot
  simp [hr]

/-- A runtime without a pending snapshot does not refuse the next one. -/
theorem beginSnapshot_of_not_pending {σ : SnapshotSystem} {rid : Bytes} (h : ¬σ.Pending rid)
    (request : RuntimeSnapshotRequest) (hrid : request.runtimeId = rid) :
    σ.supervisor.beginSnapshot request ≠ .error "snapshot already in progress" := by
  subst hrid
  unfold RuntimeSupervisor.beginSnapshot
  cases hr : σ.supervisor.runtimes request.runtimeId with
  | none => simp
  | some r =>
      have hp : r.hasPendingSnapshot = false := by
        cases hp : r.hasPendingSnapshot with
        | false => rfl
        | true => exact absurd ⟨r, hr, hp⟩ h
      simp [hp]

/-- A snapshot that has begun returns from the cancellation or from the failure after the
checkpoint. -/
theorem snapshotStep_returned {s s' : RuntimeSupervisor} {request : RuntimeSnapshotRequest}
    {pc : SnapshotPc} {o : SnapshotOutcome} {result : RuntimeSnapshotResult}
    (h : s.snapshotStep request pc o = some (s', .returned true result)) :
    (pc = .cancel result ∧ s' = s.after (s.cancelSnapshot request.runtimeId)) ∨
      ∃ bid error, pc = .checkpointFailed bid error ∧
        s' = s.after ((s.releaseBoundaryWithError bid error).map (·.2)) := by
  unfold RuntimeSupervisor.snapshotStep at h
  split at h
  case h_6 bid error =>
    refine Or.inr ⟨bid, error, rfl, ?_⟩
    simp only at h
    split at h
    · rename_i e he
      cases h
      rw [he]
      rfl
    · rename_i action s₁ he
      cases h
      rw [he]
      rfl
  case h_14 =>
    cases h
    exact Or.inl ⟨rfl, rfl⟩
  all_goals
    try simp only at h
    repeat' split at h
    all_goals cases h

/-- When a snapshot that has begun returns, its runtime has no pending snapshot, so that a
snapshot asked for then is not refused on its account, unless it failed after the wait for the
boundary and the boundary's own handler had reaped the record before. -/
theorem snapshot_clears_pending_iff {σ σ' : SnapshotSystem} {o : SnapshotOutcome}
    {result : RuntimeSnapshotResult} (hr : Reaches Init Step σ) (hs : Step σ (.step o) σ')
    (hpc : σ'.pc = .returned true result) :
    (¬σ'.Pending σ.request.runtimeId ∧ ∀ request, request.runtimeId = σ.request.runtimeId →
        σ'.supervisor.beginSnapshot request ≠ .error "snapshot already in progress") ↔
      ∀ bid error, σ.pc = .checkpointFailed bid error → σ.supervisor.boundaries bid ≠ none := by
  have h := sound_of_reaches hr
  obtain ⟨⟨s', pc'⟩, hstep, rfl⟩ := Option.map_eq_some_iff.1 hs
  have hpc' : pc' = .returned true result := hpc
  subst hpc'
  suffices hiff : ¬Pending ⟨s', σ.request, .returned true result⟩ σ.request.runtimeId ↔
      ∀ bid error, σ.pc = .checkpointFailed bid error → σ.supervisor.boundaries bid ≠ none by
    rw [← hiff]
    exact ⟨fun hn => hn.1, fun hn => ⟨hn, fun request hrid => beginSnapshot_of_not_pending hn request hrid⟩⟩
  rcases snapshotStep_returned hstep with ⟨hcancel, rfl⟩ | ⟨bid, error, hfailed, rfl⟩
  · obtain ⟨r, hr₀, -⟩ := h.pending (by rw [hcancel]; rfl)
    refine ⟨fun _ bid error hp => ?_, fun _ => ?_⟩
    · rw [hcancel] at hp
      cases hp
    rintro ⟨r', hr', hp'⟩
    have hsame := (runtimes_cancelSnapshot hr₀).symm.trans hr'
    cases hsame
    cases hp'
  · obtain ⟨r, hr₀, hp₀⟩ := h.pending (by rw [hfailed]; rfl)
    obtain ⟨hgone, hthere⟩ := pending_releaseBoundaryWithError error
      (h.boundary bid (by rw [hfailed]; rfl)) hr₀
    by_cases hb : σ.supervisor.boundaries bid = none
    · rw [hgone hb]
      refine ⟨fun hn => absurd ⟨r, hr₀, hp₀⟩ hn, fun hall => absurd hb (hall bid error hfailed)⟩
    · obtain ⟨action, s₁, r', hok, hr', hp'⟩ := hthere hb
      rw [hok]
      refine ⟨fun _ bid' error' hfailed' => ?_, fun _ => ?_⟩
      · rw [hfailed] at hfailed'
        cases hfailed'
        exact hb
      · rintro ⟨q, hq, hq'⟩
        have hsame := hr'.symm.trans hq
        cases hsame
        rw [hp'] at hq'
        cases hq'

/-! ## A boundary reaped during the checkpoint -/

/-- A supervisor that has just started. -/
def idle : SnapshotSystem where
  supervisor := {}
  request := { runtimeId := [114], boundaryKind := [] }
  pc := .returned false (RuntimeSupervisor.snapshotFailed [114] "")

/-- The handler of the boundary gives up while the branch is checkpointed, and then the
checkpoint fails. -/
def reapedRun : List SnapshotEvent := [
  .message (.register {
    runtimeId := [114]
    branch := [109]
    rootPid := 1
    processGroupId := 1
    cooperative := true
    controlToken := [116] }),
  .call { runtimeId := [114], boundaryKind := [] },
  .step (.validate none (fun _ => true) true),
  .step .go,
  .message (.observe [114] [116] 1 1 []),
  .step .waited,
  .message (.endWait (generatedId boundaryKind 1)),
  .step (.checkpoint (.error "failed to write root tree"))]

/-- Whether the runtime of the run has a pending snapshot. -/
def stillPending (σ : SnapshotSystem) : Bool :=
  match σ.supervisor.runtimes [114] with
  | none => false
  | some r => r.hasPendingSnapshot

/-- Whether a snapshot that has begun has returned. -/
def hasReturned (σ : SnapshotSystem) : Bool :=
  match σ.pc with
  | .returned true _ => true
  | _ => false

/-- Whether the call returns with the step after these events, and the test holds of the states
before and after that step. -/
def returnsAfter (evs : List SnapshotEvent) (test : SnapshotSystem → SnapshotSystem → Bool) : Bool :=
  (evs.foldlM next idle).any fun σ => (σ.next (.step .go)).any fun σ' => σ'.hasReturned && test σ σ'

theorem exists_of_returnsAfter {evs : List SnapshotEvent}
    {test : SnapshotSystem → SnapshotSystem → Bool} (h : returnsAfter evs test = true) :
    ∃ σ σ' result, Reaches Init Step σ ∧ Step σ (.step .go) σ' ∧
      σ'.pc = .returned true result ∧ test σ σ' = true := by
  obtain ⟨σ, hσ, hnext⟩ := (Option.any_eq_true _ _).1 h
  obtain ⟨σ', hσ', hboth⟩ := (Option.any_eq_true _ _).1 hnext
  obtain ⟨hreturned, htest⟩ := Bool.and_eq_true_iff.1 hboth
  have hreach : Reaches Init Step σ :=
    Reaches.run evs (fun _ _ _ _ hs => hs) (.start ⟨rfl, _, rfl⟩) hσ
  unfold hasReturned at hreturned
  split at hreturned
  · rename_i result hpc
    exact ⟨σ, σ', result, hreach, hσ', hpc, htest⟩
  · cases hreturned

theorem exists_reaped : ∃ σ σ' result, Reaches Init Step σ ∧ Step σ (.step .go) σ' ∧
    σ'.pc = .returned true result ∧ σ'.Pending σ.request.runtimeId := by
  have hrun : returnsAfter reapedRun (fun σ σ' =>
      σ'.stillPending && σ.request.runtimeId == [114]) = true := by decide +kernel
  obtain ⟨σ, σ', result, hr, hs, hpc, htest⟩ := exists_of_returnsAfter hrun
  obtain ⟨hpending, hrid⟩ := Bool.and_eq_true_iff.1 htest
  refine ⟨σ, σ', result, hr, hs, hpc, ?_⟩
  rw [beq_iff_eq.1 hrid]
  unfold stillPending at hpending
  split at hpending
  · cases hpending
  · rename_i r hr'
    exact ⟨r, hr', hpending⟩

/-- The same without the timeout. -/
def waitingRun : List SnapshotEvent := reapedRun.eraseIdx 6

/-- Whether the call has failed with the record of its boundary still there. -/
def boundaryThere (σ : SnapshotSystem) : Bool :=
  match σ.pc with
  | .checkpointFailed bid _ => (σ.supervisor.boundaries bid).isSome
  | _ => false

/-- A snapshot can return and leave its runtime with a pending snapshot for good. -/
theorem snapshot_leaves_pending :
    ¬ ∀ σ σ' o result, Reaches Init Step σ → Step σ (.step o) σ' →
      σ'.pc = .returned true result → ¬σ'.Pending σ.request.runtimeId := by
  intro h
  obtain ⟨σ, σ', result, hr, hs, hpc, hpending⟩ := exists_reaped
  exact h σ σ' .go result hr hs hpc hpending

/-- With its boundary reaped before the failure a call leaves the snapshot pending; with the boundary
still there it clears it. -/
theorem snapshot_clears_pending_iff_failed :
    (∃ σ σ' result, Reaches Init Step σ ∧ Step σ (.step .go) σ' ∧ σ'.pc = .returned true result ∧
      σ'.Pending σ.request.runtimeId ∧
        ∃ bid error, σ.pc = .checkpointFailed bid error ∧ σ.supervisor.boundaries bid = none) ∧
    ∃ σ σ' result, Reaches Init Step σ ∧ Step σ (.step .go) σ' ∧ σ'.pc = .returned true result ∧
      (∃ bid error, σ.pc = .checkpointFailed bid error ∧ σ.supervisor.boundaries bid ≠ none) ∧
        ¬σ'.Pending σ.request.runtimeId := by
  constructor
  · obtain ⟨σ, σ', result, hr, hs, hpc, hpending⟩ := exists_reaped
    have hnot := mt (snapshot_clears_pending_iff hr hs hpc).2 fun h => h.1 hpending
    push Not at hnot
    exact ⟨σ, σ', result, hr, hs, hpc, hpending, hnot⟩
  · have hrun : returnsAfter waitingRun (fun σ _ => σ.boundaryThere) = true := by decide +kernel
    obtain ⟨σ, σ', result, hr, hs, hpc, hthere⟩ := exists_of_returnsAfter hrun
    unfold boundaryThere at hthere
    split at hthere
    · rename_i bid error hfailed
      have hsome : σ.supervisor.boundaries bid ≠ none := Option.isSome_iff_ne_none.1 hthere
      have hcleared := (snapshot_clears_pending_iff hr hs hpc).2 fun bid' error' hfailed' => by
        rw [hfailed] at hfailed'
        cases hfailed'
        exact hsome
      exact ⟨σ, σ', result, hr, hs, hpc, ⟨bid, error, hfailed, hsome⟩, hcleared.1⟩
    · cases hthere

end SnapshotSystem
end ContextFS
