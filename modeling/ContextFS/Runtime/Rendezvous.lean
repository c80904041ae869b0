import ContextFS.Lib.Points
import ContextFS.Runtime.DroppedTemplates
import ContextFS.Runtime.Snapshot

/-!
# Boundaries and templates meet

A parked process waits at a boundary until a snapshot acts on it or its patience ends, and a
template is forked only at a boundary that was released for it.  Requests, snapshots, cancels and
waits of any number of runtimes reach the supervisor in any order; three tables and two flags of
the runtime have to agree all the same.
-/

namespace ContextFS

open Lib

namespace RuntimeSupervisor

variable {σ σ' : RuntimeSupervisor}

/-- An id `make_boundary_id_locked` has given out. -/
def MadeBoundaryId (σ : RuntimeSupervisor) (bid : Bytes) : Prop :=
  ∃ n, n ≤ σ.boundaryCounter ∧ bid = generatedId boundaryKind n

/-- The id of the next boundary is not one of them. -/
theorem not_madeBoundaryId_next (σ : RuntimeSupervisor) :
    ¬ σ.MadeBoundaryId (generatedId boundaryKind (σ.boundaryCounter + 1)) := by
  rintro ⟨n, hle, heq⟩
  have hn := generatedId_injective heq
  omega

theorem MadeBoundaryId.ne_nil {bid : Bytes} (h : σ.MadeBoundaryId bid) : bid ≠ [] := by
  obtain ⟨n, -, rfl⟩ := h
  exact List.cons_ne_nil _ _

theorem MadeBoundaryId.mono {bid : Bytes} (h : σ.MadeBoundaryId bid)
    (hc : σ.boundaryCounter ≤ σ'.boundaryCounter) : σ'.MadeBoundaryId bid := by
  obtain ⟨n, hle, hid⟩ := h
  exact ⟨n, hle.trans hc, hid⟩

/-! ## One call and one boundary -/

/-- What a call can do with a boundary: take it away, leave it, set its action, make it. -/
structure BoundaryFrame (s s' : RuntimeSupervisor) : Prop where
  counter : s.boundaryCounter ≤ s'.boundaryCounter
  boundaries : ∀ bid b', s'.boundaries bid = some b' →
    s.boundaries bid = some b' ∨
      (∃ b, s.boundaries bid = some b ∧ b.actionSet = false ∧ b'.actionSet = true) ∨
      bid = generatedId boundaryKind (s.boundaryCounter + 1) ∧ s'.MadeBoundaryId bid

theorem BoundaryFrame.of_snapshotFrame {s s' : RuntimeSupervisor} (h : SnapshotFrame s s') :
    BoundaryFrame s s' :=
  ⟨h.counter.ge, fun bid b' hb => Or.inl (h.boundaries bid b' hb)⟩

/-- One boundary without an action gets one. -/
theorem BoundaryFrame.act {s s' : RuntimeSupervisor} {bid : Bytes} {b b' : Boundary}
    (hb : s.boundaries bid = some b) (hunset : b.actionSet = false) (hset : b'.actionSet = true)
    (hs : s'.boundaries = Function.update s.boundaries bid (some b'))
    (hc : s'.boundaryCounter = s.boundaryCounter) : BoundaryFrame s s' := by
  refine ⟨hc.ge, fun k q hq => ?_⟩
  rw [hs, Function.update_apply] at hq
  split at hq
  · rename_i hk
    cases hq
    subst hk
    exact Or.inr (Or.inl ⟨b, hb, hunset, hset⟩)
  · exact Or.inl hq

/-- A successful release, for a snapshot or with an error, was of a boundary without an action. -/
theorem releaseBoundaryForSnapshot_boundary {bid : Bytes} {action : RuntimeBoundaryAction}
    (h : σ.releaseBoundaryForSnapshot bid = .ok (action, σ')) :
    ∃ b b', σ.boundaries bid = some b ∧ b.actionSet = false ∧ b'.actionSet = true ∧
      b'.runtimeId = b.runtimeId ∧
      action.templateId = generatedId templateKind (σ.templateCounter + 1) ∧
      σ'.boundaries = Function.update σ.boundaries bid (some b') ∧
      σ'.boundaryCounter = σ.boundaryCounter ∧
      σ'.templates = Function.update σ.templates (generatedId templateKind (σ.templateCounter + 1))
        (some { runtimeId := b.runtimeId, generation := b.generation }) ∧
      σ'.templateCounter = σ.templateCounter + 1 ∧ KeepsPending σ σ' := by
  unfold releaseBoundaryForSnapshot at h
  split at h
  · cases h
  rename_i b hb
  split at h
  · cases h
  rename_i hunset
  cases h
  let tid := generatedId templateKind (σ.templateCounter + 1)
  let b' : Boundary := {
    b with
    templateId := tid
    action := {
      action := .snapshot
      operationId := b.operationId
      templateId := tid
      error := "" }
    actionSet := true }
  refine ⟨b, b', hb, by simpa using hunset, rfl, rfl, rfl, ?_, ?_, ?_, ?_, ?_⟩
  · cases hr : σ.runtimes b.runtimeId <;> simp [hr, setBoundary, setTemplate, setRuntime, b', tid]
  · cases hr : σ.runtimes b.runtimeId <;> simp [hr, setBoundary, setTemplate, setRuntime]
  · cases hr : σ.runtimes b.runtimeId <;> simp [hr, setBoundary, setTemplate, setRuntime]
  · cases hr : σ.runtimes b.runtimeId <;> simp [hr, setBoundary, setTemplate, setRuntime]
  · cases hr : σ.runtimes b.runtimeId with
    | none => exact .of_runtimes (by simp [hr, setBoundary, setTemplate])
    | some r =>
        let r' : Runtime := { r with templateIds := r.templateIds ++ [tid], pendingTemplateId := tid }
        have hkeep : KeepsPending σ (σ.setRuntime b.runtimeId r') := .update hr rfl rfl rfl rfl rfl
        intro k q hq
        obtain ⟨q', hq', hsame⟩ := hkeep k q hq
        refine ⟨q', ?_, hsame⟩
        rw [← hq']
        simp [hr, setBoundary, setTemplate, setRuntime, r', tid]

theorem releaseBoundaryWithError_boundary {bid : Bytes} {message : String}
    {action : RuntimeBoundaryAction}
    (h : σ.releaseBoundaryWithError bid message = .ok (action, σ')) :
    ∃ b, σ.boundaries bid = some b ∧ b.actionSet = false ∧
      σ'.boundaries = Function.update σ.boundaries bid (some (b.fail message)) ∧
      σ'.boundaryCounter = σ.boundaryCounter ∧
      ∀ rid, rid ≠ b.runtimeId → σ'.runtimes rid = σ.runtimes rid := by
  unfold releaseBoundaryWithError at h
  split at h
  · cases h
  rename_i b hb
  split at h
  · cases h
  rename_i hunset
  cases h
  refine ⟨b, hb, by simpa using hunset, ?_, ?_, fun rid hrid => ?_⟩
  · cases σ.runtimes b.runtimeId <;> simp [setBoundary, setRuntime]
  · cases σ.runtimes b.runtimeId <;> simp [setBoundary, setRuntime]
  · cases σ.runtimes b.runtimeId <;> simp [hrid]

/-- A cancel clears the runtime, and releases its boundary if that still waits. -/
theorem cancelSnapshot_ok {rid : Bytes} (h : σ.cancelSnapshot rid = .ok σ') :
    ∃ r, σ.runtimes rid = some r ∧
      σ'.runtimes = Function.update σ.runtimes rid (some r.clearSnapshot) ∧
      σ'.boundaryCounter = σ.boundaryCounter ∧
      ((∃ b, r.boundaryObserved = true ∧ σ.boundaries r.pendingBoundaryId = some b ∧
          b.actionSet = false ∧ σ'.boundaries =
            Function.update σ.boundaries r.pendingBoundaryId (some (b.fail "snapshot cancelled"))) ∨
        σ'.boundaries = σ.boundaries ∧ (r.boundaryObserved = true → r.pendingBoundaryId ≠ [] →
          ∀ b, σ.boundaries r.pendingBoundaryId = some b → b.actionSet = true)) := by
  unfold cancelSnapshot at h
  split at h
  · cases h
  rename_i r hr
  cases h
  refine ⟨r, hr, ?_, ?_, ?_⟩
  all_goals by_cases hobs : (r.boundaryObserved && r.pendingBoundaryId ≠ []) = true
  · simp only [hobs, if_true]
    cases hb : σ.boundaries r.pendingBoundaryId with
    | none => rfl
    | some b => cases hset : b.actionSet <;> simp [hset, setRuntime, setBoundary]
  · simp only [hobs]
    rfl
  · simp only [hobs, if_true]
    cases hb : σ.boundaries r.pendingBoundaryId with
    | none => rfl
    | some b => cases hset : b.actionSet <;> simp [hset, setRuntime, setBoundary]
  · simp only [hobs]
    rfl
  · simp only [hobs, if_true]
    simp only [Bool.and_eq_true, decide_eq_true_eq] at hobs
    cases hb : σ.boundaries r.pendingBoundaryId with
    | none => exact Or.inr ⟨rfl, fun _ _ b hb' => (by cases hb')⟩
    | some b =>
        cases hset : b.actionSet with
        | true =>
            refine Or.inr ⟨by simp [hset], fun _ _ b' hb' => ?_⟩
            cases hb'
            exact hset
        | false => exact Or.inl ⟨b, hobs.1, rfl, hset, by simp [hset, setRuntime, setBoundary]⟩
  · simp only [hobs]
    refine Or.inr ⟨rfl, fun h₁ h₂ => ?_⟩
    simp [h₁, h₂] at hobs

theorem observeBoundary_ok {rid token : Bytes} {pid : Int} {generation : UInt64} {kind bid : Bytes}
    (h : σ.observeBoundary rid token pid generation kind = .ok (bid, σ')) :
    ∃ r b, σ.runtimes rid = some r ∧ r.hasPendingSnapshot = true ∧ r.boundaryObserved = false ∧
      bid = generatedId boundaryKind (σ.boundaryCounter + 1) ∧ b.actionSet = false ∧
      b.runtimeId = rid ∧ b.operationId = r.pendingOpId ∧
      σ'.boundaries = Function.update σ.boundaries bid (some b) ∧
      σ'.boundaryCounter = σ.boundaryCounter + 1 ∧
      σ'.runtimes = Function.update σ.runtimes rid
        (some { r with pendingBoundaryId := bid, boundaryObserved := true }) := by
  unfold observeBoundary at h
  split at h
  · cases h
  rename_i r hr
  split at h
  · cases h
  split at h
  · cases h
  rename_i hpending
  cases h
  simp only [Bool.or_eq_true, Bool.not_eq_true', not_or, Bool.not_eq_false,
    Bool.not_eq_true] at hpending
  exact ⟨r, _, hr, hpending.1, hpending.2, rfl, rfl, rfl, rfl, rfl, rfl, rfl⟩

theorem beginSnapshot_ok {request : RuntimeSnapshotRequest} {op : Bytes}
    (h : σ.beginSnapshot request = .ok (op, σ')) :
    ∃ r, σ.runtimes request.runtimeId = some r ∧ r.hasPendingSnapshot = false ∧
      σ'.boundaries = σ.boundaries ∧ σ'.boundaryCounter = σ.boundaryCounter ∧
      ∀ rid, rid ≠ request.runtimeId → σ'.runtimes rid = σ.runtimes rid := by
  unfold beginSnapshot at h
  split at h
  · cases h
  rename_i r hr
  split at h
  · cases h
  rename_i hidle
  cases h
  exact ⟨r, hr, by simpa using hidle, rfl, rfl, fun rid hrid =>
    (setRuntime_runtimes ..).trans (if_neg hrid)⟩

/-- The calls that no boundary depends on. -/
theorem snapshotFrame_call (σ : RuntimeSupervisor) (c : SupervisorCall)
    (hc : ∀ op, c = .perform op → (∀ request, op ≠ .beginSnapshot request) ∧
      (∀ rid, op ≠ .cancelSnapshot rid) ∧
      (∀ rid token pid generation kind, op ≠ .observe rid token pid generation kind) ∧
      (∀ bid, op ≠ .releaseForSnapshot bid) ∧ ∀ bid message, op ≠ .releaseWithError bid message) :
    SnapshotFrame σ (σ.call c) := by
  have hrefl := SnapshotFrame.refl σ
  cases c with
  | perform op =>
      obtain ⟨hbegin, hcancel, hobserve, hrelease, herror⟩ := hc op rfl
      cases op with
      | register =>
          exact registered_cases (fun _ => .of_runtimes rfl rfl rfl) fun _ h =>
            frame_registerRuntime h
      | beginSnapshot request => exact absurd rfl (hbegin request)
      | cancelSnapshot rid => exact absurd rfl (hcancel rid)
      | observe rid token pid generation kind =>
          exact absurd rfl (hobserve rid token pid generation kind)
      | releaseForSnapshot bid => exact absurd rfl (hrelease bid)
      | releaseWithError bid message => exact absurd rfl (herror bid message)
      | endWait bid => exact σ.frame_endBoundaryWait bid
      | templateReady => exact after_cases hrefl fun _ h => frame_templateReady h
      | attach => exact after_cases hrefl fun _ h => frame_attachUnionState h
      | failPublish => exact after_cases hrefl fun _ h => frame_failTemplatePublish h
      | retire => exact after_map_cases hrefl fun _ _ h => frame_retirePendingGeneration h
      | drop => exact after_cases hrefl fun _ h => frame_dropTemplate h
  | status => exact hrefl
  | templateStatus => exact hrefl
  | beginRestore => exact after_cases hrefl fun _ h => frame_beginRestore h
  | publishRestore => exact after_cases hrefl fun _ h => frame_publishRestore h
  | abortRestore => exact after_map_cases hrefl fun _ _ h => frame_abortRestore h
  | poll => exact after_map_cases hrefl fun _ _ h => frame_templatePoll h
  | generationReady => exact after_cases hrefl fun _ h => frame_generationReady h

/-! ## What holds of the three tables -/

/-- Boundaries carry ids that were given out, and one without an action is the one the pending
snapshot of its runtime has observed. -/
structure TablesAgree (σ : RuntimeSupervisor) : Prop where
  made : ∀ bid b, σ.boundaries bid = some b → σ.MadeBoundaryId bid
  pending : ∀ bid b, σ.boundaries bid = some b → b.actionSet = false →
    ∃ r, σ.runtimes b.runtimeId = some r ∧ r.hasPendingSnapshot = true ∧
      r.boundaryObserved = true ∧ r.pendingBoundaryId = bid ∧ r.pendingOpId = b.operationId

namespace TablesAgree

theorem init : TablesAgree {} := ⟨fun _ _ hb => (by cases hb), fun _ _ hb => (by cases hb)⟩

theorem frame (h : TablesAgree σ) (hf : SnapshotFrame σ σ') : TablesAgree σ' := by
  refine ⟨fun bid b hb => (h.made bid b (hf.boundaries bid b hb)).mono hf.counter.ge,
    fun bid b hb hunset => ?_⟩
  obtain ⟨r, hr, hpending, hobserved, hbid, hop⟩ := h.pending bid b (hf.boundaries bid b hb) hunset
  obtain ⟨r', hr', hp, ho, hb', hop'⟩ := hf.pending b.runtimeId r hr
  exact ⟨r', hr', hp.trans hpending, ho.trans hobserved, hb'.trans hbid, hop'.trans hop⟩

/-- The snapshot of one runtime ends with its boundary, or no boundary of it waits. -/
theorem release (h : TablesAgree σ) {rid bid : Bytes} {b' : Boundary} (hset : b'.actionSet = true)
    (hboundaries : σ'.boundaries = Function.update σ.boundaries bid (some b'))
    (hcounter : σ'.boundaryCounter = σ.boundaryCounter) (hbid : σ.MadeBoundaryId bid)
    (hruntimes : ∀ k, k ≠ rid → σ'.runtimes k = σ.runtimes k)
    (howner : ∀ k b, σ.boundaries k = some b → b.actionSet = false → b.runtimeId = rid → k = bid) :
    TablesAgree σ' := by
  constructor
  · intro k b hb
    rw [hboundaries, Function.update_apply] at hb
    split at hb
    · rename_i hk
      subst hk
      exact hbid.mono hcounter.ge
    · exact (h.made k b hb).mono hcounter.ge
  · intro k b hb hunset
    rw [hboundaries, Function.update_apply] at hb
    split at hb
    · cases hb
      rw [hset] at hunset
      cases hunset
    · rename_i hk
      have hother : b.runtimeId ≠ rid := fun heq => hk (howner k b hb hunset heq)
      rw [hruntimes _ hother]
      exact h.pending k b hb hunset

/-- A runtime has one boundary without an action at most. -/
theorem unique (h : TablesAgree σ) {k k' : Bytes} {b b' : Boundary} (hb : σ.boundaries k = some b)
    (hb' : σ.boundaries k' = some b') (hunset : b.actionSet = false) (hunset' : b'.actionSet = false)
    (hrid : b.runtimeId = b'.runtimeId) : k = k' := by
  obtain ⟨r, hr, -, -, hk, -⟩ := h.pending k b hb hunset
  obtain ⟨r', hr', -, -, hk', -⟩ := h.pending k' b' hb' hunset'
  rw [hrid, hr', Option.some_inj] at hr
  rw [← hk, ← hk', hr]

theorem beginSnapshot (h : TablesAgree σ) {request : RuntimeSnapshotRequest} {op : Bytes}
    (hok : σ.beginSnapshot request = .ok (op, σ')) : TablesAgree σ' := by
  obtain ⟨r, hr, hidle, hboundaries, hcounter, hruntimes⟩ := beginSnapshot_ok hok
  constructor
  · intro bid b hb
    rw [hboundaries] at hb
    exact (h.made bid b hb).mono hcounter.ge
  · intro bid b hb hunset
    rw [hboundaries] at hb
    obtain ⟨q, hq, hpending, hrest⟩ := h.pending bid b hb hunset
    have hother : b.runtimeId ≠ request.runtimeId := by
      intro heq
      rw [heq, hr, Option.some_inj] at hq
      rw [← hq, hidle] at hpending
      cases hpending
    exact ⟨q, (hruntimes _ hother).trans hq, hpending, hrest⟩

theorem observeBoundary (h : TablesAgree σ) {rid token : Bytes} {pid : Int} {generation : UInt64}
    {kind bid : Bytes} (hok : σ.observeBoundary rid token pid generation kind = .ok (bid, σ')) :
    TablesAgree σ' := by
  obtain ⟨r, b, hr, hpending, hobserved, rfl, hunset, hrid, hop, hboundaries, hcounter, hruntimes⟩ :=
    observeBoundary_ok hok
  have hle : σ.boundaryCounter ≤ σ'.boundaryCounter := by omega
  constructor
  · intro k q hq
    rw [hboundaries, Function.update_apply] at hq
    split at hq
    · rename_i hk
      exact ⟨σ.boundaryCounter + 1, hcounter.ge, hk⟩
    · exact (h.made k q hq).mono hle
  · intro k q hq hqunset
    rw [hboundaries, Function.update_apply] at hq
    rw [hruntimes]
    split at hq
    · rename_i hk
      cases hq
      rw [hrid, Function.update_self]
      exact ⟨_, rfl, hpending, rfl, hk.symm, hop.symm⟩
    · obtain ⟨p, hp, hpp, hpo, hrest⟩ := h.pending k q hq hqunset
      have hother : q.runtimeId ≠ rid := by
        intro heq
        rw [heq, hr, Option.some_inj] at hp
        rw [← hp, hobserved] at hpo
        cases hpo
      rw [Function.update_of_ne hother]
      exact ⟨p, hp, hpp, hpo, hrest⟩

theorem releaseBoundaryForSnapshot (h : TablesAgree σ) {bid : Bytes}
    {action : RuntimeBoundaryAction} (hok : σ.releaseBoundaryForSnapshot bid = .ok (action, σ')) :
    TablesAgree σ' := by
  obtain ⟨b, b', hb, -, hset, -, -, hboundaries, hcounter, -, -, hkeeps⟩ :=
    releaseBoundaryForSnapshot_boundary hok
  constructor
  · intro k q hq
    rw [hboundaries, Function.update_apply] at hq
    split at hq
    · rename_i hk
      rw [hk]
      exact (h.made bid b hb).mono hcounter.ge
    · exact (h.made k q hq).mono hcounter.ge
  · intro k q hq hunset
    rw [hboundaries, Function.update_apply] at hq
    split at hq
    · cases hq
      rw [hset] at hunset
      cases hunset
    · obtain ⟨r, hr, hpending, hobserved, hbid, hop⟩ := h.pending k q hq hunset
      obtain ⟨r', hr', hp, ho, hb', hop'⟩ := hkeeps q.runtimeId r hr
      exact ⟨r', hr', hp.trans hpending, ho.trans hobserved, hb'.trans hbid, hop'.trans hop⟩

theorem releaseBoundaryWithError (h : TablesAgree σ) {bid : Bytes} {message : String}
    {action : RuntimeBoundaryAction}
    (hok : σ.releaseBoundaryWithError bid message = .ok (action, σ')) : TablesAgree σ' := by
  obtain ⟨b, hb, hunset, hboundaries, hcounter, hruntimes⟩ := releaseBoundaryWithError_boundary hok
  exact h.release rfl hboundaries hcounter (h.made bid b hb) hruntimes
    fun k q hq hqunset hrid => h.unique hq hb hqunset hunset hrid

theorem cancelSnapshot (h : TablesAgree σ) {rid : Bytes} (hok : σ.cancelSnapshot rid = .ok σ') :
    TablesAgree σ' := by
  obtain ⟨r, hr, hruntimes, hcounter, hboundary⟩ := cancelSnapshot_ok hok
  have hothers : ∀ k, k ≠ rid → σ'.runtimes k = σ.runtimes k := fun k hk => by
    rw [hruntimes, Function.update_of_ne hk]
  have howner : ∀ k b, σ.boundaries k = some b → b.actionSet = false → b.runtimeId = rid →
      r.boundaryObserved = true ∧ k = r.pendingBoundaryId := by
    intro k b hb hunset hrid
    obtain ⟨q, hq, -, hobserved, hk, -⟩ := h.pending k b hb hunset
    rw [hrid, hr, Option.some_inj] at hq
    rw [hq]
    exact ⟨hobserved, hk.symm⟩
  rcases hboundary with ⟨b, hobserved, hb, hunset, hboundaries⟩ | ⟨hsame, hset⟩
  · exact h.release rfl hboundaries hcounter (h.made _ b hb) hothers
      fun k q hq hqunset hrid => (howner k q hq hqunset hrid).2
  · constructor
    · intro k b hb
      rw [hsame] at hb
      exact (h.made k b hb).mono hcounter.ge
    · intro k b hb hunset
      rw [hsame] at hb
      have hother : b.runtimeId ≠ rid := by
        intro hrid
        obtain ⟨hobserved, rfl⟩ := howner k b hb hunset hrid
        rw [hset hobserved (h.made _ b hb).ne_nil b hb] at hunset
        cases hunset
      rw [hothers _ hother]
      exact h.pending k b hb hunset

theorem call (h : TablesAgree σ) (c : SupervisorCall) : TablesAgree (σ.call c) := by
  by_cases hc : ∀ op, c = .perform op → (∀ request, op ≠ .beginSnapshot request) ∧
      (∀ rid, op ≠ .cancelSnapshot rid) ∧
      (∀ rid token pid generation kind, op ≠ .observe rid token pid generation kind) ∧
      (∀ bid, op ≠ .releaseForSnapshot bid) ∧ ∀ bid message, op ≠ .releaseWithError bid message
  · exact h.frame (snapshotFrame_call σ c hc)
  cases c with
  | perform op =>
      cases op with
      | beginSnapshot request => exact after_map_cases h fun _ _ hok => h.beginSnapshot hok
      | cancelSnapshot rid => exact after_cases h fun _ hok => h.cancelSnapshot hok
      | observe => exact after_map_cases h fun _ _ hok => h.observeBoundary hok
      | releaseForSnapshot bid =>
          exact after_map_cases h fun _ _ hok => h.releaseBoundaryForSnapshot hok
      | releaseWithError => exact after_map_cases h fun _ _ hok => h.releaseBoundaryWithError hok
      | _ => exact h.frame (snapshotFrame_call σ _ fun op hop => (by cases hop; simp))
  | _ => exact h.frame (snapshotFrame_call σ _ fun op hop => (by cases hop))

theorem of_run (calls : List SupervisorCall) : TablesAgree (run calls) :=
  foldl_keeps (fun _ c h => h.call c) calls init

end TablesAgree

/-! ## What a call does to a boundary -/

theorem boundaryFrame_call (σ : RuntimeSupervisor) (c : SupervisorCall) :
    BoundaryFrame σ (σ.call c) := by
  have hrefl := BoundaryFrame.of_snapshotFrame (SnapshotFrame.refl σ)
  by_cases hc : ∀ op, c = .perform op → (∀ request, op ≠ .beginSnapshot request) ∧
      (∀ rid, op ≠ .cancelSnapshot rid) ∧
      (∀ rid token pid generation kind, op ≠ .observe rid token pid generation kind) ∧
      (∀ bid, op ≠ .releaseForSnapshot bid) ∧ ∀ bid message, op ≠ .releaseWithError bid message
  · exact .of_snapshotFrame (snapshotFrame_call σ c hc)
  cases c with
  | perform op =>
      cases op with
      | beginSnapshot request =>
          refine after_map_cases hrefl fun _ σ' hok => ?_
          obtain ⟨-, -, -, hboundaries, hcounter, -⟩ := beginSnapshot_ok hok
          exact ⟨hcounter.ge, fun bid b' hb => Or.inl (by rwa [hboundaries] at hb)⟩
      | cancelSnapshot rid =>
          refine after_cases hrefl fun σ' hok => ?_
          obtain ⟨r, -, -, hcounter, ⟨b, -, hb, hunset, hboundaries⟩ | ⟨hsame, -⟩⟩ :=
            cancelSnapshot_ok hok
          · exact .act hb hunset rfl hboundaries hcounter
          · exact ⟨hcounter.ge, fun bid b' hb => Or.inl (by rwa [hsame] at hb)⟩
      | observe =>
          refine after_map_cases hrefl fun _ σ' hok => ?_
          obtain ⟨r, b, -, -, -, rfl, -, -, -, hboundaries, hcounter, -⟩ := observeBoundary_ok hok
          refine ⟨by omega, fun bid b' hb => ?_⟩
          rw [hboundaries, Function.update_apply] at hb
          split at hb
          · rename_i hk
            exact Or.inr (Or.inr ⟨hk, σ.boundaryCounter + 1, hcounter.ge, hk⟩)
          · exact Or.inl hb
      | releaseForSnapshot bid =>
          refine after_map_cases hrefl fun _ σ' hok => ?_
          obtain ⟨b, b', hb, hunset, hset, -, -, hboundaries, hcounter, -⟩ :=
            releaseBoundaryForSnapshot_boundary hok
          exact .act hb hunset hset hboundaries hcounter
      | releaseWithError =>
          refine after_map_cases hrefl fun _ σ' hok => ?_
          obtain ⟨b, hb, hunset, hboundaries, hcounter, -⟩ := releaseBoundaryWithError_boundary hok
          exact .act hb hunset rfl hboundaries hcounter
      | _ => exact .of_snapshotFrame (snapshotFrame_call σ _ fun op hop => (by cases hop; simp))
  | _ => exact .of_snapshotFrame (snapshotFrame_call σ _ fun op hop => (by cases hop))

/-- The boundary was made and, if it is still there, has its action. -/
def Decided (bid : Bytes) (σ : RuntimeSupervisor) : Prop :=
  σ.MadeBoundaryId bid ∧ ∀ b, σ.boundaries bid = some b → b.actionSet = true

/-- The boundary was made and is gone. -/
def Gone (bid : Bytes) (σ : RuntimeSupervisor) : Prop :=
  σ.MadeBoundaryId bid ∧ σ.boundaries bid = none

theorem MadeBoundaryId.call {bid : Bytes} (h : σ.MadeBoundaryId bid) (c : SupervisorCall) :
    (σ.call c).MadeBoundaryId bid :=
  h.mono (boundaryFrame_call σ c).counter

/-- An action is never taken back or replaced. -/
theorem kept_call {bid : Bytes} {b b' : Boundary} (hmade : σ.MadeBoundaryId bid)
    (hb : σ.boundaries bid = some b) (hset : b.actionSet = true) {c : SupervisorCall}
    (hb' : (σ.call c).boundaries bid = some b') : b' = b := by
  rcases (boundaryFrame_call σ c).boundaries bid b' hb' with hsame | ⟨q, hq, hunset, -⟩ | ⟨hnew, -⟩
  · rw [hb, Option.some_inj] at hsame
    exact hsame.symm
  · rw [hb, Option.some_inj] at hq
    rw [hq, hunset] at hset
    cases hset
  · rw [hnew] at hmade
    exact absurd hmade σ.not_madeBoundaryId_next

theorem Decided.call {bid : Bytes} (h : σ.Decided bid) (c : SupervisorCall) :
    (σ.call c).Decided bid := by
  refine ⟨h.1.call c, fun b' hb' => ?_⟩
  rcases (boundaryFrame_call σ c).boundaries bid b' hb' with hsame | ⟨q, -, -, hset⟩ | ⟨hnew, -⟩
  · exact h.2 b' hsame
  · exact hset
  · have hmade := h.1
    rw [hnew] at hmade
    exact absurd hmade σ.not_madeBoundaryId_next

theorem Gone.call {bid : Bytes} (h : σ.Gone bid) (c : SupervisorCall) : (σ.call c).Gone bid := by
  refine ⟨h.1.call c, ?_⟩
  cases hb : (σ.call c).boundaries bid with
  | none => rfl
  | some b' =>
      rcases (boundaryFrame_call σ c).boundaries bid b' hb with hsame | ⟨q, hq, -⟩ | ⟨hnew, -⟩
      · rw [h.2] at hsame
        cases hsame
      · rw [h.2] at hq
        cases hq
      · have hmade := h.1
        rw [hnew] at hmade
        exact absurd hmade σ.not_madeBoundaryId_next

/-- A waiter that returns leaves no record. -/
theorem endBoundaryWait_boundaries (σ : RuntimeSupervisor) (bid : Bytes) :
    (σ.endBoundaryWait bid).2.boundaries bid = none := by
  unfold endBoundaryWait
  cases hb : σ.boundaries bid with
  | none => exact hb
  | some b =>
      simp only
      split
      · exact Function.update_self ..
      · exact Function.update_self ..

/-! ## Points of a run -/

/-- The call gives the boundary its action. -/
def SetsAction (bid : Bytes) (σ : RuntimeSupervisor) (c : SupervisorCall) : Prop :=
  ∃ b b', σ.boundaries bid = some b ∧ b.actionSet = false ∧
    (σ.call c).boundaries bid = some b' ∧ b'.actionSet = true

/-- The call is the end of a wait that returns the action of the boundary. -/
def HandsOver (bid : Bytes) (σ : RuntimeSupervisor) (c : SupervisorCall) : Prop :=
  c = .perform (.endWait bid) ∧ ∃ action, (σ.endBoundaryWait bid).1 = .ok action

/-- The call releases the boundary for a snapshot, with this template. -/
def MakesTemplate (bid tid : Bytes) (σ : RuntimeSupervisor) (c : SupervisorCall) : Prop :=
  c = .perform (.releaseForSnapshot bid) ∧
    ∃ action σ', σ.releaseBoundaryForSnapshot bid = .ok (action, σ') ∧ action.templateId = tid

theorem MakesTemplate.call {bid tid : Bytes} {c : SupervisorCall} (h : σ.MakesTemplate bid tid c) :
    SetsAction bid σ c ∧ tid = generatedId templateKind (σ.templateCounter + 1) ∧
      (σ.call c).templateCounter = σ.templateCounter + 1 ∧
      ∃ b t, σ.boundaries bid = some b ∧ t.runtimeId = b.runtimeId ∧
        (σ.call c).templates = Function.update σ.templates tid (some t) := by
  obtain ⟨rfl, action, σ', hok, rfl⟩ := h
  have hnext : σ.call (.perform (.releaseForSnapshot bid)) = σ' := by
    show σ.after ((σ.releaseBoundaryForSnapshot bid).map (·.2)) = σ'
    rw [hok]
    rfl
  obtain ⟨b, b', hb, hunset, hset, -, htid, hboundaries, -, htemplates, hcounter, -⟩ :=
    releaseBoundaryForSnapshot_boundary hok
  rw [hnext]
  refine ⟨⟨b, b', hb, hunset, ?_, hset⟩, htid, hcounter, b, _, hb, rfl, by rw [htid, htemplates]⟩
  rw [hnext, hboundaries, Function.update_self]

/-- A call that makes no template keeps those there are, with their runtimes. -/
theorem templateFrame_of_not_makes {c : SupervisorCall}
    (h : ∀ bid tid, ¬ σ.MakesTemplate bid tid c) : TemplateFrame σ (σ.call c) := by
  by_cases hc : ∃ bid, c = .perform (.releaseForSnapshot bid)
  · obtain ⟨bid, rfl⟩ := hc
    show TemplateFrame σ (σ.after ((σ.releaseBoundaryForSnapshot bid).map (·.2)))
    cases hok : σ.releaseBoundaryForSnapshot bid with
    | error err => exact .refl σ
    | ok r => exact absurd ⟨rfl, r.1, r.2, hok, rfl⟩ (h bid r.1.templateId)
  · exact templateFrame_call σ c fun bid heq => hc ⟨bid, heq⟩

theorem templateCounter_call (σ : RuntimeSupervisor) (c : SupervisorCall) :
    σ.templateCounter ≤ (σ.call c).templateCounter := by
  by_cases hc : ∃ bid tid, σ.MakesTemplate bid tid c
  · obtain ⟨bid, tid, hmakes⟩ := hc
    have hcounter := hmakes.call.2.2.1
    omega
  · exact (templateFrame_of_not_makes fun bid tid h => hc ⟨bid, tid, h⟩).counter.ge

/-- What holds of the boundaries and templates of a run of calls. -/
structure Rendezvous (calls : List SupervisorCall) : Prop where
  /-- The action of a boundary is set at most once, -/
  setOnce : ∀ bid, AtMostOnce call {} calls (SetsAction bid)
  /-- and then stays as it is as long as the boundary is there. -/
  kept : ∀ before c after bid b b', calls = before ++ c :: after →
    (run before).boundaries bid = some b → b.actionSet = true →
    (run (before ++ [c])).boundaries bid = some b' → b' = b
  /-- It is handed to one waiter at most, -/
  handedOnce : ∀ bid, AtMostOnce call {} calls (HandsOver bid)
  /-- and the boundary of a waiter that has returned is gone for good. -/
  gone : ∀ before bid later after, calls = before ++ .perform (.endWait bid) :: (later ++ after) →
    (run before).boundaries bid ≠ none →
    (run (before ++ .perform (.endWait bid) :: later)).boundaries bid = none
  /-- A boundary makes one template at most, -/
  templateOnce : ∀ bid, AtMostOnce call {} calls fun σ c => ∃ tid, MakesTemplate bid tid σ c
  /-- and a template comes from the release of one boundary, of its own runtime. -/
  origin : ∀ tid t, (run calls).templates tid = some t → ∃ before bid after b,
    calls = before ++ .perform (.releaseForSnapshot bid) :: after ∧
      MakesTemplate bid tid (run before) (.perform (.releaseForSnapshot bid)) ∧
      (run before).boundaries bid = some b ∧ b.runtimeId = t.runtimeId
  originOnce : ∀ tid, AtMostOnce call {} calls fun σ c => ∃ bid, MakesTemplate bid tid σ c
  /-- A boundary without an action is the one of the pending snapshot of its runtime, -/
  pending : ∀ bid b, (run calls).boundaries bid = some b → b.actionSet = false →
    ∃ r, (run calls).runtimes b.runtimeId = some r ∧ r.hasPendingSnapshot = true ∧
      r.boundaryObserved = true ∧ r.pendingBoundaryId = bid ∧ r.pendingOpId = b.operationId
  /-- and so a runtime has one of them at most. -/
  pendingOnce : ∀ bid bid' b b', (run calls).boundaries bid = some b →
    (run calls).boundaries bid' = some b' → b.actionSet = false → b'.actionSet = false →
    b.runtimeId = b'.runtimeId → bid = bid'

theorem setsAction_once (calls : List SupervisorCall) (bid : Bytes) :
    AtMostOnce call {} calls (SetsAction bid) := by
  refine AtMostOnce.of_stable (Decided bid) ?_ (fun _ c h => h.call c) ?_
  · rintro before c ⟨b, b', hb, -, hb', hset⟩
    have hmade := (TablesAgree.of_run before).made bid b hb
    refine ⟨hmade.call c, fun q hq => ?_⟩
    rw [hb', Option.some_inj] at hq
    rw [← hq]
    exact hset
  · rintro σ c hdecided ⟨b, b', hb, hunset, -⟩
    rw [hdecided.2 b hb] at hunset
    cases hunset

/-- Every template of a run was made by a release. -/
theorem template_origin (calls : List SupervisorCall) (tid : Bytes) (t : Template)
    (ht : (run calls).templates tid = some t) : ∃ before bid after b,
      calls = before ++ .perform (.releaseForSnapshot bid) :: after ∧
        MakesTemplate bid tid (run before) (.perform (.releaseForSnapshot bid)) ∧
        (run before).boundaries bid = some b ∧ b.runtimeId = t.runtimeId := by
  induction calls using List.reverseRecOn generalizing t with
  | nil => cases ht
  | append_singleton calls c ih =>
      rw [run_append_singleton] at ht
      have hearlier : ∀ t₀, (run calls).templates tid = some t₀ → t.runtimeId = t₀.runtimeId →
          ∃ before bid after b, calls ++ [c] = before ++ .perform (.releaseForSnapshot bid) :: after ∧
            MakesTemplate bid tid (run before) (.perform (.releaseForSnapshot bid)) ∧
            (run before).boundaries bid = some b ∧ b.runtimeId = t.runtimeId := by
        intro t₀ ht₀ hrid
        obtain ⟨before, bid, after, b, rfl, hmakes, hb, hbrid⟩ := ih t₀ ht₀
        exact ⟨before, bid, after ++ [c], b, by simp, hmakes, hb, hbrid.trans hrid.symm⟩
      by_cases hc : ∃ bid tid', (run calls).MakesTemplate bid tid' c
      · obtain ⟨bid, tid', hmakes⟩ := hc
        obtain ⟨-, -, -, b, t', hb, hrid, htemplates⟩ := hmakes.call
        rw [htemplates, Function.update_apply] at ht
        split at ht
        · rename_i heq
          cases ht
          subst heq
          obtain ⟨rfl, hok⟩ := id hmakes
          exact ⟨calls, bid, [], b, rfl, hmakes, hb, hrid.symm⟩
        · exact hearlier t ht rfl
      · obtain ⟨t₀, ht₀, hrid, -⟩ :=
          (templateFrame_of_not_makes fun bid tid' h => hc ⟨bid, tid', h⟩).templates tid t ht
        exact hearlier t₀ ht₀ hrid

/-- Whatever the order of the calls, boundaries and templates meet as they should. -/
theorem rendezvous (calls : List SupervisorCall) : Rendezvous calls where
  setOnce := setsAction_once calls
  kept := by
    intro before c after bid b b' _ hb hset hb'
    rw [run_append_singleton] at hb'
    exact kept_call ((TablesAgree.of_run before).made bid b hb) hb hset hb'
  handedOnce := by
    intro bid
    refine AtMostOnce.of_stable (Gone bid) ?_ (fun _ c h => h.call c) ?_
    · rintro before c ⟨rfl, action, hok⟩
      cases hb : (run before).boundaries bid with
      | none =>
          rw [endBoundaryWait] at hok
          change (run before).boundaries bid = none at hb
          rw [show before.foldl call {} = run before from rfl, hb] at hok
          cases hok
      | some b =>
          have hmade := (TablesAgree.of_run before).made bid b hb
          exact ⟨hmade.call _, endBoundaryWait_boundaries _ bid⟩
    · rintro σ c hgone ⟨-, action, hok⟩
      rw [endBoundaryWait] at hok
      simp only [hgone.2] at hok
      cases hok
  gone := by
    intro before bid later after _ hfound
    obtain ⟨b, hb⟩ := Option.ne_none_iff_exists'.1 hfound
    have hmade := (TablesAgree.of_run before).made bid b hb
    have hgone : Gone bid ((run before).call (.perform (.endWait bid))) :=
      ⟨hmade.call _, endBoundaryWait_boundaries _ bid⟩
    have hlater := foldl_keeps (fun s c (h : s.Gone bid) => h.call c) later hgone
    rw [run, List.foldl_append, List.foldl_cons]
    exact hlater.2
  templateOnce := by
    intro bid before c after before' c' after' h h' hmakes hmakes'
    obtain ⟨tid, hmakes⟩ := hmakes
    obtain ⟨tid', hmakes'⟩ := hmakes'
    exact setsAction_once calls bid before c after before' c' after' h h' hmakes.call.1
      hmakes'.call.1
  origin := template_origin calls
  originOnce := by
    intro tid
    refine AtMostOnce.of_stable (fun σ => σ.MadeTemplateId tid) ?_ ?_ ?_
    · rintro before c ⟨bid, hmakes⟩
      obtain ⟨-, htid, hcounter, -⟩ := hmakes.call
      exact ⟨_, hcounter.ge, htid⟩
    · rintro σ c ⟨n, hle, htid⟩
      exact ⟨n, hle.trans (σ.templateCounter_call c), htid⟩
    · rintro σ c hmade ⟨bid, hmakes⟩
      rw [hmakes.call.2.1] at hmade
      exact σ.not_madeTemplateId_next hmade
  pending := (TablesAgree.of_run calls).pending
  pendingOnce := fun _ _ _ _ hb hb' hunset hunset' hrid =>
    (TablesAgree.of_run calls).unique hb hb' hunset hunset' hrid

end RuntimeSupervisor
end ContextFS
