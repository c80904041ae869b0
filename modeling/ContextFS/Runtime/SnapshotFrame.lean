import ContextFS.Runtime.Messages

/-!
# What a pending snapshot depends on

Every operation but those of a snapshot leaves the pending snapshots of all runtimes as they
are, and at most takes a boundary away.
-/

namespace ContextFS

/-- The pending snapshots stay as they are. -/
def KeepsPending (s s' : RuntimeSupervisor) : Prop :=
  ∀ rid r, s.runtimes rid = some r → ∃ r', s'.runtimes rid = some r' ∧
    r'.hasPendingSnapshot = r.hasPendingSnapshot ∧ r'.boundaryObserved = r.boundaryObserved ∧
    r'.pendingBoundaryId = r.pendingBoundaryId ∧ r'.pendingOpId = r.pendingOpId

namespace KeepsPending

variable {s s' : RuntimeSupervisor}

theorem refl (s : RuntimeSupervisor) : KeepsPending s s := fun _ r hr => ⟨r, hr, rfl, rfl, rfl, rfl⟩

theorem of_runtimes (h : s'.runtimes = s.runtimes) : KeepsPending s s' :=
  fun rid r hr => ⟨r, by rw [h, hr], rfl, rfl, rfl, rfl⟩

/-- One runtime gets another record with the same pending snapshot. -/
theorem update {rid : Bytes} {r r' : Runtime} (hr : s.runtimes rid = some r)
    (hs : s'.runtimes = Function.update s.runtimes rid (some r'))
    (hp : r'.hasPendingSnapshot = r.hasPendingSnapshot)
    (ho : r'.boundaryObserved = r.boundaryObserved)
    (hb : r'.pendingBoundaryId = r.pendingBoundaryId) (hop : r'.pendingOpId = r.pendingOpId) :
    KeepsPending s s' := by
  intro k q hq
  rw [hs, Function.update_apply]
  by_cases hk : k = rid
  · subst hk
    rw [hr] at hq
    cases hq
    exact ⟨r', if_pos rfl, hp, ho, hb, hop⟩
  · exact ⟨q, by rw [if_neg hk, hq], rfl, rfl, rfl, rfl⟩

end KeepsPending

/-- The pending snapshots stay as they are, and boundaries are at most taken away. -/
structure SnapshotFrame (s s' : RuntimeSupervisor) : Prop where
  pending : KeepsPending s s'
  boundaries : ∀ bid b, s'.boundaries bid = some b → s.boundaries bid = some b
  counter : s'.boundaryCounter = s.boundaryCounter

namespace SnapshotFrame

variable {s s' : RuntimeSupervisor}

theorem refl (s : RuntimeSupervisor) : SnapshotFrame s s := ⟨.refl s, fun _ _ h => h, rfl⟩

theorem of_runtimes (h : s'.runtimes = s.runtimes) (hb : s'.boundaries = s.boundaries)
    (hc : s'.boundaryCounter = s.boundaryCounter) : SnapshotFrame s s' :=
  ⟨.of_runtimes h, fun _ _ hb' => hb ▸ hb', hc⟩

theorem update {rid : Bytes} {r r' : Runtime} (hr : s.runtimes rid = some r)
    (hs : s'.runtimes = Function.update s.runtimes rid (some r'))
    (hb : s'.boundaries = s.boundaries) (hc : s'.boundaryCounter = s.boundaryCounter)
    (hp : r'.hasPendingSnapshot = r.hasPendingSnapshot)
    (ho : r'.boundaryObserved = r.boundaryObserved)
    (hbid : r'.pendingBoundaryId = r.pendingBoundaryId) (hop : r'.pendingOpId = r.pendingOpId) :
    SnapshotFrame s s' :=
  ⟨.update hr hs hp ho hbid hop, fun _ _ hb' => hb ▸ hb', hc⟩

end SnapshotFrame

namespace RuntimeSupervisor

variable {σ σ' : RuntimeSupervisor}

theorem runtimes_setRuntime {rid : Bytes} {r : Runtime} (h : σ'.runtimes = σ.runtimes) :
    (σ'.setRuntime rid r).runtimes = Function.update σ.runtimes rid (some r) := by
  rw [← h]
  rfl

/-- The end of a restore takes its mark off the template. -/
theorem clearTemplate_frame (σ : RuntimeSupervisor) (tid : Bytes) (f : Template → Template) :
    let σ' := if tid ≠ [] then σ.modifyTemplate tid f else σ
    σ'.runtimes = σ.runtimes ∧ σ'.boundaries = σ.boundaries ∧
      σ'.boundaryCounter = σ.boundaryCounter := by
  split <;> exact ⟨rfl, rfl, rfl⟩

/-- A registration adds a runtime under an id that was free. -/
theorem registerRuntime_ok {request : RuntimeCreateRequest} (h : σ.registerRuntime request = .ok σ') :
    ∃ (rid : Bytes) (r : Runtime) (σ₀ : RuntimeSupervisor), σ.runtimes rid = none ∧ σ₀.runtimes = σ.runtimes ∧
      σ₀.boundaries = σ.boundaries ∧ σ₀.templates = σ.templates ∧
      σ₀.boundaryCounter = σ.boundaryCounter ∧ σ₀.templateCounter = σ.templateCounter ∧
      r.hasPendingRestore = false ∧ r.generationReadyFlag = false ∧ r.restoreTemplateId = [] ∧
      r.templateIds = [] ∧ σ' = σ₀.setRuntime rid r := by
  unfold registerRuntime at h
  by_cases hgen : request.runtimeId = []
  · simp only [hgen, if_true] at h
    split at h
    · cases h
    · rename_i hfree
      cases h
      exact ⟨_, _, { σ with runtimeCounter := σ.runtimeCounter + 1 },
        Option.not_isSome_iff_eq_none.1 hfree, rfl, rfl, rfl, rfl, rfl, rfl, rfl, rfl, rfl, rfl⟩
  · simp only [if_neg hgen] at h
    split at h
    · cases h
    · rename_i hfree
      cases h
      exact ⟨_, _, σ, Option.not_isSome_iff_eq_none.1 hfree, rfl, rfl, rfl, rfl, rfl, rfl, rfl,
        rfl, rfl, rfl⟩

theorem frame_registerRuntime {request : RuntimeCreateRequest}
    (h : σ.registerRuntime request = .ok σ') : SnapshotFrame σ σ' := by
  obtain ⟨rid, r, σ₀, hfree, hrun, hbound, -, hcount, -, -, -, -, -, rfl⟩ := registerRuntime_ok h
  refine ⟨fun k q hq => ⟨q, ?_, rfl, rfl, rfl, rfl⟩, fun bid b hb => ?_, hcount⟩
  · rw [setRuntime_runtimes, if_neg, hrun, hq]
    rintro rfl
    simp [hfree] at hq
  · rw [setRuntime_boundaries, hbound] at hb
    exact hb

theorem frame_templateReady {rid token tid : Bytes} {pid pgid : Int} {generation : UInt64}
    (h : σ.templateReady rid token tid pid pgid generation = .ok σ') : SnapshotFrame σ σ' := by
  unfold templateReady at h
  repeat' split at h
  all_goals first
    | cases h; exact .of_runtimes rfl rfl rfl
    | cases h

theorem frame_templatePoll {tid token : Bytes} {a : RuntimeTemplateAction}
    (h : σ.templatePoll tid token = .ok (a, σ')) : SnapshotFrame σ σ' := by
  unfold templatePoll at h
  repeat' split at h
  all_goals first
    | cases h; exact .of_runtimes rfl rfl rfl
    | cases h

theorem frame_attachUnionState {tid union : Bytes} {commit : Hash}
    (h : σ.attachUnionState tid union commit = .ok σ') : SnapshotFrame σ σ' := by
  unfold attachUnionState at h
  split at h
  · cases h
  · cases h
    exact .of_runtimes rfl rfl rfl

theorem frame_failTemplatePublish {tid : Bytes} {message : String}
    (h : σ.failTemplatePublish tid message = .ok σ') : SnapshotFrame σ σ' := by
  unfold failTemplatePublish at h
  split at h
  · cases h
  · cases h
    exact .of_runtimes rfl rfl rfl

theorem frame_beginRestore {freeze : Int → Option String} {intent : RuntimeRestoreIntent}
    (h : σ.beginRestore freeze intent = .ok σ') : SnapshotFrame σ σ' := by
  unfold beginRestore at h
  split at h
  · cases h
  rename_i r hr
  split at h
  · cases h
  split at h
  · cases h
  split at h
  · cases h
  cases h
  exact .update hr rfl rfl rfl rfl rfl rfl rfl

theorem frame_publishRestore {rid : Bytes} (h : σ.publishRestore rid = .ok σ') :
    SnapshotFrame σ σ' := by
  unfold publishRestore at h
  repeat' split at h
  all_goals first
    | cases h; exact .of_runtimes rfl rfl rfl
    | cases h

theorem frame_abortRestore {rid : Bytes} {pgid : Int}
    (h : σ.abortRestore rid = .ok (pgid, σ')) : SnapshotFrame σ σ' := by
  unfold abortRestore at h
  split at h
  · cases h
  rename_i r hr
  cases h
  obtain ⟨hrun, hbound, hcount⟩ := σ.clearTemplate_frame r.restoreTemplateId fun t => {
    t with
    restorePending := false
    restoreReleased := false
    restoreInFlight := false
    targetGeneration := 0 }
  exact .update hr (runtimes_setRuntime hrun) hbound hcount rfl rfl rfl rfl

theorem frame_generationReady {rid token : Bytes} {pid pgid : Int} {generation : UInt64}
    (h : σ.generationReady rid token pid pgid generation = .ok σ') : SnapshotFrame σ σ' := by
  unfold generationReady at h
  split at h
  · cases h
  rename_i r hr
  split at h
  · cases h
  split at h
  · cases h
  cases h
  obtain ⟨hrun, hbound, hcount⟩ := σ.clearTemplate_frame r.restoreTemplateId fun t => {
    t with
    restorePending := false
    restoreReleased := false
    restoreInFlight := false }
  exact .update hr (runtimes_setRuntime hrun) hbound hcount rfl rfl rfl rfl

theorem frame_retirePendingGeneration {rid : Bytes} {pgid : Int}
    (h : σ.retirePendingGeneration rid = .ok (pgid, σ')) : SnapshotFrame σ σ' := by
  unfold retirePendingGeneration at h
  split at h
  · cases h
  rename_i r hr
  cases h
  exact .update hr rfl rfl rfl rfl rfl rfl rfl

theorem frame_dropTemplate {tid : Bytes} (h : σ.dropTemplate tid = .ok σ') :
    SnapshotFrame σ σ' := by
  unfold dropTemplate at h
  split at h
  · cases h
  split at h
  · cases h
    exact .of_runtimes rfl rfl rfl
  rename_i r hr
  split at h
  · cases h
  cases h
  exact .update hr rfl rfl rfl rfl rfl rfl rfl

theorem frame_endBoundaryWait (σ : RuntimeSupervisor) (bid : Bytes) :
    SnapshotFrame σ (σ.endBoundaryWait bid).2 := by
  have herase : SnapshotFrame σ { σ with boundaries := Function.update σ.boundaries bid none } := by
    refine ⟨.of_runtimes rfl, fun k b hb => ?_, rfl⟩
    simp only [Function.update_apply] at hb
    split at hb
    · cases hb
    · exact hb
  unfold endBoundaryWait
  split
  · exact .refl σ
  · simp only
    split <;> exact herase

/-- Every message but an observed boundary. -/
theorem frame_deliver (σ : RuntimeSupervisor) (m : RuntimeMessage)
    (hm : ∀ rid token pid generation kind, m ≠ .observe rid token pid generation kind) :
    SnapshotFrame σ (σ.deliver m) := by
  cases m with
  | register request =>
      exact registered_cases (fun _ => .of_runtimes rfl rfl rfl) fun _ h => frame_registerRuntime h
  | observe rid token pid generation kind => exact (hm _ _ _ _ _ rfl).elim
  | endWait bid => exact σ.frame_endBoundaryWait bid
  | templateReady rid token tid pid pgid generation =>
      exact after_cases (.refl σ) fun _ h => frame_templateReady h
  | poll tid token => exact after_map_cases (.refl σ) fun _ _ h => frame_templatePoll h
  | generationReady rid token pid pgid generation =>
      exact after_cases (.refl σ) fun _ h => frame_generationReady h
  | drop tid => exact after_cases (.refl σ) fun _ h => frame_dropTemplate h

end RuntimeSupervisor

end ContextFS
