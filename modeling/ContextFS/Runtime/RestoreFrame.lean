import ContextFS.Runtime.SnapshotFrame

/-!
# What a pending restore depends on

Registrations, snapshots and drops leave the pending restores and the armed templates as they
are; a new runtime and a new template start without one.
-/

namespace ContextFS

/-- The pending restore of a runtime is the same. -/
def Runtime.SameRestore (r r' : Runtime) : Prop :=
  r'.hasPendingRestore = r.hasPendingRestore ∧ r'.restoreTemplateId = r.restoreTemplateId ∧
    r'.restoreTargetGeneration = r.restoreTargetGeneration ∧
    r'.activeProcessGroupId = r.activeProcessGroupId ∧ r'.controlToken = r.controlToken

/-- The restore a template is armed for is the same. -/
def Template.SameRestore (t t' : Template) : Prop :=
  t'.runtimeId = t.runtimeId ∧ t'.restorePending = t.restorePending ∧
    t'.restoreReleased = t.restoreReleased ∧ t'.restoreInFlight = t.restoreInFlight ∧
    t'.targetGeneration = t.targetGeneration ∧ (t.dropped = true → t'.dropped = true)

theorem Runtime.SameRestore.refl (r : Runtime) : r.SameRestore r := ⟨rfl, rfl, rfl, rfl, rfl⟩

theorem Template.SameRestore.refl (t : Template) : t.SameRestore t :=
  ⟨rfl, rfl, rfl, rfl, rfl, fun h => h⟩

/-- No restore begins, ends or moves on. -/
structure RestoreFrame (s s' : RuntimeSupervisor) : Prop where
  runtimes : ∀ rid,
    (∃ r r', s.runtimes rid = some r ∧ s'.runtimes rid = some r' ∧ r.SameRestore r') ∨
      s.runtimes rid = none ∧ ∀ r', s'.runtimes rid = some r' → r'.hasPendingRestore = false
  templates : ∀ tid t', s'.templates tid = some t' →
    (∃ t, s.templates tid = some t ∧ t.SameRestore t') ∨ t'.restorePending = false

namespace RestoreFrame

variable {s s' : RuntimeSupervisor}

theorem sameRuntimes (h : s'.runtimes = s.runtimes) (rid : Bytes) :
    (∃ r r', s.runtimes rid = some r ∧ s'.runtimes rid = some r' ∧ r.SameRestore r') ∨
      s.runtimes rid = none ∧ ∀ r', s'.runtimes rid = some r' → r'.hasPendingRestore = false := by
  rw [h]
  cases hr : s.runtimes rid with
  | none => exact Or.inr ⟨rfl, fun r' h => (by cases h)⟩
  | some r => exact Or.inl ⟨r, r, rfl, rfl, .refl r⟩

theorem sameTemplates (h : s'.templates = s.templates) (tid : Bytes) (t' : Template)
    (ht : s'.templates tid = some t') :
    (∃ t, s.templates tid = some t ∧ t.SameRestore t') ∨ t'.restorePending = false :=
  Or.inl ⟨t', h ▸ ht, .refl t'⟩

theorem of_eq (hr : s'.runtimes = s.runtimes) (ht : s'.templates = s.templates) :
    RestoreFrame s s' :=
  ⟨sameRuntimes hr, sameTemplates ht⟩

theorem refl (s : RuntimeSupervisor) : RestoreFrame s s := of_eq rfl rfl

/-- One runtime gets another record with the same pending restore. -/
theorem updateRuntime {rid : Bytes} {r : Runtime} (r' : Runtime) (hr : s.runtimes rid = some r)
    (hs : s'.runtimes = Function.update s.runtimes rid (some r')) (hsame : r.SameRestore r')
    (k : Bytes) :
    (∃ q q', s.runtimes k = some q ∧ s'.runtimes k = some q' ∧ q.SameRestore q') ∨
      s.runtimes k = none ∧ ∀ q', s'.runtimes k = some q' → q'.hasPendingRestore = false := by
  by_cases hk : k = rid
  · subst hk
    exact Or.inl ⟨r, r', hr, by rw [hs, Function.update_self], hsame⟩
  · cases hq : s.runtimes k with
    | none =>
        refine Or.inr ⟨rfl, fun q' hq' => ?_⟩
        rw [hs, Function.update_of_ne hk, hq] at hq'
        cases hq'
    | some q =>
        exact Or.inl ⟨q, q, rfl, by rw [hs, Function.update_of_ne hk, hq], .refl q⟩

/-- One template gets another record, armed for the same restore or not armed at all. -/
theorem updateTemplate (tid : Bytes) (t' : Template)
    (hs : s'.templates = Function.update s.templates tid (some t'))
    (hsame : (∃ t, s.templates tid = some t ∧ t.SameRestore t') ∨ t'.restorePending = false) :
    ∀ k q', s'.templates k = some q' →
      (∃ q, s.templates k = some q ∧ q.SameRestore q') ∨ q'.restorePending = false := by
  intro k q' hq
  rw [hs, Function.update_apply] at hq
  split at hq
  · rename_i hk
    cases hq
    exact hk ▸ hsame
  · exact Or.inl ⟨q', hq, .refl q'⟩

end RestoreFrame

namespace RuntimeSupervisor

variable {σ σ' : RuntimeSupervisor}

theorem restoreFrame_registerRuntime {request : RuntimeCreateRequest}
    (h : σ.registerRuntime request = .ok σ') : RestoreFrame σ σ' := by
  obtain ⟨rid, r, σ₀, hfree, hrun, -, htem, -, -, hpending, -, -, -, rfl⟩ := registerRuntime_ok h
  refine ⟨fun k => ?_, RestoreFrame.sameTemplates htem⟩
  by_cases hk : k = rid
  · subst hk
    refine Or.inr ⟨hfree, fun q hq => ?_⟩
    rw [setRuntime_runtimes, if_pos rfl] at hq
    cases hq
    exact hpending
  · have hrest := RestoreFrame.sameRuntimes hrun k
    rwa [← show (σ₀.setRuntime rid r).runtimes k = σ₀.runtimes k by
      rw [setRuntime_runtimes, if_neg hk]] at hrest

theorem restoreFrame_beginSnapshot {request : RuntimeSnapshotRequest} {op : Bytes}
    (h : σ.beginSnapshot request = .ok (op, σ')) : RestoreFrame σ σ' := by
  unfold beginSnapshot at h
  split at h
  · cases h
  rename_i r hr
  split at h
  · cases h
  cases h
  exact ⟨RestoreFrame.updateRuntime _ hr rfl ⟨rfl, rfl, rfl, rfl, rfl⟩, RestoreFrame.sameTemplates rfl⟩

theorem restoreFrame_observeBoundary {rid token : Bytes} {pid : Int} {generation : UInt64}
    {kind bid : Bytes} (h : σ.observeBoundary rid token pid generation kind = .ok (bid, σ')) :
    RestoreFrame σ σ' := by
  unfold observeBoundary at h
  split at h
  · cases h
  rename_i r hr
  split at h
  · cases h
  split at h
  · cases h
  cases h
  exact ⟨RestoreFrame.updateRuntime _ hr rfl ⟨rfl, rfl, rfl, rfl, rfl⟩, RestoreFrame.sameTemplates rfl⟩

theorem restoreFrame_cancelSnapshot {rid : Bytes} (h : σ.cancelSnapshot rid = .ok σ') :
    RestoreFrame σ σ' := by
  unfold cancelSnapshot at h
  split at h
  · cases h
  rename_i r hr
  simp only at h
  repeat' split at h
  all_goals
    cases h
    exact ⟨RestoreFrame.updateRuntime _ hr rfl ⟨rfl, rfl, rfl, rfl, rfl⟩, RestoreFrame.sameTemplates rfl⟩

theorem restoreFrame_releaseBoundaryForSnapshot {bid : Bytes} {action : RuntimeBoundaryAction}
    (h : σ.releaseBoundaryForSnapshot bid = .ok (action, σ')) : RestoreFrame σ σ' := by
  unfold releaseBoundaryForSnapshot at h
  split at h
  · cases h
  split at h
  · cases h
  rename_i b _ _
  cases h
  cases hr : σ.runtimes b.runtimeId with
  | none =>
      refine ⟨RestoreFrame.sameRuntimes ?_, RestoreFrame.updateTemplate
        (generatedId templateKind (σ.templateCounter + 1))
        { runtimeId := b.runtimeId, generation := b.generation } ?_ (Or.inr rfl)⟩
      · simp [hr]
      · simp [hr, setBoundary, setTemplate]
  | some r =>
      refine ⟨RestoreFrame.updateRuntime { r with
          templateIds := r.templateIds ++ [generatedId templateKind (σ.templateCounter + 1)]
          pendingTemplateId := generatedId templateKind (σ.templateCounter + 1) } hr ?_
          ⟨rfl, rfl, rfl, rfl, rfl⟩, RestoreFrame.updateTemplate
        (generatedId templateKind (σ.templateCounter + 1))
        { runtimeId := b.runtimeId, generation := b.generation } ?_ (Or.inr rfl)⟩
      · simp [hr, setBoundary, setRuntime]
      · simp [hr, setBoundary, setTemplate, setRuntime]

theorem restoreFrame_releaseBoundaryWithError {bid : Bytes} {message : String}
    {action : RuntimeBoundaryAction}
    (h : σ.releaseBoundaryWithError bid message = .ok (action, σ')) : RestoreFrame σ σ' := by
  unfold releaseBoundaryWithError at h
  split at h
  · cases h
  split at h
  · cases h
  rename_i b _ _
  cases h
  cases hr : σ.runtimes b.runtimeId with
  | none => exact .of_eq (by simp) (by simp)
  | some r =>
      refine ⟨RestoreFrame.updateRuntime { r with
          hasPendingSnapshot := false
          boundaryObserved := false
          pendingOpId := []
          pendingBoundaryId := [] } hr ?_ ⟨rfl, rfl, rfl, rfl, rfl⟩, RestoreFrame.sameTemplates ?_⟩
      · simp [setBoundary, setRuntime]
      · simp

theorem restoreFrame_templateReady {rid token tid : Bytes} {pid pgid : Int} {generation : UInt64}
    (h : σ.templateReady rid token tid pid pgid generation = .ok σ') : RestoreFrame σ σ' := by
  unfold templateReady at h
  split at h
  · cases h
  rename_i t ht
  repeat' split at h
  all_goals first
    | cases h
      exact ⟨RestoreFrame.sameRuntimes rfl, RestoreFrame.updateTemplate _ _ rfl
        (Or.inl ⟨t, ht, rfl, rfl, rfl, rfl, rfl, fun h => h⟩)⟩
    | cases h

theorem restoreFrame_attachUnionState {tid union : Bytes} {commit : Hash}
    (h : σ.attachUnionState tid union commit = .ok σ') : RestoreFrame σ σ' := by
  unfold attachUnionState at h
  split at h
  · cases h
  rename_i t ht
  cases h
  exact ⟨RestoreFrame.sameRuntimes rfl, RestoreFrame.updateTemplate _ _ rfl
    (Or.inl ⟨t, ht, rfl, rfl, rfl, rfl, rfl, fun h => h⟩)⟩

theorem restoreFrame_failTemplatePublish {tid : Bytes} {message : String}
    (h : σ.failTemplatePublish tid message = .ok σ') : RestoreFrame σ σ' := by
  unfold failTemplatePublish at h
  split at h
  · cases h
  rename_i t ht
  cases h
  exact ⟨RestoreFrame.sameRuntimes rfl, RestoreFrame.updateTemplate _ _ rfl
    (Or.inl ⟨t, ht, rfl, rfl, rfl, rfl, rfl, fun h => h⟩)⟩

theorem restoreFrame_dropTemplate {tid : Bytes} (h : σ.dropTemplate tid = .ok σ') :
    RestoreFrame σ σ' := by
  unfold dropTemplate at h
  split at h
  · cases h
  rename_i t ht
  split at h
  · cases h
    exact ⟨RestoreFrame.sameRuntimes rfl, RestoreFrame.updateTemplate _ _ rfl
      (Or.inl ⟨t, ht, rfl, rfl, rfl, rfl, rfl, fun _ => rfl⟩)⟩
  rename_i r hr
  split at h
  · cases h
  cases h
  exact ⟨RestoreFrame.updateRuntime _ hr rfl ⟨rfl, rfl, rfl, rfl, rfl⟩,
    RestoreFrame.updateTemplate _ _ rfl (Or.inl ⟨t, ht, rfl, rfl, rfl, rfl, rfl, fun _ => rfl⟩)⟩

theorem restoreFrame_retirePendingGeneration {rid : Bytes} {pgid : Int}
    (h : σ.retirePendingGeneration rid = .ok (pgid, σ')) : RestoreFrame σ σ' := by
  unfold retirePendingGeneration at h
  split at h
  · cases h
  rename_i r hr
  cases h
  exact ⟨RestoreFrame.updateRuntime _ hr rfl ⟨rfl, rfl, rfl, rfl, rfl⟩, RestoreFrame.sameTemplates rfl⟩

theorem restoreFrame_endBoundaryWait (σ : RuntimeSupervisor) (bid : Bytes) :
    RestoreFrame σ (σ.endBoundaryWait bid).2 := by
  unfold endBoundaryWait
  split
  · exact .refl σ
  · simp only
    split <;> exact .of_eq rfl rfl

/-- What the restore of a runtime does not see: the registry, snapshots, drops and the end of an
old generation. -/
inductive Operation
  | register (request : RuntimeCreateRequest)
  | beginSnapshot (request : RuntimeSnapshotRequest)
  | cancelSnapshot (rid : Bytes)
  | observe (rid token : Bytes) (pid : Int) (generation : UInt64) (kind : Bytes)
  | releaseForSnapshot (bid : Bytes)
  | releaseWithError (bid : Bytes) (message : String)
  | endWait (bid : Bytes)
  | templateReady (rid token tid : Bytes) (pid pgid : Int) (generation : UInt64)
  | attach (tid unionStateId : Bytes) (fsCommit : Hash)
  | failPublish (tid : Bytes) (message : String)
  | retire (rid : Bytes)
  | drop (tid : Bytes)

/-- The supervisor after an operation. -/
def perform (σ : RuntimeSupervisor) : Operation → RuntimeSupervisor
  | .register request => σ.registered request
  | .beginSnapshot request => σ.after ((σ.beginSnapshot request).map (·.2))
  | .cancelSnapshot rid => σ.after (σ.cancelSnapshot rid)
  | .observe rid token pid generation kind =>
      σ.after ((σ.observeBoundary rid token pid generation kind).map (·.2))
  | .releaseForSnapshot bid => σ.after ((σ.releaseBoundaryForSnapshot bid).map (·.2))
  | .releaseWithError bid message =>
      σ.after ((σ.releaseBoundaryWithError bid message).map (·.2))
  | .endWait bid => (σ.endBoundaryWait bid).2
  | .templateReady rid token tid pid pgid generation =>
      σ.after (σ.templateReady rid token tid pid pgid generation)
  | .attach tid unionStateId fsCommit =>
      σ.after (σ.attachUnionState tid unionStateId fsCommit)
  | .failPublish tid message => σ.after (σ.failTemplatePublish tid message)
  | .retire rid => σ.after ((σ.retirePendingGeneration rid).map (·.2))
  | .drop tid => σ.after (σ.dropTemplate tid)

theorem restoreFrame_perform (σ : RuntimeSupervisor) (op : Operation) :
    RestoreFrame σ (σ.perform op) := by
  have hrefl := RestoreFrame.refl σ
  cases op with
  | register =>
      exact registered_cases (fun _ => RestoreFrame.of_eq rfl rfl) fun _ h =>
        restoreFrame_registerRuntime h
  | beginSnapshot => exact after_map_cases hrefl fun _ _ h => restoreFrame_beginSnapshot h
  | cancelSnapshot => exact after_cases hrefl fun _ h => restoreFrame_cancelSnapshot h
  | observe => exact after_map_cases hrefl fun _ _ h => restoreFrame_observeBoundary h
  | releaseForSnapshot =>
      exact after_map_cases hrefl fun _ _ h => restoreFrame_releaseBoundaryForSnapshot h
  | releaseWithError =>
      exact after_map_cases hrefl fun _ _ h => restoreFrame_releaseBoundaryWithError h
  | endWait bid => exact restoreFrame_endBoundaryWait σ bid
  | templateReady => exact after_cases hrefl fun _ h => restoreFrame_templateReady h
  | attach => exact after_cases hrefl fun _ h => restoreFrame_attachUnionState h
  | failPublish => exact after_cases hrefl fun _ h => restoreFrame_failTemplatePublish h
  | retire => exact after_map_cases hrefl fun _ _ h => restoreFrame_retirePendingGeneration h
  | drop => exact after_cases hrefl fun _ h => restoreFrame_dropTemplate h

end RuntimeSupervisor
end ContextFS
