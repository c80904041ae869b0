import ContextFS.Runtime.DroppedTemplates

/-!
# What identifies a runtime

The token, the root process, its group and the generation of a runtime are set when it is
registered and when a restored process reports; every other call leaves them as they are, and no
call forgets a runtime.
-/

namespace ContextFS

/-- The runtime is known by the same token, process, group and generation; a group that waits to
be terminated may have been taken. -/
structure Runtime.SameIdentity (r r' : Runtime) : Prop where
  token : r'.controlToken = r.controlToken
  rootPid : r'.rootPid = r.rootPid
  group : r'.activeProcessGroupId = r.activeProcessGroupId
  generation : r'.generation = r.generation
  retire : r'.retirePgid = r.retirePgid ∨ r'.retirePgid = 0

theorem Runtime.SameIdentity.refl (r : Runtime) : r.SameIdentity r :=
  ⟨rfl, rfl, rfl, rfl, Or.inl rfl⟩

/-- Every runtime keeps what identifies it, and there is no new one. -/
def IdentityFrame (s s' : RuntimeSupervisor) : Prop :=
  ∀ rid, (∃ r r', s.runtimes rid = some r ∧ s'.runtimes rid = some r' ∧ r.SameIdentity r') ∨
    s.runtimes rid = none ∧ s'.runtimes rid = none

namespace IdentityFrame

variable {s s' : RuntimeSupervisor}

theorem of_eq (h : s'.runtimes = s.runtimes) : IdentityFrame s s' := by
  intro rid
  rw [h]
  cases hr : s.runtimes rid with
  | none => exact Or.inr ⟨rfl, rfl⟩
  | some r => exact Or.inl ⟨r, r, rfl, rfl, .refl r⟩

theorem refl (s : RuntimeSupervisor) : IdentityFrame s s := of_eq rfl

/-- One runtime gets another record with the same identity. -/
theorem update {rid : Bytes} {r : Runtime} (r' : Runtime) (hr : s.runtimes rid = some r)
    (hs : s'.runtimes = Function.update s.runtimes rid (some r')) (hsame : r.SameIdentity r') :
    IdentityFrame s s' := by
  intro k
  rw [hs]
  by_cases hk : k = rid
  · subst hk
    exact Or.inl ⟨r, r', hr, Function.update_self .., hsame⟩
  · rw [Function.update_of_ne hk]
    exact refl s k

/-- A record afterwards is the record of a runtime that was there. -/
theorem before (h : IdentityFrame s s') {rid : Bytes} {r' : Runtime}
    (hr' : s'.runtimes rid = some r') : ∃ r, s.runtimes rid = some r ∧ r.SameIdentity r' := by
  rcases h rid with ⟨r, r'', hr, hr'', hsame⟩ | ⟨-, hnone⟩
  · rw [hr''] at hr'
    cases hr'
    exact ⟨r, hr, hsame⟩
  · rw [hnone] at hr'
    cases hr'

end IdentityFrame

namespace RuntimeSupervisor

variable {σ σ' : RuntimeSupervisor}

theorem identityFrame_beginSnapshot {request : RuntimeSnapshotRequest} {op : Bytes}
    (h : σ.beginSnapshot request = .ok (op, σ')) : IdentityFrame σ σ' := by
  unfold beginSnapshot at h
  split at h
  · cases h
  rename_i r hr
  split at h
  · cases h
  cases h
  exact .update _ hr rfl ⟨rfl, rfl, rfl, rfl, Or.inl rfl⟩

theorem identityFrame_observeBoundary {rid token : Bytes} {pid : Int} {generation : UInt64}
    {kind bid : Bytes} (h : σ.observeBoundary rid token pid generation kind = .ok (bid, σ')) :
    IdentityFrame σ σ' := by
  unfold observeBoundary at h
  split at h
  · cases h
  rename_i r hr
  split at h
  · cases h
  split at h
  · cases h
  cases h
  exact .update _ hr rfl ⟨rfl, rfl, rfl, rfl, Or.inl rfl⟩

theorem identityFrame_cancelSnapshot {rid : Bytes} (h : σ.cancelSnapshot rid = .ok σ') :
    IdentityFrame σ σ' := by
  unfold cancelSnapshot at h
  split at h
  · cases h
  rename_i r hr
  simp only at h
  repeat' split at h
  all_goals
    cases h
    exact .update _ hr rfl ⟨rfl, rfl, rfl, rfl, Or.inl rfl⟩

theorem identityFrame_releaseBoundaryForSnapshot {bid : Bytes} {action : RuntimeBoundaryAction}
    (h : σ.releaseBoundaryForSnapshot bid = .ok (action, σ')) : IdentityFrame σ σ' := by
  unfold releaseBoundaryForSnapshot at h
  split at h
  · cases h
  split at h
  · cases h
  rename_i b _ _
  cases h
  cases hr : σ.runtimes b.runtimeId with
  | none => exact .of_eq (by simp [hr])
  | some r =>
      refine .update { r with
          templateIds := r.templateIds ++ [generatedId templateKind (σ.templateCounter + 1)]
          pendingTemplateId := generatedId templateKind (σ.templateCounter + 1) } hr ?_
          ⟨rfl, rfl, rfl, rfl, Or.inl rfl⟩
      simp [hr, setBoundary, setRuntime]

theorem identityFrame_releaseBoundaryWithError {bid : Bytes} {message : String}
    {action : RuntimeBoundaryAction}
    (h : σ.releaseBoundaryWithError bid message = .ok (action, σ')) : IdentityFrame σ σ' := by
  unfold releaseBoundaryWithError at h
  split at h
  · cases h
  split at h
  · cases h
  rename_i b _ _
  cases h
  cases hr : σ.runtimes b.runtimeId with
  | none => exact .of_eq (by simp)
  | some r =>
      refine .update { r with
          hasPendingSnapshot := false
          boundaryObserved := false
          pendingOpId := []
          pendingBoundaryId := [] } hr ?_ ⟨rfl, rfl, rfl, rfl, Or.inl rfl⟩
      simp [setBoundary, setRuntime]

theorem identityFrame_templateReady {rid token tid : Bytes} {pid pgid : Int} {generation : UInt64}
    (h : σ.templateReady rid token tid pid pgid generation = .ok σ') : IdentityFrame σ σ' := by
  unfold templateReady at h
  repeat' split at h
  all_goals first
    | cases h
      exact .of_eq rfl
    | cases h

theorem identityFrame_attachUnionState {tid union : Bytes} {commit : Hash}
    (h : σ.attachUnionState tid union commit = .ok σ') : IdentityFrame σ σ' := by
  unfold attachUnionState at h
  split at h
  · cases h
  cases h
  exact .of_eq rfl

theorem identityFrame_failTemplatePublish {tid : Bytes} {message : String}
    (h : σ.failTemplatePublish tid message = .ok σ') : IdentityFrame σ σ' := by
  unfold failTemplatePublish at h
  split at h
  · cases h
  cases h
  exact .of_eq rfl

theorem identityFrame_dropTemplate {tid : Bytes} (h : σ.dropTemplate tid = .ok σ') :
    IdentityFrame σ σ' := by
  unfold dropTemplate at h
  split at h
  · cases h
  split at h
  · cases h
    exact .of_eq rfl
  rename_i r hr
  split at h
  · cases h
  cases h
  exact .update _ hr rfl ⟨rfl, rfl, rfl, rfl, Or.inl rfl⟩

theorem identityFrame_endBoundaryWait (σ : RuntimeSupervisor) (bid : Bytes) :
    IdentityFrame σ (σ.endBoundaryWait bid).2 := by
  unfold endBoundaryWait
  split
  · exact .refl σ
  · simp only
    split <;> exact .of_eq rfl

theorem identityFrame_beginRestore {freeze : Int → Option String} {intent : RuntimeRestoreIntent}
    (h : σ.beginRestore freeze intent = .ok σ') : IdentityFrame σ σ' := by
  obtain ⟨r, t, hr, -, -, rfl⟩ := beginRestore_ok h
  exact .update _ hr rfl ⟨rfl, rfl, rfl, rfl, Or.inr rfl⟩

theorem identityFrame_publishRestore {rid : Bytes} (h : σ.publishRestore rid = .ok σ') :
    IdentityFrame σ σ' := by
  obtain ⟨r, t, -, -, -, -, -, rfl⟩ := publishRestore_ok h
  exact .of_eq rfl

theorem identityFrame_templatePoll {tid token : Bytes} {action : RuntimeTemplateAction}
    (h : σ.templatePoll tid token = .ok (action, σ')) : IdentityFrame σ σ' := by
  obtain ⟨t, -, ⟨-, rfl⟩ | ⟨-, -, rfl⟩ | ⟨-, rfl⟩⟩ := templatePoll_ok h
  · exact .of_eq rfl
  · exact .of_eq rfl
  · exact .refl _

/-- The group that is resumed is the active one. -/
theorem identityFrame_abortRestore {rid : Bytes} {pgid : Int}
    (h : σ.abortRestore rid = .ok (pgid, σ')) :
    IdentityFrame σ σ' ∧ ∃ r, σ.runtimes rid = some r ∧ pgid = r.activeProcessGroupId := by
  unfold abortRestore at h
  split at h
  · cases h
  rename_i r hr
  cases h
  refine ⟨.update { r with
      hasPendingRestore := false
      generationReadyFlag := false
      restoreTemplateId := []
      restoreTargetGeneration := 0 } hr ?_ ⟨rfl, rfl, rfl, rfl, Or.inl rfl⟩, r, hr, rfl⟩
  by_cases hset : r.restoreTemplateId = []
  · simp [hset, setRuntime]
  · simp [hset, setRuntime]

/-- The group that is terminated is the one that was kept for it, which is forgotten. -/
theorem identityFrame_retirePendingGeneration {rid : Bytes} {pgid : Int}
    (h : σ.retirePendingGeneration rid = .ok (pgid, σ')) :
    IdentityFrame σ σ' ∧ ∃ r, σ.runtimes rid = some r ∧ pgid = r.retirePgid := by
  unfold retirePendingGeneration at h
  split at h
  · cases h
  rename_i r hr
  cases h
  exact ⟨.update _ hr rfl ⟨rfl, rfl, rfl, rfl, Or.inr rfl⟩, r, hr, rfl⟩

/-! ## The two calls that identify a runtime -/

/-- The record that a registration makes. -/
theorem registerRuntime_record {request : RuntimeCreateRequest}
    (h : σ.registerRuntime request = .ok σ') :
    ∃ rid r, σ.runtimes rid = none ∧ σ'.runtimes = Function.update σ.runtimes rid (some r) ∧
      r.controlToken = request.controlToken ∧ r.rootPid = request.rootPid ∧
      r.activeProcessGroupId = request.processGroupId ∧ r.retirePgid = 0 := by
  unfold registerRuntime at h
  by_cases hgen : request.runtimeId = []
  · simp only [hgen, if_true] at h
    split at h
    · cases h
    · rename_i hfree
      cases h
      exact ⟨_, _, Option.not_isSome_iff_eq_none.1 hfree, rfl, rfl, rfl, rfl, rfl⟩
  · simp only [if_neg hgen] at h
    split at h
    · cases h
    · rename_i hfree
      cases h
      exact ⟨_, _, Option.not_isSome_iff_eq_none.1 hfree, rfl, rfl, rfl, rfl, rfl⟩

/-- A registration makes one new runtime at most, of the process and under the token of the
request. -/
theorem registered_spec (σ : RuntimeSupervisor) (request : RuntimeCreateRequest) (rid : Bytes) :
    (σ.registered request).runtimes rid = σ.runtimes rid ∨
      σ.runtimes rid = none ∧ ∃ r, (σ.registered request).runtimes rid = some r ∧
        r.controlToken = request.controlToken ∧ r.rootPid = request.rootPid ∧
        r.activeProcessGroupId = request.processGroupId ∧ r.retirePgid = 0 := by
  refine registered_cases (P := fun σ' => σ'.runtimes rid = σ.runtimes rid ∨
      σ.runtimes rid = none ∧ ∃ r, σ'.runtimes rid = some r ∧
        r.controlToken = request.controlToken ∧ r.rootPid = request.rootPid ∧
        r.activeProcessGroupId = request.processGroupId ∧ r.retirePgid = 0)
    (fun _ => Or.inl rfl) ?_
  intro σ' h
  obtain ⟨k, r, hfree, hruns, hrecord⟩ := registerRuntime_record h
  rw [hruns, Function.update_apply]
  by_cases hk : rid = k
  · rw [if_pos hk]
    exact Or.inr ⟨hk ▸ hfree, r, rfl, hrecord⟩
  · rw [if_neg hk]
    exact Or.inl rfl

/-- A restored process that reports takes the runtime's place, and the group before it waits to be
terminated. -/
theorem generationReady_spec {rid token : Bytes} {pid pgid : Int} {generation : UInt64}
    (h : σ.generationReady rid token pid pgid generation = .ok σ') :
    ∃ r r', σ.runtimes rid = some r ∧ σ'.runtimes = Function.update σ.runtimes rid (some r') ∧
      r.controlToken = token ∧ token ≠ [] ∧ r'.controlToken = r.controlToken ∧ r'.rootPid = pid ∧
      r'.activeProcessGroupId = pgid ∧ r'.retirePgid = r.activeProcessGroupId := by
  unfold generationReady at h
  split at h
  · cases h
  rename_i r hr
  split at h
  · cases h
  rename_i htoken
  split at h
  · cases h
  cases h
  simp only [Bool.or_eq_true, decide_eq_true_eq, not_or, ne_eq, not_not] at htoken
  obtain ⟨hsome, rfl⟩ := htoken
  refine ⟨r, { r with
      retirePgid := r.activeProcessGroupId
      rootPid := pid
      activeProcessGroupId := pgid
      generation := generation
      generationReadyFlag := true
      hasPendingRestore := false
      restoreTemplateId := [] }, hr, ?_, rfl, hsome, rfl, rfl, rfl, rfl⟩
  by_cases hset : r.restoreTemplateId = []
  · simp [hset, setRuntime]
  · simp [hset, setRuntime]

end RuntimeSupervisor
end ContextFS
