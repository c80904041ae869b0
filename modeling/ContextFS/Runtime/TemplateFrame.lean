import ContextFS.Runtime.HandOff

/-!
# What happens to templates and their lists

A template is made by one call only, under an id that was never given out.  The others keep what
they find: no record comes back, none is taken over by another runtime, a drop is not undone and
no list grows.
-/

namespace ContextFS
namespace RuntimeSupervisor

/-- An id `make_template_id_locked` has given out. -/
def MadeTemplateId (σ : RuntimeSupervisor) (tid : Bytes) : Prop :=
  ∃ n, n ≤ σ.templateCounter ∧ tid = generatedId templateKind n

/-- The id of the next template is not one of them. -/
theorem not_madeTemplateId_next (σ : RuntimeSupervisor) :
    ¬ σ.MadeTemplateId (generatedId templateKind (σ.templateCounter + 1)) := by
  rintro ⟨n, hle, heq⟩
  have hn := generatedId_injective heq
  omega

end RuntimeSupervisor

/-- No template is made, brought back or advertised anew. -/
structure TemplateFrame (s s' : RuntimeSupervisor) : Prop where
  templates : ∀ tid t', s'.templates tid = some t' →
    ∃ t, s.templates tid = some t ∧ t'.runtimeId = t.runtimeId ∧
      (t.dropped = true → t'.dropped = true)
  listed : ∀ rid r', s'.runtimes rid = some r' → ∀ tid ∈ r'.templateIds,
    ∃ r, s.runtimes rid = some r ∧ tid ∈ r.templateIds
  counter : s'.templateCounter = s.templateCounter

namespace TemplateFrame

variable {s s' : RuntimeSupervisor}

theorem sameTemplates (h : s'.templates = s.templates) (tid : Bytes) (t' : Template)
    (ht : s'.templates tid = some t') :
    ∃ t, s.templates tid = some t ∧ t'.runtimeId = t.runtimeId ∧
      (t.dropped = true → t'.dropped = true) :=
  ⟨t', h ▸ ht, rfl, fun h => h⟩

theorem sameRuntimes (h : s'.runtimes = s.runtimes) (rid : Bytes) (r' : Runtime)
    (hr : s'.runtimes rid = some r') (tid : Bytes) (htid : tid ∈ r'.templateIds) :
    ∃ r, s.runtimes rid = some r ∧ tid ∈ r.templateIds :=
  ⟨r', h ▸ hr, htid⟩

theorem of_eq (hr : s'.runtimes = s.runtimes) (ht : s'.templates = s.templates)
    (hc : s'.templateCounter = s.templateCounter) : TemplateFrame s s' :=
  ⟨sameTemplates ht, sameRuntimes hr, hc⟩

theorem refl (s : RuntimeSupervisor) : TemplateFrame s s := of_eq rfl rfl rfl

/-- One runtime gets another record that advertises no more. -/
theorem updateRuntime {rid : Bytes} {r : Runtime} (r' : Runtime) (hr : s.runtimes rid = some r)
    (hs : s'.runtimes = Function.update s.runtimes rid (some r'))
    (hids : ∀ tid ∈ r'.templateIds, tid ∈ r.templateIds) (k : Bytes) (q' : Runtime)
    (hq : s'.runtimes k = some q') (tid : Bytes) (htid : tid ∈ q'.templateIds) :
    ∃ q, s.runtimes k = some q ∧ tid ∈ q.templateIds := by
  rw [hs, Function.update_apply] at hq
  split at hq
  · rename_i hk
    cases hq
    exact ⟨r, hk ▸ hr, hids tid htid⟩
  · exact ⟨q', hq, htid⟩

/-- One template gets another record of the same runtime, dropped if it was. -/
theorem updateTemplate {tid : Bytes} {t : Template} (t' : Template)
    (ht : s.templates tid = some t)
    (hs : s'.templates = Function.update s.templates tid (some t'))
    (hsame : t'.runtimeId = t.runtimeId ∧ (t.dropped = true → t'.dropped = true)) (k : Bytes)
    (q' : Template) (hq : s'.templates k = some q') :
    ∃ q, s.templates k = some q ∧ q'.runtimeId = q.runtimeId ∧
      (q.dropped = true → q'.dropped = true) := by
  rw [hs, Function.update_apply] at hq
  split at hq
  · rename_i hk
    cases hq
    exact ⟨t, hk ▸ ht, hsame⟩
  · exact ⟨q', hq, rfl, fun h => h⟩

end TemplateFrame

namespace RuntimeSupervisor

variable {σ σ' : RuntimeSupervisor}

theorem templateFrame_registerRuntime {request : RuntimeCreateRequest}
    (h : σ.registerRuntime request = .ok σ') : TemplateFrame σ σ' := by
  obtain ⟨rid, r, σ₀, -, hrun, -, htem, -, hcount, -, -, -, hids, rfl⟩ := registerRuntime_ok h
  refine ⟨TemplateFrame.sameTemplates htem, fun k q hq tid htid => ?_, hcount⟩
  rw [setRuntime_runtimes] at hq
  split at hq
  · cases hq
    rw [hids] at htid
    cases htid
  · exact ⟨q, hrun ▸ hq, htid⟩

theorem templateFrame_beginSnapshot {request : RuntimeSnapshotRequest} {op : Bytes}
    (h : σ.beginSnapshot request = .ok (op, σ')) : TemplateFrame σ σ' := by
  unfold beginSnapshot at h
  split at h
  · cases h
  rename_i r hr
  split at h
  · cases h
  cases h
  exact ⟨TemplateFrame.sameTemplates rfl,
    TemplateFrame.updateRuntime _ hr rfl fun _ h => h, rfl⟩

theorem templateFrame_observeBoundary {rid token : Bytes} {pid : Int} {generation : UInt64}
    {kind bid : Bytes} (h : σ.observeBoundary rid token pid generation kind = .ok (bid, σ')) :
    TemplateFrame σ σ' := by
  unfold observeBoundary at h
  split at h
  · cases h
  rename_i r hr
  split at h
  · cases h
  split at h
  · cases h
  cases h
  exact ⟨TemplateFrame.sameTemplates rfl,
    TemplateFrame.updateRuntime _ hr rfl fun _ h => h, rfl⟩

theorem templateFrame_cancelSnapshot {rid : Bytes} (h : σ.cancelSnapshot rid = .ok σ') :
    TemplateFrame σ σ' := by
  unfold cancelSnapshot at h
  split at h
  · cases h
  rename_i r hr
  simp only at h
  repeat' split at h
  all_goals
    cases h
    exact ⟨TemplateFrame.sameTemplates rfl,
      TemplateFrame.updateRuntime _ hr rfl fun _ h => h, rfl⟩

theorem templateFrame_releaseBoundaryWithError {bid : Bytes} {message : String}
    {action : RuntimeBoundaryAction}
    (h : σ.releaseBoundaryWithError bid message = .ok (action, σ')) : TemplateFrame σ σ' := by
  unfold releaseBoundaryWithError at h
  split at h
  · cases h
  split at h
  · cases h
  rename_i b _ _
  cases h
  cases hr : σ.runtimes b.runtimeId with
  | none => exact .of_eq rfl rfl rfl
  | some r =>
      exact ⟨TemplateFrame.sameTemplates rfl,
        TemplateFrame.updateRuntime _ hr rfl fun _ h => h, rfl⟩

theorem templateFrame_templateReady {rid token tid : Bytes} {pid pgid : Int} {generation : UInt64}
    (h : σ.templateReady rid token tid pid pgid generation = .ok σ') : TemplateFrame σ σ' := by
  unfold templateReady at h
  split at h
  · cases h
  rename_i t ht
  repeat' split at h
  all_goals first
    | cases h
      exact ⟨TemplateFrame.updateTemplate _ ht rfl ⟨rfl, fun h => h⟩,
        TemplateFrame.sameRuntimes rfl, rfl⟩
    | cases h

theorem templateFrame_attachUnionState {tid union : Bytes} {commit : Hash}
    (h : σ.attachUnionState tid union commit = .ok σ') : TemplateFrame σ σ' := by
  unfold attachUnionState at h
  split at h
  · cases h
  rename_i t ht
  cases h
  exact ⟨TemplateFrame.updateTemplate _ ht rfl ⟨rfl, fun h => h⟩,
    TemplateFrame.sameRuntimes rfl, rfl⟩

theorem templateFrame_failTemplatePublish {tid : Bytes} {message : String}
    (h : σ.failTemplatePublish tid message = .ok σ') : TemplateFrame σ σ' := by
  unfold failTemplatePublish at h
  split at h
  · cases h
  rename_i t ht
  cases h
  exact ⟨TemplateFrame.updateTemplate _ ht rfl ⟨rfl, fun h => h⟩,
    TemplateFrame.sameRuntimes rfl, rfl⟩

theorem templateFrame_retirePendingGeneration {rid : Bytes} {pgid : Int}
    (h : σ.retirePendingGeneration rid = .ok (pgid, σ')) : TemplateFrame σ σ' := by
  unfold retirePendingGeneration at h
  split at h
  · cases h
  rename_i r hr
  cases h
  exact ⟨TemplateFrame.sameTemplates rfl,
    TemplateFrame.updateRuntime _ hr rfl fun _ h => h, rfl⟩

theorem templateFrame_endBoundaryWait (σ : RuntimeSupervisor) (bid : Bytes) :
    TemplateFrame σ (σ.endBoundaryWait bid).2 := by
  unfold endBoundaryWait
  split
  · exact .refl _
  · simp only
    split <;> exact .of_eq rfl rfl rfl

/-- What a successful drop does to the record and to the list of its runtime. -/
theorem dropTemplate_ok {tid : Bytes} (h : σ.dropTemplate tid = .ok σ') :
    ∃ t, σ.templates tid = some t ∧
      σ'.templates = Function.update σ.templates tid (some { t with dropped := true }) ∧
      σ'.templateCounter = σ.templateCounter ∧
      (σ.runtimes t.runtimeId = none ∧ σ'.runtimes = σ.runtimes ∨
        ∃ r r', σ.runtimes t.runtimeId = some r ∧
          r'.templateIds = r.templateIds.filter (· ≠ tid) ∧
          σ'.runtimes = Function.update σ.runtimes t.runtimeId (some r')) := by
  unfold dropTemplate at h
  split at h
  · cases h
  rename_i t ht
  split at h
  · rename_i hr
    cases h
    exact ⟨t, ht, rfl, rfl, Or.inl ⟨hr, rfl⟩⟩
  rename_i r hr
  split at h
  · cases h
  cases h
  exact ⟨t, ht, rfl, rfl, Or.inr ⟨r, _, hr, rfl, rfl⟩⟩

theorem templateFrame_dropTemplate {tid : Bytes} (h : σ.dropTemplate tid = .ok σ') :
    TemplateFrame σ σ' := by
  obtain ⟨t, ht, htem, hcount, ⟨-, hrun⟩ | ⟨r, r', hr, hids, hrun⟩⟩ := dropTemplate_ok h
  · exact ⟨TemplateFrame.updateTemplate _ ht htem ⟨rfl, fun _ => rfl⟩,
      TemplateFrame.sameRuntimes hrun, hcount⟩
  · refine ⟨TemplateFrame.updateTemplate _ ht htem ⟨rfl, fun _ => rfl⟩,
      TemplateFrame.updateRuntime _ hr hrun fun k hk => ?_, hcount⟩
    rw [hids] at hk
    exact List.mem_of_mem_filter hk

theorem templateFrame_beginRestore {freeze : Int → Option String} {intent : RuntimeRestoreIntent}
    (h : σ.beginRestore freeze intent = .ok σ') : TemplateFrame σ σ' := by
  obtain ⟨r, t, hr, ht, -, rfl⟩ := beginRestore_ok h
  exact ⟨TemplateFrame.updateTemplate _ ht rfl ⟨rfl, fun h => h⟩,
    TemplateFrame.updateRuntime _ hr rfl fun _ h => h, rfl⟩

theorem templateFrame_publishRestore {rid : Bytes} (h : σ.publishRestore rid = .ok σ') :
    TemplateFrame σ σ' := by
  obtain ⟨r, t, -, -, ht, -, -, rfl⟩ := publishRestore_ok h
  exact ⟨TemplateFrame.updateTemplate _ ht rfl ⟨rfl, fun h => h⟩,
    TemplateFrame.sameRuntimes rfl, rfl⟩

theorem templateFrame_templatePoll {tid token : Bytes} {action : RuntimeTemplateAction}
    (h : σ.templatePoll tid token = .ok (action, σ')) : TemplateFrame σ σ' := by
  obtain ⟨t, ht, ⟨-, rfl⟩ | ⟨-, -, rfl⟩ | ⟨-, rfl⟩⟩ := templatePoll_ok h
  · refine ⟨fun k t' ht' => ?_, TemplateFrame.sameRuntimes rfl, rfl⟩
    change Function.update σ.templates tid none k = some t' at ht'
    rw [Function.update_apply] at ht'
    split at ht'
    · cases ht'
    · exact ⟨t', ht', rfl, fun h => h⟩
  · exact ⟨TemplateFrame.updateTemplate _ ht rfl ⟨rfl, fun h => h⟩,
      TemplateFrame.sameRuntimes rfl, rfl⟩
  · exact .refl _

/-- The end of a restore disarms one template and writes one runtime. -/
theorem templateFrame_disarm {rid : Bytes} {r : Runtime} (r' : Runtime) (f : Template → Template)
    (hr : σ.runtimes rid = some r) (hids : r'.templateIds = r.templateIds)
    (hf : ∀ t, (f t).runtimeId = t.runtimeId ∧ (f t).dropped = t.dropped) :
    TemplateFrame σ ((if r.restoreTemplateId ≠ [] then σ.modifyTemplate r.restoreTemplateId f
      else σ).setRuntime rid r') := by
  have hlisted : ∀ tid ∈ r'.templateIds, tid ∈ r.templateIds := fun tid h => hids ▸ h
  by_cases hset : r.restoreTemplateId ≠ []
  · rw [if_pos hset]
    refine ⟨fun k t' ht' => ?_, TemplateFrame.updateRuntime _ hr rfl hlisted, rfl⟩
    rw [setRuntime_templates, modifyTemplate_templates] at ht'
    split at ht'
    · rename_i hk
      obtain ⟨t, ht, rfl⟩ := Option.map_eq_some_iff.1 ht'
      exact ⟨t, hk ▸ ht, (hf t).1, fun h => (hf t).2.trans h⟩
    · exact ⟨t', ht', rfl, fun h => h⟩
  · rw [if_neg hset]
    exact ⟨TemplateFrame.sameTemplates rfl, TemplateFrame.updateRuntime _ hr rfl hlisted, rfl⟩

theorem templateFrame_abortRestore {rid : Bytes} {pgid : Int}
    (h : σ.abortRestore rid = .ok (pgid, σ')) : TemplateFrame σ σ' := by
  unfold abortRestore at h
  split at h
  · cases h
  rename_i r hr
  cases h
  exact templateFrame_disarm _ _ hr rfl fun _ => ⟨rfl, rfl⟩

theorem templateFrame_generationReady {rid token : Bytes} {pid pgid : Int} {generation : UInt64}
    (h : σ.generationReady rid token pid pgid generation = .ok σ') : TemplateFrame σ σ' := by
  unfold generationReady at h
  split at h
  · cases h
  rename_i r hr
  split at h
  · cases h
  split at h
  · cases h
  cases h
  exact templateFrame_disarm _ _ hr rfl fun _ => ⟨rfl, rfl⟩

/-- The one call that makes a template: under the next id, advertised by its runtime only. -/
theorem releaseBoundaryForSnapshot_ok {bid : Bytes} {action : RuntimeBoundaryAction}
    (h : σ.releaseBoundaryForSnapshot bid = .ok (action, σ')) :
    ∃ t, σ'.templateCounter = σ.templateCounter + 1 ∧
      σ'.templates = Function.update σ.templates
        (generatedId templateKind (σ.templateCounter + 1)) (some t) ∧
      ∀ rid r', σ'.runtimes rid = some r' → ∀ tid ∈ r'.templateIds,
        (∃ r, σ.runtimes rid = some r ∧ tid ∈ r.templateIds) ∨
          tid = generatedId templateKind (σ.templateCounter + 1) ∧ t.runtimeId = rid := by
  unfold releaseBoundaryForSnapshot at h
  split at h
  · cases h
  split at h
  · cases h
  rename_i b _ _
  cases h
  refine ⟨{ runtimeId := b.runtimeId, generation := b.generation }, ?_⟩
  cases hr : σ.runtimes b.runtimeId with
  | none =>
      refine ⟨by simp [hr, setBoundary, setTemplate], by simp [hr, setBoundary, setTemplate],
        fun rid r' hr' tid htid => Or.inl ⟨r', ?_, htid⟩⟩
      simpa [hr] using hr'
  | some r =>
      refine ⟨by simp [hr, setBoundary, setTemplate, setRuntime],
        by simp [hr, setBoundary, setTemplate, setRuntime], fun rid r' hr' tid htid => ?_⟩
      have hrun : (if rid = b.runtimeId then some { r with
          templateIds := r.templateIds ++ [generatedId templateKind (σ.templateCounter + 1)]
          pendingTemplateId := generatedId templateKind (σ.templateCounter + 1) }
          else σ.runtimes rid) = some r' := by
        simpa [hr] using hr'
      by_cases hk : rid = b.runtimeId
      · rw [if_pos hk] at hrun
        cases hrun
        rcases List.mem_append.1 htid with hold | hnew
        · exact Or.inl ⟨r, hk ▸ hr, hold⟩
        · exact Or.inr ⟨List.mem_singleton.1 hnew, hk.symm⟩
      · rw [if_neg hk] at hrun
        exact Or.inl ⟨r', hrun, htid⟩

end RuntimeSupervisor
end ContextFS
