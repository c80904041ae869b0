import ContextFS.Runtime.TemplateFrame

/-!
# Dropped templates

A drop leaves the record of the template in place, for the parked process to poll once more, and
takes its id out of the runtime's list.  Any calls can come before that poll.  The list and the
poll know about the drop; `begin_restore` and `template_status` look at the record only, and
offer the template as long as it is there.
-/

namespace ContextFS

/-- A call to the supervisor.  `perform` are the calls that no restore depends on, the drop among
them; waits and listings that only look are left out, but the two that report a template. -/
inductive SupervisorCall
  | perform (op : RuntimeSupervisor.Operation)
  | status (alive : Int → Bool) (rid : Bytes)
  | templateStatus (alive : Int → Bool) (tid : Bytes)
  | beginRestore (freeze : Int → Option String) (intent : RuntimeRestoreIntent)
  | publishRestore (rid : Bytes)
  | abortRestore (rid : Bytes)
  | poll (tid token : Bytes)
  | generationReady (rid token : Bytes) (pid pgid : Int) (generation : UInt64)

namespace RuntimeSupervisor

/-- The supervisor after a call. -/
def call (σ : RuntimeSupervisor) : SupervisorCall → RuntimeSupervisor
  | .perform op => σ.perform op
  | .status _ _ => σ
  | .templateStatus _ _ => σ
  | .beginRestore freeze intent => σ.after (σ.beginRestore freeze intent)
  | .publishRestore rid => σ.after (σ.publishRestore rid)
  | .abortRestore rid => σ.after ((σ.abortRestore rid).map (·.2))
  | .poll tid token => σ.after ((σ.templatePoll tid token).map (·.2))
  | .generationReady rid token pid pgid generation =>
      σ.after (σ.generationReady rid token pid pgid generation)

/-- A supervisor that has just started, after some calls. -/
def run (calls : List SupervisorCall) : RuntimeSupervisor := calls.foldl call {}

@[simp] theorem run_append_singleton (calls : List SupervisorCall) (c : SupervisorCall) :
    run (calls ++ [c]) = (run calls).call c := by
  rw [run, List.foldl_append]
  rfl

/-- One of the calls was a drop of the template that returned success. -/
def Dropped (calls : List SupervisorCall) (tid : Bytes) : Prop :=
  ∃ before after σ', calls = before ++ .perform (.drop tid) :: after ∧
    (run before).dropTemplate tid = .ok σ'

theorem dropped_append_singleton {calls : List SupervisorCall} {c : SupervisorCall} {tid : Bytes}
    (h : Dropped (calls ++ [c]) tid) :
    Dropped calls tid ∨
      c = .perform (.drop tid) ∧ ∃ σ', (run calls).dropTemplate tid = .ok σ' := by
  obtain ⟨before, after, σ', heq, hdrop⟩ := h
  rcases List.eq_nil_or_concat after with rfl | ⟨rest, last, rfl⟩
  · obtain ⟨hcalls, hc⟩ := List.append_inj' heq rfl
    cases hc
    exact Or.inr ⟨rfl, σ', hcalls ▸ hdrop⟩
  · rw [List.concat_eq_append, ← List.cons_append, ← List.append_assoc] at heq
    obtain ⟨hcalls, -⟩ := List.append_inj' heq rfl
    exact Or.inl ⟨before, rest, σ', hcalls, hdrop⟩

/-- A call restores from the template, hands a restore to its process or reports it as
restorable. -/
def RestoresFrom (σ : RuntimeSupervisor) (tid : Bytes) : SupervisorCall → Prop
  | .beginRestore freeze intent =>
      intent.templateId = tid ∧ ∃ σ', σ.beginRestore freeze intent = .ok σ'
  | .poll k token => k = tid ∧ ∃ target σ', σ.templatePoll k token = .ok (.restore target, σ')
  | .status alive rid => ∃ status, σ.status alive rid = .ok status ∧
      ∃ entry ∈ status.templates, entry.templateId = tid ∧
        entry.restoreEligibility = .liveRuntimeRestorable
  | .templateStatus alive k => k = tid ∧ ∃ entry, σ.templateStatus alive k = .ok entry ∧
      entry.restoreEligibility = .liveRuntimeRestorable
  | _ => False

/-- The record of the template is still there, and the call is one of the two that do not ask
whether it was dropped: a restore of its own runtime, whose process group can be frozen, or a
question after its status while its process lives. -/
def FindsRecord (σ : RuntimeSupervisor) (tid : Bytes) : SupervisorCall → Prop
  | .beginRestore freeze intent => intent.templateId = tid ∧
      ∃ r t, σ.runtimes intent.runtimeId = some r ∧ σ.templates tid = some t ∧
        t.runtimeId = intent.runtimeId ∧
        (0 < r.activeProcessGroupId → freeze r.activeProcessGroupId = none)
  | .templateStatus alive k => k = tid ∧
      ∃ t, σ.templates tid = some t ∧ t.ready = true ∧ 0 < t.templatePid ∧
        alive t.templatePid = true
  | _ => False

/-- What holds of every call of a run and every template that was dropped before it. -/
def AfterDrops (P : RuntimeSupervisor → Bytes → SupervisorCall → Prop)
    (calls : List SupervisorCall) : Prop :=
  ∀ before c after tid, calls = before ++ c :: after → Dropped before tid → P (run before) tid c

/-- Only the release of a boundary makes a template. -/
theorem templateFrame_call (σ : RuntimeSupervisor) (c : SupervisorCall)
    (hc : ∀ bid, c ≠ .perform (.releaseForSnapshot bid)) : TemplateFrame σ (σ.call c) := by
  have hrefl := TemplateFrame.refl σ
  cases c with
  | perform op =>
      cases op with
      | register =>
          exact registered_cases (fun _ => .of_eq rfl rfl rfl) fun _ hok =>
            templateFrame_registerRuntime hok
      | beginSnapshot =>
          exact after_map_cases hrefl fun _ _ hok => templateFrame_beginSnapshot hok
      | cancelSnapshot => exact after_cases hrefl fun _ hok => templateFrame_cancelSnapshot hok
      | observe => exact after_map_cases hrefl fun _ _ hok => templateFrame_observeBoundary hok
      | releaseForSnapshot bid => exact absurd rfl (hc bid)
      | releaseWithError =>
          exact after_map_cases hrefl fun _ _ hok => templateFrame_releaseBoundaryWithError hok
      | endWait bid => exact templateFrame_endBoundaryWait σ bid
      | templateReady => exact after_cases hrefl fun _ hok => templateFrame_templateReady hok
      | attach => exact after_cases hrefl fun _ hok => templateFrame_attachUnionState hok
      | failPublish => exact after_cases hrefl fun _ hok => templateFrame_failTemplatePublish hok
      | retire =>
          exact after_map_cases hrefl fun _ _ hok => templateFrame_retirePendingGeneration hok
      | drop => exact after_cases hrefl fun _ hok => templateFrame_dropTemplate hok
  | status => exact hrefl
  | templateStatus => exact hrefl
  | beginRestore => exact after_cases hrefl fun _ hok => templateFrame_beginRestore hok
  | publishRestore => exact after_cases hrefl fun _ hok => templateFrame_publishRestore hok
  | abortRestore => exact after_map_cases hrefl fun _ _ hok => templateFrame_abortRestore hok
  | poll => exact after_map_cases hrefl fun _ _ hok => templateFrame_templatePoll hok
  | generationReady => exact after_cases hrefl fun _ hok => templateFrame_generationReady hok

/-! ## What is kept of a drop -/

/-- No id is given out twice, a list advertises templates of its own runtime, and a dropped
template is advertised nowhere and marked as long as its record is there. -/
structure DropsKept (σ : RuntimeSupervisor) (dropped : Bytes → Prop) : Prop where
  made : ∀ tid, σ.templates tid ≠ none ∨ dropped tid → σ.MadeTemplateId tid
  listed : ∀ rid r, σ.runtimes rid = some r → ∀ tid ∈ r.templateIds,
    σ.MadeTemplateId tid ∧ ∀ t, σ.templates tid = some t → t.runtimeId = rid
  marked : ∀ tid, dropped tid → ∀ t, σ.templates tid = some t → t.dropped = true
  unlisted : ∀ tid, dropped tid → ∀ rid r, σ.runtimes rid = some r → tid ∉ r.templateIds

namespace DropsKept

variable {σ σ' : RuntimeSupervisor} {dropped dropped' : Bytes → Prop}

theorem mono (h : DropsKept σ dropped) (hd : ∀ tid, dropped' tid → dropped tid) :
    DropsKept σ dropped' where
  made tid ht := h.made tid (ht.imp_right (hd tid))
  listed := h.listed
  marked tid ht := h.marked tid (hd tid ht)
  unlisted tid ht := h.unlisted tid (hd tid ht)

/-- The calls that make no template. -/
theorem frame (h : DropsKept σ dropped) (hf : TemplateFrame σ σ') : DropsKept σ' dropped := by
  have hmade : ∀ tid, σ.MadeTemplateId tid → σ'.MadeTemplateId tid := by
    rintro tid ⟨n, hle, rfl⟩
    exact ⟨n, hf.counter ▸ hle, rfl⟩
  constructor
  case made =>
    rintro tid (ht | ht)
    · obtain ⟨t', ht'⟩ := Option.ne_none_iff_exists'.1 ht
      obtain ⟨t, hold, -⟩ := hf.templates tid t' ht'
      exact hmade tid (h.made tid (Or.inl (by simp [hold])))
    · exact hmade tid (h.made tid (Or.inr ht))
  case listed =>
    intro rid r' hr' tid htid
    obtain ⟨r, hr, hold⟩ := hf.listed rid r' hr' tid htid
    obtain ⟨hgiven, hown⟩ := h.listed rid r hr tid hold
    refine ⟨hmade tid hgiven, fun t' ht' => ?_⟩
    obtain ⟨t, ht, hrid, -⟩ := hf.templates tid t' ht'
    exact hrid.trans (hown t ht)
  case marked =>
    intro tid ht t' ht'
    obtain ⟨t, hold, -, hdropped⟩ := hf.templates tid t' ht'
    exact hdropped (h.marked tid ht t hold)
  case unlisted =>
    intro tid ht rid r' hr' htid
    obtain ⟨r, hr, hold⟩ := hf.listed rid r' hr' tid htid
    exact h.unlisted tid ht rid r hr hold

/-- A new template. -/
theorem release (h : DropsKept σ dropped) {bid : Bytes} {action : RuntimeBoundaryAction}
    (hrel : σ.releaseBoundaryForSnapshot bid = .ok (action, σ')) : DropsKept σ' dropped := by
  obtain ⟨t₀, hcount, htem, hlists⟩ := releaseBoundaryForSnapshot_ok hrel
  have hmade : ∀ tid, σ.MadeTemplateId tid → σ'.MadeTemplateId tid := by
    rintro tid ⟨n, hle, rfl⟩
    exact ⟨n, by omega, rfl⟩
  have hnew : σ'.MadeTemplateId (generatedId templateKind (σ.templateCounter + 1)) :=
    ⟨σ.templateCounter + 1, by omega, rfl⟩
  have hold : ∀ tid, σ.MadeTemplateId tid → σ'.templates tid = σ.templates tid := by
    intro tid hgiven
    rw [htem, Function.update_of_ne]
    rintro rfl
    exact σ.not_madeTemplateId_next hgiven
  constructor
  case made =>
    rintro tid (ht | ht)
    · by_cases hk : tid = generatedId templateKind (σ.templateCounter + 1)
      · exact hk ▸ hnew
      · rw [htem, Function.update_of_ne hk] at ht
        exact hmade tid (h.made tid (Or.inl ht))
    · exact hmade tid (h.made tid (Or.inr ht))
  case listed =>
    intro rid r' hr' tid htid
    rcases hlists rid r' hr' tid htid with ⟨r, hr, hlisted⟩ | ⟨rfl, hown⟩
    · obtain ⟨hgiven, hown⟩ := h.listed rid r hr tid hlisted
      exact ⟨hmade tid hgiven, fun t ht => hown t (hold tid hgiven ▸ ht)⟩
    · refine ⟨hnew, fun t ht => ?_⟩
      rw [htem, Function.update_self] at ht
      cases ht
      exact hown
  case marked =>
    intro tid ht t ht'
    rw [hold tid (h.made tid (Or.inr ht))] at ht'
    exact h.marked tid ht t ht'
  case unlisted =>
    intro tid ht rid r' hr' htid
    rcases hlists rid r' hr' tid htid with ⟨r, hr, hlisted⟩ | ⟨rfl, -⟩
    · exact h.unlisted tid ht rid r hr hlisted
    · exact σ.not_madeTemplateId_next (h.made _ (Or.inr ht))

/-- One more template is dropped. -/
theorem drop (h : DropsKept σ dropped) {tid : Bytes} (hdrop : σ.dropTemplate tid = .ok σ') :
    DropsKept σ' fun k => dropped k ∨ k = tid := by
  have hkept := h.frame (templateFrame_dropTemplate hdrop)
  obtain ⟨t, ht, htem, hcount, hlists⟩ := dropTemplate_ok hdrop
  constructor
  case made =>
    rintro k (hk | hk | rfl)
    · exact hkept.made k (Or.inl hk)
    · exact hkept.made k (Or.inr hk)
    · refine hkept.made k (Or.inl ?_)
      rw [htem, Function.update_self]
      exact Option.some_ne_none _
  case listed => exact hkept.listed
  case marked =>
    rintro k (hk | rfl) t' ht'
    · exact hkept.marked k hk t' ht'
    · rw [htem, Function.update_self] at ht'
      cases ht'
      rfl
  case unlisted =>
    rintro k (hk | rfl) rid r' hr' hmem
    · exact hkept.unlisted k hk rid r' hr' hmem
    -- only the runtime of the template could advertise it
    have hrid : t.runtimeId = rid := by
      have hown := (hkept.listed rid r' hr' k hmem).2 { t with dropped := true }
      exact hown (by rw [htem, Function.update_self])
    subst hrid
    rcases hlists with ⟨hnone, hrun⟩ | ⟨r, r₁, -, hids, hrun⟩
    · rw [hrun, hnone] at hr'
      cases hr'
    · rw [hrun, Function.update_self] at hr'
      cases hr'
      rw [hids] at hmem
      simpa using (List.mem_filter.1 hmem).2

theorem call (h : DropsKept σ dropped) (c : SupervisorCall) :
    DropsKept (σ.call c) dropped := by
  by_cases hc : ∃ bid, c = .perform (.releaseForSnapshot bid)
  · obtain ⟨bid, rfl⟩ := hc
    exact after_map_cases h fun _ _ hok => h.release hok
  · exact h.frame (templateFrame_call σ c fun bid heq => hc ⟨bid, heq⟩)

/-- Every run keeps its drops. -/
theorem of_run (calls : List SupervisorCall) : DropsKept (run calls) (Dropped calls) := by
  induction calls using List.reverseRecOn with
  | nil =>
      constructor
      case made =>
        rintro tid (ht | ⟨before, after, -, heq, -⟩)
        · exact (ht rfl).elim
        · simp at heq
      case listed => exact fun rid r hr => (by cases hr)
      case marked => exact fun tid _ t ht => (by cases ht)
      case unlisted => exact fun tid _ rid r hr => (by cases hr)
  | append_singleton calls c ih =>
      rw [run_append_singleton]
      by_cases hc : ∃ tid σ', c = .perform (.drop tid) ∧ (run calls).dropTemplate tid = .ok σ'
      · obtain ⟨tid, σ', rfl, hdrop⟩ := hc
        have hnext : (run calls).call (.perform (.drop tid)) = σ' := by
          show (run calls).after ((run calls).dropTemplate tid) = σ'
          rw [hdrop]
          rfl
        rw [hnext]
        refine (ih.drop hdrop).mono fun k hk => ?_
        rcases dropped_append_singleton hk with hold | ⟨heq, -⟩
        · exact Or.inl hold
        · cases heq
          exact Or.inr rfl
      · refine (ih.call c).mono fun k hk => ?_
        rcases dropped_append_singleton hk with hold | ⟨rfl, σ', hdrop⟩
        · exact hold
        · exact (hc ⟨k, σ', rfl, hdrop⟩).elim

end DropsKept

/-! ## The calls that offer a dropped template -/

theorem beginRestore_ok_iff {σ : RuntimeSupervisor} {freeze : Int → Option String}
    {intent : RuntimeRestoreIntent} :
    (∃ σ', σ.beginRestore freeze intent = .ok σ') ↔
      ∃ r t, σ.runtimes intent.runtimeId = some r ∧ σ.templates intent.templateId = some t ∧
        t.runtimeId = intent.runtimeId ∧
        (0 < r.activeProcessGroupId → freeze r.activeProcessGroupId = none) := by
  unfold beginRestore
  cases hr : σ.runtimes intent.runtimeId with
  | none => simp
  | some r =>
      cases ht : σ.templates intent.templateId with
      | none => simp
      | some t =>
          by_cases hown : t.runtimeId = intent.runtimeId
          · by_cases hpos : 0 < r.activeProcessGroupId
            · cases hfreeze : freeze r.activeProcessGroupId <;> simp [hown, hpos, hfreeze]
            · simp [hown, hpos]
          · simp [hown]

theorem restorable_iff (alive : Int → Bool) (tid : Bytes) (t : Template) :
    (templateRecordStatus alive tid t).restoreEligibility = .liveRuntimeRestorable ↔
      t.ready = true ∧ 0 < t.templatePid ∧ alive t.templatePid = true := by
  simp [templateRecordStatus, and_assoc]

/-- A dropped template that is advertised nowhere and marked is offered by the two calls that find
its record, and by no other. -/
theorem DropsKept.restoresFrom_iff {σ : RuntimeSupervisor} {dropped : Bytes → Prop} {tid : Bytes}
    (h : DropsKept σ dropped) (hd : dropped tid) (c : SupervisorCall) :
    σ.RestoresFrom tid c ↔ σ.FindsRecord tid c := by
  cases c with
  | beginRestore freeze intent =>
      constructor
      · rintro ⟨rfl, hok⟩
        exact ⟨rfl, beginRestore_ok_iff.1 hok⟩
      · rintro ⟨rfl, hrecord⟩
        exact ⟨rfl, beginRestore_ok_iff.2 hrecord⟩
  | templateStatus alive k =>
      constructor
      · rintro ⟨rfl, entry, hentry, hlive⟩
        unfold templateStatus at hentry
        split at hentry
        · cases hentry
        rename_i t ht
        cases hentry
        exact ⟨rfl, t, ht, (restorable_iff alive k t).1 hlive⟩
      · rintro ⟨rfl, t, ht, hlive⟩
        exact ⟨rfl, templateRecordStatus alive k t, by rw [templateStatus, ht],
          (restorable_iff alive k t).2 hlive⟩
  | status alive rid =>
      refine iff_of_false ?_ fun hno => hno
      rintro ⟨status, hstatus, entry, hentry, rfl, -⟩
      unfold RuntimeSupervisor.status at hstatus
      split at hstatus
      · cases hstatus
      rename_i r hr
      cases hstatus
      obtain ⟨k, hk, hmap⟩ := List.mem_filterMap.1 hentry
      obtain ⟨t, -, rfl⟩ := Option.map_eq_some_iff.1 hmap
      exact h.unlisted _ hd rid r hr hk
  | poll k token =>
      refine iff_of_false ?_ fun hno => hno
      rintro ⟨rfl, target, σ', hpoll⟩
      obtain ⟨t, ht, ⟨hact, -⟩ | ⟨hreleased, -⟩ | ⟨hact, -⟩⟩ := templatePoll_ok hpoll
      · cases hact
      · have hmarked := h.marked k hd t ht
        rw [hreleased.1] at hmarked
        cases hmarked
      · cases hact
  | perform => exact Iff.rfl
  | publishRestore => exact Iff.rfl
  | abortRestore => exact Iff.rfl
  | generationReady => exact Iff.rfl

/-- In every run, no call restores from a template that was dropped, tells it to restore or
reports it as restorable, exactly if none of the calls that overlook the drop finds its record
still there. -/
theorem dropped_never_restored_iff (calls : List SupervisorCall) :
    AfterDrops (fun σ tid c => ¬ σ.RestoresFrom tid c) calls ↔
      AfterDrops (fun σ tid c => ¬ σ.FindsRecord tid c) calls := by
  constructor
  · intro h before c after tid hcalls hd hfinds
    exact h before c after tid hcalls hd (((DropsKept.of_run before).restoresFrom_iff hd c).2 hfinds)
  · intro h before c after tid hcalls hd hrestores
    exact h before c after tid hcalls hd
      (((DropsKept.of_run before).restoresFrom_iff hd c).1 hrestores)

/-! ## A restore between the drop and the poll -/

theorem exists_ok_of_isSome {α : Type} {e : Except String α} (h : e.toOption.isSome = true) :
    ∃ a, e = .ok a := by
  cases e with
  | error => cases h
  | ok a => exact ⟨a, rfl⟩

/-- A runtime with a live template. -/
def oneTemplate : List SupervisorCall := [
  .perform (.register {
    runtimeId := [114]
    branch := [109]
    rootPid := 1
    processGroupId := 1
    cooperative := true
    controlToken := [116] }),
  .perform (.beginSnapshot { runtimeId := [114], boundaryKind := [] }),
  .perform (.observe [114] [116] 1 1 []),
  .perform (.releaseForSnapshot (generatedId boundaryKind 1)),
  .perform (.templateReady [114] [116] (generatedId templateKind 1) 2 2 1)]

def restoreDropped : SupervisorCall :=
  .beginRestore (fun _ => none) {
    runtimeId := [114]
    templateId := generatedId templateKind 1
    targetGeneration := 2 }

/-- The restore goes through: the drop has left the record for a poll that has not come yet. -/
theorem restore_of_dropped : ¬ ∀ calls,
    AfterDrops (fun σ tid c => ¬ σ.RestoresFrom tid c) calls := by
  intro hsafe
  have hdropOk : ((run oneTemplate).dropTemplate
      (generatedId templateKind 1)).toOption.isSome = true := by decide +kernel
  have hrestoreOk :
      ((run (oneTemplate ++ [.perform (.drop (generatedId templateKind 1))])).beginRestore
        (fun _ => none) ⟨[114], generatedId templateKind 1, 2⟩).toOption.isSome = true := by
    decide +kernel
  obtain ⟨σ', hdrop⟩ := exists_ok_of_isSome hdropOk
  refine hsafe (oneTemplate ++ [.perform (.drop (generatedId templateKind 1)), restoreDropped])
    (oneTemplate ++ [.perform (.drop (generatedId templateKind 1))]) restoreDropped []
    (generatedId templateKind 1) (by simp) ⟨oneTemplate, [], σ', rfl, hdrop⟩ ⟨rfl, ?_⟩
  exact exists_ok_of_isSome hrestoreOk

end RuntimeSupervisor
end ContextFS
