import ContextFS.Lib.Runs
import ContextFS.Runtime.RestoreFrame

/-!
# The hand-off of a restore

Restores of any runtimes against any templates, with the processes the templates fork.  Every
`begin_restore` that succeeds starts a new intent; the numbers of the intents and what became of
them are kept beside the supervisor, which itself knows an intent by its target generation only.
A forked process reports with the runtime and the generation it was given, at any time and any
number of times, until it exits or has its answer.
-/

namespace ContextFS

open Lib

/-- A template that hands its restore to the next poll. -/
def Template.Released (t : Template) : Prop :=
  t.dropped = false ∧ t.restorePending = true ∧ t.restoreReleased = true ∧
    t.restoreInFlight = false

namespace RuntimeSupervisor

variable {σ σ' : RuntimeSupervisor}

theorem beginRestore_ok {freeze : Int → Option String} {intent : RuntimeRestoreIntent}
    (h : σ.beginRestore freeze intent = .ok σ') :
    ∃ r t, σ.runtimes intent.runtimeId = some r ∧ σ.templates intent.templateId = some t ∧
      t.runtimeId = intent.runtimeId ∧
      σ' = (σ.setRuntime intent.runtimeId {
        r with
        hasPendingRestore := true
        restoreTemplateId := intent.templateId
        restoreTargetGeneration := intent.targetGeneration
        generationReadyFlag := false
        retirePgid := 0 }).setTemplate intent.templateId {
          t with
          restorePending := true
          restoreReleased := false
          restoreInFlight := false
          targetGeneration := intent.targetGeneration } := by
  unfold beginRestore at h
  split at h
  · cases h
  rename_i r hr
  split at h
  · cases h
  rename_i t ht
  split at h
  · cases h
  rename_i hown
  generalize (if 0 < r.activeProcessGroupId then freeze r.activeProcessGroupId else none) = answer at h
  cases answer with
  | some err => cases h
  | none =>
      cases h
      exact ⟨r, t, hr, ht, not_not.1 hown, rfl⟩

/-- A runtime after a restore has begun: the one it is for waits for the generation, every other
one is as it was. -/
theorem runtimes_beginRestore {freeze : Int → Option String} {intent : RuntimeRestoreIntent}
    (h : σ.beginRestore freeze intent = .ok σ') {rid : Bytes} {r : Runtime}
    (hr : σ'.runtimes rid = some r) :
    (rid = intent.runtimeId ∧ r.hasPendingRestore = true ∧
        r.restoreTemplateId = intent.templateId ∧
        r.restoreTargetGeneration = intent.targetGeneration) ∨
      rid ≠ intent.runtimeId ∧ σ.runtimes rid = some r := by
  obtain ⟨r₀, t₀, -, -, -, rfl⟩ := beginRestore_ok h
  rw [setTemplate_runtimes, setRuntime_runtimes] at hr
  by_cases hrid : rid = intent.runtimeId
  · rw [if_pos hrid, Option.some.injEq] at hr
    subst hr
    exact Or.inl ⟨hrid, rfl, rfl, rfl⟩
  · rw [if_neg hrid] at hr
    exact Or.inr ⟨hrid, hr⟩

theorem runtimes_beginRestore_none {freeze : Int → Option String} {intent : RuntimeRestoreIntent}
    (h : σ.beginRestore freeze intent = .ok σ') {rid : Bytes} (hnone : σ'.runtimes rid = none) :
    rid ≠ intent.runtimeId ∧ σ.runtimes rid = none := by
  obtain ⟨r₀, t₀, -, -, -, rfl⟩ := beginRestore_ok h
  rw [setTemplate_runtimes, setRuntime_runtimes] at hnone
  by_cases hrid : rid = intent.runtimeId
  · rw [if_pos hrid] at hnone
    cases hnone
  · rw [if_neg hrid] at hnone
    exact ⟨hrid, hnone⟩

/-- A template after a restore has begun: its own one has to be released yet. -/
theorem templates_beginRestore {freeze : Int → Option String} {intent : RuntimeRestoreIntent}
    (h : σ.beginRestore freeze intent = .ok σ') {tid : Bytes} {t : Template}
    (ht : σ'.templates tid = some t) :
    (tid = intent.templateId ∧ t.restoreReleased = false) ∨
      tid ≠ intent.templateId ∧ σ.templates tid = some t := by
  obtain ⟨r₀, t₀, -, -, -, rfl⟩ := beginRestore_ok h
  rw [setTemplate_templates, setRuntime_templates] at ht
  by_cases htid : tid = intent.templateId
  · rw [if_pos htid, Option.some.injEq] at ht
    subst ht
    exact Or.inl ⟨htid, rfl⟩
  · rw [if_neg htid] at ht
    exact Or.inr ⟨htid, ht⟩

theorem publishRestore_ok {rid : Bytes} (h : σ.publishRestore rid = .ok σ') :
    ∃ r t, σ.runtimes rid = some r ∧ r.hasPendingRestore = true ∧
      σ.templates r.restoreTemplateId = some t ∧ t.restorePending = true ∧ t.runtimeId = rid ∧
      σ' = σ.setTemplate r.restoreTemplateId { t with restoreReleased := true } := by
  unfold publishRestore at h
  split at h
  · cases h
  rename_i r hr
  split at h
  · cases h
  rename_i hpending
  split at h
  · cases h
  rename_i t ht
  split at h
  · cases h
  rename_i harmed
  cases h
  simp only [Bool.or_eq_true, Bool.not_eq_true', decide_eq_true_eq, not_or,
    Bool.not_eq_false, not_not] at hpending harmed
  exact ⟨r, t, hr, hpending.1, ht, harmed.1, harmed.2, rfl⟩

/-- What a poll answers: the template is gone, has a restore to do, or waits. -/
theorem templatePoll_ok {tid token : Bytes} {action : RuntimeTemplateAction}
    (h : σ.templatePoll tid token = .ok (action, σ')) :
    ∃ t, σ.templates tid = some t ∧
      (action = .drop ∧ σ' = { σ with templates := Function.update σ.templates tid none } ∨
        t.Released ∧ action = .restore t.targetGeneration ∧
          σ' = σ.setTemplate tid { t with restoreInFlight := true } ∨
        action = .wait ∧ σ' = σ) := by
  unfold templatePoll at h
  split at h
  · cases h
  rename_i t ht
  split at h
  · cases h
  split at h
  · cases h
  refine ⟨t, ht, ?_⟩
  split at h
  · cases h
    exact Or.inl ⟨rfl, rfl⟩
  rename_i hdropped
  split at h
  · rename_i hreleased
    cases h
    simp only [Bool.and_eq_true, Bool.not_eq_true'] at hreleased
    exact Or.inr (Or.inl ⟨⟨by simpa using hdropped, hreleased.1.1, hreleased.1.2, hreleased.2⟩,
      rfl, rfl⟩)
  · cases h
    exact Or.inr (Or.inr ⟨rfl, rfl⟩)

/-- The end of a restore, accepted or aborted: the template is disarmed and the runtime has no
pending restore. -/
structure RestoreEnds (σ σ' : RuntimeSupervisor) (rid : Bytes) : Prop where
  runtime : ∃ r', σ'.runtimes rid = some r' ∧ r'.hasPendingRestore = false
  others : ∀ k, k ≠ rid → σ'.runtimes k = σ.runtimes k
  templates : ∀ tid t', σ'.templates tid = some t' →
    σ.templates tid = some t' ∨ t'.restorePending = false

theorem restoreEnds_of_disarm {rid : Bytes} {r r' : Runtime} {f : Template → Template}
    (hf : ∀ t, (f t).restorePending = false) (hr' : r'.hasPendingRestore = false) :
    RestoreEnds σ ((if r.restoreTemplateId ≠ [] then σ.modifyTemplate r.restoreTemplateId f
      else σ).setRuntime rid r') rid := by
  constructor
  · exact ⟨r', by simp, hr'⟩
  · intro k hk
    rw [setRuntime_runtimes, if_neg hk]
    split <;> rfl
  · intro tid t' ht'
    rw [setRuntime_templates] at ht'
    split at ht'
    · rw [modifyTemplate_templates] at ht'
      split at ht'
      · obtain ⟨t, -, rfl⟩ := Option.map_eq_some_iff.1 ht'
        exact Or.inr (hf t)
      · exact Or.inl ht'
    · exact Or.inl ht'

theorem abortRestore_ok {rid : Bytes} {pgid : Int} (h : σ.abortRestore rid = .ok (pgid, σ')) :
    RestoreEnds σ σ' rid := by
  unfold abortRestore at h
  split at h
  · cases h
  cases h
  exact restoreEnds_of_disarm (fun _ => rfl) rfl

theorem generationReady_ok {rid token : Bytes} {pid pgid : Int} {generation : UInt64}
    (h : σ.generationReady rid token pid pgid generation = .ok σ') :
    (∃ r, σ.runtimes rid = some r ∧ r.hasPendingRestore = true ∧
      r.restoreTargetGeneration = generation) ∧ RestoreEnds σ σ' rid := by
  unfold generationReady at h
  split at h
  · cases h
  rename_i r hr
  split at h
  · cases h
  split at h
  · cases h
  rename_i hpending
  cases h
  simp only [Bool.or_eq_true, Bool.not_eq_true', decide_eq_true_eq, not_or, Bool.not_eq_false,
    not_not] at hpending
  exact ⟨⟨r, hr, hpending.1, hpending.2⟩, restoreEnds_of_disarm (fun _ => rfl) rfl⟩

end RuntimeSupervisor

/-- A process forked by a template that was told to restore. -/
structure ForkedProcess where
  runtimeId : Bytes
  templateId : Bytes
  intent : Nat
  targetGeneration : UInt64
  mayReport : Bool := true

/-- A report that was accepted: by which process, and the intent that was pending. -/
structure Activation where
  runtimeId : Bytes
  process : Nat
  current : Option Nat
  published : Bool

structure RestoreSystem where
  supervisor : RuntimeSupervisor := {}
  intents : Nat := 0
  current : Bytes → Option Nat := fun _ => none
  published : Nat → Bool := fun _ => false
  /-- The intent a template was last armed for. -/
  armed : Bytes → Bytes → Nat := fun _ _ => 0
  forked : List ForkedProcess := []
  activations : List Activation := []

inductive RestoreEvent
  | begin (freeze : Int → Option String) (intent : RuntimeRestoreIntent)
  | publish (rid : Bytes)
  | poll (tid token : Bytes)
  | ready (i : Nat) (token : Bytes) (pid pgid : Int)
  | silent (i : Nat)
  | abort (rid : Bytes)
  | perform (op : RuntimeSupervisor.Operation)

namespace RestoreSystem

/-- A new intent. -/
def begun (s : RestoreSystem) (σ : RuntimeSupervisor) (intent : RuntimeRestoreIntent) :
    RestoreSystem :=
  { s with
    supervisor := σ
    intents := s.intents + 1
    current := Function.update s.current intent.runtimeId (some s.intents)
    armed := fun rid tid =>
      if rid = intent.runtimeId ∧ tid = intent.templateId then s.intents else s.armed rid tid }

/-- The pending intent of a runtime is released to its template. -/
def released (s : RestoreSystem) (σ : RuntimeSupervisor) (rid : Bytes) : RestoreSystem :=
  { s with
    supervisor := σ
    published := fun n => s.published n || s.current rid == some n }

/-- A template forks for the intent it was armed for. -/
def fork (s : RestoreSystem) (σ : RuntimeSupervisor) (tid : Bytes) (target : UInt64) :
    RestoreSystem :=
  let rid := ((s.supervisor.templates tid).map (·.runtimeId)).getD []
  { s with
    supervisor := σ
    forked := s.forked ++ [{
      runtimeId := rid
      templateId := tid
      intent := s.armed rid tid
      targetGeneration := target }] }

/-- A process becomes the active one of its runtime. -/
def activate (s : RestoreSystem) (σ : RuntimeSupervisor) (i : Nat) (rid : Bytes) :
    RestoreSystem :=
  { s with
    supervisor := σ
    current := Function.update s.current rid none
    activations := s.activations ++ [{
      runtimeId := rid
      process := i
      current := s.current rid
      published := ((s.current rid).map s.published).getD false }] }

/-- One event; none where it cannot happen. -/
def next (s : RestoreSystem) : RestoreEvent → Option RestoreSystem
  | .begin freeze intent =>
      match s.supervisor.beginRestore freeze intent with
      | .error _ => some s
      | .ok σ => some (s.begun σ intent)
  | .publish rid =>
      match s.supervisor.publishRestore rid with
      | .error _ => some s
      | .ok σ => some (s.released σ rid)
  | .poll tid token =>
      match s.supervisor.templatePoll tid token with
      | .error _ => some s
      | .ok (.restore target, σ) => some (s.fork σ tid target)
      | .ok (_, σ) => some { s with supervisor := σ }
  | .ready i token pid pgid =>
      match s.forked[i]? with
      | none => none
      | some f =>
          if f.mayReport then
            match s.supervisor.generationReady f.runtimeId token pid pgid f.targetGeneration with
            | .error _ => some s
            | .ok σ => some (s.activate σ i f.runtimeId)
          else none
  | .silent i =>
      match s.forked[i]? with
      | none => none
      | some f => some { s with forked := s.forked.set i { f with mayReport := false } }
  | .abort rid =>
      match s.supervisor.abortRestore rid with
      | .error _ => some s
      | .ok (_, σ) =>
          some { s with supervisor := σ, current := Function.update s.current rid none }
  | .perform op => some { s with supervisor := s.supervisor.perform op }

def Step (s : RestoreSystem) (e : RestoreEvent) (s' : RestoreSystem) : Prop :=
  s.next e = some s'

/-- A supervisor that has just started. -/
def Init (s : RestoreSystem) : Prop := s = {}

/-- Every process that was accepted was forked for the intent that was pending, after that intent
was published, and no intent has activated two. -/
structure SingleHandOff (s : RestoreSystem) : Prop where
  own : ∀ a ∈ s.activations, ∃ f, s.forked[a.process]? = some f ∧ f.runtimeId = a.runtimeId ∧
    a.current = some f.intent ∧ a.published = true
  once : (s.activations.map (·.current)).Nodup

/-- When a restore begins, nobody can still report the new generation for an earlier intent: no
process that was forked, and no other template that was released. -/
def Unshared (s : RestoreSystem) : RestoreEvent → RestoreSystem → Prop
  | .begin freeze intent, _ =>
      (∃ σ, s.supervisor.beginRestore freeze intent = .ok σ) →
        (∀ f ∈ s.forked, f.mayReport = true → f.runtimeId = intent.runtimeId →
          f.targetGeneration ≠ intent.targetGeneration) ∧
        ∀ tid t, s.supervisor.templates tid = some t → t.runtimeId = intent.runtimeId →
          tid ≠ intent.templateId → t.Released → t.targetGeneration ≠ intent.targetGeneration
  | _, _ => True

/-- How the supervisor's records belong to the intents. -/
structure HandOffOk (s : RestoreSystem) : Prop where
  unknown : ∀ rid, s.supervisor.runtimes rid = none → s.current rid = none
  pending : ∀ rid r, s.supervisor.runtimes rid = some r →
    (r.hasPendingRestore = true ↔ s.current rid ≠ none)
  bound : ∀ rid n, s.current rid = some n → n < s.intents
  apart : ∀ rid rid' n, s.current rid = some n → s.current rid' = some n → rid = rid'
  template : ∀ rid r n, s.supervisor.runtimes rid = some r → s.current rid = some n →
    s.armed rid r.restoreTemplateId = n
  released : ∀ tid t, s.supervisor.templates tid = some t → t.restorePending = true →
    t.restoreReleased = true → s.published (s.armed t.runtimeId tid) = true
  forked : ∀ f ∈ s.forked, s.published f.intent = true
  process : ∀ rid r n, s.supervisor.runtimes rid = some r → s.current rid = some n →
    ∀ f ∈ s.forked, f.mayReport = true → f.runtimeId = rid →
      f.targetGeneration = r.restoreTargetGeneration → f.intent = n
  armed : ∀ rid r n, s.supervisor.runtimes rid = some r → s.current rid = some n →
    ∀ tid t, s.supervisor.templates tid = some t → t.runtimeId = rid → t.Released →
      t.targetGeneration = r.restoreTargetGeneration → s.armed rid tid = n
  activated : ∀ a ∈ s.activations, ∀ n, a.current = some n →
    n < s.intents ∧ ∀ rid, s.current rid ≠ some n
  safe : s.SingleHandOff

namespace HandOffOk

variable {s : RestoreSystem} {σ : RuntimeSupervisor}

theorem init (h : Init s) : s.HandOffOk := by
  subst h
  constructor
  case safe => exact ⟨fun a ha => (by cases ha), List.nodup_nil⟩
  all_goals simp

/-- What does not concern a restore keeps the invariant. -/
theorem frame (h : s.HandOffOk) (hf : RestoreFrame s.supervisor σ) :
    HandOffOk { s with supervisor := σ } := by
  -- a runtime with a current intent was there before
  have hold : ∀ rid r' n, σ.runtimes rid = some r' → s.current rid = some n →
      ∃ r, s.supervisor.runtimes rid = some r ∧ r.SameRestore r' := by
    intro rid r' n hr' hn
    rcases hf.runtimes rid with ⟨r, q, hr, hq, hsame⟩ | ⟨hnone, -⟩
    · cases hr'.symm.trans hq
      exact ⟨r, hr, hsame⟩
    · rw [h.unknown rid hnone] at hn
      cases hn
  constructor
  case unknown =>
    intro rid hnone
    rcases hf.runtimes rid with ⟨r, q, hr, hq, -⟩ | ⟨hgone, -⟩
    · cases hq.symm.trans hnone
    · exact h.unknown rid hgone
  case pending =>
    intro rid r' hr'
    rcases hf.runtimes rid with ⟨r, q, hr, hq, hsame⟩ | ⟨hgone, hnew⟩
    · cases hr'.symm.trans hq
      rw [hsame.1]
      exact h.pending rid r hr
    · rw [hnew r' hr', h.unknown rid hgone]
      simp
  case bound => exact h.bound
  case apart => exact h.apart
  case template =>
    intro rid r' n hr' hn
    obtain ⟨r, hr, hsame⟩ := hold rid r' n hr' hn
    rw [hsame.2.1]
    exact h.template rid r n hr hn
  case released =>
    intro tid t' ht' hpending hreleased
    rcases hf.templates tid t' ht' with ⟨t, ht, hown, hp, hrel, -⟩ | hnot
    · rw [hown]
      exact h.released tid t ht (hp ▸ hpending) (hrel ▸ hreleased)
    · rw [hnot] at hpending
      cases hpending
  case forked => exact h.forked
  case process =>
    intro rid r' n hr' hn f hf' hmay hrid htarget
    obtain ⟨r, hr, hsame⟩ := hold rid r' n hr' hn
    exact h.process rid r n hr hn f hf' hmay hrid (htarget.trans hsame.2.2.1)
  case armed =>
    intro rid r' n hr' hn tid t' ht' hown hrel htarget
    obtain ⟨r, hr, hsame⟩ := hold rid r' n hr' hn
    rcases hf.templates tid t' ht' with ⟨t, ht, ho, hp, hr', hi, hg, hd⟩ | hnot
    · have hlive : t.dropped = false := by
        cases hdrop : t.dropped with
        | false => rfl
        | true => exact absurd (hd hdrop) (by simp [hrel.1])
      have hwas : t.Released := ⟨hlive, hp ▸ hrel.2.1, hr' ▸ hrel.2.2.1, hi ▸ hrel.2.2.2⟩
      exact h.armed rid r n hr hn tid t ht (ho ▸ hown) hwas
        (hg.symm.trans (htarget.trans hsame.2.2.1))
    · rw [hrel.2.1] at hnot
      cases hnot
  case activated => exact h.activated
  case safe => exact ⟨h.safe.own, h.safe.once⟩

theorem current_begun (s : RestoreSystem) (σ : RuntimeSupervisor) (intent : RuntimeRestoreIntent)
    (rid : Bytes) : (s.begun σ intent).current rid =
      if rid = intent.runtimeId then some s.intents else s.current rid :=
  Function.update_apply ..

/-- A restore that begins while nobody else can report its generation. -/
theorem begun (h : s.HandOffOk) {freeze : Int → Option String} {intent : RuntimeRestoreIntent}
    (hbegin : s.supervisor.beginRestore freeze intent = .ok σ)
    (hforked : ∀ f ∈ s.forked, f.mayReport = true → f.runtimeId = intent.runtimeId →
      f.targetGeneration ≠ intent.targetGeneration)
    (hothers : ∀ tid t, s.supervisor.templates tid = some t → t.runtimeId = intent.runtimeId →
      tid ≠ intent.templateId → t.Released → t.targetGeneration ≠ intent.targetGeneration) :
    (s.begun σ intent).HandOffOk := by
  -- the new intent is nobody's yet
  have hnew : ∀ rid, s.current rid ≠ some s.intents := fun rid hn =>
    Nat.lt_irrefl _ (h.bound rid _ hn)
  constructor
  case unknown =>
    intro rid hnone
    obtain ⟨hrid, hnone⟩ := RuntimeSupervisor.runtimes_beginRestore_none hbegin hnone
    rw [current_begun, if_neg hrid]
    exact h.unknown rid hnone
  case pending =>
    intro rid r hr
    rw [current_begun]
    rcases RuntimeSupervisor.runtimes_beginRestore hbegin hr with ⟨hrid, hpending, -⟩ | ⟨hrid, hr⟩
    · simp [hrid, hpending]
    · rw [if_neg hrid]
      exact h.pending rid r hr
  case bound =>
    intro rid n hn
    show n < s.intents + 1
    rw [current_begun] at hn
    split at hn
    · cases hn
      exact Nat.lt_succ_self _
    · exact Nat.lt_succ_of_lt (h.bound rid n hn)
  case apart =>
    intro rid rid' n hn hn'
    rw [current_begun] at hn hn'
    split at hn <;> split at hn'
    · rename_i hrid hrid'
      exact hrid.trans hrid'.symm
    · cases hn
      exact absurd hn' (hnew rid')
    · cases hn'
      exact absurd hn (hnew rid)
    · exact h.apart rid rid' n hn hn'
  case template =>
    intro rid r n hr hn
    rw [current_begun] at hn
    rcases RuntimeSupervisor.runtimes_beginRestore hbegin hr with
      ⟨hrid, -, htemplate, -⟩ | ⟨hrid, hr⟩
    · rw [if_pos hrid, Option.some.injEq] at hn
      exact (if_pos ⟨hrid, htemplate⟩).trans hn
    · rw [if_neg hrid] at hn
      exact (if_neg fun hboth => hrid hboth.1).trans (h.template rid r n hr hn)
  case released =>
    intro tid t ht hpending hreleased
    rcases RuntimeSupervisor.templates_beginRestore hbegin ht with ⟨-, hnot⟩ | ⟨htid, ht⟩
    · rw [hnot] at hreleased
      cases hreleased
    · have hsame : (s.begun σ intent).armed t.runtimeId tid = s.armed t.runtimeId tid :=
        if_neg fun hboth => htid hboth.2
      rw [hsame]
      exact h.released tid t ht hpending hreleased
  case forked => exact h.forked
  -- a forked process with the new target is excluded by `hforked`
  case process =>
    intro rid r n hr hn f hf hmay hrid' htarget
    rw [current_begun] at hn
    rcases RuntimeSupervisor.runtimes_beginRestore hbegin hr with
      ⟨hrid, -, -, hgeneration⟩ | ⟨hrid, hr⟩
    · exact absurd (htarget.trans hgeneration) (hforked f hf hmay (hrid'.trans hrid))
    · rw [if_neg hrid] at hn
      exact h.process rid r n hr hn f hf hmay hrid' htarget
  -- so is a released template, by `hothers`
  case armed =>
    intro rid r n hr hn tid t ht hown hrel htarget
    rw [current_begun] at hn
    rcases RuntimeSupervisor.templates_beginRestore hbegin ht with ⟨-, hnot⟩ | ⟨htid, ht⟩
    · have hreleased := hrel.2.2.1
      rw [hnot] at hreleased
      cases hreleased
    rcases RuntimeSupervisor.runtimes_beginRestore hbegin hr with
      ⟨hrid, -, -, hgeneration⟩ | ⟨hrid, hr⟩
    · exact absurd (htarget.trans hgeneration) (hothers tid t ht (hown.trans hrid) htid hrel)
    · rw [if_neg hrid] at hn
      exact (if_neg fun hboth => htid hboth.2).trans (h.armed rid r n hr hn tid t ht hown hrel htarget)
  case activated =>
    intro a ha n hn
    obtain ⟨hlt, hcurrent⟩ := h.activated a ha n hn
    refine ⟨Nat.lt_succ_of_lt hlt, fun rid hrid => ?_⟩
    rw [current_begun] at hrid
    split at hrid
    · cases hrid
      exact Nat.lt_irrefl _ hlt
    · exact hcurrent rid hrid
  case safe => exact ⟨h.safe.own, h.safe.once⟩

/-- The pending restore is released to its template. -/
theorem publish (h : s.HandOffOk) {rid : Bytes}
    (hpub : s.supervisor.publishRestore rid = .ok σ) : (s.released σ rid).HandOffOk := by
  obtain ⟨r₀, t₀, hr₀, hpending₀, ht₀, -, hown₀, rfl⟩ := RuntimeSupervisor.publishRestore_ok hpub
  obtain ⟨n₀, hn₀⟩ := Option.ne_none_iff_exists'.1 ((h.pending rid r₀ hr₀).1 hpending₀)
  have harmed₀ := h.template rid r₀ n₀ hr₀ hn₀
  have hmono : ∀ n, s.published n = true → (s.released
      (s.supervisor.setTemplate r₀.restoreTemplateId { t₀ with restoreReleased := true })
        rid).published n = true := by
    intro n hn
    simp [RestoreSystem.released, hn]
  constructor
  case unknown => exact h.unknown
  case pending => exact h.pending
  case bound => exact h.bound
  case apart => exact h.apart
  case template => exact h.template
  case released =>
    intro tid t ht hpending hreleased
    by_cases htid : tid = r₀.restoreTemplateId
    · subst htid
      simp only [RestoreSystem.released, RuntimeSupervisor.setTemplate_templates, if_true,
        Option.some.injEq] at ht
      subst ht
      simp [RestoreSystem.released, hown₀, harmed₀, hn₀]
    · simp only [RestoreSystem.released, RuntimeSupervisor.setTemplate_templates,
        if_neg htid] at ht
      exact hmono _ (h.released tid t ht hpending hreleased)
  case forked => exact fun f hf => hmono _ (h.forked f hf)
  case process => exact h.process
  case armed =>
    intro rid' r n hr hn tid t ht hown hrel htarget
    by_cases htid : tid = r₀.restoreTemplateId
    · subst htid
      simp only [RestoreSystem.released, RuntimeSupervisor.setTemplate_templates, if_true,
        Option.some.injEq] at ht
      subst ht
      have hrid : rid' = rid := hown.symm.trans hown₀
      subst hrid
      cases hr₀.symm.trans hr
      exact h.template rid' r₀ n hr₀ hn
    · simp only [RestoreSystem.released, RuntimeSupervisor.setTemplate_templates,
        if_neg htid] at ht
      exact h.armed rid' r n hr hn tid t ht hown hrel htarget
  case activated => exact h.activated
  case safe => exact ⟨h.safe.own, h.safe.once⟩

/-- Changes of the templates that release none. -/
theorem templates (h : s.HandOffOk) (templates : Bytes → Option Template)
    (ht : ∀ tid t', templates tid = some t' → ∃ t, s.supervisor.templates tid = some t ∧
      t'.runtimeId = t.runtimeId ∧ t'.restorePending = t.restorePending ∧
      t'.restoreReleased = t.restoreReleased ∧ t'.targetGeneration = t.targetGeneration ∧
      (t'.Released → t.Released)) :
    HandOffOk { s with supervisor := { s.supervisor with templates := templates } } := by
  constructor
  case unknown => exact h.unknown
  case pending => exact h.pending
  case bound => exact h.bound
  case apart => exact h.apart
  case template => exact h.template
  case released =>
    intro tid t' ht' hpending hreleased
    obtain ⟨t, hold, hown, hp, hr, -⟩ := ht tid t' ht'
    rw [hown]
    exact h.released tid t hold (hp ▸ hpending) (hr ▸ hreleased)
  case forked => exact h.forked
  case process => exact h.process
  case armed =>
    intro rid r n hr hn tid t' ht' hown hrel htarget
    obtain ⟨t, hold, ho, -, -, hg, hback⟩ := ht tid t' ht'
    exact h.armed rid r n hr hn tid t hold (ho.symm.trans hown) (hback hrel) (hg.symm.trans htarget)
  case activated => exact h.activated
  case safe => exact ⟨h.safe.own, h.safe.once⟩

/-- One more process, forked for the intent its template was armed for. -/
theorem fork (h : s.HandOffOk) {f : ForkedProcess} {tid : Bytes} {t : Template}
    (ht : s.supervisor.templates tid = some t) (hrel : t.Released)
    (hf : f.runtimeId = t.runtimeId ∧ f.intent = s.armed t.runtimeId tid ∧
      f.targetGeneration = t.targetGeneration) :
    HandOffOk { s with forked := s.forked ++ [f] } := by
  obtain ⟨hrid, hintent, htarget⟩ := hf
  constructor
  case unknown => exact h.unknown
  case pending => exact h.pending
  case bound => exact h.bound
  case apart => exact h.apart
  case template => exact h.template
  case released => exact h.released
  case forked =>
    intro g hg
    rcases List.mem_append.1 hg with hg | hg
    · exact h.forked g hg
    · cases List.mem_singleton.1 hg
      rw [hintent]
      exact h.released tid t ht hrel.2.1 hrel.2.2.1
  case process =>
    intro rid r n hr hn g hg hmay hgrid hgtarget
    rcases List.mem_append.1 hg with hg | hg
    · exact h.process rid r n hr hn g hg hmay hgrid hgtarget
    · cases List.mem_singleton.1 hg
      have hown : t.runtimeId = rid := hrid.symm.trans hgrid
      rw [hintent, hown]
      exact h.armed rid r n hr hn tid t ht hown hrel (htarget.symm.trans hgtarget)
  case armed => exact h.armed
  case activated => exact h.activated
  case safe =>
    refine ⟨fun a ha => ?_, h.safe.once⟩
    obtain ⟨g, hg, hrest⟩ := h.safe.own a ha
    refine ⟨g, ?_, hrest⟩
    rw [List.getElem?_append_left (List.getElem?_eq_some_iff.1 hg).1]
    exact hg

/-- A process that will not report any more. -/
theorem silent (h : s.HandOffOk) {i : Nat} {f : ForkedProcess} (hf : s.forked[i]? = some f) :
    HandOffOk { s with forked := s.forked.set i { f with mayReport := false } } := by
  have hmem : f ∈ s.forked := List.mem_of_getElem? hf
  constructor
  case unknown => exact h.unknown
  case pending => exact h.pending
  case bound => exact h.bound
  case apart => exact h.apart
  case template => exact h.template
  case released => exact h.released
  case forked =>
    intro g hg
    rcases List.mem_or_eq_of_mem_set hg with hg | rfl
    · exact h.forked g hg
    · exact h.forked f hmem
  case process =>
    intro rid r n hr hn g hg hmay hgrid hgtarget
    rcases List.mem_or_eq_of_mem_set hg with hg | rfl
    · exact h.process rid r n hr hn g hg hmay hgrid hgtarget
    · cases hmay
  case armed => exact h.armed
  case activated => exact h.activated
  case safe =>
    refine ⟨fun a ha => ?_, h.safe.once⟩
    obtain ⟨g, hg, hrid, hrest⟩ := h.safe.own a ha
    by_cases hi : a.process = i
    · rw [hi, hf, Option.some.injEq] at hg
      subst hg
      refine ⟨{ f with mayReport := false }, ?_, hrid, hrest⟩
      have hlt := (List.getElem?_eq_some_iff.1 hf).1
      simp [hi, hlt]
    · exact ⟨g, by rw [List.getElem?_set_ne (Ne.symm hi)]; exact hg, hrid, hrest⟩

/-- The pending restore of a runtime ends. -/
theorem ends (h : s.HandOffOk) {rid : Bytes} (he : s.supervisor.RestoreEnds σ rid) :
    HandOffOk { s with supervisor := σ, current := Function.update s.current rid none } := by
  -- the other runtimes keep their intents
  have hother : ∀ k n, Function.update s.current rid none k = some n →
      k ≠ rid ∧ s.current k = some n := by
    intro k n hn
    rw [Function.update_apply] at hn
    split at hn
    · cases hn
    · exact ⟨‹_›, hn⟩
  -- a template that is still pending is another one
  have hstays : ∀ tid t', σ.templates tid = some t' → t'.restorePending = true →
      s.supervisor.templates tid = some t' := by
    intro tid t' ht' hpending
    rcases he.templates tid t' ht' with hsame | hnot
    · exact hsame
    · rw [hpending] at hnot
      cases hnot
  constructor
  case unknown =>
    intro k hk
    by_cases hkr : k = rid
    · rw [hkr]
      exact Function.update_self ..
    · show Function.update s.current rid none k = none
      rw [Function.update_of_ne hkr]
      exact h.unknown k ((he.others k hkr).symm.trans hk)
  case pending =>
    intro k r hr
    by_cases hkr : k = rid
    · subst hkr
      obtain ⟨r', hr', hnot⟩ := he.runtime
      cases hr'.symm.trans hr
      simp [hnot]
    · simpa [hkr] using h.pending k r ((he.others k hkr).symm.trans hr)
  case bound => exact fun k n hn => h.bound k n (hother k n hn).2
  case apart => exact fun k k' n hn hn' => h.apart k k' n (hother k n hn).2 (hother k' n hn').2
  case template =>
    intro k r n hr hn
    obtain ⟨hkr, hn⟩ := hother k n hn
    exact h.template k r n ((he.others k hkr).symm.trans hr) hn
  case released =>
    intro tid t ht hpending hreleased
    exact h.released tid t (hstays tid t ht hpending) hpending hreleased
  case forked => exact h.forked
  case process =>
    intro k r n hr hn
    obtain ⟨hkr, hn⟩ := hother k n hn
    exact h.process k r n ((he.others k hkr).symm.trans hr) hn
  case armed =>
    intro k r n hr hn tid t ht hown hrel
    obtain ⟨hkr, hn⟩ := hother k n hn
    exact h.armed k r n ((he.others k hkr).symm.trans hr) hn tid t (hstays tid t ht hrel.2.1)
      hown hrel
  case activated =>
    intro a ha n hn
    obtain ⟨hlt, hcurrent⟩ := h.activated a ha n hn
    exact ⟨hlt, fun k hk => hcurrent k (hother k n hk).2⟩
  case safe => exact ⟨h.safe.own, h.safe.once⟩

/-- A process forked for the pending intent becomes the active one. -/
theorem activate (h : s.HandOffOk) {i : Nat} {f : ForkedProcess} (hf : s.forked[i]? = some f)
    (hn : s.current f.runtimeId = some f.intent)
    (he : s.supervisor.RestoreEnds σ f.runtimeId) : (s.activate σ i f.runtimeId).HandOffOk := by
  have hends := h.ends he
  have hmem : f ∈ s.forked := List.mem_of_getElem? hf
  constructor
  case unknown => exact hends.unknown
  case pending => exact hends.pending
  case bound => exact hends.bound
  case apart => exact hends.apart
  case template => exact hends.template
  case released => exact hends.released
  case forked => exact hends.forked
  case process => exact hends.process
  case armed => exact hends.armed
  case activated =>
    intro a ha n hcur
    rcases List.mem_append.1 ha with ha | ha
    · exact hends.activated a ha n hcur
    · cases List.mem_singleton.1 ha
      refine ⟨h.bound f.runtimeId n hcur, fun k hk => ?_⟩
      change Function.update s.current f.runtimeId none k = some n at hk
      rw [Function.update_apply] at hk
      split at hk
      · cases hk
      · exact absurd (h.apart k f.runtimeId n hk hcur) ‹_›
  case safe =>
    constructor
    · intro a ha
      rcases List.mem_append.1 ha with ha | ha
      · exact h.safe.own a ha
      · cases List.mem_singleton.1 ha
        exact ⟨f, hf, rfl, hn, by simp [hn, h.forked f hmem]⟩
    · show (List.map (fun a : Activation => a.current) (s.activations ++ [_])).Nodup
      rw [List.map_append, List.nodup_append]
      refine ⟨h.safe.once, List.nodup_singleton _, ?_⟩
      intro c hc c' hc' heq
      obtain ⟨a, ha, rfl⟩ := List.mem_map.1 hc
      cases List.mem_singleton.1 hc'
      exact (h.activated a ha f.intent (heq.trans hn)).2 f.runtimeId hn

theorem step {s' : RestoreSystem} {e : RestoreEvent} (h : s.HandOffOk)
    (hs : Restrict Step Unshared s e s') : s'.HandOffOk := by
  obtain ⟨hnext, hcond⟩ := hs
  unfold Step next at hnext
  cases e with
  | begin freeze intent =>
      simp only at hnext
      split at hnext
      · cases hnext
        exact h
      · rename_i σ hbegin
        cases hnext
        -- a restore begins: nothing under way has its target generation
        obtain ⟨hforked, hothers⟩ := hcond ⟨σ, hbegin⟩
        exact h.begun hbegin hforked hothers
  | publish rid =>
      simp only at hnext
      split at hnext
      · cases hnext
        exact h
      · rename_i σ hpub
        cases hnext
        exact h.publish hpub
  | poll tid token =>
      simp only at hnext
      cases hpoll : s.supervisor.templatePoll tid token with
      | error err =>
          rw [hpoll] at hnext
          cases hnext
          exact h
      | ok p =>
          obtain ⟨action, σ⟩ := p
          rw [hpoll] at hnext
          obtain ⟨t, ht, ⟨rfl, rfl⟩ | ⟨hrel, rfl, rfl⟩ | ⟨rfl, rfl⟩⟩ :=
            RuntimeSupervisor.templatePoll_ok hpoll
          · cases hnext
            refine h.templates _ fun k t' ht' => ?_
            rw [Function.update_apply] at ht'
            split at ht'
            · cases ht'
            · exact ⟨t', ht', rfl, rfl, rfl, rfl, fun hr => hr⟩
          · cases hnext
            -- the process first, while the template is still released
            have hfork := h.fork ht hrel (f := {
              runtimeId := t.runtimeId
              templateId := tid
              intent := s.armed t.runtimeId tid
              targetGeneration := t.targetGeneration }) ⟨rfl, rfl, rfl⟩
            have htaken := hfork.templates (Function.update s.supervisor.templates tid
              (some { t with restoreInFlight := true })) (by
                intro k t' ht'
                rw [Function.update_apply] at ht'
                split at ht'
                · rename_i hk
                  cases ht'
                  exact ⟨t, hk ▸ ht, rfl, rfl, rfl, rfl, fun hr => (by cases hr.2.2.2)⟩
                · exact ⟨t', ht', rfl, rfl, rfl, rfl, fun hr => hr⟩)
            simpa [RestoreSystem.fork, ht, RuntimeSupervisor.setTemplate] using htaken
          · cases hnext
            exact h
  | ready i token pid pgid =>
      simp only at hnext
      split at hnext
      · cases hnext
      rename_i f hf
      split at hnext
      · rename_i hmay
        split at hnext
        · cases hnext
          exact h
        · rename_i σ hready
          cases hnext
          -- a report that is accepted comes from a process of the current intent
          obtain ⟨⟨r, hr, hpending, htarget⟩, hends⟩ :=
            RuntimeSupervisor.generationReady_ok hready
          obtain ⟨n, hn⟩ := Option.ne_none_iff_exists'.1 ((h.pending _ r hr).1 hpending)
          have hown := h.process _ r n hr hn f (List.mem_of_getElem? hf) hmay rfl htarget.symm
          exact h.activate hf (by rw [hown, hn]) hends
      · cases hnext
  | silent i =>
      simp only at hnext
      split at hnext
      · cases hnext
      · rename_i f hf
        cases hnext
        exact h.silent hf
  | abort rid =>
      simp only at hnext
      split at hnext
      · cases hnext
        exact h
      · rename_i pgid σ habort
        cases hnext
        exact h.ends (RuntimeSupervisor.abortRestore_ok habort)
  | perform op =>
      cases hnext
      exact h.frame (RuntimeSupervisor.restoreFrame_perform _ op)

end HandOffOk

/-- In every run in which no restore begins while somebody can still report its generation for an
earlier intent, a report is accepted only from the process forked for the pending intent, after
that intent was published, and from one process for each intent. -/
theorem single_hand_off {s : RestoreSystem} (h : Reaches Init (Restrict Step Unshared) s) :
    s.SingleHandOff :=
  (h.invariant (fun _ => HandOffOk.init) fun _ _ _ hok hs => hok.step hs).safe

/-! ## A late report -/

/-- A runtime and a template of it. -/
def setup : List RuntimeSupervisor.Operation := [
  .register {
    runtimeId := [114]
    branch := [109]
    rootPid := 1
    processGroupId := 1
    cooperative := true
    controlToken := [116] },
  .beginSnapshot { runtimeId := [114], boundaryKind := [] },
  .observe [114] [116] 1 1 [],
  .releaseForSnapshot (generatedId boundaryKind 1),
  .templateReady [114] [116] (generatedId templateKind 1) 2 2 1]

/-- Before any restore. -/
def prepared (ops : List RuntimeSupervisor.Operation) : RestoreSystem :=
  { supervisor := ops.foldl RuntimeSupervisor.perform {} }

theorem reaches_prepared (ops : List RuntimeSupervisor.Operation) :
    Reaches Init (Restrict Step Unshared) (prepared ops) := by
  induction ops using List.reverseRecOn with
  | nil => exact .start rfl
  | append_singleton ops op ih =>
      refine .step ih (e := .perform op) ⟨?_, trivial⟩
      simp [Step, next, prepared]

/-- Before any restore no template is armed. -/
theorem unarmed_prepared (ops : List RuntimeSupervisor.Operation) :
    ∀ tid t, (prepared ops).supervisor.templates tid = some t → t.restorePending = false := by
  induction ops using List.reverseRecOn with
  | nil => exact fun tid t ht => (by cases ht)
  | append_singleton ops op ih =>
      intro tid t ht
      simp only [prepared, List.foldl_append, List.foldl_cons, List.foldl_nil] at ht
      rcases (RuntimeSupervisor.restoreFrame_perform _ op).templates tid t ht with
        ⟨t₀, ht₀, hsame⟩ | hnot
      · rw [hsame.2.1]
        exact ih tid t₀ ht₀
      · exact hnot

/-- The restore of the template. -/
def restoreBegins : RestoreEvent :=
  .begin (fun _ => none) ⟨[114], generatedId templateKind 1, 2⟩

/-- A restore is aborted after the fork, and the same restore begins again; then the first process
reports. -/
def lateReport : List RestoreEvent := [
  restoreBegins,
  .publish [114],
  .poll (generatedId templateKind 1) [116],
  .abort [114],
  restoreBegins,
  .ready 0 [116] 3 3]

/-- The intents that were pending at the reports accepted, and those their processes were forked
for. -/
def accepted (s : RestoreSystem) : List (Option Nat × Option Nat) :=
  s.activations.map fun a => (a.current, s.forked[a.process]?.map (·.intent))

/-- A process that was forked for an aborted intent can be accepted for a later one. -/
theorem late_report_accepted : ¬ ∀ s, Reaches Init Step s → s.SingleHandOff := by
  intro h
  have hsome : (lateReport.foldlM next (prepared setup)).isSome = true := by decide +kernel
  obtain ⟨s, hs⟩ := Option.isSome_iff_exists.1 hsome
  have haccepted :
      (lateReport.foldlM next (prepared setup)).map accepted = some [(some 1, some 0)] := by
    decide +kernel
  rw [hs, Option.map_some, Option.some.injEq] at haccepted
  have hreach : Reaches Init Step s :=
    Reaches.run lateReport (fun _ _ _ _ h => h) (reaches_prepared setup).of_restrict hs
  obtain ⟨a, ha, hpair⟩ := List.map_eq_singleton_iff.1 haccepted
  obtain ⟨f, hf, -, hcurrent, -⟩ := (h s hreach).own a (by simp [ha])
  simp [hcurrent, hf] at hpair
  omega

/-- The end of a restore that is handed over in time. -/
def handedOver : List RestoreEvent := [
  .publish [114],
  .poll (generatedId templateKind 1) [116],
  .ready 0 [116] 3 3]

/-- The first restore of a template is handed over to the process forked for it. -/
theorem single_hand_off_handedOver : ∃ s : RestoreSystem,
    s.accepted = [(some 0, some 0)] ∧ s.SingleHandOff := by
  have hsome : (next (prepared setup) restoreBegins).isSome = true := by decide +kernel
  obtain ⟨s, hs⟩ := Option.isSome_iff_exists.1 hsome
  have hsome' :
      (((prepared setup).next restoreBegins).bind (handedOver.foldlM next)).isSome = true := by
    decide +kernel
  rw [hs, Option.bind_some] at hsome'
  obtain ⟨s', hs'⟩ := Option.isSome_iff_exists.1 hsome'
  have haccepted : (((prepared setup).next restoreBegins).bind
      (handedOver.foldlM next)).map accepted = some [(some 0, some 0)] := by
    decide +kernel
  rw [hs, Option.bind_some, hs', Option.map_some, Option.some.injEq] at haccepted
  have hbegin : Reaches Init (Restrict Step Unshared) s := by
    refine .step (reaches_prepared setup) ⟨hs, fun _ => ⟨fun f hf => (by cases hf), ?_⟩⟩
    intro tid t ht _ _ hreleased
    exact absurd hreleased.2.1 (by simp [unarmed_prepared setup tid t ht])
  refine ⟨s', haccepted, single_hand_off (Reaches.run handedOver ?_ hbegin hs')⟩
  intro e he s s' hnext
  refine ⟨hnext, ?_⟩
  simp only [handedOver, List.mem_cons, List.not_mem_nil, or_false] at he
  obtain rfl | rfl | rfl := he <;> trivial

end RestoreSystem
end ContextFS
