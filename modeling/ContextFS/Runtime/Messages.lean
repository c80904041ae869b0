import ContextFS.Runtime.Supervisor

/-!
# Messages to the supervisor

What control-socket threads do on their own, beside the one snapshot or restore that holds the
publication gate: registrations, boundaries and the ends of their waits, templates that report
or poll, restored processes that report, drops.
-/

namespace ContextFS

inductive RuntimeMessage
  | register (request : RuntimeCreateRequest)
  | observe (rid token : Bytes) (pid : Int) (generation : UInt64) (kind : Bytes)
  | endWait (bid : Bytes)
  | templateReady (rid token tid : Bytes) (pid pgid : Int) (generation : UInt64)
  | poll (tid token : Bytes)
  | generationReady (rid token : Bytes) (pid pgid : Int) (generation : UInt64)
  | drop (tid : Bytes)

namespace RuntimeSupervisor

/-- The supervisor after an operation, which changes nothing when it fails. -/
def after (σ : RuntimeSupervisor) (r : Except String RuntimeSupervisor) : RuntimeSupervisor :=
  match r with
  | .ok σ' => σ'
  | .error _ => σ

@[simp] theorem after_ok (σ σ' : RuntimeSupervisor) : σ.after (.ok σ') = σ' := rfl

@[simp] theorem after_error (σ : RuntimeSupervisor) (e : String) : σ.after (.error e) = σ := rfl

/-- The supervisor after `register_runtime`: a generated id that turns out to be taken is used
up all the same. -/
def registered (σ : RuntimeSupervisor) (request : RuntimeCreateRequest) : RuntimeSupervisor :=
  match σ.registerRuntime request with
  | .ok σ' => σ'
  | .error _ =>
      if request.runtimeId = [] then { σ with runtimeCounter := σ.runtimeCounter + 1 } else σ

/-- What a message does. -/
def deliver (σ : RuntimeSupervisor) : RuntimeMessage → RuntimeSupervisor
  | .register request => σ.registered request
  | .observe rid token pid generation kind =>
      σ.after ((σ.observeBoundary rid token pid generation kind).map (·.2))
  | .endWait bid => (σ.endBoundaryWait bid).2
  | .templateReady rid token tid pid pgid generation =>
      σ.after (σ.templateReady rid token tid pid pgid generation)
  | .poll tid token => σ.after ((σ.templatePoll tid token).map (·.2))
  | .generationReady rid token pid pgid generation =>
      σ.after (σ.generationReady rid token pid pgid generation)
  | .drop tid => σ.after (σ.dropTemplate tid)

/-- An operation that fails or leads to `after f`. -/
theorem after_cases {σ : RuntimeSupervisor} {r : Except String RuntimeSupervisor}
    {P : RuntimeSupervisor → Prop} (hσ : P σ) (h : ∀ σ', r = .ok σ' → P σ') : P (σ.after r) := by
  cases r with
  | error e => exact hσ
  | ok σ' => exact h σ' rfl

/-- A registration that fails leaves everything but the counter of the runtime ids. -/
theorem registered_cases {σ : RuntimeSupervisor} {request : RuntimeCreateRequest}
    {P : RuntimeSupervisor → Prop} (hσ : ∀ n, P { σ with runtimeCounter := n })
    (h : ∀ σ', σ.registerRuntime request = .ok σ' → P σ') : P (σ.registered request) := by
  unfold registered
  split
  · rename_i σ' hrun
    exact h σ' hrun
  · split
    · exact hσ _
    · exact hσ σ.runtimeCounter

theorem after_map_cases {α : Type} {σ : RuntimeSupervisor}
    {r : Except String (α × RuntimeSupervisor)} {P : RuntimeSupervisor → Prop} (hσ : P σ)
    (h : ∀ a σ', r = .ok (a, σ') → P σ') : P (σ.after (r.map (·.2))) := by
  cases r with
  | error e => exact hσ
  | ok p => exact h p.1 p.2 rfl

/-! ## What an operation leaves alone -/

@[simp] theorem setRuntime_runtimes (σ : RuntimeSupervisor) (rid : Bytes) (r : Runtime) (k : Bytes) :
    (σ.setRuntime rid r).runtimes k = if k = rid then some r else σ.runtimes k :=
  Function.update_apply ..

@[simp] theorem setRuntime_boundaries (σ : RuntimeSupervisor) (rid : Bytes) (r : Runtime) :
    (σ.setRuntime rid r).boundaries = σ.boundaries := rfl

@[simp] theorem setRuntime_templates (σ : RuntimeSupervisor) (rid : Bytes) (r : Runtime) :
    (σ.setRuntime rid r).templates = σ.templates := rfl

@[simp] theorem setBoundary_boundaries (σ : RuntimeSupervisor) (bid : Bytes) (b : Boundary)
    (k : Bytes) :
    (σ.setBoundary bid b).boundaries k = if k = bid then some b else σ.boundaries k :=
  Function.update_apply ..

@[simp] theorem setBoundary_runtimes (σ : RuntimeSupervisor) (bid : Bytes) (b : Boundary) :
    (σ.setBoundary bid b).runtimes = σ.runtimes := rfl

@[simp] theorem setBoundary_templates (σ : RuntimeSupervisor) (bid : Bytes) (b : Boundary) :
    (σ.setBoundary bid b).templates = σ.templates := rfl

@[simp] theorem setTemplate_templates (σ : RuntimeSupervisor) (tid : Bytes) (t : Template)
    (k : Bytes) :
    (σ.setTemplate tid t).templates k = if k = tid then some t else σ.templates k :=
  Function.update_apply ..

@[simp] theorem setTemplate_runtimes (σ : RuntimeSupervisor) (tid : Bytes) (t : Template) :
    (σ.setTemplate tid t).runtimes = σ.runtimes := rfl

@[simp] theorem setTemplate_boundaries (σ : RuntimeSupervisor) (tid : Bytes) (t : Template) :
    (σ.setTemplate tid t).boundaries = σ.boundaries := rfl

@[simp] theorem modifyTemplate_templates (σ : RuntimeSupervisor) (tid : Bytes)
    (f : Template → Template) (k : Bytes) :
    (σ.modifyTemplate tid f).templates k =
      if k = tid then (σ.templates tid).map f else σ.templates k :=
  Function.update_apply ..

@[simp] theorem modifyTemplate_runtimes (σ : RuntimeSupervisor) (tid : Bytes)
    (f : Template → Template) : (σ.modifyTemplate tid f).runtimes = σ.runtimes := rfl

@[simp] theorem modifyTemplate_boundaries (σ : RuntimeSupervisor) (tid : Bytes)
    (f : Template → Template) : (σ.modifyTemplate tid f).boundaries = σ.boundaries := rfl

end RuntimeSupervisor
end ContextFS
