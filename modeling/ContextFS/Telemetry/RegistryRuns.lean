import ContextFS.Telemetry.Registry

/-!
# What a registry keeps

Processors are started before sources and stopped after them.  So while any source can deliver an
event, every processor the table shows as started is running, and a processor is stopped only when
no event is on its way to it.
-/

namespace ContextFS

open Lib

/-- A delivery has the last answer, and has kept the verdicts of its source and of all answers. -/
structure Delivery.Sound (d : Delivery) : Prop where
  kept : d.verdicts = d.emitted.verdict :: d.answers.map (·.verdict)
  last : d.event = d.answers.getLastD d.emitted
  done : d.drained = true → d.todo = []

/-- What the drain gets for a delivery. -/
def Delivery.result (d : Delivery) : TelemetryEvent :=
  { d.event with verdict := mergeVerdicts d.verdicts }

namespace TelemetryRegistry

variable {r r' : TelemetryRegistry}

/-! ## The table -/

@[simp]
theorem setPhase_states (r : TelemetryRegistry) (b : Nat) (phase : Phase) :
    (r.setPhase b phase).states = r.states := rfl

@[simp]
theorem setPhase_self (r : TelemetryRegistry) (b : Nat) (phase : Phase) :
    (r.setPhase b phase).phase b = phase := if_pos rfl

theorem setPhase_of_ne (r : TelemetryRegistry) {b c : Nat} (phase : Phase) (h : c ≠ b) :
    (r.setPhase b phase).phase c = r.phase c := if_neg h

theorem states_setFlag (r : TelemetryRegistry) (b c : Nat) (started : Bool) (status : String) :
    (r.setFlag b started status).states[c]? = (r.states[c]?).map fun s =>
      if c = b then { s with started := started, status := status } else s := by
  by_cases h : c = b
  · subst h
    simp [setFlag]
  · have hne : b ≠ c := fun heq => h heq.symm
    simp [setFlag, h, hne]

@[simp]
theorem setFlag_isSource (r : TelemetryRegistry) (b c : Nat) (started : Bool) (status : String) :
    (r.setFlag b started status).isSource c = r.isSource c := by
  unfold isSource
  rw [states_setFlag]
  cases r.states[c]? with
  | none => rfl
  | some s =>
      by_cases h : c = b
      · simp [h, BackendState.isSource]
      · simp [h]

theorem setFlag_startedFlag_self (r : TelemetryRegistry) {b : Nat} (started : Bool)
    (status : String) (h : b < r.states.length) :
    (r.setFlag b started status).startedFlag b = started := by
  unfold startedFlag
  rw [states_setFlag, List.getElem?_eq_getElem h]
  simp

theorem setFlag_startedFlag_of_ne (r : TelemetryRegistry) {b c : Nat} (started : Bool)
    (status : String) (h : c ≠ b) :
    (r.setFlag b started status).startedFlag c = r.startedFlag c := by
  unfold startedFlag
  rw [states_setFlag]
  cases r.states[c]? with
  | none => rfl
  | some s => simp [h]

@[simp]
theorem setFlag_length (r : TelemetryRegistry) (b : Nat) (started : Bool) (status : String) :
    (r.setFlag b started status).states.length = r.states.length := List.length_modify ..

theorem mem_configuredSnapshot {b : Nat} {source : Bool} :
    b ∈ r.configuredSnapshot source ↔ b < r.states.length ∧ r.isSource b = source := by
  simp [configuredSnapshot]

theorem nodup_configuredSnapshot (r : TelemetryRegistry) (source : Bool) :
    (r.configuredSnapshot source).Nodup := List.nodup_range.filter _

/-- Which backends are sources decides the orders. -/
theorem configuredSnapshot_congr (hlen : r'.states.length = r.states.length)
    (hsource : ∀ b, r'.isSource b = r.isSource b) (source : Bool) :
    r'.configuredSnapshot source = r.configuredSnapshot source := by
  simp [configuredSnapshot, hlen, hsource]

theorem startOrder_congr (hlen : r'.states.length = r.states.length)
    (hsource : ∀ b, r'.isSource b = r.isSource b) : r'.startOrder = r.startOrder := by
  rw [startOrder, startOrder, configuredSnapshot_congr hlen hsource,
    configuredSnapshot_congr hlen hsource]

theorem mem_startOrder {b : Nat} : b ∈ r.startOrder ↔ b < r.states.length := by
  rw [startOrder, List.mem_append, mem_configuredSnapshot, mem_configuredSnapshot]
  cases r.isSource b <;> simp

theorem mem_stopOrder {b : Nat} : b ∈ r.stopOrder ↔ b < r.states.length := by
  rw [stopOrder, List.mem_append, mem_configuredSnapshot, mem_configuredSnapshot]
  cases r.isSource b <;> simp

theorem nodup_startOrder (r : TelemetryRegistry) : r.startOrder.Nodup := by
  refine List.Nodup.append (nodup_configuredSnapshot r _) (nodup_configuredSnapshot r _) ?_
  intro b hb hb'
  have hfalse := (mem_configuredSnapshot.1 hb).2
  rw [(mem_configuredSnapshot.1 hb').2] at hfalse
  cases hfalse

theorem nodup_stopOrder (r : TelemetryRegistry) : r.stopOrder.Nodup := by
  refine List.Nodup.append (nodup_configuredSnapshot r _) (nodup_configuredSnapshot r _) ?_
  intro b hb hb'
  have hfalse := (mem_configuredSnapshot.1 hb).2
  rw [(mem_configuredSnapshot.1 hb').2] at hfalse
  cases hfalse

theorem lt_of_isSource {b : Nat} (h : r.isSource b = true) : b < r.states.length := by
  unfold isSource at h
  split at h
  · rename_i s hs
    exact (List.getElem?_eq_some_iff.1 hs).1
  · cases h

theorem lt_of_startedFlag {b : Nat} (h : r.startedFlag b = true) : b < r.states.length := by
  unfold startedFlag at h
  split at h
  · rename_i s hs
    exact (List.getElem?_eq_some_iff.1 hs).1
  · cases h

theorem not_source_of_mem {b : Nat} (h : b ∈ r.configuredSnapshot false) : r.isSource b ≠ true := by
  rw [(mem_configuredSnapshot.1 h).2]
  exact Bool.false_ne_true

/-- While a processor is visited by `start_all`, every source is still to come. -/
theorem sources_to_come {b c : Nat} {todo : List Nat} (h : b :: todo <:+ r.startOrder)
    (hb : r.isSource b = false) (hc : r.isSource c = true) : c ∈ todo := by
  have hsource : c ∈ r.configuredSnapshot true := mem_configuredSnapshot.2 ⟨lt_of_isSource hc, hc⟩
  have hnone : b ∉ r.configuredSnapshot true := by
    intro hmem
    rw [(mem_configuredSnapshot.1 hmem).2] at hb
    cases hb
  obtain ⟨front, hfront⟩ := h
  rcases List.append_eq_append_iff.1 hfront with ⟨mid, hproc, htodo⟩ | ⟨mid, hpre, hsrc⟩
  · cases mid with
    | nil =>
        rw [List.nil_append] at htodo
        exact absurd (htodo ▸ List.mem_cons_self) hnone
    | cons b' mid =>
        obtain ⟨rfl, rfl⟩ := List.cons.inj htodo
        exact List.mem_append_right _ hsource
  · exact absurd (hsrc ▸ List.mem_append_right _ List.mem_cons_self) hnone

/-- While a processor is visited by `stop_all`, every source has been. -/
theorem sources_gone {b c : Nat} {todo : List Nat} (h : b :: todo <:+ r.stopOrder)
    (hb : r.isSource b = false) (hc : r.isSource c = true) : c ∉ b :: todo := by
  have hnone : b ∉ r.configuredSnapshot true := by
    intro hmem
    rw [(mem_configuredSnapshot.1 hmem).2] at hb
    cases hb
  intro hmem
  obtain ⟨front, hfront⟩ := h
  rcases List.append_eq_append_iff.1 hfront with ⟨mid, hsrc, htodo⟩ | ⟨mid, hpre, hproc⟩
  · cases mid with
    | nil =>
        rw [List.nil_append] at htodo
        exact not_source_of_mem (htodo ▸ hmem) hc
    | cons b' mid =>
        obtain ⟨rfl, -⟩ := List.cons.inj htodo
        exact absurd (hsrc ▸ List.mem_append_right _ List.mem_cons_self) hnone
  · exact not_source_of_mem (hproc ▸ List.mem_append_right _ hmem) hc

/-! ## Where every backend is -/

/-- Not running, and shown so. -/
def Off (r : TelemetryRegistry) (b : Nat) : Prop := r.phase b = .off ∧ r.startedFlag b = false

/-- The table shows what the backend is doing. -/
def Agrees (r : TelemetryRegistry) (b : Nat) : Prop :=
  r.phase b = .on ∧ r.startedFlag b = true ∨ r.Off b

/-- `start_all` with `todo` still before it. -/
structure Starts (r : TelemetryRegistry) (todo : List Nat) : Prop where
  started : r.started = true
  order : todo <:+ r.startOrder
  rest : ∀ c, (c ∈ todo → r.Off c) ∧ (c ∉ todo → r.Agrees c)

/-- `start_all` at backend `b`. -/
structure StartsAt (r : TelemetryRegistry) (b : Nat) (todo : List Nat) : Prop where
  started : r.started = true
  order : b :: todo <:+ r.startOrder
  rest : ∀ c, c ≠ b → (c ∈ todo → r.Off c) ∧ (c ∉ todo → r.Agrees c)

/-- `stop_all` with `todo` still before it. -/
structure Stops (r : TelemetryRegistry) (todo : List Nat) : Prop where
  started : r.started = true
  order : todo <:+ r.stopOrder
  rest : ∀ c, (c ∈ todo → r.Agrees c) ∧ (c ∉ todo → r.Off c)

/-- `stop_all` at backend `b`. -/
structure StopsAt (r : TelemetryRegistry) (b : Nat) (todo : List Nat) : Prop where
  started : r.started = true
  order : b :: todo <:+ r.stopOrder
  rest : ∀ c, c ≠ b → (c ∈ todo → r.Agrees c) ∧ (c ∉ todo → r.Off c)

/-- The backends are where the thread that starts and stops them has left them. -/
def Fits (r : TelemetryRegistry) : Prop :=
  match r.thread with
  | .idle => ∀ c, if r.started then r.Agrees c else r.Off c
  | .starting todo => r.Starts todo
  | .callingStart b todo =>
      r.StartsAt b todo ∧ r.phase b = .starting ∧ r.startedFlag b = true
  | .startReturned b ok todo =>
      r.StartsAt b todo ∧ r.phase b = (if ok then .on else .failed) ∧ r.startedFlag b = true
  | .undoing b todo => r.StartsAt b todo ∧ r.phase b = .stopping ∧ r.startedFlag b = false
  | .stopping todo => r.Stops todo
  | .callingStop b todo => r.StopsAt b todo ∧ r.phase b = .stopping ∧ r.startedFlag b = true
  | .stopReturned b todo => r.StopsAt b todo ∧ r.phase b = .off ∧ r.startedFlag b = true

/-- Two registries that differ at one backend only. -/
structure SameBut (b : Nat) (r r' : TelemetryRegistry) : Prop where
  started : r'.started = r.started
  length : r'.states.length = r.states.length
  source : ∀ c, r'.isSource c = r.isSource c
  phase : ∀ c, c ≠ b → r'.phase c = r.phase c
  flag : ∀ c, c ≠ b → r'.startedFlag c = r.startedFlag c

theorem sameBut_setPhase (r : TelemetryRegistry) (b : Nat) (phase : Phase)
    (thread : RegistryThread) : SameBut b r { r.setPhase b phase with thread := thread } :=
  ⟨rfl, rfl, fun _ => rfl, fun _ hc => setPhase_of_ne r phase hc, fun _ _ => rfl⟩

theorem sameBut_setFlag (r : TelemetryRegistry) (b : Nat) (started : Bool) (status : String)
    (thread : RegistryThread) :
    SameBut b r { r.setFlag b started status with thread := thread } :=
  ⟨rfl, setFlag_length .., fun c => setFlag_isSource r b c started status, fun _ _ => rfl,
    fun _ hc => setFlag_startedFlag_of_ne r started status hc⟩

theorem sameBut_setFlag_setPhase (r : TelemetryRegistry) (b : Nat) (started : Bool)
    (status : String) (phase : Phase) (thread : RegistryThread) :
    SameBut b r { (r.setFlag b started status).setPhase b phase with thread := thread } :=
  ⟨rfl, setFlag_length .., fun c => setFlag_isSource r b c started status,
    fun _ hc => setPhase_of_ne (r.setFlag b started status) phase hc,
    fun _ hc => setFlag_startedFlag_of_ne r started status hc⟩

namespace SameBut

variable {b c : Nat} {todo : List Nat}

theorem off (h : SameBut b r r') (hc : c ≠ b) (hoff : r.Off c) : r'.Off c :=
  ⟨(h.phase c hc).trans hoff.1, (h.flag c hc).trans hoff.2⟩

theorem agrees (h : SameBut b r r') (hc : c ≠ b) (hagrees : r.Agrees c) : r'.Agrees c := by
  rcases hagrees with ⟨hon, hflag⟩ | hoff
  · exact Or.inl ⟨(h.phase c hc).trans hon, (h.flag c hc).trans hflag⟩
  · exact Or.inr (h.off hc hoff)

theorem startOrder_eq (h : SameBut b r r') : r'.startOrder = r.startOrder :=
  startOrder_congr h.length h.source

theorem stopOrder_eq (h : SameBut b r r') : r'.stopOrder = r.stopOrder := by
  rw [stopOrder, stopOrder, configuredSnapshot_congr h.length h.source,
    configuredSnapshot_congr h.length h.source]

theorem startsAt (h : SameBut b r r') (hat : r.StartsAt b todo) : r'.StartsAt b todo :=
  ⟨h.started.trans hat.started, h.startOrder_eq ▸ hat.order, fun c hc =>
    ⟨fun hmem => h.off hc ((hat.rest c hc).1 hmem),
      fun hmem => h.agrees hc ((hat.rest c hc).2 hmem)⟩⟩

theorem stopsAt (h : SameBut b r r') (hat : r.StopsAt b todo) : r'.StopsAt b todo :=
  ⟨h.started.trans hat.started, h.stopOrder_eq ▸ hat.order, fun c hc =>
    ⟨fun hmem => h.agrees hc ((hat.rest c hc).1 hmem),
      fun hmem => h.off hc ((hat.rest c hc).2 hmem)⟩⟩

end SameBut

section Walk

variable {b c : Nat} {todo : List Nat}

theorem Starts.next (h : r.Starts (b :: todo)) : r.StartsAt b todo ∧ r.Off b := by
  refine ⟨⟨h.started, h.order, fun c hc => ⟨fun hmem => ?_, fun hmem => ?_⟩⟩,
    (h.rest b).1 List.mem_cons_self⟩
  · exact (h.rest c).1 (List.mem_cons_of_mem _ hmem)
  · exact (h.rest c).2 fun hin => (List.mem_cons.1 hin).elim hc hmem

theorem StartsAt.done (h : r.StartsAt b todo) (hb : r.Agrees b) : r.Starts todo := by
  have hnodup : (b :: todo).Nodup := (nodup_startOrder r).sublist h.order.sublist
  refine ⟨h.started, (List.suffix_cons b todo).trans h.order,
    fun c => ⟨fun hmem => ?_, fun hmem => ?_⟩⟩
  · exact (h.rest c (ne_of_mem_of_not_mem hmem (List.nodup_cons.1 hnodup).1)).1 hmem
  · by_cases hc : c = b
    · exact hc ▸ hb
    · exact (h.rest c hc).2 hmem

theorem Stops.next (h : r.Stops (b :: todo)) : r.StopsAt b todo ∧ r.Agrees b := by
  refine ⟨⟨h.started, h.order, fun c hc => ⟨fun hmem => ?_, fun hmem => ?_⟩⟩,
    (h.rest b).1 List.mem_cons_self⟩
  · exact (h.rest c).1 (List.mem_cons_of_mem _ hmem)
  · exact (h.rest c).2 fun hin => (List.mem_cons.1 hin).elim hc hmem

theorem StopsAt.done (h : r.StopsAt b todo) (hb : r.Off b) : r.Stops todo := by
  have hnodup : (b :: todo).Nodup := (nodup_stopOrder r).sublist h.order.sublist
  refine ⟨h.started, (List.suffix_cons b todo).trans h.order,
    fun c => ⟨fun hmem => ?_, fun hmem => ?_⟩⟩
  · exact (h.rest c (ne_of_mem_of_not_mem hmem (List.nodup_cons.1 hnodup).1)).1 hmem
  · by_cases hc : c = b
    · exact hc ▸ hb
    · exact (h.rest c hc).2 hmem

/-- While `start_all` is at a processor no source is running. -/
theorem StartsAt.source_off (h : r.StartsAt b todo) (hb : r.isSource b = false)
    (hc : r.isSource c = true) : r.Off c := by
  have hne : c ≠ b := by
    rintro rfl
    rw [hb] at hc
    cases hc
  exact (h.rest c hne).1 (sources_to_come h.order hb hc)

/-- While `stop_all` is at a processor no source is running. -/
theorem StopsAt.source_off (h : r.StopsAt b todo) (hb : r.isSource b = false)
    (hc : r.isSource c = true) : r.Off c := by
  have hnone := sources_gone h.order hb hc
  exact (h.rest c (List.ne_of_not_mem_cons hnone)).2 (List.not_mem_of_not_mem_cons hnone)

theorem lt_of_startsAt (h : r.StartsAt b todo) : b < r.states.length :=
  mem_startOrder.1 (h.order.subset List.mem_cons_self)

theorem lt_of_stopsAt (h : r.StopsAt b todo) : b < r.states.length :=
  mem_stopOrder.1 (h.order.subset List.mem_cons_self)

theorem Agrees.on_of_flag (h : r.Agrees b) (hflag : r.startedFlag b = true) : r.phase b = .on := by
  rcases h with ⟨hon, -⟩ | ⟨-, hoff⟩
  · exact hon
  · rw [hoff] at hflag
    cases hflag

theorem Off.not_flag (h : r.Off b) (hflag : r.startedFlag b = true) : False := by
  rw [h.2] at hflag
  cases hflag

end Walk

/-- As long as a source can call back, a processor that is shown as started is running. -/
theorem Fits.processor_on (h : r.Fits) {s p : Nat} (hs : r.isSource s = true)
    (hphase : r.phase s ≠ .off) (hp : r.isSource p = false) (hflag : r.startedFlag p = true) :
    r.phase p = .on := by
  have hstart {b : Nat} {todo : List Nat} (hat : r.StartsAt b todo) : r.phase p = .on := by
    by_cases hpb : p = b
    · exact absurd (hat.source_off (hpb ▸ hp) hs).1 hphase
    · by_cases hmem : p ∈ todo
      · exact (((hat.rest p hpb).1 hmem).not_flag hflag).elim
      · exact ((hat.rest p hpb).2 hmem).on_of_flag hflag
  have hstop {b : Nat} {todo : List Nat} (hat : r.StopsAt b todo) : r.phase p = .on := by
    by_cases hpb : p = b
    · exact absurd (hat.source_off (hpb ▸ hp) hs).1 hphase
    · by_cases hmem : p ∈ todo
      · exact ((hat.rest p hpb).1 hmem).on_of_flag hflag
      · exact (((hat.rest p hpb).2 hmem).not_flag hflag).elim
  unfold Fits at h
  split at h
  · have hidle := h p
    split at hidle
    · exact hidle.on_of_flag hflag
    · exact (hidle.not_flag hflag).elim
  · rename_i todo _
    by_cases hmem : p ∈ todo
    · exact (((h.rest p).1 hmem).not_flag hflag).elim
    · exact ((h.rest p).2 hmem).on_of_flag hflag
  · exact hstart h.1
  · exact hstart h.1
  · exact hstart h.1
  · rename_i todo _
    by_cases hmem : p ∈ todo
    · exact ((h.rest p).1 hmem).on_of_flag hflag
    · exact (((h.rest p).2 hmem).not_flag hflag).elim
  · exact hstop h.1
  · exact hstop h.1

/-! ## Deliveries -/

/-- An event under way comes from a source that may still call back, and goes to processors that
are running. -/
def Flows (r : TelemetryRegistry) : Prop :=
  ∀ d ∈ r.deliveries, d.drained = false →
    r.isSource d.source = true ∧ r.phase d.source ≠ .off ∧
      ∀ p ∈ d.todo, r.isSource p = false ∧ r.phase p = .on

/-- The drain has every finished delivery once. -/
structure Drained (r : TelemetryRegistry) : Prop where
  once : (r.output.map Prod.fst).Nodup
  iff : ∀ i e, (i, e) ∈ r.output ↔
    ∃ d, r.deliveries[i]? = some d ∧ d.drained = true ∧ e = d.result

/-- All of it. -/
structure Ok (r : TelemetryRegistry) : Prop where
  fits : r.Fits
  flows : r.Flows
  sound : ∀ d ∈ r.deliveries, d.Sound
  drained : r.Drained
  attempted : r.started = true → r.startAttempted = true
  walking : r.thread ≠ .idle → r.started = true

theorem ok_empty : Ok {} where
  fits := fun c => ⟨rfl, rfl⟩
  flows := fun d hd => by cases hd
  sound := fun d hd => by cases hd
  drained := by
    refine ⟨List.nodup_nil, fun i e => ⟨fun h => ?_, ?_⟩⟩
    · cases h
    · rintro ⟨d, hd, -⟩
      cases hd
  attempted := fun h => by cases h
  walking := fun h => absurd rfl h

/-- Deliveries are nothing to where the backends are. -/
theorem Fits.of_same (h : r.Fits) (hthread : r'.thread = r.thread)
    (hstarted : r'.started = r.started) (hstates : r'.states = r.states)
    (hphase : r'.phase = r.phase) : r'.Fits := by
  have hflag (c : Nat) : r'.startedFlag c = r.startedFlag c := by
    unfold startedFlag
    rw [hstates]
  have hsource (c : Nat) : r'.isSource c = r.isSource c := by
    unfold isSource
    rw [hstates]
  have hsame (b : Nat) : SameBut b r r' :=
    ⟨hstarted, by rw [hstates], hsource, fun c _ => by rw [hphase], fun c _ => hflag c⟩
  have hoff {c : Nat} (hc : r.Off c) : r'.Off c := (hsame (c + 1)).off (Nat.ne_of_lt c.lt_succ_self) hc
  have hagrees {c : Nat} (hc : r.Agrees c) : r'.Agrees c :=
    (hsame (c + 1)).agrees (Nat.ne_of_lt c.lt_succ_self) hc
  unfold Fits at h ⊢
  rw [hthread]
  cases hat : r.thread with
  | idle =>
      simp only [hat] at h ⊢
      intro c
      rw [hstarted]
      have hc := h c
      split at hc
      · rename_i hyes
        rw [if_pos hyes]
        exact hagrees hc
      · rename_i hno
        rw [if_neg hno]
        exact hoff hc
  | starting todo =>
      simp only [hat] at h ⊢
      exact ⟨hstarted.trans h.started, (hsame 0).startOrder_eq ▸ h.order, fun c =>
        ⟨fun hm => hoff ((h.rest c).1 hm), fun hm => hagrees ((h.rest c).2 hm)⟩⟩
  | callingStart b todo =>
      simp only [hat] at h ⊢
      exact ⟨(hsame b).startsAt h.1, by rw [hphase]; exact h.2.1, (hflag b).trans h.2.2⟩
  | startReturned b ok todo =>
      simp only [hat] at h ⊢
      exact ⟨(hsame b).startsAt h.1, by rw [hphase]; exact h.2.1, (hflag b).trans h.2.2⟩
  | undoing b todo =>
      simp only [hat] at h ⊢
      exact ⟨(hsame b).startsAt h.1, by rw [hphase]; exact h.2.1, (hflag b).trans h.2.2⟩
  | stopping todo =>
      simp only [hat] at h ⊢
      exact ⟨hstarted.trans h.started, (hsame 0).stopOrder_eq ▸ h.order, fun c =>
        ⟨fun hm => hagrees ((h.rest c).1 hm), fun hm => hoff ((h.rest c).2 hm)⟩⟩
  | callingStop b todo =>
      simp only [hat] at h ⊢
      exact ⟨(hsame b).stopsAt h.1, by rw [hphase]; exact h.2.1, (hflag b).trans h.2.2⟩
  | stopReturned b todo =>
      simp only [hat] at h ⊢
      exact ⟨(hsame b).stopsAt h.1, by rw [hphase]; exact h.2.1, (hflag b).trans h.2.2⟩

/-- Steps that move backends about but touch no delivery. -/
theorem Flows.move {b : Nat} (h : r.Flows) (hsame : SameBut b r r')
    (hdeliveries : r'.deliveries = r.deliveries)
    (hoff : r'.phase b = .off → r.phase b = .off ∨ r.quiet b = true)
    (hon : r.phase b = .on → r'.phase b = .on ∨ r.isSource b = true ∨
      ∀ c, r.isSource c = true → r.phase c = .off) : r'.Flows := by
  intro d hd hopen
  rw [hdeliveries] at hd
  obtain ⟨hsource, hphase, htodo⟩ := h d hd hopen
  refine ⟨(hsame.source _).trans hsource, ?_, fun p hp => ?_⟩
  · by_cases hb : d.source = b
    · intro hgone
      rcases hoff (hb ▸ hgone) with hwas | hquiet
      · exact hphase (hb ▸ hwas)
      · have hnot := List.all_eq_true.1 hquiet d hd
        simp [hb, hopen] at hnot
    · rw [hsame.phase _ hb]
      exact hphase
  · obtain ⟨hproc, hrunning⟩ := htodo p hp
    refine ⟨(hsame.source _).trans hproc, ?_⟩
    by_cases hb : p = b
    · subst hb
      rcases hon hrunning with hstill | hsrc | hnone
      · exact hstill
      · rw [hproc] at hsrc
        cases hsrc
      · exact absurd (hnone _ hsource) hphase
    · rw [hsame.phase _ hb]
      exact hrunning

/-- A delivery under way goes on. -/
theorem Drained.set (h : r.Drained) {i : Nat} {d d' : Delivery} (hd : r.deliveries[i]? = some d)
    (hopen : d.drained = false) (hopen' : d'.drained = false) :
    Drained { r with deliveries := r.deliveries.set i d' } := by
  refine ⟨h.once, fun j e => ?_⟩
  rw [h.iff]
  show _ ↔ ∃ d₁, (r.deliveries.set i d')[j]? = some d₁ ∧ _
  rw [List.getElem?_set]
  by_cases hj : i = j
  · subst hj
    obtain ⟨hlt, hget⟩ := List.getElem?_eq_some_iff.1 hd
    simp [hlt, hget, hopen, hopen']
  · simp [hj]

/-- A new delivery is under way. -/
theorem Drained.append (h : r.Drained) {d : Delivery} (hopen : d.drained = false) :
    Drained { r with deliveries := r.deliveries ++ [d] } := by
  refine ⟨h.once, fun j e => ?_⟩
  rw [h.iff]
  show _ ↔ ∃ d₁, (r.deliveries ++ [d])[j]? = some d₁ ∧ _
  constructor
  · rintro ⟨d₁, hd₁, hrest⟩
    have hlt := (List.getElem?_eq_some_iff.1 hd₁).1
    exact ⟨d₁, by rw [List.getElem?_append_left hlt, hd₁], hrest⟩
  · rintro ⟨d₁, hd₁, hdone, he⟩
    by_cases hlt : j < r.deliveries.length
    · rw [List.getElem?_append_left hlt] at hd₁
      exact ⟨d₁, hd₁, hdone, he⟩
    · have hmem := List.mem_of_getElem? (by
        rwa [List.getElem?_append_right (Nat.le_of_not_lt hlt)] at hd₁)
      rw [List.mem_singleton.1 hmem, hopen] at hdone
      cases hdone

/-- The drain gets one more delivery. -/
theorem Drained.finish (h : r.Drained) {i : Nat} {d : Delivery} (hd : r.deliveries[i]? = some d)
    (hopen : d.drained = false) :
    Drained { r with
      deliveries := r.deliveries.set i { d with drained := true }
      output := r.output ++ [(i, d.result)] } := by
  have hnew : ∀ e, (i, e) ∉ r.output := by
    intro e he
    obtain ⟨d₁, hd₁, hdone, -⟩ := (h.iff i e).1 he
    rw [hd] at hd₁
    cases hd₁
    rw [hopen] at hdone
    cases hdone
  refine ⟨?_, fun j e => ?_⟩
  · show ((r.output ++ [(i, d.result)]).map Prod.fst).Nodup
    rw [List.map_append, List.nodup_append]
    refine ⟨h.once, by simp, ?_⟩
    intro j hj j' hj' heq
    obtain ⟨⟨k, e⟩, hmem, rfl⟩ := List.mem_map.1 hj
    rw [List.map_singleton, List.mem_singleton] at hj'
    subst hj'
    subst heq
    exact hnew e hmem
  · show (j, e) ∈ r.output ++ [(i, d.result)] ↔
      ∃ d₁, (r.deliveries.set i { d with drained := true })[j]? = some d₁ ∧ _
    rw [List.mem_append, h.iff, List.getElem?_set]
    obtain ⟨hlt, hget⟩ := List.getElem?_eq_some_iff.1 hd
    by_cases hj : i = j
    · subst hj
      simp [hlt, hget, hopen, Delivery.result]
    · have hne : ¬ j = i := fun heq => hj heq.symm
      simp [hj, hne]

/-- A step of the thread that starts and stops, at one backend. -/
theorem Ok.move {b : Nat} (h : r.Ok) (hsame : SameBut b r r')
    (hdeliveries : r'.deliveries = r.deliveries) (houtput : r'.output = r.output)
    (hattempted : r'.startAttempted = r.startAttempted) (hstarted : r.started = true)
    (hfits : r'.Fits) (hoff : r'.phase b = .off → r.phase b = .off ∨ r.quiet b = true)
    (hon : r.phase b = .on → r'.phase b = .on ∨ r.isSource b = true ∨
      ∀ c, r.isSource c = true → r.phase c = .off) : r'.Ok where
  fits := hfits
  flows := h.flows.move hsame hdeliveries hoff hon
  sound := hdeliveries ▸ h.sound
  drained := ⟨houtput ▸ h.drained.once, by rw [houtput, hdeliveries]; exact h.drained.iff⟩
  attempted := fun _ => hattempted.trans (h.attempted hstarted)
  walking := fun _ => hsame.started.trans hstarted

/-- A step of the thread that starts and stops. -/
theorem Ok.walk (h : r.Ok) (hstates : r'.states = r.states) (hphase : r'.phase = r.phase)
    (hdeliveries : r'.deliveries = r.deliveries) (houtput : r'.output = r.output)
    (hattempted : r'.startAttempted = r.startAttempted)
    (hstarted : r'.started = true → r.started = true)
    (hwalking : r'.thread ≠ .idle → r'.started = true) (hfits : r'.Fits) : r'.Ok where
  fits := hfits
  flows := by
    intro d hd hopen
    rw [hdeliveries] at hd
    have hsource (c : Nat) : r'.isSource c = r.isSource c := by
      unfold isSource
      rw [hstates]
    rw [hsource, hphase]
    refine ⟨(h.flows d hd hopen).1, (h.flows d hd hopen).2.1, fun p hp => ?_⟩
    rw [hsource]
    exact (h.flows d hd hopen).2.2 p hp
  sound := hdeliveries ▸ h.sound
  drained := ⟨houtput ▸ h.drained.once, by rw [houtput, hdeliveries]; exact h.drained.iff⟩
  attempted := fun hs => hattempted.trans (h.attempted (hstarted hs))
  walking := hwalking

/-- Every step of the thread that starts keeps all of it. -/
theorem Ok.step_start (h : r.Ok) {e : RegistryEvent}
    (he : e = .startNext ∨ (∃ ok, e = .startReturns ok) ∨ e = .startNoted ∨ e = .undone)
    (hs : r.step e = some r') : r'.Ok := by
  have hfits := h.fits
  rcases he with rfl | ⟨ok, rfl⟩ | rfl | rfl
  -- the next backend, or the end of the walk
  · simp only [TelemetryRegistry.step] at hs
    split at hs
    · rename_i hthread
      cases hs
      simp only [Fits, hthread] at hfits
      refine h.walk rfl rfl rfl rfl rfl id (fun hne => absurd rfl hne) fun c => ?_
      show if r.started = true then _ else _
      rw [if_pos hfits.started]
      exact (hfits.rest c).2 List.not_mem_nil
    · rename_i b todo hthread
      cases hs
      simp only [Fits, hthread] at hfits
      obtain ⟨hat, hoff⟩ := hfits.next
      have hsame := sameBut_setFlag_setPhase r b true "starting" .starting (.callingStart b todo)
      refine h.move hsame rfl rfl rfl hat.started ⟨hsame.startsAt hat, setPhase_self _ b _, ?_⟩
        (fun hgone => ?_) (fun hon => ?_)
      · exact setFlag_startedFlag_self r true _ (lt_of_startsAt hat)
      · exact absurd ((setPhase_self (r.setFlag b true "starting") b .starting).symm.trans hgone)
          nofun
      · rw [hoff.1] at hon
        cases hon
    · cases hs
  -- its `start` returns
  · simp only [TelemetryRegistry.step] at hs
    split at hs
    · rename_i b todo hthread
      cases hs
      simp only [Fits, hthread] at hfits
      obtain ⟨hat, hphase, hflag⟩ := hfits
      have hsame := sameBut_setPhase r b (if ok then .on else .failed) (.startReturned b ok todo)
      refine h.move hsame rfl rfl rfl hat.started ⟨hsame.startsAt hat, setPhase_self r b _, hflag⟩
        (fun hgone => ?_) (fun hon => ?_)
      · have hstill := (setPhase_self r b (if ok then .on else .failed)).symm.trans hgone
        cases ok <;> cases hstill
      · rw [hphase] at hon
        cases hon
    · cases hs
  -- the result is noted: it stays on, or is stopped again
  · simp only [TelemetryRegistry.step] at hs
    split at hs
    · rename_i b todo hthread
      cases hs
      simp only [Fits, hthread] at hfits
      obtain ⟨hat, hphase, hflag⟩ := hfits
      have hsame := sameBut_setFlag r b true "started" (.starting todo)
      have hlt := lt_of_startsAt hat
      refine h.move hsame rfl rfl rfl hat.started ?_ (fun hgone => Or.inl hgone)
        (fun hon => Or.inl hon)
      exact (hsame.startsAt hat).done (Or.inl ⟨hphase, setFlag_startedFlag_self r true _ hlt⟩)
    · rename_i b todo hthread
      cases hs
      simp only [Fits, hthread] at hfits
      obtain ⟨hat, hphase, hflag⟩ := hfits
      have hsame := sameBut_setFlag_setPhase r b false "start failed" .stopping (.undoing b todo)
      refine h.move hsame rfl rfl rfl hat.started ⟨hsame.startsAt hat, setPhase_self _ b _, ?_⟩
        (fun hgone => ?_) (fun hon => ?_)
      · exact setFlag_startedFlag_self r false _ (lt_of_startsAt hat)
      · exact absurd ((setPhase_self (r.setFlag b false "start failed") b .stopping).symm.trans hgone)
          nofun
      · rw [hphase] at hon
        cases hon
    · cases hs
  -- a backend that failed to start is off once nothing of it is under way
  · simp only [TelemetryRegistry.step] at hs
    split at hs
    · rename_i b todo hthread
      split at hs
      · rename_i hquiet
        cases hs
        simp only [Fits, hthread] at hfits
        obtain ⟨hat, hphase, hflag⟩ := hfits
        have hsame := sameBut_setPhase r b .off (.starting todo)
        refine h.move hsame rfl rfl rfl hat.started ?_ (fun _ => Or.inr hquiet) (fun hon => ?_)
        · exact (hsame.startsAt hat).done (Or.inr ⟨setPhase_self r b .off, hflag⟩)
        · rw [hphase] at hon
          cases hon
      · cases hs
    · cases hs

/-- Every step of the thread that stops keeps all of it. -/
theorem Ok.step_stop (h : r.Ok) {e : RegistryEvent}
    (he : e = .stopNext ∨ e = .stopReturns ∨ e = .stopNoted)
    (hs : r.step e = some r') : r'.Ok := by
  have hfits := h.fits
  rcases he with rfl | rfl | rfl
  -- the next backend, or the end of the walk
  · simp only [TelemetryRegistry.step] at hs
    split at hs
    · rename_i hthread
      cases hs
      simp only [Fits, hthread] at hfits
      refine h.walk rfl rfl rfl rfl rfl (fun hno => by cases hno) (fun hne => absurd rfl hne)
        fun c => ?_
      exact (hfits.rest c).2 List.not_mem_nil
    · rename_i b todo hthread
      simp only [Fits, hthread] at hfits
      obtain ⟨hat, hagrees⟩ := hfits.next
      split at hs
      · rename_i hflag
        cases hs
        have hsame := sameBut_setPhase r b .stopping (.callingStop b todo)
        refine h.move hsame rfl rfl rfl hat.started
          ⟨hsame.stopsAt hat, setPhase_self r b .stopping, hflag⟩ (fun hgone => ?_) (fun _ => ?_)
        · exact absurd ((setPhase_self r b .stopping).symm.trans hgone) nofun
        · -- a processor is stopped when every source has been
          cases hb : r.isSource b with
          | true => exact Or.inr (Or.inl rfl)
          | false => exact Or.inr (Or.inr fun c hc => (hat.source_off hb hc).1)
      · rename_i hflag
        cases hs
        have hoff : r.Off b := by
          rcases hagrees with ⟨-, hyes⟩ | hoff
          · exact absurd hyes hflag
          · exact hoff
        refine h.walk rfl rfl rfl rfl rfl id (fun _ => hat.started) ?_
        exact ⟨hat.started, (hat.done hoff).order, (hat.done hoff).rest⟩
    · cases hs
  -- its `stop` returns when nothing of it is under way
  · simp only [TelemetryRegistry.step] at hs
    split at hs
    · rename_i b todo hthread
      split at hs
      · rename_i hquiet
        cases hs
        simp only [Fits, hthread] at hfits
        obtain ⟨hat, hphase, hflag⟩ := hfits
        have hsame := sameBut_setPhase r b .off (.stopReturned b todo)
        refine h.move hsame rfl rfl rfl hat.started
          ⟨hsame.stopsAt hat, setPhase_self r b .off, hflag⟩ (fun _ => Or.inr hquiet) (fun hon => ?_)
        rw [hphase] at hon
        cases hon
      · cases hs
    · cases hs
  -- it is noted as stopped
  · simp only [TelemetryRegistry.step] at hs
    split at hs
    · rename_i b todo hthread
      cases hs
      simp only [Fits, hthread] at hfits
      obtain ⟨hat, hphase, hflag⟩ := hfits
      have hsame := sameBut_setFlag r b false "stopped" (.stopping todo)
      have hlt := lt_of_stopsAt hat
      refine h.move hsame rfl rfl rfl hat.started ?_ (fun hgone => Or.inl hgone)
        (fun hon => Or.inl hon)
      exact (hsame.stopsAt hat).done ⟨hphase, setFlag_startedFlag_self r false _ hlt⟩
    · cases hs

/-- While every backend is off nothing is under way. -/
theorem Ok.none_open (h : r.Ok) (hoff : ∀ c, r.Off c) {d : Delivery} (hd : d ∈ r.deliveries) :
    d.drained = true := by
  cases hopen : d.drained with
  | true => rfl
  | false => exact absurd (hoff _).1 (h.flows d hd hopen).2.1

/-- A registry that is not started has all its backends off. -/
theorem Ok.all_off (h : r.Ok) (hthread : r.thread = .idle) (hstarted : r.started = false) (c : Nat) :
    r.Off c := by
  have hfits := h.fits
  simp only [Fits, hthread] at hfits
  have hc := hfits c
  rw [hstarted] at hc
  exact hc

theorem Ok.add (h : r.Ok) (hthread : r.thread = .idle) (hstarted : r.started = false)
    (s : BackendState) (hs : s.started = false) : Ok { r with states := r.states ++ [s] } := by
  have hoff := h.all_off hthread hstarted
  have hflag (c : Nat) :
      ({ r with states := r.states ++ [s] } : TelemetryRegistry).startedFlag c = false := by
    have hold := (hoff c).2
    unfold startedFlag at hold ⊢
    rw [List.getElem?_append]
    split
    · rename_i s' hs'
      split at hs'
      · rw [hs'] at hold
        exact hold
      · have hmem := List.mem_of_getElem? hs'
        rw [List.mem_singleton.1 hmem]
        exact hs
    · rfl
  refine ⟨?_, fun d hd hopen => ?_, h.sound, ⟨h.drained.once, h.drained.iff⟩, h.attempted, h.walking⟩
  · simp only [Fits, hthread]
    intro c
    rw [hstarted]
    exact ⟨(hoff c).1, hflag c⟩
  · rw [h.none_open hoff hd] at hopen
    cases hopen

theorem Ok.startAll (h : r.Ok) (hthread : r.thread = .idle) (hstarted : r.started = false) :
    Ok { r with
      started := true
      startAttempted := true
      states := r.states.map fun s => { s with started := false, status := "not started" }
      thread := .starting r.startOrder } := by
  have hoff := h.all_off hthread hstarted
  refine ⟨⟨rfl, ?_, fun c => ?_⟩, fun d hd hopen => ?_, h.sound, ⟨h.drained.once, h.drained.iff⟩,
    fun _ => rfl, fun _ => rfl⟩
  · have hsource (c : Nat) : ({ r with
        started := true
        startAttempted := true
        states := r.states.map fun s => { s with started := false, status := "not started" }
        thread := .starting r.startOrder } : TelemetryRegistry).isSource c = r.isSource c := by
      unfold isSource
      rw [List.getElem?_map]
      cases r.states[c]? <;> rfl
    rw [startOrder_congr (r := r) (List.length_map _) hsource]
  · have hnow : Off { r with
        started := true
        startAttempted := true
        states := r.states.map fun s => { s with started := false, status := "not started" }
        thread := .starting r.startOrder } c := by
      refine ⟨(hoff c).1, ?_⟩
      unfold startedFlag
      rw [List.getElem?_map]
      cases r.states[c]? <;> rfl
    exact ⟨fun _ => hnow, fun _ => Or.inr hnow⟩
  · rw [h.none_open hoff hd] at hopen
    cases hopen

theorem Ok.stopAll (h : r.Ok) (hthread : r.thread = .idle) (hstarted : r.started = true) :
    Ok { r with thread := .stopping r.stopOrder } := by
  have hfits := h.fits
  simp only [Fits, hthread] at hfits
  have hagrees (c : Nat) : r.Agrees c := by
    have hc := hfits c
    rwa [if_pos hstarted] at hc
  refine h.walk rfl rfl rfl rfl rfl id (fun _ => hstarted)
    ⟨hstarted, List.suffix_refl _, fun c => ⟨fun _ => hagrees c, fun hout => ?_⟩⟩
  rcases hagrees c with ⟨-, hflag⟩ | hoff
  · exact absurd (mem_stopOrder.2 (lt_of_startedFlag hflag)) hout
  · exact hoff

/-- A source's event is taken, with the processors that are shown as started. -/
theorem Ok.emit (h : r.Ok) {b : Nat} (hphase : r.phase b ≠ .off) (hsource : r.isSource b = true)
    (event : TelemetryEvent) :
    Ok { r with
      deliveries := r.deliveries ++
        [{ source := b, emitted := event, event := event, verdicts := [event.verdict],
           todo := r.activeProcessorSnapshot }] } := by
  refine ⟨h.fits.of_same rfl rfl rfl rfl, ?_, ?_, h.drained.append rfl, h.attempted, h.walking⟩
  · intro d hd hopen
    rcases List.mem_append.1 hd with hd | hd
    · exact h.flows d hd hopen
    · rw [List.mem_singleton.1 hd]
      refine ⟨hsource, hphase, fun p hp => ?_⟩
      simp only [activeProcessorSnapshot, List.mem_filter, Bool.and_eq_true,
        Bool.not_eq_true'] at hp
      exact ⟨hp.2.1, h.fits.processor_on hsource hphase hp.2.1 hp.2.2⟩
  · intro d hd
    rcases List.mem_append.1 hd with hd | hd
    · exact h.sound d hd
    · rw [List.mem_singleton.1 hd]
      exact ⟨rfl, rfl, fun hdone => by cases hdone⟩

/-- A delivery is replaced by one that has less to do. -/
theorem Ok.setDelivery (h : r.Ok) {i : Nat} {d : Delivery} (d' : Delivery)
    (hd : r.deliveries[i]? = some d) (hopen : d.drained = false) (hopen' : d'.drained = false)
    (hsource : d'.source = d.source) (htodo : d'.todo ⊆ d.todo) (hsound : d'.Sound) :
    Ok { r with deliveries := r.deliveries.set i d' } := by
  have hmem := List.mem_of_getElem? hd
  refine ⟨h.fits.of_same rfl rfl rfl rfl, ?_, ?_, h.drained.set hd hopen hopen', h.attempted,
    h.walking⟩
  · intro d₁ hd₁ hopen₁
    rcases List.mem_or_eq_of_mem_set hd₁ with hd₁ | rfl
    · exact h.flows d₁ hd₁ hopen₁
    · obtain ⟨hsrc, hphase, hproc⟩ := h.flows d hmem hopen
      rw [hsource]
      exact ⟨hsrc, hphase, fun p hp => hproc p (htodo hp)⟩
  · intro d₁ hd₁
    rcases List.mem_or_eq_of_mem_set hd₁ with hd₁ | rfl
    · exact h.sound d₁ hd₁
    · exact hsound

theorem Ok.process (h : r.Ok) {i : Nat} {answer : Option TelemetryEvent}
    (hs : r.step (.process i answer) = some r') : r'.Ok := by
  simp only [TelemetryRegistry.step] at hs
  split at hs
  · rename_i d hd
    have hsound := h.sound d (List.mem_of_getElem? hd)
    have hopen {p : Nat} {todo : List Nat} (htodo : d.todo = p :: todo) : d.drained = false := by
      cases hdone : d.drained with
      | false => rfl
      | true =>
          have hnone := hsound.done hdone
          rw [htodo] at hnone
          cases hnone
    split at hs
    · rename_i p todo event htodo
      cases hs
      refine h.setDelivery _ hd (hopen htodo) (hopen htodo) rfl ?_ ⟨?_, ?_, ?_⟩
      · rw [htodo]
        exact List.subset_cons_self p todo
      · simp [hsound.kept]
      · simp
      · intro hdone
        have hno := hopen htodo
        rw [show d.drained = true from hdone] at hno
        cases hno
    · rename_i p todo htodo
      cases hs
      refine h.setDelivery _ hd (hopen htodo) (hopen htodo) rfl ?_ ⟨hsound.kept, hsound.last, ?_⟩
      · rw [htodo]
        exact List.subset_cons_self p todo
      · intro hdone
        have hno := hopen htodo
        rw [show d.drained = true from hdone] at hno
        cases hno
    · cases hs
  · cases hs

theorem Ok.drain (h : r.Ok) {i : Nat} (hs : r.step (.drain i) = some r') : r'.Ok := by
  simp only [TelemetryRegistry.step] at hs
  split at hs
  · rename_i d hd
    split at hs
    · rename_i hready
      cases hs
      have hsound := h.sound d (List.mem_of_getElem? hd)
      refine ⟨h.fits.of_same rfl rfl rfl rfl, ?_, ?_, h.drained.finish hd hready.2, h.attempted,
        h.walking⟩
      · intro d₁ hd₁ hopen₁
        rcases List.mem_or_eq_of_mem_set hd₁ with hd₁ | rfl
        · exact h.flows d₁ hd₁ hopen₁
        · cases hopen₁
      · intro d₁ hd₁
        rcases List.mem_or_eq_of_mem_set hd₁ with hd₁ | rfl
        · exact h.sound d₁ hd₁
        · exact ⟨hsound.kept, hsound.last, fun _ => hready.1⟩
    · cases hs
  · cases hs

/-- Every step keeps all of it. -/
theorem Ok.step (h : r.Ok) {e : RegistryEvent} (hs : r.step e = some r') : r'.Ok := by
  cases e with
  | add name supportedOps preOpVerdicts =>
      simp only [TelemetryRegistry.step] at hs
      split at hs
      · cases hs
      · rename_i hidle
        split at hs
        · cases hs
          exact h
        · rename_i hattempted
          cases hs
          have hstarted : r.started = false := by
            cases hyes : r.started with
            | false => rfl
            | true => exact absurd (h.attempted hyes) hattempted
          exact h.add (not_not.1 hidle) hstarted _ rfl
  | startAll =>
      simp only [TelemetryRegistry.step] at hs
      split at hs
      · cases hs
      · rename_i hidle
        split at hs
        · cases hs
          exact h
        · rename_i hstarted
          cases hs
          exact h.startAll (not_not.1 hidle) (Bool.not_eq_true _ ▸ hstarted)
  | stopAll =>
      simp only [TelemetryRegistry.step] at hs
      split at hs
      · cases hs
      · rename_i hidle
        split at hs
        · rename_i hstarted
          cases hs
          exact h.stopAll (not_not.1 hidle) hstarted
        · cases hs
          exact h
  | emit b event =>
      simp only [TelemetryRegistry.step] at hs
      split at hs
      · cases hs
      · rename_i hphase
        split at hs
        · rename_i htaken
          cases hs
          exact h.emit hphase (Bool.and_eq_true_iff.1 htaken).2 event
        · cases hs
          exact h
  | process i answer => exact h.process hs
  | drain i => exact h.drain hs
  | startNext => exact h.step_start (Or.inl rfl) hs
  | startReturns ok => exact h.step_start (Or.inr (Or.inl ⟨ok, rfl⟩)) hs
  | startNoted => exact h.step_start (Or.inr (Or.inr (Or.inl rfl))) hs
  | undone => exact h.step_start (Or.inr (Or.inr (Or.inr rfl))) hs
  | stopNext => exact h.step_stop (Or.inl rfl) hs
  | stopReturns => exact h.step_stop (Or.inr (Or.inl rfl)) hs
  | stopNoted => exact h.step_stop (Or.inr (Or.inr rfl)) hs

theorem Reached.ok (h : r.Reached) : r.Ok :=
  h.invariant (fun _ hr => hr ▸ ok_empty) fun _ _ _ hok hs => hok.step hs

end TelemetryRegistry

/-! ## The verdict -/

theorem Verdict.max_cases (a b : Verdict) :
    (a.max b = a ∨ a.max b = b) ∧ a.code ≤ (a.max b).code ∧ b.code ≤ (a.max b).code := by
  cases a <;> cases b <;> decide

/-- A maximum taken along a list is one of the verdicts, and none of them is stricter. -/
theorem foldl_max_spec (a : Verdict) (vs : List Verdict) :
    vs.foldl Verdict.max a ∈ a :: vs ∧ ∀ v ∈ a :: vs, v.code ≤ (vs.foldl Verdict.max a).code := by
  induction vs generalizing a with
  | nil => exact ⟨List.mem_singleton_self a, fun v hv => by rw [List.mem_singleton.1 hv]; rfl⟩
  | cons b vs ih =>
      obtain ⟨hone, hleft, hright⟩ := Verdict.max_cases a b
      obtain ⟨hmem, hbound⟩ := ih (a.max b)
      rw [List.foldl_cons]
      refine ⟨?_, fun v hv => ?_⟩
      · rcases List.mem_cons.1 hmem with heq | hmem
        · rw [heq]
          rcases hone with hone | hone
          · rw [hone]
            exact List.mem_cons_self
          · rw [hone]
            exact List.mem_cons_of_mem _ List.mem_cons_self
        · exact List.mem_cons_of_mem _ (List.mem_cons_of_mem _ hmem)
      · have hmax := hbound (a.max b) List.mem_cons_self
        rcases List.mem_cons.1 hv with rfl | hv
        · exact hleft.trans hmax
        · rcases List.mem_cons.1 hv with rfl | hv
          · exact hright.trans hmax
          · exact hbound v (List.mem_cons_of_mem _ hv)

theorem mergeVerdicts_cons (v : Verdict) (vs : List Verdict) :
    mergeVerdicts (v :: vs) = vs.foldl Verdict.max v := by
  have hallow : Verdict.max .allow v = v := by cases v <;> rfl
  rw [mergeVerdicts, List.foldl_cons, hallow]

/-! ## The whole run -/

/-- In every order of starting, stopping, callbacks and deliveries: the next processor of an event
is running, not merely listed; the drain gets every finished event once, as the last processor that
answered left it and with the strictest of the verdicts of its source and of all answers; and when
the registry is not started nothing runs and no event is under way. -/
theorem TelemetryRegistry.deliveries_safe {r : TelemetryRegistry} (h : r.Reached) :
    (∀ d ∈ r.deliveries, ∀ p todo, d.drained = false → d.todo = p :: todo → r.phase p = .on) ∧
      (r.output.map Prod.fst).Nodup ∧
      (∀ i e, (i, e) ∈ r.output ↔
        ∃ d, r.deliveries[i]? = some d ∧ d.drained = true ∧
          e = { d.answers.getLastD d.emitted with verdict := e.verdict } ∧
          e.verdict = mergeVerdicts (d.emitted.verdict :: d.answers.map (·.verdict))) ∧
      (∀ d ∈ r.deliveries, ∀ v ∈ d.emitted.verdict :: d.answers.map (·.verdict),
        v.code ≤ (mergeVerdicts (d.emitted.verdict :: d.answers.map (·.verdict))).code) ∧
      (r.thread = .idle → r.started = false →
        (∀ b, r.phase b = .off) ∧ ∀ d ∈ r.deliveries, d.drained = true) := by
  have hok := h.ok
  refine ⟨?_, hok.drained.once, fun i e => ?_, fun d _ v hv => ?_, fun hthread hstarted => ?_⟩
  · intro d hd p todo hopen htodo
    have hall := (hok.flows d hd hopen).2.2
    exact (hall p (by rw [htodo]; exact List.mem_cons_self)).2
  · rw [hok.drained.iff]
    constructor
    · rintro ⟨d, hd, hdone, rfl⟩
      have hsound := hok.sound d (List.mem_of_getElem? hd)
      refine ⟨d, hd, hdone, ?_, ?_⟩
      · rw [Delivery.result, hsound.last]
      · rw [Delivery.result, hsound.kept]
    · rintro ⟨d, hd, hdone, he, hverdict⟩
      have hsound := hok.sound d (List.mem_of_getElem? hd)
      refine ⟨d, hd, hdone, ?_⟩
      rw [Delivery.result, hsound.last, hsound.kept, ← hverdict]
      exact he
  · rw [mergeVerdicts_cons]
    exact (foldl_max_spec _ _).2 v hv
  · have hoff := hok.all_off hthread hstarted
    exact ⟨fun b => (hoff b).1, fun d hd => hok.none_open hoff hd⟩

/-- A source and a processor, one event that the processor denies, and the stop. -/
def registryRun : List RegistryEvent :=
  [.add "fanotify" 1 false, .add "lua" 0 false, .startAll, .startNext, .startReturns true,
    .startNoted, .startNext, .startReturns true, .startNoted, .startNext, .emit 0 {},
    .process 0 (some { verdict := .deny }), .drain 0, .stopAll, .stopNext, .stopReturns, .stopNoted,
    .stopNext, .stopReturns, .stopNoted, .stopNext]

theorem deliveries_safe_registryRun :
    ∃ r : TelemetryRegistry, r.Reached ∧ r.output = [(0, { verdict := .deny })] ∧
      ∀ b, r.phase b = .off := by
  have hsome : (registryRun.foldlM TelemetryRegistry.step {}).isSome = true := by decide +kernel
  obtain ⟨r, hr⟩ := Option.isSome_iff_exists.1 hsome
  have hreached : r.Reached := Reaches.run registryRun (fun _ _ _ _ hs => hs) (.start rfl) hr
  have hshape : (registryRun.foldlM TelemetryRegistry.step {}).map
      (fun r => (r.thread, r.started, r.output)) =
        some (.idle, false, [(0, { verdict := .deny })]) := by decide +kernel
  rw [hr] at hshape
  simp only [Option.map_some, Option.some.injEq, Prod.mk.injEq] at hshape
  obtain ⟨-, -, -, -, hoff⟩ := TelemetryRegistry.deliveries_safe hreached
  exact ⟨r, hreached, hshape.2.2, (hoff hshape.1 hshape.2.1).1⟩

end ContextFS
