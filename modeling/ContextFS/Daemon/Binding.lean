import ContextFS.Daemon.Branches
import ContextFS.Lib.Runs

/-!
# Requests through handles, lock by lock

A request through a handle takes three locks one after the other: `get_fh` looks the handle up,
`branch_for_fh` looks its branch up and falls back to `main`, and the rest runs under the lock of
the branch that was found.  Everything else can happen in between.  An operation on branches
holds the publication gate, and only a fork gives up the branch locks on its way.
-/

namespace ContextFS

open Std Lib ObjectStore WorkingTree

namespace Daemon

/-- `branch_for_fh`. -/
def branchForFh (d : Daemon) (s : FhState) : Nat :=
  match d.branch s.branchId with
  | some _ => s.branchId
  | none => 0

/-- A request through a handle under the lock of the branch `held`. -/
def heldFh (d : Daemon) (fh held : Nat) (k : FhState → Critical) : Critical :=
  match d.getFh fh with
  | none => d.fail .ebadf
  | some s => d.withBranch held fun _ => if s.stale then d.fail .estale else k s

end Daemon

namespace FuseOp

/-- The handle a request goes through. -/
def handle : FuseOp → Option Nat
  | .read fh _ _ | .write fh _ _ | .flush fh | .truncateFh _ fh _ => some fh
  | _ => none

/-- The branch a request by path was routed to. -/
def pathBranch : FuseOp → Option Nat
  | .openFile b _ _ | .create b _ _ | .truncate b _ _ | .unlink b _ | .rmdir b _ | .mkdir b _ _
  | .rename b _ _ | .symlink b _ _ | .chmod b _ _ => some b
  | _ => none

/-- The critical section of a request through a handle, under the lock of `held`: what it flushes
goes to the tree of `held`. -/
def startHeld (d : Daemon) (held : Nat) : FuseOp → Critical
  | .read fh offset size =>
      d.heldFh fh held fun s =>
        .reply (.ok (.bytes (s.writeBuf.read offset size (s.ensureBaseCache d.store).baseCache)))
          (d.modifyFh fh fun s => s.ensureBaseCache d.store)
  | .write fh offset data =>
      d.heldFh fh held fun _ =>
        .reply (.ok (.count data.length))
          (d.modifyFh fh fun s => { s with writeBuf := s.writeBuf.write offset data })
  | .flush fh =>
      d.heldFh fh held fun s =>
        if !s.writeBuf.isDirty then .reply (.ok .ok) d
        else
          .write (s.flushData d.store)
            (Daemon.putFlushed fh { s with branchId := held } d.store)
  | .truncateFh path fh length =>
      match refuseMutation path .eacces with
      | some e => d.fail e
      | none =>
          d.heldFh fh held fun _ =>
            .reply (.ok .ok)
              (d.modifyFh fh fun s => { s with writeBuf := s.writeBuf.truncate length })
  | op => op.start d

end FuseOp

/-- A request through a handle on its way. -/
structure FhRequest where
  op : FuseOp
  fh : Nat
  /-- It is the flush a `cas_release` begins with. -/
  closing : Bool
  /-- The branch that `branch_for_fh` found. -/
  held : Option Nat := none
  /-- Its critical section is over, and the handle is still to be released. -/
  flushed : Bool := false

/-- The daemon with the requests on their way.  `opened` and `gone` only record history: the
branch a handle was opened on, and the handles that were open when their branch was deleted,
rolled back or merged into. -/
structure FhSystem where
  daemon : Daemon
  requests : Nat → Option FhRequest
  creating : Option Daemon.NewBranch
  opened : Nat → Option Nat
  gone : Nat → Prop

inductive FhEvent
  | path (op : FuseOp)
  | begin (t fh : Nat) (op : FuseOp) (closing : Bool)
  | bind (t : Nat)
  | finish (t : Nat) (answer : Answer)
  | close (t : Nat)
  | checkpoint (b : Nat)
  | rollback (b : Nat)
  | beginCreate
  | endCreate (b : Option Nat)
  | delete (b : Nat)
  | merge (target : Nat)
  | refused

namespace FhSystem

/-- A branch went away: its open handles are remembered. -/
def goneWith (σ : FhSystem) (b : Nat) : Nat → Prop :=
  fun fh => σ.gone fh ∨ σ.opened fh = some b

/-- The requests with another record for `t`. -/
def setRequest (σ : FhSystem) (t : Nat) (r : Option FhRequest) : Nat → Option FhRequest :=
  Function.update σ.requests t r

@[simp] theorem setRequest_self (σ : FhSystem) (t : Nat) (r : Option FhRequest) :
    σ.setRequest t r t = r := by
  simp [setRequest]

variable [Blake3]

/-- One lock taken by somebody.  The kernel sends the release of a handle after all its other
requests have ended, and nothing for the handle later. -/
inductive Step (σ : FhSystem) : FhEvent → FhSystem → Prop
  | path {op b} (hb : op.pathBranch = some b) :
      Step σ (.path op) {
        σ with
        daemon := ((op.start σ.daemon).run σ.daemon).2
        opened := fun fh =>
          if fh = σ.daemon.nextFhId then
            (((op.start σ.daemon).run σ.daemon).2.getFh fh).map fun _ => b
          else σ.opened fh }
  | begin {t fh op closing s} (hfh : op.handle = some fh) (hfree : σ.requests t = none)
      (hs : σ.daemon.getFh fh = some s)
      (hclosing : closing = true → op = .flush fh ∧ ∀ t' r, σ.requests t' = some r → r.fh ≠ fh)
      (hopen : ∀ t' r, σ.requests t' = some r → r.closing = true → r.fh ≠ fh) :
      Step σ (.begin t fh op closing) {
        σ with requests := σ.setRequest t (some { op := op, fh := fh, closing := closing }) }
  | bind {t r s} (hr : σ.requests t = some r) (hheld : r.held = none)
      (hs : σ.daemon.getFh r.fh = some s) :
      Step σ (.bind t) {
        σ with
        requests := σ.setRequest t (some { r with held := some (σ.daemon.branchForFh s) }) }
  | finish {t r b} (hr : σ.requests t = some r) (hheld : r.held = some b)
      (hflushed : r.flushed = false) :
      Step σ (.finish t ((r.op.startHeld σ.daemon b).run σ.daemon).1) {
        σ with
        daemon := ((r.op.startHeld σ.daemon b).run σ.daemon).2
        requests := σ.setRequest t (if r.closing then some { r with flushed := true } else none) }
  | close {t r} (hr : σ.requests t = some r) (hflushed : r.flushed = true) :
      Step σ (.close t) {
        σ with
        daemon := σ.daemon.releaseFh r.fh
        requests := σ.setRequest t none }
  | checkpoint {b label order timestampNs} (hgate : σ.creating = none) :
      Step σ (.checkpoint b) {
        σ with daemon := (σ.daemon.checkpointBranch b label order timestampNs).2 }
  | rollback {name target fuel b br r} (hgate : σ.creating = none)
      (hname : σ.daemon.branchByName name = some (b, br))
      (h : σ.daemon.rollbackBranchToCommit name target fuel = some r) :
      Step σ (.rollback b) {
        σ with
        daemon := r.2
        gone := if r.1.ok then σ.goneWith b else σ.gone }
  | beginCreate {name source} (hgate : σ.creating = none) :
      Step σ .beginCreate {
        σ with
        daemon := (σ.daemon.beginCreate name source).2
        creating := (σ.daemon.beginCreate name source).1 }
  | endCreate {new} (hnew : σ.creating = some new) :
      Step σ (.endCreate (σ.daemon.endCreate new).1) {
        σ with
        daemon := (σ.daemon.endCreate new).2
        creating := none }
  | delete {name routed b br} (hgate : σ.creating = none)
      (hname : σ.daemon.branchByName name = some (b, br)) :
      Step σ (.delete b) {
        σ with
        daemon := (σ.daemon.deleteBranch name routed).2
        gone := if (σ.daemon.deleteBranch name routed).1 then σ.goneWith b else σ.gone }
  | merge {sourceName targetName args target br r} (hgate : σ.creating = none)
      (hname : σ.daemon.branchByName targetName = some (target, br))
      (h : σ.daemon.mergeBranch sourceName targetName args = some r) :
      Step σ (.merge target) {
        σ with
        daemon := r.2
        gone := if r.1.ok then σ.goneWith target else σ.gone }
  /-- Whatever fails before it takes the lock of a branch. -/
  | refused : Step σ .refused σ

/-- The counter of branch ids, a `uint32_t`, has not come to its last value. -/
def IdsLeft (σ : FhSystem) : Prop := σ.daemon.nextBranchId + 1 < 2 ^ 32

/-- A daemon that has just started, with no request on its way.  The branches it loaded have not
used up the ids. -/
structure Init (σ : FhSystem) : Prop where
  started : ∃ d timestampNs fuel, Daemon.initializeDaemon d timestampNs fuel = some (true, σ.daemon)
  requests : σ.requests = fun _ => none
  creating : σ.creating = none
  opened : σ.opened = fun _ => none
  gone : ∀ fh, ¬σ.gone fh
  ids : σ.IdsLeft

/-- A fork takes its branch id before the counter wraps. -/
def NoWrap (σ : FhSystem) (ev : FhEvent) (_ : FhSystem) : Prop :=
  ev = .beginCreate → σ.IdsLeft

end FhSystem

/-! ## The critical section of a request -/

namespace FuseOp

theorem heldFh_cases (d : Daemon) (fh held : Nat) (k : FhState → Critical) :
    (∃ e, d.heldFh fh held k = d.fail e) ∨
      ∃ s, d.getFh fh = some s ∧ d.branch held ≠ none ∧ s.stale = false ∧
        d.heldFh fh held k = k s := by
  unfold Daemon.heldFh Daemon.withBranch
  cases hs : d.getFh fh with
  | none => exact Or.inl ⟨_, rfl⟩
  | some s =>
      cases hbr : d.branch held with
      | none => exact Or.inl ⟨_, rfl⟩
      | some br =>
          cases hstale : s.stale with
          | true => exact Or.inl ⟨.estale, by simp [hstale]⟩
          | false => exact Or.inr ⟨s, rfl, by simp, hstale, by simp [hstale]⟩

/-- Under the lock of the branch the handle is bound to, the request is what it is in one go;
under the lock of another branch the handle is stale and the request fails. -/
theorem startHeld_cases {d : Daemon} {op : FuseOp} {fh held : Nat} (hop : op.handle = some fh)
    (hheld : ∀ s, d.getFh fh = some s → s.stale = false → held = s.branchId) :
    (∃ e, op.startHeld d held = d.fail e) ∨
      ∃ s, d.getFh fh = some s ∧ held = s.branchId ∧ d.branch held ≠ none ∧ s.stale = false ∧
        op.startHeld d held = op.start d := by
  have hwith : ∀ {s : FhState} (k : FhState → Critical), d.getFh fh = some s →
      d.branch s.branchId ≠ none → s.stale = false → d.withFh fh k = k s := by
    intro s k hs hbr hstale
    obtain ⟨br, hbr⟩ := Option.ne_none_iff_exists'.1 hbr
    simp [Daemon.withFh, Daemon.withBranch, hs, hbr, hstale]
  have hcases : ∀ k k' : FhState → Critical,
      (∀ s, d.getFh fh = some s → held = s.branchId → k s = k' s) →
      (∃ e, d.heldFh fh held k = d.fail e) ∨
        ∃ s, d.getFh fh = some s ∧ held = s.branchId ∧ d.branch held ≠ none ∧ s.stale = false ∧
          d.heldFh fh held k = d.withFh fh k' := by
    intro k k' hk
    rcases heldFh_cases d fh held k with hfail | ⟨s, hs, hbr, hstale, heq⟩
    · exact Or.inl hfail
    · have hb := hheld s hs hstale
      refine Or.inr ⟨s, hs, hb, hbr, hstale, ?_⟩
      rw [heq, hk s hs hb, hwith k' hs (hb ▸ hbr) hstale]
  cases op with
  | read fh' offset size =>
      cases hop
      exact hcases _ _ fun _ _ _ => rfl
  | write fh' offset data =>
      cases hop
      exact hcases _ _ fun _ _ _ => rfl
  | flush fh' =>
      cases hop
      refine hcases _ _ fun s _ hb => ?_
      subst hb
      rfl
  | truncateFh path fh' length =>
      cases hop
      cases hr : refuseMutation path .eacces with
      | some e => exact Or.inl ⟨e, by simp only [startHeld, hr]⟩
      | none =>
          simp only [startHeld, start, Daemon.casTruncateFh, hr]
          exact hcases _ _ fun _ _ _ => rfl
  | _ => cases hop

/-- A request through a handle changes the record of no other handle. -/
theorem getFh_of_ne [Blake3] (d : Daemon) {op : FuseOp} {fh : Nat} (hop : op.handle = some fh) {k : Nat}
    (hk : k ≠ fh) : ((op.start d).run d).2.getFh k = d.getFh k := by
  have hstart := op.started d
  generalize op.start d = critical at hstart ⊢
  cases hstart with
  | refused op e => rfl
  | read hs | write hs | truncateFh hs =>
      cases hop
      simp only [Critical.run, Daemon.getFh_modifyFh]
      rw [if_neg (Ne.symm hk)]
  | flushClean hs hclean => rfl
  | flush hs hdirty =>
      cases hop
      simp only [Critical.run, Daemon.putFlushed]
      split
      · rw [Daemon.getFh_modifyFh, if_neg (Ne.symm hk)]
        rfl
      · rw [Daemon.getFh_modifyFh, if_neg (Ne.symm hk)]
        simp [Daemon.getFh]
  | _ => cases hop

end FuseOp

/-! ## The invariant -/

namespace FhSystem

/-- What holds at every moment: a handle has the branch it was opened on, it is stale when that
branch is gone, and whoever waits for the lock of another branch waits with a stale handle. -/
structure Coherent (σ : FhSystem) : Prop where
  bounded : FhBounded σ.daemon
  branches : σ.daemon.BranchBounded
  opened : ∀ fh b, σ.opened fh = some b → fh < σ.daemon.nextFhId ∧ b < σ.daemon.nextBranchId
  handle : ∀ fh s, σ.daemon.getFh fh = some s → σ.opened fh = some s.branchId ∧
    (σ.gone fh ∨ σ.daemon.branch s.branchId = none → s.stale = true)
  gone : ∀ fh, σ.gone fh → σ.opened fh ≠ none
  creating : ∀ new, σ.creating = some new → new.branchId < σ.daemon.nextBranchId ∧
    σ.daemon.branch new.branchId = none ∧ ∀ fh, σ.opened fh ≠ some new.branchId
  request : ∀ t r, σ.requests t = some r → r.op.handle = some r.fh ∧
    (r.flushed = true → r.closing = true) ∧ ∃ s, σ.daemon.getFh r.fh = some s ∧
      ∀ b, r.held = some b → s.stale = false → b = s.branchId
  closing : ∀ t r t' r', σ.requests t = some r → σ.requests t' = some r' → r.closing = true →
    r'.fh = r.fh → t' = t

/-- What the critical section of a request through a handle leaves alone. -/
structure FhEffect (d : Daemon) (fh : Nat) (s : FhState) (answer : Answer) (d' : Daemon) : Prop
    where
  trees : ∀ c, c ≠ s.branchId → d'.tree c = d.tree c
  handles : ∀ k, k ≠ fh → d'.getFh k = d.getFh k
  kept : FhKept d d'
  branches : Daemon.BranchesKept d d'
  live : ∀ reply, answer = .ok reply → s.stale = false
  failed : s.stale = true → (∃ e, answer = .error e) ∧ d' = d

namespace Coherent

variable {σ : FhSystem}

/-- The daemon moves on: handles are kept, and a new one is recorded with its branch. -/
theorem moves (h : σ.Coherent) {d' : Daemon} {opened' : Nat → Option Nat}
    (hfh : FhKept σ.daemon d') (hbounded : FhBounded d')
    (hnext : d'.nextBranchId = σ.daemon.nextBranchId)
    (hbr : ∀ c, σ.daemon.branch c = none → d'.branch c = none)
    (hdel : ∀ fh s, d'.getFh fh = some s → d'.branch s.branchId = none →
      σ.daemon.branch s.branchId = none ∨ s.stale = true)
    (hold : ∀ fh, fh < σ.daemon.nextFhId → opened' fh = σ.opened fh)
    (hnew : ∀ fh s, σ.daemon.nextFhId ≤ fh → d'.getFh fh = some s →
      opened' fh = some s.branchId ∧ d'.branch s.branchId ≠ none)
    (hopened : ∀ fh b, σ.daemon.nextFhId ≤ fh → opened' fh = some b →
      fh < d'.nextFhId ∧ σ.daemon.branch b ≠ none) :
    Coherent { σ with daemon := d', opened := opened' } where
  bounded := hbounded
  branches := by
    intro c hc
    rw [hnext]
    exact h.branches c fun hn => hc (hbr c hn)
  opened := by
    intro fh b hb
    -- a handle is an old one or was opened in this step
    rcases Nat.lt_or_ge fh σ.daemon.nextFhId with hlt | hge
    · obtain ⟨h₁, h₂⟩ := h.opened fh b ((hold fh hlt).symm.trans hb)
      exact ⟨Nat.lt_of_lt_of_le h₁ hfh.next_le, hnext ▸ h₂⟩
    · obtain ⟨h₁, h₂⟩ := hopened fh b hge hb
      exact ⟨h₁, hnext ▸ h.branches b h₂⟩
  handle := by
    intro fh s' hs'
    rcases Nat.lt_or_ge fh σ.daemon.nextFhId with hlt | hge
    · obtain ⟨s, hs, hf⟩ := hfh.kept fh s' hs' hlt
      obtain ⟨hop, hst⟩ := h.handle fh s hs
      refine ⟨(hold fh hlt).trans (hf.branchId ▸ hop), ?_⟩
      rintro (hg | hn)
      · exact hf.stale (hst (Or.inl hg))
      -- its branch is gone now, so it is stale
      · rcases hdel fh s' hs' hn with hn' | hst'
        · exact hf.stale (hst (Or.inr (hf.branchId ▸ hn')))
        · exact hst'
    · obtain ⟨hop, hb⟩ := hnew fh s' hge hs'
      refine ⟨hop, ?_⟩
      rintro (hg | hn)
      · obtain ⟨b, hb'⟩ := Option.ne_none_iff_exists'.1 (h.gone fh hg)
        have hlt := (h.opened fh b hb').1
        omega
      · exact absurd hn hb
  gone := by
    intro fh hg
    obtain ⟨b, hb⟩ := Option.ne_none_iff_exists'.1 (h.gone fh hg)
    show opened' fh ≠ none
    rw [hold fh (h.opened fh b hb).1, hb]
    exact Option.some_ne_none b
  creating := by
    intro new hnew'
    obtain ⟨h₁, h₂, h₃⟩ := h.creating new hnew'
    refine ⟨hnext ▸ h₁, hbr _ h₂, fun fh hop => ?_⟩
    rcases Nat.lt_or_ge fh σ.daemon.nextFhId with hlt | hge
    · exact h₃ fh ((hold fh hlt).symm.trans hop)
    · exact (hopened fh _ hge hop).2 h₂
  request := by
    intro t r hr
    obtain ⟨hop, hfl, s, hs, hheld⟩ := h.request t r hr
    obtain ⟨s', hs'⟩ := Option.ne_none_iff_exists'.1 (hfh.stays r.fh (by simp [hs]))
    obtain ⟨s₀, hs₀, hf⟩ := hfh.kept r.fh s' hs' (h.bounded r.fh s hs)
    rw [hs] at hs₀
    cases hs₀
    refine ⟨hop, hfl, s', hs', fun b hb hst => ?_⟩
    rw [hf.branchId]
    refine hheld b hb ?_
    cases hstale : s.stale with
    | false => rfl
    | true =>
        rw [hf.stale hstale] at hst
        cases hst
  closing := h.closing

/-- The daemon moves on and opens nothing. -/
theorem quiet (h : σ.Coherent) {d' : Daemon} (hfh : FhQuiet σ.daemon d')
    (hnext : d'.nextBranchId = σ.daemon.nextBranchId)
    (hbr : ∀ c, σ.daemon.branch c = none → d'.branch c = none)
    (hdel : ∀ fh s, d'.getFh fh = some s → d'.branch s.branchId = none →
      σ.daemon.branch s.branchId = none ∨ s.stale = true) :
    Coherent { σ with daemon := d' } := by
  have hbounded := hfh.bounded h.bounded
  show Coherent { σ with daemon := d', opened := σ.opened }
  refine h.moves hfh.toFhKept hbounded hnext hbr hdel (fun _ _ => rfl) ?_ ?_
  · intro fh s hge hs
    have hlt := hbounded fh s hs
    rw [hfh.next_eq] at hlt
    omega
  · intro fh b hge hb
    have hlt := (h.opened fh b hb).1
    omega

/-- The same when the branches stay. -/
theorem kept (h : σ.Coherent) {d' : Daemon} (hfh : FhQuiet σ.daemon d')
    (hbr : Daemon.BranchesKept σ.daemon d') : Coherent { σ with daemon := d' } :=
  h.quiet hfh hbr.next_eq (fun c => (hbr.branches c).2)
    fun _ _ _ hn => Or.inl ((hbr.branches _).1 hn)

/-- A branch whose handles are all stale may count as gone. -/
theorem goneWith (h : σ.Coherent) {b : Nat}
    (hstale : ∀ fh s, σ.daemon.getFh fh = some s → s.branchId = b → s.stale = true) :
    Coherent { σ with gone := σ.goneWith b } where
  bounded := h.bounded
  branches := h.branches
  opened := h.opened
  handle := by
    intro fh s hs
    obtain ⟨hop, hst⟩ := h.handle fh s hs
    refine ⟨hop, ?_⟩
    rintro ((hg | hb) | hn)
    · exact hst (Or.inl hg)
    · exact hstale fh s hs (Option.some.inj (hop.symm.trans hb))
    · exact hst (Or.inr hn)
  gone := by
    rintro fh (hg | hb)
    · exact h.gone fh hg
    · exact fun hn => by simp [hb] at hn
  creating := h.creating
  request := h.request
  closing := h.closing

/-- Another record for the request `t`. -/
theorem setRequest (h : σ.Coherent) {t : Nat} {o : Option FhRequest}
    (hreq : ∀ r, o = some r → r.op.handle = some r.fh ∧
      (r.flushed = true → r.closing = true) ∧ ∃ s, σ.daemon.getFh r.fh = some s ∧
        ∀ b, r.held = some b → s.stale = false → b = s.branchId)
    (hclosing : ∀ r, o = some r → ∀ t' r', t' ≠ t → σ.requests t' = some r' →
      (r.closing = true ∨ r'.closing = true) → r'.fh ≠ r.fh) :
    Coherent { σ with requests := σ.setRequest t o } where
  bounded := h.bounded
  branches := h.branches
  opened := h.opened
  handle := h.handle
  gone := h.gone
  creating := h.creating
  request := by
    intro t' r hr
    simp only [FhSystem.setRequest, Function.update_apply] at hr
    split at hr
    · exact hreq r hr
    · exact h.request t' r hr
  closing := by
    intro t₁ r₁ t₂ r₂ h₁ h₂ hc heq
    simp only [FhSystem.setRequest, Function.update_apply] at h₁ h₂
    split at h₁
    · split at h₂
      · rename_i ht₁ ht₂
        rw [ht₁, ht₂]
      · rename_i hne
        exact absurd heq (hclosing r₁ h₁ t₂ r₂ hne h₂ (Or.inl hc))
    · split at h₂
      · rename_i hne _
        exact absurd heq.symm (hclosing r₂ h₂ t₁ r₁ hne h₁ (Or.inr hc))
      · exact h.closing t₁ r₁ t₂ r₂ h₁ h₂ hc heq

/-- A handle is released after its last request. -/
theorem releaseFh (h : σ.Coherent) {t : Nat} {r : FhRequest} (hr : σ.requests t = some r)
    (hclosing : r.closing = true) :
    Coherent {
      σ with
      daemon := σ.daemon.releaseFh r.fh
      requests := σ.setRequest t none } where
  bounded := by
    intro fh s hs
    rw [Daemon.getFh_releaseFh] at hs
    split at hs
    · cases hs
    · exact h.bounded fh s hs
  branches := h.branches
  opened := h.opened
  handle := by
    intro fh s hs
    rw [Daemon.getFh_releaseFh] at hs
    split at hs
    · cases hs
    · exact h.handle fh s hs
  gone := h.gone
  creating := h.creating
  request := by
    intro t' r' hr'
    simp only [FhSystem.setRequest, Function.update_apply] at hr'
    split at hr'
    · cases hr'
    · rename_i hne
      obtain ⟨hop, hfl, s, hs, hheld⟩ := h.request t' r' hr'
      refine ⟨hop, hfl, s, ?_, hheld⟩
      rw [Daemon.getFh_releaseFh, if_neg, hs]
      exact fun heq => hne (h.closing t r t' r' hr hr' hclosing heq.symm)
  closing := by
    intro t₁ r₁ t₂ r₂ h₁ h₂ hc heq
    simp only [FhSystem.setRequest, Function.update_apply] at h₁ h₂
    split at h₁
    · cases h₁
    · split at h₂
      · cases h₂
      · exact h.closing t₁ r₁ t₂ r₂ h₁ h₂ hc heq

/-- A fork takes the next branch id, which no handle was opened on. -/
theorem reserve (h : σ.Coherent) {next : Nat}
    (hnext : σ.daemon.nextBranchId ≤ next) {o : Option Daemon.NewBranch}
    (ho : ∀ new, o = some new → new.branchId = σ.daemon.nextBranchId ∧
      σ.daemon.nextBranchId < next) :
    Coherent {
      σ with
      daemon := { σ.daemon with nextBranchId := next }
      creating := o } where
  bounded := h.bounded
  branches := h.branches.of_branches rfl hnext
  opened := fun fh b hb =>
    ⟨(h.opened fh b hb).1, Nat.lt_of_lt_of_le (h.opened fh b hb).2 hnext⟩
  handle := h.handle
  gone := h.gone
  creating := by
    intro new hnew
    obtain ⟨hid, hlt⟩ := ho new hnew
    rw [hid]
    refine ⟨hlt, ?_, fun fh hop => Nat.lt_irrefl _ (h.opened fh _ hop).2⟩
    by_contra hbr
    exact Nat.lt_irrefl _ (h.branches _ hbr)
  request := h.request
  closing := h.closing

/-- The new branch appears under an id that no handle has. -/
theorem publish (h : σ.Coherent) {new : Daemon.NewBranch} (hnew : σ.creating = some new)
    {d' : Daemon} {br : BranchContext} (hbr : d'.branches = σ.daemon.branches.insert new.branchId br)
    (hfh : d'.fhTable = σ.daemon.fhTable) (hnextFh : d'.nextFhId = σ.daemon.nextFhId)
    (hnext : d'.nextBranchId = σ.daemon.nextBranchId) :
    Coherent { σ with daemon := d', creating := none } := by
  obtain ⟨hlt, -, hfresh⟩ := h.creating new hnew
  have hget : ∀ fh, d'.getFh fh = σ.daemon.getFh fh := fun fh => by
    rw [Daemon.getFh, Daemon.getFh, hfh]
  have hbranch := fun c => σ.daemon.branch_insert new.branchId br c hbr
  exact {
    bounded := fun fh s hs => hnextFh.symm ▸ h.bounded fh s ((hget fh).symm.trans hs)
    branches := by
      intro c hc
      rw [hbranch] at hc
      show c < d'.nextBranchId
      rw [hnext]
      split at hc
      · omega
      · exact h.branches c hc
    opened := fun fh b hb =>
      ⟨hnextFh.symm ▸ (h.opened fh b hb).1, hnext.symm ▸ (h.opened fh b hb).2⟩
    handle := by
      intro fh s hs
      obtain ⟨hop, hst⟩ := h.handle fh s ((hget fh).symm.trans hs)
      refine ⟨hop, ?_⟩
      rintro (hg | hn)
      · exact hst (Or.inl hg)
      · have hne : new.branchId ≠ s.branchId := fun heq => hfresh fh (by rw [heq, hop])
        rw [hbranch, if_neg hne] at hn
        exact hst (Or.inr hn)
    gone := h.gone
    creating := fun _ hn => (by cases hn)
    request := by
      intro t r hr
      obtain ⟨hop, hfl, s, hs, hheld⟩ := h.request t r hr
      exact ⟨hop, hfl, s, (hget r.fh).trans hs, hheld⟩
    closing := h.closing }

/-- A request through a handle begins. -/
theorem begin (h : σ.Coherent) {t fh : Nat} {op : FuseOp} {closing : Bool} {s : FhState}
    (hfh : op.handle = some fh) (hs : σ.daemon.getFh fh = some s)
    (hclosing : closing = true → ∀ t' r, σ.requests t' = some r → r.fh ≠ fh)
    (hopen : ∀ t' r, σ.requests t' = some r → r.closing = true → r.fh ≠ fh) :
    Coherent {
      σ with
      requests := σ.setRequest t (some { op := op, fh := fh, closing := closing }) } := by
  refine h.setRequest ?_ ?_
  · intro r hr
    cases hr
    exact ⟨hfh, (fun hf => (by cases hf)), s, hs, fun b hb => (by cases hb)⟩
  · intro r hr t' r' hne hr' hc heq
    cases hr
    rcases hc with hc | hc
    · exact hclosing hc t' r' hr' heq
    · exact hopen t' r' hr' hc heq

/-- A request finds its branch: another one than the branch of the handle only when that one is
gone, and then the handle is stale. -/
theorem bind (h : σ.Coherent) {t : Nat} {r : FhRequest} {s : FhState}
    (hr : σ.requests t = some r) (hs : σ.daemon.getFh r.fh = some s) :
    Coherent {
      σ with
      requests := σ.setRequest t (some { r with held := some (σ.daemon.branchForFh s) }) } := by
  obtain ⟨hop, hfl, -⟩ := h.request t r hr
  refine h.setRequest ?_ ?_
  · intro r' hr'
    cases hr'
    refine ⟨hop, hfl, s, hs, fun b hb hst => ?_⟩
    cases hb
    unfold Daemon.branchForFh
    cases hbr : σ.daemon.branch s.branchId with
    | some br => rfl
    | none => simp [(h.handle r.fh s hs).2 (Or.inr hbr)] at hst
  · intro r' hr' t' r'' hne hr'' hc heq
    cases hr'
    rcases hc with hc | hc
    · exact hne (h.closing t r t' r'' hr hr'' hc heq)
    · exact hne (h.closing t' r'' t r hr'' hr hc heq.symm).symm

/-- What a critical section does to the daemon keeps the invariant: the handle is there and no
other one changes. -/
theorem critical (h : σ.Coherent) {fh : Nat} {s : FhState} {answer : Answer}
    {d' : Daemon} (hs : σ.daemon.getFh fh = some s) (heff : FhEffect σ.daemon fh s answer d') :
    Coherent { σ with daemon := d' } := by
  have hnew : ∀ k, σ.daemon.nextFhId ≤ k → d'.getFh k = none := by
    intro k hge
    have hlt := h.bounded fh s hs
    rw [heff.handles k (by omega)]
    cases hk : σ.daemon.getFh k with
    | none => rfl
    | some s' =>
        have := h.bounded k s' hk
        omega
  show Coherent { σ with daemon := d', opened := σ.opened }
  refine h.moves heff.kept ?_ heff.branches.next_eq (fun c => (heff.branches.branches c).2)
    (fun _ _ _ hn => Or.inl ((heff.branches.branches _).1 hn)) (fun _ _ => rfl) ?_ ?_
  · intro k s' hk
    refine Nat.lt_of_lt_of_le ?_ heff.kept.next_le
    by_contra hge
    simp [hnew k (Nat.le_of_not_lt hge)] at hk
  · intro k s' hge hk
    simp [hnew k hge] at hk
  · intro k b' hge hk
    have := (h.opened k b' hk).1
    omega

/-- A rollback and a merge leave no open handle of their branch alive. -/
theorem invalidated (h : σ.Coherent) {d' : Daemon} {b : Nat} {ok : Bool}
    (hquiet : FhQuiet σ.daemon d') (hbr : Daemon.BranchesKept σ.daemon d')
    (hstale : ok = true → ∀ fh s, d'.getFh fh = some s → s.branchId = b → s.stale = true) :
    Coherent {
      σ with
      daemon := d'
      gone := if ok then σ.goneWith b else σ.gone } := by
  have hkept := h.kept hquiet hbr
  cases ok with
  | true => exact hkept.goneWith (hstale rfl)
  | false => exact hkept

/-- A fork takes its id while there are ids left. -/
theorem beginCreate (h : σ.Coherent) (hids : σ.IdsLeft) (name source : Bytes) :
    Coherent {
      σ with
      daemon := (σ.daemon.beginCreate name source).2
      creating := (σ.daemon.beginCreate name source).1 } := by
  rcases σ.daemon.beginCreate_cases name source hids with ⟨next, hle, heq⟩ | ⟨new, hid, heq⟩
  · rw [heq]
    exact h.reserve hle fun _ hn => (by cases hn)
  · rw [heq]
    refine h.reserve (Nat.le_succ _) fun new' hn => ?_
    cases hn
    exact ⟨hid, Nat.lt_succ_self _⟩

/-- A fork publishes its branch, or fails and leaves none behind. -/
theorem endCreate (h : σ.Coherent) {new : Daemon.NewBranch}
    (hnew : σ.creating = some new) :
    Coherent { σ with daemon := (σ.daemon.endCreate new).2, creating := none } := by
  rcases σ.daemon.endCreate_cases new with ⟨refs, heq⟩ | ⟨refs, heq⟩
  · rw [heq]
    have hkept : Coherent { σ with daemon := { σ.daemon with refs := refs } } :=
      h.kept (.of_eq rfl rfl) (.of_eq rfl rfl)
    exact { hkept with creating := fun _ hn => (by cases hn) }
  · rw [heq]
    exact h.publish hnew rfl rfl rfl rfl

/-- A deletion takes its branch out of the table and leaves the handles of it stale. -/
theorem delete (h : σ.Coherent) {name : Bytes} {routed : Bool} {b : Nat}
    {br : BranchContext} (hname : σ.daemon.branchByName name = some (b, br)) :
    Coherent {
      σ with
      daemon := (σ.daemon.deleteBranch name routed).2
      gone := if (σ.daemon.deleteBranch name routed).1 then σ.goneWith b else σ.gone } := by
  have hquiet := fhQuiet_deleteBranch σ.daemon name routed
  rcases σ.daemon.deleteBranch_cases name routed with
    ⟨refs, heq⟩ | ⟨b', br', refs, hname', -, heq⟩
  · rw [heq] at hquiet ⊢
    exact h.kept hquiet (.of_eq rfl rfl)
  · rw [hname] at hname'
    cases hname'
    rw [heq] at hquiet ⊢
    have hstale : ∀ fh s, Daemon.getFh { σ.daemon with
          refs := refs
          fhTable := invalidateFhs b σ.daemon.fhTable
          branches := σ.daemon.branches.erase b } fh = some s →
        s.branchId = b → s.stale = true :=
      fun fh s hs => Daemon.stale_of_invalidated rfl hs
    have hbranch : ∀ c, Daemon.branch { σ.daemon with
          refs := refs
          fhTable := invalidateFhs b σ.daemon.fhTable
          branches := σ.daemon.branches.erase b } c =
        if b = c then none else σ.daemon.branch c := by
      intro c
      unfold Daemon.branch
      by_cases hc : b = c
      · simp [hc]
      · simp [ExtTreeMap.getElem?_erase, hc]
    have hdel := h.quiet hquiet rfl (fun c hn => by rw [hbranch]; split <;> simp [hn])
      fun fh s hs hn => by
        rw [hbranch] at hn
        split at hn
        · rename_i hb
          exact Or.inr (hstale fh s hs hb.symm)
        · exact Or.inl hn
    exact hdel.goneWith hstale

end Coherent

section Run

variable [Blake3] {σ σ' : FhSystem}

theorem coherent_of_init (h : Init σ) : σ.Coherent := by
  obtain ⟨d, timestampNs, fuel, hd⟩ := h.started
  obtain ⟨hbranches, hfh⟩ := Daemon.initializeDaemon_spec hd
  have hnone : ∀ fh, σ.daemon.getFh fh = none := by
    intro fh
    simp [Daemon.getFh, hfh]
  exact {
    bounded := fun fh s hs => by simp [hnone] at hs
    branches := hbranches
    opened := fun fh b hb => by simp [h.opened] at hb
    handle := fun fh s hs => by simp [hnone] at hs
    gone := fun fh hg => absurd hg (h.gone fh)
    creating := fun new hnew => by simp [h.creating] at hnew
    request := fun t r hr => by simp [h.requests] at hr
    closing := fun t r _ _ hr => by simp [h.requests] at hr }

/-- A request by path keeps the invariant: a handle it opens is new, and its branch is the one
that is locked. -/
theorem Coherent.path (h : σ.Coherent) {op : FuseOp} {b : Nat} (hb : op.pathBranch = some b) :
    Coherent {
      σ with
      daemon := ((op.start σ.daemon).run σ.daemon).2
      opened := fun fh =>
        if fh = σ.daemon.nextFhId then
          (((op.start σ.daemon).run σ.daemon).2.getFh fh).map fun _ => b
        else σ.opened fh } := by
  obtain ⟨hkept, hbounded⟩ := op.fhKept σ.daemon
  have hlock : op.lock σ.daemon = some b := by
    cases op <;> first | exact hb | cases hb
  have honly := op.onlyTree σ.daemon (b := b) fun b' hb' => by simpa [hlock] using hb'.symm
  have hnew : ∀ fh s, ((op.start σ.daemon).run σ.daemon).2.getFh fh = some s →
      σ.daemon.nextFhId ≤ fh → fh = σ.daemon.nextFhId ∧ b = s.branchId ∧
        σ.daemon.branch s.branchId ≠ none := by
    intro fh s hs hge
    obtain ⟨hfh, hl, hbr, -⟩ := op.opened_handle σ.daemon h.bounded hs hge
    exact ⟨hfh, Option.some.inj (hlock.symm.trans hl), hbr⟩
  refine h.moves hkept (hbounded h.bounded) honly.next_eq (fun c => (honly.branches c).2)
    (fun _ s _ hn => Or.inl ((honly.branches _).1 hn)) ?_ ?_ ?_
  · intro fh hlt
    rw [if_neg (Nat.ne_of_lt hlt)]
  · intro fh s hge hs
    obtain ⟨hfh, hbs, hbr⟩ := hnew fh s hs hge
    rw [if_pos hfh, hs, hbs]
    exact ⟨rfl, fun hn => hbr ((honly.branches _).1 hn)⟩
  · intro fh b' hge hop
    split at hop
    · obtain ⟨s, hs, hbb⟩ := Option.map_eq_some_iff.1 hop
      obtain ⟨-, hbs, hbr⟩ := hnew fh s hs hge
      exact ⟨hbounded h.bounded fh s hs, by rw [← hbb, hbs]; exact hbr⟩
    · have hlt := (h.opened fh b' hop).1
      omega

theorem fhEffect_startHeld {d : Daemon} {op : FuseOp} {fh held : Nat} {s : FhState}
    (hop : op.handle = some fh) (hs : d.getFh fh = some s)
    (hheld : s.stale = false → held = s.branchId) :
    FhEffect d fh s ((op.startHeld d held).run d).1 ((op.startHeld d held).run d).2 ∧
      ∀ reply, ((op.startHeld d held).run d).1 = .ok reply → held = s.branchId := by
  have hheld' : ∀ s', d.getFh fh = some s' → s'.stale = false → held = s'.branchId := by
    intro s' hs'
    rw [hs] at hs'
    cases hs'
    exact hheld
  rcases FuseOp.startHeld_cases hop hheld' with
    ⟨e, heq⟩ | ⟨s', hs', hb, hbr, hstale, heq⟩
  · rw [heq]
    refine ⟨⟨fun _ _ => rfl, fun _ _ => rfl, .refl d, .refl d, ?_, ?_⟩, ?_⟩
    · intro reply hr
      cases hr
    · exact fun _ => ⟨⟨e, rfl⟩, rfl⟩
    · intro reply hr
      cases hr
  · rw [hs] at hs'
    cases hs'
    rw [heq]
    have hlock : ∀ b', op.lock d = some b' → b' = s.branchId := by
      intro b' hb'
      cases op <;> first
        | (cases hop; simpa [FuseOp.lock, FuseOp.fhBranch, hs] using hb'.symm)
        | cases hop
    have honly := op.onlyTree d hlock
    refine ⟨⟨honly.trees, fun k hk => op.getFh_of_ne d hop hk, (op.fhKept d).1,
      ⟨honly.branches, honly.next_eq⟩, fun _ _ => hstale, fun h => ?_⟩, fun _ _ => hb⟩
    rw [hstale] at h
    cases h

/-- A request through a handle gets its lock and is over, up to the release that may follow. -/
theorem Coherent.finish (h : σ.Coherent) {t b : Nat} {r : FhRequest}
    (hr : σ.requests t = some r) (hheld : r.held = some b) :
    Coherent {
      σ with
      daemon := ((r.op.startHeld σ.daemon b).run σ.daemon).2
      requests :=
        σ.setRequest t (if r.closing then some { r with flushed := true } else none) } := by
  obtain ⟨hop, -, s, hs, hb⟩ := h.request t r hr
  have hmoved := h.critical hs (fhEffect_startHeld hop hs (hb b hheld)).1
  obtain ⟨-, -, s', hs', hb'⟩ := hmoved.request t r hr
  refine hmoved.setRequest ?_ ?_
  · intro r' hr'
    split at hr'
    · rename_i hc
      cases hr'
      exact ⟨hop, fun _ => hc, s', hs', hb'⟩
    · cases hr'
  · intro r' hr' t' r'' hne hr'' hc heq
    split at hr'
    · rename_i hcl
      cases hr'
      exact hne (h.closing t r t' r'' hr hr'' hcl heq)
    · cases hr'

/-- Every lock taken keeps the invariant. -/
theorem coherent_step {ev : FhEvent} (h : σ.Coherent) (hs : Step σ ev σ')
    (hwrap : NoWrap σ ev σ') : σ'.Coherent := by
  cases hs with
  | path hb => exact h.path hb
  | begin hfh hfree hs hclosing hopen =>
      exact h.begin hfh hs (fun hc => (hclosing hc).2) hopen
  | bind hr hheld hs => exact h.bind hr hs
  | finish hr hheld hflushed => exact h.finish hr hheld
  | close hr hflushed =>
      obtain ⟨-, hfl, -⟩ := h.request _ _ hr
      exact h.releaseFh hr (hfl hflushed)
  | checkpoint hgate =>
      exact h.kept (fhQuiet_checkpointBranch _ _ _ _ _) (Daemon.branchesKept_checkpointBranch _ _ _ _ _)
  | rollback hgate hname hr =>
      obtain ⟨hbr, hinv⟩ := Daemon.branchesKept_rollback hr
      refine h.invalidated (fhQuiet_rollback hr) hbr fun hok fh s hs => ?_
      obtain ⟨b', br', hname', hfhs⟩ := hinv hok
      rw [hname] at hname'
      cases hname'
      exact Daemon.stale_of_invalidated hfhs hs
  | beginCreate hgate => exact h.beginCreate (hwrap rfl) _ _
  | endCreate hnew => exact h.endCreate hnew
  | delete hgate hname => exact h.delete hname
  | merge hgate hname hr =>
      obtain ⟨hbr, hinv⟩ := Daemon.branchesKept_mergeBranch hr
      refine h.invalidated (fhQuiet_mergeBranch hr) hbr fun hok fh s hs => ?_
      obtain ⟨b', br', fhs, hname', hfhs⟩ := hinv hok
      rw [hname] at hname'
      cases hname'
      exact Daemon.stale_of_invalidated hfhs hs
  | refused => exact h

theorem coherent_of_reaches (h : Reaches Init (Restrict Step NoWrap) σ) : σ.Coherent :=
  h.invariant (fun _ => coherent_of_init) fun _ _ _ hi hs => coherent_step hi hs.1 hs.2

/-- A request through a handle answers only under the lock of the branch the handle was opened
on and changes nothing but the tree of that branch and its own record.  Once the branch was
deleted, rolled back or merged into it fails and changes nothing at all, and no later branch has
the id of one that a handle was opened on.  The counter of branch ids must not wrap. -/
theorem handle_bound_to_branch {ev : FhEvent} (hr : Reaches Init (Restrict Step NoWrap) σ)
    (hs : Step σ ev σ') :
    (∀ t r answer, ev = .finish t answer → σ.requests t = some r →
      ∃ b, σ.opened r.fh = some b ∧
        (∀ c, c ≠ b → σ'.daemon.tree c = σ.daemon.tree c) ∧
        (∀ k, k ≠ r.fh → σ'.daemon.getFh k = σ.daemon.getFh k) ∧
        (∀ reply, answer = .ok reply → r.held = some b) ∧
        (σ.gone r.fh → (∃ e, answer = .error e) ∧ σ'.daemon = σ.daemon)) ∧
    ((∃ t, ev = .bind t ∨ ev = .close t ∨ ∃ fh op closing, ev = .begin t fh op closing) →
      σ'.daemon.branches = σ.daemon.branches) ∧
    ∀ b, ev = .endCreate (some b) → σ.daemon.branch b = none ∧ ∀ fh, σ.opened fh ≠ some b := by
  have h := coherent_of_reaches hr
  refine ⟨?_, ?_, ?_⟩
  · intro t r answer hev hreq
    subst hev
    cases hs with
    | @finish _ r' b hr' hheld hflushed =>
        rw [hreq] at hr'
        cases hr'
        obtain ⟨hop, -, s, hgot, hb⟩ := h.request t r hreq
        obtain ⟨heff, hok⟩ := fhEffect_startHeld hop hgot (hb b hheld)
        obtain ⟨hopened, hstale⟩ := h.handle r.fh s hgot
        refine ⟨s.branchId, hopened, heff.trees, heff.handles, fun reply hans => ?_, fun hg => ?_⟩
        · rw [hheld, hok reply hans]
        · exact heff.failed (hstale (Or.inl hg))
  · rintro ⟨t, rfl | rfl | ⟨fh, op, closing, rfl⟩⟩
    · cases hs with
      | bind hr hheld hs => rfl
    · cases hs with
      | close hr hflushed => rfl
    · cases hs with
      | begin hfh hfree hs hclosing hopen => rfl
  · intro b hev
    cases hs with
    | @endCreate new hnew =>
        rcases σ.daemon.endCreate_cases new with ⟨refs, heq⟩ | ⟨refs, heq⟩
        · rw [heq] at hev
          cases hev
        · rw [heq] at hev
          cases hev
          exact (h.creating new hnew).2
    | _ => cases hev

end Run

/-! ## A handle of a deleted branch -/

section Deleted

local instance : Blake3 := foldDigest

/-- The start on an empty store. -/
@[irreducible] def freshStart : Option (Bool × Daemon) := ({} : Daemon).initializeDaemon 0 1

/-- A daemon on a fresh store. -/
@[irreducible] def freshDaemon : Daemon := (freshStart.map (·.2)).getD {}

/-- The branch `b` while it is created. -/
@[irreducible] def forkOfB : Option Daemon.NewBranch × Daemon :=
  freshDaemon.beginCreate [98] Refs.mainName

/-- The daemon with the branch `b`. -/
@[irreducible] def daemonWithB : Daemon := (freshDaemon.createBranch [98] Refs.mainName).2

/-- The daemon with a handle on the file `f` of `b`. -/
@[irreducible] def daemonWithHandle : Daemon :=
  (((FuseOp.create 1 [[102]] 0).start daemonWithB).run daemonWithB).2

/-- The daemon after the deletion of `b`. -/
@[irreducible] def daemonWithoutB : Daemon := (daemonWithHandle.deleteBranch [98] false).2

/-- A write to that handle that waits for the lock of `b`. -/
def waitingWrite : FhRequest :=
  { op := .write 1 0 [7], fh := 1, closing := false, held := some 1 }

/-- The handle was opened on `b`. -/
def openedOnB : Nat → Option Nat := fun fh =>
  if fh = daemonWithB.nextFhId then (daemonWithHandle.getFh fh).map fun _ => 1 else none

/-- A system without history. -/
def quietSystem (d : Daemon) : FhSystem where
  daemon := d
  requests := fun _ => none
  creating := none
  opened := fun _ => none
  gone := fun _ => False

/-- A write to the handle has begun. -/
def writingInB : FhSystem :=
  { quietSystem daemonWithHandle with
    opened := openedOnB
    requests := (quietSystem daemonWithHandle).setRequest 0
      (some { waitingWrite with held := none }) }

/-- The branch is deleted while the write waits. -/
def deletedB : FhSystem where
  daemon := daemonWithoutB
  requests := writingInB.setRequest 0 (some waitingWrite)
  creating := none
  opened := openedOnB
  gone := fun fh => False ∨ openedOnB fh = some 1

theorem initializeDaemon_freshDaemon :
    ({} : Daemon).initializeDaemon 0 1 = some (true, freshDaemon) := by
  have hok : freshStart.map (·.1) = some true := by decide +kernel
  obtain ⟨⟨ok, d⟩, hd, hok⟩ := Option.map_eq_some_iff.1 hok
  have hfresh : freshDaemon = d := by
    rw [freshDaemon, hd]
    rfl
  have hok' : ok = true := hok
  rw [hok', ← hfresh] at hd
  unfold freshStart at hd
  exact hd

theorem init_freshDaemon : Init (quietSystem freshDaemon) where
  started := ⟨{}, 0, 1, initializeDaemon_freshDaemon⟩
  requests := rfl
  creating := rfl
  opened := rfl
  gone := fun _ h => h
  ids := show freshDaemon.nextBranchId + 1 < 2 ^ 32 by decide +kernel

theorem reaches_daemonWithHandle : Reaches Init (Restrict Step NoWrap)
    { quietSystem daemonWithHandle with opened := openedOnB } := by
  obtain ⟨new, hnew⟩ := Option.isSome_iff_exists.1
    (show forkOfB.1.isSome = true by decide +kernel)
  have hids : freshDaemon.nextBranchId + 1 < 2 ^ 32 := init_freshDaemon.ids
  have hfork : freshDaemon.beginCreate [98] Refs.mainName = (some new, forkOfB.2) := by
    rw [← hnew, forkOfB]
  have hend : daemonWithB = (forkOfB.2.endCreate new).2 := by
    rw [daemonWithB, Daemon.createBranch_eq _ _ _ hids, hfork]
  have h₀ : Reaches Init (Restrict Step NoWrap) (quietSystem freshDaemon) :=
    .start init_freshDaemon
  have h₁ := h₀.step ⟨@Step.beginCreate _ _ [98] Refs.mainName rfl, fun _ => hids⟩
  have hd : (quietSystem freshDaemon).daemon = freshDaemon := rfl
  rw [hd, hfork] at h₁
  have h₂ := h₁.step ⟨@Step.endCreate _ _ new rfl, fun h => (by cases h)⟩
  rw [← hend] at h₂
  have h₃ := h₂.step ⟨@Step.path _ _ (.create 1 [[102]] 0) 1 rfl, fun h => (by cases h)⟩
  rw [← daemonWithHandle] at h₃
  exact h₃

theorem reaches_deletedB : Reaches Init (Restrict Step NoWrap) deletedB := by
  obtain ⟨s, hs⟩ := Option.isSome_iff_exists.1
    (show (daemonWithHandle.getFh 1).isSome = true by decide +kernel)
  have hbound : daemonWithHandle.branchForFh s = 1 := by
    have h : (daemonWithHandle.getFh 1).map daemonWithHandle.branchForFh = some 1 := by
      decide +kernel
    rw [hs] at h
    exact Option.some.inj h
  obtain ⟨⟨b, br⟩, hname⟩ := Option.isSome_iff_exists.1
    (show (daemonWithHandle.branchByName [98]).isSome = true by decide +kernel)
  have hb : b = 1 := by
    have h : (daemonWithHandle.branchByName [98]).map (·.1) = some 1 := by decide +kernel
    rw [hname] at h
    exact Option.some.inj h
  subst hb
  have hdel : (daemonWithHandle.deleteBranch [98] false).1 = true := by decide +kernel
  have h₁ : Reaches Init (Restrict Step NoWrap) writingInB := reaches_daemonWithHandle.step
    ⟨@Step.begin _ _ 0 1 (.write 1 0 [7]) false _ rfl rfl hs
      (fun h => (by cases h)) (fun _ _ h => (by cases h)), fun h => (by cases h)⟩
  have hreq : writingInB.requests 0 = some { waitingWrite with held := none } :=
    (quietSystem daemonWithHandle).setRequest_self 0 _
  have h₂ := h₁.step ⟨.bind hreq rfl hs, fun h => (by cases h)⟩
  have h₃ := h₂.step ⟨@Step.delete _ _ [98] false _ _ rfl hname, fun h => (by cases h)⟩
  have hsame : deletedB = {
      writingInB with
      daemon := (daemonWithHandle.deleteBranch [98] false).2
      requests := writingInB.setRequest 0
        (some { waitingWrite with held := some (daemonWithHandle.branchForFh s) })
      gone :=
        if (daemonWithHandle.deleteBranch [98] false).1 then writingInB.goneWith 1
        else writingInB.gone } := by
    rw [hbound, hdel, if_pos rfl, deletedB, daemonWithoutB]
    rfl
  rw [hsame]
  exact h₃

/-- A write begins on a branch, finds the branch, and gets its lock after the deletion. -/
theorem handle_bound_to_branch_deletedB : ∃ answer σ', Step deletedB (.finish 0 answer) σ' ∧
    deletedB.opened 1 = some 1 ∧ deletedB.gone 1 ∧
      (∃ e, answer = .error e) ∧ σ'.daemon = deletedB.daemon := by
  have hreq : deletedB.requests 0 = some waitingWrite :=
    writingInB.setRequest_self 0 _
  have hstep := Step.finish (b := 1) hreq rfl rfl
  have hopened : openedOnB 1 = some 1 := by decide +kernel
  have hgone : deletedB.gone 1 := Or.inr hopened
  obtain ⟨b, -, -, -, -, hfail⟩ :=
    (handle_bound_to_branch reaches_deletedB hstep).1 0 _ _ rfl hreq
  exact ⟨_, _, hstep, hopened, hgone, hfail hgone⟩

end Deleted

end FhSystem
end ContextFS
