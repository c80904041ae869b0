import ContextFS.Router.Settled

/-!
# Sessions and branches

The daemon around the router: the table of branches under its own lock, `session.register` and
`session.unregister`, `create_branch` and `delete_branch`, and file operations that pick their
branch by the pid they come from.  A request looks its branch up, reads the id of the cgroup and
registers it in three steps; `delete_branch` holds the table from its check to its end; the only
part of `create_branch` that counts here is the one that enters the branch into the table.
-/

namespace ContextFS

open Lib

/-- A request on the control socket, between its critical sections. -/
inductive SessionRequest
  | found (path : CgroupPath) (branchId : Nat)
  | read (cgId branchId : Nat)
  | readUnregister (cgId : Nat)
  | finished (ok : Bool)

/-- A file operation by path: its call of `resolve`, the branch that serves it in the end, and the
moments up to then. -/
structure FileOp where
  pid : Pid
  call : Nat
  served : Option Nat := none
  moments : List Moment := []

/-- `"main"`. -/
def mainName : Bytes := [109, 97, 105, 110]

/-- The id of main. -/
def mainId : Nat := 0

structure SessionSystem where
  router : RouterSystem
  branchNameIds : List (Bytes × Nat) := [(mainName, mainId)]
  branches : List (Nat × Bytes) := [(mainId, mainName)]
  nextBranchId : Nat := 1
  /-- The branch `delete_branch` has decided to remove, while it holds the table. -/
  deleting : Option (Bytes × Nat) := none
  requests : List SessionRequest := []
  ops : List FileOp := []

inductive SessionEvent
  | host (e : RouterEvent)
  | register (path : CgroupPath) (name : Bytes)
  | unregister (path : CgroupPath)
  | advance (k : Nat)
  | createBranch (name : Bytes)
  | deleteBranch (name : Bytes)
  | deleteEnds (removed : Bool)
  | start (pid : Pid)
  | resolve (i : Nat) (accepted : Bool)
  | serve (j : Nat)

/-- What happens to the router by itself: changes of the host, the eviction of a directory that is
gone, and the check of the leaf switched on. -/
def RouterSystem.Ambient (s : RouterSystem) : RouterEvent → Prop
  | .evictCgroupId cgId => ∀ p, s.cgroups.dirs p ≠ some cgId
  | .setLeafRevalidation on => on = true
  | .registerCgroup _ _ => False
  | .unregisterCgroup _ => False
  | .invalidateBranch _ => False
  | .call _ => False
  | .resolve _ _ => False
  | _ => True

namespace SessionSystem

/-- An operation that is not served yet sees the present moment. -/
def see (s : SessionSystem) (op : FileOp) : FileOp :=
  match op.served with
  | some _ => op
  | none => { op with moments := s.router.moment op.pid :: op.moments }

def seen (s : SessionSystem) : SessionSystem := { s with ops := s.ops.map s.see }

/-- `branch_by_name`. -/
def branchByName (s : SessionSystem) (name : Bytes) : Option Nat :=
  (AssocList.find name s.branchNameIds).filter fun branchId =>
    (AssocList.find branchId s.branches).isSome

/-- The end of `branch_for_pid`: main where the id is not in the table. -/
def branchOr (s : SessionSystem) (branchId : Nat) : Nat :=
  match AssocList.find branchId s.branches with
  | some _ => branchId
  | none => mainId

inductive Effect (s : SessionSystem) : SessionEvent → SessionSystem → Prop
  | host {e : RouterEvent} {r : RouterSystem} (ha : s.router.Ambient e) (hr : s.router.Step e r) :
      Effect s (.host e) { s with router := r }
  | register {path : CgroupPath} {name : Bytes} {branchId : Nat} (hfree : s.deleting = none)
      (hfound : s.branchByName name = some branchId) :
      Effect s (.register path name) { s with requests := s.requests ++ [.found path branchId] }
  | registerRead {k : Nat} {path : CgroupPath} {branchId : Nat}
      (hk : s.requests[k]? = some (.found path branchId)) :
      Effect s (.advance k)
        { s with requests := s.requests.set k (.read (s.router.cgroups.cgroupId path) branchId) }
  | registerInsert {k cgId branchId : Nat} {r : RouterSystem}
      (hk : s.requests[k]? = some (.read cgId branchId))
      (hr : s.router.Step (.registerCgroup cgId branchId) r) :
      Effect s (.advance k)
        { s with router := r, requests := s.requests.set k (.finished true) }
  | registerFail {k branchId : Nat} (hk : s.requests[k]? = some (.read 0 branchId)) :
      Effect s (.advance k) { s with requests := s.requests.set k (.finished false) }
  | unregister {path : CgroupPath} :
      Effect s (.unregister path)
        { s with requests := s.requests ++ [.readUnregister (s.router.cgroups.cgroupId path)] }
  | unregisterErase {k cgId : Nat} {r : RouterSystem}
      (hk : s.requests[k]? = some (.readUnregister cgId))
      (hr : s.router.Step (.unregisterCgroup cgId) r) :
      Effect s (.advance k)
        { s with router := r, requests := s.requests.set k (.finished true) }
  | createBranch {name : Bytes} (hfree : s.deleting = none)
      (hnew : AssocList.find name s.branchNameIds = none) :
      Effect s (.createBranch name)
        { s with
          branchNameIds := AssocList.assign name s.nextBranchId s.branchNameIds
          branches := AssocList.assign s.nextBranchId name s.branches
          nextBranchId := s.nextBranchId + 1 }
  | deleteCheck {name : Bytes} {branchId : Nat} (hfree : s.deleting = none)
      (hmain : name ≠ mainName) (hfound : s.branchByName name = some branchId)
      (hsessions : s.router.router.hasCgroupForBranch branchId = false) :
      Effect s (.deleteBranch name) { s with deleting := some (name, branchId) }
  | deleteErase {name : Bytes} {branchId : Nat} (hd : s.deleting = some (name, branchId)) :
      Effect s (.deleteEnds true)
        { s with
          deleting := none
          branchNameIds := AssocList.remove name s.branchNameIds
          branches := AssocList.remove branchId s.branches }
  | deleteKeep {name : Bytes} {branchId : Nat} (hd : s.deleting = some (name, branchId)) :
      Effect s (.deleteEnds false) { s with deleting := none }
  | start {pid : Pid} {r : RouterSystem} (hr : s.router.Step (.call pid) r) :
      Effect s (.start pid)
        { s with
          router := r
          ops := s.ops ++ [{ pid := pid, call := s.router.calls.length }] }
  | resolve {i : Nat} {accepted : Bool} {r : RouterSystem}
      (hr : s.router.Step (.resolve i accepted) r) :
      Effect s (.resolve i accepted) { s with router := r }
  | serve {j : Nat} {op : FileOp} {c : Call} {branchId : Nat} (hfree : s.deleting = none)
      (hop : s.ops[j]? = some op) (hopen : op.served = none)
      (hc : s.router.calls[op.call]? = some c) (hpc : c.pc = .returned branchId) :
      Effect s (.serve j)
        { s with ops := s.ops.set j { op with served := some (s.branchOr branchId) } }

/-- One event, seen by the operations under way. -/
def Step (s : SessionSystem) (e : SessionEvent) (s' : SessionSystem) : Prop :=
  ∃ s₁, s.Effect e s₁ ∧ s' = s₁.seen

/-- A daemon that has just started, with main only. -/
def Init (s : SessionSystem) : Prop := ∃ r, RouterSystem.Init r ∧ s = { router := r }

/-- During the whole operation its process is in a cgroup that is registered for the branch, or
below one with no other registered one between. -/
def Sandboxed (op : FileOp) (branchId : Nat) : Prop :=
  ∃ above cgId below, ∀ m ∈ op.moments, m.cgroup = above ++ cgId :: below ∧
    AssocList.find cgId m.map = some branchId ∧ ∀ a ∈ above, AssocList.find a m.map = none

/-- Operations from a sandbox are served by its branch. -/
def Contained (s : SessionSystem) : Prop :=
  ∀ op ∈ s.ops, ∀ branchId, branchId ≠ mainId → Sandboxed op branchId →
    ∀ served, op.served = some served → served = branchId

/-- The process of the operation is below the root cgroup, which is registered for a branch other
than main, with no other registered one between. -/
def BelowRoot (op : FileOp) : Prop :=
  ∃ above root branchId, above ≠ [] ∧ branchId ≠ mainId ∧ ∀ m ∈ op.moments,
    m.cgroup = above ++ [root] ∧ AssocList.find root m.map = some branchId ∧
      ∀ a ∈ above, AssocList.find a m.map = none

/-- A branch other than main is registered only while it is in the table, and taken out of the table
only while no cgroup is registered for it; and no operation comes from below a registered root. -/
def Guarded (s : SessionSystem) : SessionEvent → SessionSystem → Prop
  | .advance k, _ => ∀ cgId branchId, s.requests[k]? = some (.read cgId branchId) →
      branchId ≠ mainId → (AssocList.find branchId s.branches).isSome = true
  | .deleteEnds true, _ => ∀ name branchId, s.deleting = some (name, branchId) →
      s.router.router.hasCgroupForBranch branchId = false
  | .serve j, _ => ∀ op, s.ops[j]? = some op → ¬BelowRoot op
  | _, _ => True

end SessionSystem

/-! ## What the router does under the daemon -/

namespace RouterSystem

variable {s s' : RouterSystem}

/-- A step of a call keeps its process. -/
theorem resolveStep_pid {c c' : Call} {accepted : Bool}
    (h : s.resolveStep c accepted = some (s', c')) : c'.pid = c.pid := by
  unfold resolveStep at h
  cases hpc : c.pc with
  | called =>
      rw [hpc] at h
      cases h
      rfl
  | sampled gen =>
      rw [hpc] at h
      cases h
      unfold resolveFenced
      split <;> rfl
  | uncached =>
      rw [hpc] at h
      unfold resolveRead at h
      simp only at h
      split at h <;> cases h <;> rfl
  | read fence path checkLeaf leafCgroupId =>
      rw [hpc] at h
      simp only [resolveMemo, Option.some.injEq] at h
      split at h <;> cases h <;> rfl
  | missed fence path checkLeaf leafCgroupId missGeneration =>
      rw [hpc] at h
      cases h
      rfl
  | walked fence path checkLeaf leafCgroupId missGeneration ids =>
      rw [hpc] at h
      cases h
      rfl
  | returned b =>
      rw [hpc] at h
      cases h

theorem keepsCheck_of_ambient {e : RouterEvent} (h : s.Ambient e) : KeepsCheck e := by
  cases e with
  | setLeafRevalidation on =>
      obtain rfl : on = true := h
      trivial
  | _ => trivial

/-- The calls of `resolve` keep their places, and see no moment but the new one. -/
theorem step_calls {e : RouterEvent} (h : s.Step e s') {i : Nat} {c : Call}
    (hc : s.calls[i]? = some c) : ∃ c', s'.calls[i]? = some c' ∧ c'.pid = c.pid ∧
      ∀ m ∈ c'.moments, m ∈ c.moments ∨ m = s'.moment c.pid := by
  obtain ⟨s₁, heffect, rfl⟩ := h
  have hmid : ∃ c₁, s₁.calls[i]? = some c₁ ∧ c₁.pid = c.pid ∧ c₁.moments = c.moments := by
    cases heffect with
    | call =>
        refine ⟨c, ?_, rfl, rfl⟩
        rw [List.getElem?_append_left (List.getElem?_eq_some_iff.1 hc).1]
        exact hc
    | @resolve k a a' accepted s₂ hk hstep =>
        obtain ⟨-, -, -, hcalls, hmoments, -, -⟩ := resolveStep_spec hstep
        have hpid := resolveStep_pid hstep
        rw [hcalls]
        by_cases hik : k = i
        · subst hik
          rw [hk] at hc
          cases hc
          refine ⟨a', ?_, hpid, hmoments⟩
          have hlt := (List.getElem?_eq_some_iff.1 hk).1
          simp [hlt]
        · exact ⟨c, by rw [List.getElem?_set_ne hik]; exact hc, rfl, rfl⟩
    | _ => exact ⟨c, hc, rfl, rfl⟩
  obtain ⟨c₁, hc₁, hpid, hmoments⟩ := hmid
  refine ⟨s₁.see c₁, ?_, ?_, fun m hm => ?_⟩
  · show (s₁.calls.map s₁.see)[i]? = _
    rw [List.getElem?_map, hc₁]
    rfl
  · rw [(see_eq s₁ c₁).2.1, hpid]
  · unfold see at hm
    split at hm
    · exact Or.inl (hmoments ▸ hm)
    · rcases List.mem_cons.1 hm with rfl | hm
      · rw [hpid]
        exact Or.inr rfl
      · exact Or.inl (hmoments ▸ hm)

/-- Only a registration adds to the registered cgroups. -/
theorem mem_map_of_step {e : RouterEvent} (h : s.Step e s') {x : Nat × Nat}
    (hx : x ∈ s'.router.cgroupBranchMap) :
    x ∈ s.router.cgroupBranchMap ∨ e = .registerCgroup x.1 x.2 := by
  obtain ⟨s₁, heffect, rfl⟩ := h
  change x ∈ s₁.router.cgroupBranchMap at hx
  cases heffect with
  | registerCgroup hread hr =>
      unfold BranchRouter.registerCgroup at hr
      split at hr
      · cases hr
      · cases hr
        rcases AssocList.mem_assign hx with rfl | hx
        · exact Or.inr rfl
        · exact Or.inl hx
  | unregisterCgroup =>
      unfold BranchRouter.unregisterCgroup at hx
      split at hx
      · exact Or.inl hx
      · exact Or.inl (List.mem_filter.1 hx).1
  | evictCgroupId => exact Or.inl (List.mem_filter.1 hx).1
  | invalidateBranch => exact Or.inl (List.mem_filter.1 hx).1
  | resolve hc hstep =>
      obtain ⟨-, -, hmap, -⟩ := resolveStep_spec hstep
      exact Or.inl (hmap ▸ hx)
  | _ => exact Or.inl hx

end RouterSystem

/-- The nearest registered cgroup of a chain gives its branch, also where the root is left out, if
the root is not that cgroup or the chain has nothing else. -/
theorem branch_of_nearest {map : List (Nat × Nat)} {above below : List Nat} {cgId branchId : Nat}
    (hcg : AssocList.find cgId map = some branchId)
    (habove : ∀ a ∈ above, AssocList.find a map = none) (hnear : below ≠ [] ∨ above = []) :
    BranchRouter.branchForCgroupIds map (Cgroups.walked (above ++ cgId :: below)) = branchId := by
  have hskip : ∀ (above rest : List Nat), (∀ a ∈ above, AssocList.find a map = none) →
      BranchRouter.branchForCgroupIds map (above ++ cgId :: rest) = branchId := by
    intro above rest hnone
    induction above with
    | nil => simp [BranchRouter.branchForCgroupIds, hcg]
    | cons a above ih =>
        simp only [List.cons_append, BranchRouter.branchForCgroupIds]
        rw [hnone a List.mem_cons_self]
        exact ih fun b hb => hnone b (List.mem_cons_of_mem _ hb)
  rcases hnear with hbelow | rfl
  · obtain ⟨c, cs, rfl⟩ := List.exists_cons_of_ne_nil hbelow
    have hwalk : Cgroups.walked (above ++ cgId :: c :: cs) =
        above ++ cgId :: (c :: cs).dropLast := by
      cases above with
      | nil => rfl
      | cons a above =>
          rw [List.cons_append, Cgroups.walked_cons_cons a (by simp),
            List.dropLast_append_of_ne_nil (by simp), List.dropLast_cons_of_ne_nil (by simp)]
          rfl
    rw [hwalk]
    exact hskip above _ habove
  · cases below with
    | nil => exact hskip [] [] habove
    | cons c cs =>
        rw [List.nil_append, Cgroups.walked_cons_cons cgId (by simp)]
        exact hskip [] _ habove

/-! ## Guarded runs -/

namespace SessionSystem

variable {s s' : SessionSystem}

/-- An operation that is not served has a call of `resolve` of its own process, and has seen every
moment of it and the present one. -/
def OpOk (s : SessionSystem) (op : FileOp) : Prop :=
  op.served = none → s.router.moment op.pid ∈ op.moments ∧
    ∃ c, s.router.calls[op.call]? = some c ∧ c.pid = op.pid ∧ ∀ m ∈ c.moments, m ∈ op.moments

/-- The invariant of a guarded run. -/
structure SessionOk (s : SessionSystem) : Prop where
  settled : s.router.Settled
  registered : ∀ e ∈ s.router.router.cgroupBranchMap, e.2 ≠ mainId →
    (AssocList.find e.2 s.branches).isSome = true
  ops : ∀ op ∈ s.ops, s.OpOk op
  contained : s.Contained

/-- What the operations see of a change of the router. -/
theorem opOk_seen {s₁ : SessionSystem} {op : FileOp} (hcalls : op.served = none →
    ∃ c, s₁.router.calls[op.call]? = some c ∧ c.pid = op.pid ∧
      ∀ m ∈ c.moments, m ∈ op.moments ∨ m = s₁.router.moment op.pid) :
    s₁.seen.OpOk (s₁.see op) := by
  intro hopen
  unfold see at hopen ⊢
  cases hserved : op.served with
  | some b =>
      rw [hserved] at hopen
      simp only at hopen
      rw [hserved] at hopen
      cases hopen
  | none =>
      obtain ⟨c, hc, hpid, hmoments⟩ := hcalls hserved
      refine ⟨List.mem_cons_self, c, hc, hpid, fun m hm => ?_⟩
      rcases hmoments m hm with hold | rfl
      · exact List.mem_cons_of_mem _ hold
      · exact List.mem_cons_self

/-- Operations that were contained are contained when they have seen the present moment. -/
theorem Contained.seen {s₁ : SessionSystem} (h : s₁.Contained) : s₁.seen.Contained := by
  intro op hop branchId hmain hbox served hserved
  obtain ⟨op₀, hop₀, rfl⟩ := List.mem_map.1 hop
  unfold see at hbox hserved
  cases hs : op₀.served with
  | some b =>
      rw [hs] at hbox hserved
      exact h op₀ hop₀ branchId hmain hbox served hserved
  | none =>
      rw [hs] at hserved
      cases hserved

/-- The state after an event in which only the router has moved. -/
theorem SessionOk.router_step (h : s.SessionOk) {e : RouterEvent} {r : RouterSystem}
    {requests : List SessionRequest} (hr : s.router.Step e r) (hkeeps : RouterSystem.KeepsCheck e)
    (hadd : ∀ x : Nat × Nat, e = .registerCgroup x.1 x.2 → x.2 ≠ mainId →
      (AssocList.find x.2 s.branches).isSome = true) :
    SessionOk { s with router := r, requests := requests }.seen := by
  constructor
  case settled => exact h.settled.step hr hkeeps
  case registered =>
    intro x hx hmain
    rcases RouterSystem.mem_map_of_step hr hx with hold | he
    · exact h.registered x hold hmain
    · exact hadd x he hmain
  case ops =>
    intro op hop
    obtain ⟨op₀, hop₀, rfl⟩ := List.mem_map.1 hop
    refine opOk_seen fun hopen => ?_
    obtain ⟨-, c, hc, hpid, hmoments⟩ := h.ops op₀ hop₀ hopen
    obtain ⟨c', hc', hpid', hmoments'⟩ := RouterSystem.step_calls hr hc
    refine ⟨c', hc', hpid'.trans hpid, fun m hm => ?_⟩
    rcases hmoments' m hm with hold | rfl
    · exact Or.inl (hmoments m hold)
    · exact Or.inr (by rw [hpid])
  case contained =>
    have hcontained : Contained { s with router := r, requests := requests } := h.contained
    exact hcontained.seen

/-- The state after an event in which the router stands still. -/
theorem SessionOk.router_stays (h : s.SessionOk) {s₁ : SessionSystem} (hr : s₁.router = s.router)
    (hregistered : ∀ e ∈ s.router.router.cgroupBranchMap, e.2 ≠ mainId →
      (AssocList.find e.2 s₁.branches).isSome = true)
    (hops : ∀ op ∈ s₁.ops, op.served = none → op ∈ s.ops) (hcontained : s₁.Contained) :
    s₁.seen.SessionOk := by
  constructor
  case settled => exact (hr ▸ h.settled : s₁.router.Settled)
  case registered => exact fun e he => hregistered e (hr ▸ he)
  case ops =>
    intro op hop
    obtain ⟨op₀, hop₀, rfl⟩ := List.mem_map.1 hop
    refine opOk_seen fun hopen => ?_
    obtain ⟨-, c, hc, hpid, hmoments⟩ := h.ops op₀ (hops op₀ hop₀ hopen) hopen
    rw [hr]
    exact ⟨c, hc, hpid, fun m hm => Or.inl (hmoments m hm)⟩
  case contained => exact hcontained.seen

/-- An operation from a sandbox gets the branch of it. -/
theorem SessionOk.served (h : s.SessionOk) {op : FileOp} (hmem : op ∈ s.ops)
    (hopen : op.served = none) (hroot : ¬BelowRoot op) {c : Call} {b : Nat}
    (hc : s.router.calls[op.call]? = some c) (hpc : c.pc = .returned b) {branchId : Nat}
    (hmain : branchId ≠ mainId) (hbox : Sandboxed op branchId) : s.branchOr b = branchId := by
  obtain ⟨above, cgId, below, hall⟩ := hbox
  obtain ⟨hpresent, c', hc', -, hseen⟩ := h.ops op hmem hopen
  obtain rfl : c' = c := Option.some.inj (hc'.symm.trans hc)
  have hnear : below ≠ [] ∨ above = [] := by
    by_cases hbelow : below = []
    · refine Or.inr (Classical.not_not.1 fun habove => hroot ?_)
      subst hbelow
      exact ⟨above, cgId, branchId, habove, hmain, hall⟩
    · exact Or.inl hbelow
  have hcall := h.settled.toOk.calls c' (List.mem_of_getElem? hc)
  unfold RouterSystem.CallOk at hcall
  rw [hpc] at hcall
  have hb : b = branchId := by
    rcases hcall with ⟨m, hm, m', hm', hb⟩ | ⟨-, m, hm, m', hm', hne⟩
    · obtain ⟨-, hcg, habove⟩ := hall m (hseen m hm)
      rw [hb, (hall m' (hseen m' hm')).1]
      exact branch_of_nearest hcg habove hnear
    · refine absurd ?_ hne
      rw [(hall m (hseen m hm)).1, (hall m' (hseen m' hm')).1]
  subst hb
  have hthere := h.registered _ (AssocList.mem_of_find (hall _ hpresent).2.1) hmain
  unfold branchOr
  obtain ⟨name, hname⟩ := Option.isSome_iff_exists.1 hthere
  rw [hname]

theorem SessionOk.step (h : s.SessionOk) {e : SessionEvent}
    (hs : Restrict Step Guarded s e s') : s'.SessionOk := by
  obtain ⟨⟨s₁, heffect, rfl⟩, hguard⟩ := hs
  cases heffect with
  | host ha hr =>
      refine h.router_step hr (RouterSystem.keepsCheck_of_ambient ha) fun x he => ?_
      subst he
      exact ha.elim
  | register hfree hfound =>
      exact h.router_stays rfl h.registered (fun _ hop _ => hop) h.contained
  | registerRead hk => exact h.router_stays rfl h.registered (fun _ hop _ => hop) h.contained
  -- the branch is there still, which the guard says
  | registerInsert hk hr =>
      refine h.router_step hr trivial fun x he hmain => ?_
      cases he
      exact hguard _ _ hk hmain
  | registerFail hk => exact h.router_stays rfl h.registered (fun _ hop _ => hop) h.contained
  | unregister => exact h.router_stays rfl h.registered (fun _ hop _ => hop) h.contained
  | unregisterErase hk hr => exact h.router_step hr trivial fun x he => (by cases he)
  | createBranch hfree hnew =>
      refine h.router_stays rfl (fun e he hmain => ?_) (fun _ hop _ => hop) h.contained
      show (AssocList.find e.2 (AssocList.assign _ _ s.branches)).isSome = true
      rw [AssocList.find_assign]
      split
      · rfl
      · exact h.registered e he hmain
  | deleteCheck hfree hmain hfound hsessions =>
      exact h.router_stays rfl h.registered (fun _ hop _ => hop) h.contained
  -- no cgroup is bound to the branch, which the guard says
  | @deleteErase name branchId hd =>
      have hnone : s.router.router.hasCgroupForBranch branchId = false := hguard name branchId hd
      refine h.router_stays rfl (fun e he hmain => ?_) (fun _ hop _ => hop) h.contained
      show (AssocList.find e.2 (AssocList.remove branchId s.branches)).isSome = true
      have hne : e.2 ≠ branchId := by
        unfold BranchRouter.hasCgroupForBranch at hnone
        simpa using List.any_eq_false.1 hnone e he
      rw [AssocList.find_remove, if_neg hne]
      exact h.registered e he hmain
  | deleteKeep hd => exact h.router_stays rfl h.registered (fun _ hop _ => hop) h.contained
  -- the operation begins with a call that has seen only this moment
  | @start pid r hr =>
      have hnew : r.calls[s.router.calls.length]? = some (r.see { pid := pid }) := by
        obtain ⟨r₁, heff, rfl⟩ := hr
        cases heff
        show ((s.router.calls ++ [({ pid := pid } : Call)]).map _)[_]? = _
        simp
        rfl
      have hstep : SessionOk { s with router := r }.seen :=
        h.router_step hr trivial fun _ he => (by cases he)
      constructor
      case settled => exact hstep.settled
      case registered => exact hstep.registered
      case ops =>
        intro op hop
        obtain ⟨op₀, hop₀, rfl⟩ := List.mem_map.1 hop
        rcases List.mem_append.1 hop₀ with hold | hnewOp
        · exact hstep.ops _ (List.mem_map_of_mem hold)
        · cases List.mem_singleton.1 hnewOp
          refine opOk_seen fun _ => ⟨_, hnew, rfl, fun m hm => ?_⟩
          rcases List.mem_cons.1 hm with rfl | hm
          · exact Or.inr rfl
          · cases hm
      case contained =>
        refine Contained.seen fun op hop branchId hmain hbox served hserved => ?_
        rcases List.mem_append.1 hop with hold | hnewOp
        · exact h.contained op hold branchId hmain hbox served hserved
        · cases List.mem_singleton.1 hnewOp
          cases hserved
  | resolve hr => exact h.router_step hr trivial fun _ he => (by cases he)
  -- it is served in the branch that its call returned
  | @serve j op c b hfree hop hopen hc hpc =>
      have hmem := List.mem_of_getElem? hop
      refine h.router_stays rfl h.registered (fun k hk hnone => ?_)
        fun k hk branchId hmain hbox served hserved => ?_
      · rcases List.mem_or_eq_of_mem_set hk with hk | rfl
        · exact hk
        · cases hnone
      · rcases List.mem_or_eq_of_mem_set hk with hk | rfl
        · exact h.contained k hk branchId hmain hbox served hserved
        · cases hserved
          exact h.served hmem hopen (hguard op hop) hc hpc hmain hbox

theorem SessionOk.init (h : Init s) : s.SessionOk := by
  obtain ⟨r, hr, rfl⟩ := h
  have hsettled := RouterSystem.Settled.init hr
  obtain ⟨fenceOn, revalidateLeaf, rfl⟩ := hr
  exact {
    settled := hsettled
    registered := fun e he => (by cases he)
    ops := fun op hop => (by cases hop)
    contained := fun op hop => (by cases hop) }

/-- In a guarded run every operation from a sandbox is served by its branch. -/
theorem contained_of_guarded (h : Reaches Init (Restrict Step Guarded) s) : s.Contained :=
  (h.invariant (fun _ => SessionOk.init) fun _ _ _ hi hs => hi.step hs).contained

/-! ## A registration behind a deletion -/

/-- An event that may follow, as far as the two runs below need it, where it leads to. -/
def play (s : SessionSystem) : SessionEvent → Option SessionSystem
  | .host (.mkdir p) => (s.router.play (.mkdir p)).map fun r => seen { s with router := r }
  | .host (.spawn pid p) => (s.router.play (.spawn pid p)).map fun r => seen { s with router := r }
  | .register path name =>
      if s.deleting.isNone then
        (s.branchByName name).map fun branchId =>
          seen { s with requests := s.requests ++ [.found path branchId] }
      else none
  | .advance k =>
      match s.requests[k]? with
      | some (.found path branchId) =>
          some (seen { s with
            requests := s.requests.set k (.read (s.router.cgroups.cgroupId path) branchId) })
      | some (.read cgId branchId) =>
          (s.router.play (.registerCgroup cgId branchId)).map fun r =>
            seen { s with router := r, requests := s.requests.set k (.finished true) }
      | _ => none
  | .createBranch name =>
      if s.deleting.isNone ∧ AssocList.find name s.branchNameIds = none then
        some (seen { s with
          branchNameIds := AssocList.assign name s.nextBranchId s.branchNameIds
          branches := AssocList.assign s.nextBranchId name s.branches
          nextBranchId := s.nextBranchId + 1 })
      else none
  | .deleteBranch name =>
      if s.deleting.isNone ∧ name ≠ mainName then
        (s.branchByName name).bind fun branchId =>
          if s.router.router.hasCgroupForBranch branchId = false then
            some (seen { s with deleting := some (name, branchId) })
          else none
      else none
  | .deleteEnds true =>
      s.deleting.map fun d =>
        seen { s with
          deleting := none
          branchNameIds := AssocList.remove d.1 s.branchNameIds
          branches := AssocList.remove d.2 s.branches }
  | .start pid =>
      (s.router.play (.call pid)).map fun r =>
        seen { s with
          router := r
          ops := s.ops ++ [{ pid := pid, call := s.router.calls.length }] }
  | .resolve i accepted =>
      (s.router.play (.resolve i accepted)).map fun r => seen { s with router := r }
  | .serve j =>
      if s.deleting.isNone then
        (s.ops[j]?).bind fun op =>
          if op.served.isNone then
            (s.router.calls[op.call]?).bind fun c =>
              match c.pc with
              | .returned branchId =>
                  some (seen { s with
                    ops := s.ops.set j { op with served := some (s.branchOr branchId) } })
              | _ => none
          else none
      else none
  | _ => none

theorem step_of_play {e : SessionEvent} (h : s.play e = some s') : Step s e s' := by
  unfold play at h
  split at h
  · obtain ⟨r, hr, rfl⟩ := Option.map_eq_some_iff.1 h
    exact ⟨_, .host trivial (RouterSystem.step_of_play hr), rfl⟩
  · obtain ⟨r, hr, rfl⟩ := Option.map_eq_some_iff.1 h
    exact ⟨_, .host trivial (RouterSystem.step_of_play hr), rfl⟩
  · split at h
    · rename_i hfree
      obtain ⟨branchId, hb, rfl⟩ := Option.map_eq_some_iff.1 h
      exact ⟨_, .register (Option.isNone_iff_eq_none.1 hfree) hb, rfl⟩
    · cases h
  · split at h
    · rename_i hk
      cases h
      exact ⟨_, .registerRead hk, rfl⟩
    · rename_i hk
      obtain ⟨r, hr, rfl⟩ := Option.map_eq_some_iff.1 h
      exact ⟨_, .registerInsert hk (RouterSystem.step_of_play hr), rfl⟩
    · cases h
  · split at h
    · rename_i hnew
      cases h
      exact ⟨_, .createBranch (Option.isNone_iff_eq_none.1 hnew.1) hnew.2, rfl⟩
    · cases h
  · split at h
    · rename_i hname
      obtain ⟨branchId, hb, h⟩ := Option.bind_eq_some_iff.1 h
      split at h
      · rename_i hsessions
        cases h
        exact ⟨_, .deleteCheck (Option.isNone_iff_eq_none.1 hname.1) hname.2 hb hsessions, rfl⟩
      · cases h
    · cases h
  · obtain ⟨⟨name, branchId⟩, hd, rfl⟩ := Option.map_eq_some_iff.1 h
    exact ⟨_, .deleteErase hd, rfl⟩
  · obtain ⟨r, hr, rfl⟩ := Option.map_eq_some_iff.1 h
    exact ⟨_, .start (RouterSystem.step_of_play hr), rfl⟩
  · obtain ⟨r, hr, rfl⟩ := Option.map_eq_some_iff.1 h
    exact ⟨_, .resolve (RouterSystem.step_of_play hr), rfl⟩
  · split at h
    · rename_i hfree
      obtain ⟨op, hop, h⟩ := Option.bind_eq_some_iff.1 h
      split at h
      · rename_i hopen
        obtain ⟨c, hc, h⟩ := Option.bind_eq_some_iff.1 h
        split at h
        · rename_i hpc
          cases h
          exact ⟨_, .serve (Option.isNone_iff_eq_none.1 hfree) hop
            (Option.isNone_iff_eq_none.1 hopen) hc hpc, rfl⟩
        · cases h
      · cases h
    · cases h
  · cases h

/-- A session is registered for a branch, and a process in its cgroup opens a file; `between` is
what happens between the two lookups of the request. -/
def session (between : List SessionEvent) : List SessionEvent :=
  [.createBranch [98], .host (.mkdir [[97]]), .host (.spawn 5 [[97]]), .register [[97]] [98]] ++
    between ++ [.advance 0, .advance 0, .start 5, .resolve 0 false, .resolve 0 false,
      .resolve 0 false, .resolve 0 false, .resolve 0 false, .serve 0]

/-- The branch that has served the only operation, and whether its process was in cgroup 2 below
cgroup 1 all the time, with the first registered for branch 1. -/
def servedFor (s : SessionSystem) : Option (Nat × Bool) :=
  match s.ops with
  | [op] => op.served.map fun served => (served, op.moments.all fun m =>
      decide (m.cgroup = [2, 1] ∧ AssocList.find 2 m.map = some 1))
  | _ => none

theorem not_contained {served : Nat} (hne : served ≠ 1) (h : s.servedFor = some (served, true)) :
    ¬s.Contained := by
  intro hcontained
  unfold servedFor at h
  split at h
  · rename_i op hops
    obtain ⟨b, hb, hpair⟩ := Option.map_eq_some_iff.1 h
    obtain ⟨rfl, hall⟩ := Prod.mk.inj hpair
    refine hne (hcontained op (by simp [hops]) 1 (by decide) ⟨[], 2, [1], fun m hm => ?_⟩ b hb)
    have hm₂ := List.all_eq_true.1 hall m hm
    obtain ⟨hcgroup, hmap⟩ := of_decide_eq_true hm₂
    exact ⟨hcgroup, hmap, fun a ha => (by cases ha)⟩
  · cases h

/-- The branch is deleted between the two lookups: the session is registered all the same, and its
process is served by main. -/
theorem deleted_behind_registration :
    ¬ ∀ s : SessionSystem, Reaches Init Step s → s.Contained := by
  intro h
  have hserved : ((session [.deleteBranch [98], .deleteEnds true]).foldlM play
      { router := { fenceOn := false } }).bind servedFor = some (0, true) := by decide +kernel
  obtain ⟨s, hs, hwrong⟩ := Option.bind_eq_some_iff.1 hserved
  have hreach : Reaches Init Step s :=
    Reaches.run _ (fun _ _ _ _ he => step_of_play he)
      (.start ⟨{ fenceOn := false }, ⟨false, true, rfl⟩, rfl⟩) hs
  exact not_contained (by decide) hwrong (h s hreach)

/-- A check of an event that is guarded. -/
def guarded (s : SessionSystem) : SessionEvent → Bool
  | .advance k =>
      match s.requests[k]? with
      | some (.read _ branchId) =>
          decide (branchId = mainId) || (AssocList.find branchId s.branches).isSome
      | _ => true
  | .deleteEnds removed => !removed
  | .serve j =>
      match s.ops[j]? with
      | some op => op.moments.any fun m =>
          match m.cgroup.getLast? with
          | some root => (AssocList.find root m.map).isNone
          | none => true
      | none => true
  | _ => true

theorem guarded_of_check {e : SessionEvent} (h : s.guarded e = true) : s.Guarded e s' := by
  cases e with
  | advance k =>
      intro cgId branchId hk hmain
      unfold guarded at h
      simp only [hk] at h
      rcases Bool.or_eq_true_iff.1 h with hid | hthere
      · exact absurd (of_decide_eq_true hid) hmain
      · exact hthere
  | deleteEnds removed =>
      cases removed with
      | true => cases h
      | false => trivial
  | serve j =>
      rintro op hop ⟨above, root, branchId, -, -, hall⟩
      unfold guarded at h
      simp only [hop] at h
      obtain ⟨m, hm, hfree⟩ := List.any_eq_true.1 h
      obtain ⟨hcgroup, hmap, -⟩ := hall m hm
      rw [hcgroup, List.getLast?_concat] at hfree
      simp only [hmap] at hfree
      cases hfree
  | _ => trivial

/-- An event that is played if it is guarded. -/
def playGuarded (s : SessionSystem) (e : SessionEvent) : Option SessionSystem :=
  if s.guarded e then s.play e else none

/-- The same session where nothing happens between the two lookups. -/
theorem contained_of_guarded_session : ∃ s : SessionSystem,
    s.servedFor = some (1, true) ∧ s.Contained := by
  have hserved : ((session []).foldlM playGuarded { router := { fenceOn := false } }).bind servedFor =
      some (1, true) := by decide +kernel
  obtain ⟨s, hs, hright⟩ := Option.bind_eq_some_iff.1 hserved
  refine ⟨s, hright, contained_of_guarded (Reaches.run (session []) (fun e _ s s' he => ?_)
    (.start ⟨{ fenceOn := false }, ⟨false, true, rfl⟩, rfl⟩) hs)⟩
  unfold playGuarded at he
  split at he
  · exact ⟨step_of_play he, guarded_of_check ‹_›⟩
  · cases he

end SessionSystem
end ContextFS
