import ContextFS.Router.Coherent

/-!
# The caches of the router do not show

Every call of `resolve` answers with the branch of the nearest registered cgroup around the one its
process is in, as far as both are true at moments of the call.  Three things can break this: a
walk never looks at the root cgroup; a cgroup can be removed between the moment its process was
found in it and the moment the ids around it are read; and switching the check of the leaf off keeps
entries of the memo that only this check had made harmless.
-/

namespace ContextFS

open Lib

namespace RouterSystem

variable {s s' : RouterSystem} {c c' : Call}

/-- The answer is the branch of the nearest registered cgroup, main if there is none, under the
registrations at some moment of the call, for the cgroup of the process at some moment of it. -/
def Resolved (c : Call) (branchId : Nat) : Prop :=
  ∃ m ∈ c.moments, ∃ m' ∈ c.moments, branchId = BranchRouter.branchForCgroupIds m.map m'.cgroup

/-- Every call that has returned was answered so. -/
def Transparent (s : RouterSystem) : Prop :=
  ∀ c ∈ s.calls, ∀ branchId, c.pc = .returned branchId → Resolved c branchId

/-- The root is not registered, the check of the leaf is switched off only while each memoized
path that exists is memoized with its present leaf, and an answer from the memo or a walk is taken
while the cgroup the process was found in exists. -/
def Undisturbed (s : RouterSystem) : RouterEvent → RouterSystem → Prop
  | .registerCgroup cgId _, _ => s.cgroups.dirs [] ≠ some cgId
  | .setLeafRevalidation false, _ => ∀ p entry, (p, entry) ∈ s.router.pathBranchCache →
      ∀ cgId, s.cgroups.dirs p = some cgId → entry.leafCgroupId = cgId
  | .resolve i _, _ => ∀ c, s.calls[i]? = some c →
      (∀ fence path checkLeaf leafCgroupId, c.pc = .read fence path checkLeaf leafCgroupId →
        s.router.memoBranch path checkLeaf leafCgroupId ≠ none → s.AtHome c path) ∧
      ∀ fence path checkLeaf leafCgroupId missGeneration ids,
        c.pc = .walked fence path checkLeaf leafCgroupId missGeneration ids → s.AtHome c path
  | _, _ => True

/-! ## The root -/

theorem chain_getLast (g : Cgroups) (p : CgroupPath) :
    (g.chain p).getLast? = some (g.cgroupId []) := by
  induction p with
  | nil => rfl
  | cons c p ih =>
      rw [Cgroups.chain, List.getLast?_cons, ih]
      rfl

/-- Where the last cgroup of a chain is not registered, it makes no difference that it is not
looked at. -/
theorem branch_walked {map : List (Nat × Nat)} {root : Nat}
    (hroot : AssocList.find root map = none) {ids : List Nat} (hlast : ids.getLast? = some root) :
    BranchRouter.branchForCgroupIds map (Cgroups.walked ids) =
      BranchRouter.branchForCgroupIds map ids := by
  have hdrop : ∀ ids : List Nat, ids.getLast? = some root →
      BranchRouter.branchForCgroupIds map ids.dropLast = BranchRouter.branchForCgroupIds map ids := by
    intro ids
    induction ids with
    | nil => exact fun _ => rfl
    | cons cgId ids ih =>
        intro hl
        cases ids with
        | nil =>
            obtain rfl : cgId = root := by simpa using hl
            simp [BranchRouter.branchForCgroupIds, hroot]
        | cons cgId' ids =>
            rw [List.getLast?_cons_cons] at hl
            rw [List.dropLast_cons_of_ne_nil (List.cons_ne_nil _ _)]
            simp only [BranchRouter.branchForCgroupIds] at ih ⊢
            rw [ih hl]
  cases ids with
  | nil => rfl
  | cons cgId ids =>
      cases ids with
      | nil => rfl
      | cons cgId' ids =>
          rw [← hdrop _ hlast]
          rfl

/-- A moment at which the root is not registered. -/
def RootFree (root : Nat) (m : Moment) : Prop :=
  AssocList.find root m.map = none ∧ (m.cgroup = [] ∨ m.cgroup.getLast? = some root)

theorem resolved_of_answered {root : Nat} (h : ∀ m ∈ c.moments, RootFree root m) {branchId : Nat}
    (ha : c.Answered branchId) : Resolved c branchId := by
  obtain ⟨m, hm, m', hm', hb⟩ := ha
  refine ⟨m, hm, m', hm', hb.trans ?_⟩
  rcases (h m' hm').2 with hnil | hlast
  · rw [hnil]
    rfl
  · exact branch_walked (h m hm).1 hlast

/-! ## What a step of a call touches -/

/-- A step of a call leaves the host's directories and the registrations alone. -/
theorem resolveStep_spec {accepted : Bool} (h : s.resolveStep c accepted = some (s', c')) :
    s'.cgroups.dirs = s.cgroups.dirs ∧ s'.cgroups.unevicted = s.cgroups.unevicted ∧
      s'.router.cgroupBranchMap = s.router.cgroupBranchMap ∧ s'.calls = s.calls ∧
      c'.moments = c.moments ∧
      (∀ e ∈ s'.router.pathBranchCache, e ∈ s.router.pathBranchCache ∨
        ∃ fence checkLeaf leafCgroupId missGeneration ids,
          c.pc = .walked fence e.1 checkLeaf leafCgroupId missGeneration ids) ∧
      (s'.raced = true → s.raced = true ∨
        (∃ fence path checkLeaf leafCgroupId, c.pc = .read fence path checkLeaf leafCgroupId ∧
          s.router.memoBranch path checkLeaf leafCgroupId ≠ none ∧ ¬s.AtHome c path) ∨
        ∃ fence path checkLeaf leafCgroupId missGeneration ids,
          c.pc = .walked fence path checkLeaf leafCgroupId missGeneration ids ∧
            ¬s.AtHome c path) := by
  unfold resolveStep at h
  cases hpc : c.pc with
  | called =>
      rw [hpc] at h
      cases h
      exact ⟨rfl, rfl, rfl, rfl, rfl, fun e he => Or.inl he, fun hr => Or.inl hr⟩
  | sampled gen =>
      rw [hpc] at h
      cases h
      refine ⟨rfl, rfl, rfl, rfl, ?_, fun e he => Or.inl he, fun hr => Or.inl hr⟩
      unfold resolveFenced
      split <;> rfl
  -- only tracking a process touches the cgroups, and it keeps their directories
  | uncached =>
      rw [hpc] at h
      unfold resolveRead at h
      obtain ⟨g, htrack, hdirs, -⟩ := track_spec s c.pid accepted
      have hun : g.unevicted = s.cgroups.unevicted := by
        have hcg := congrArg (fun s : RouterSystem => s.cgroups.unevicted) htrack
        rw [← show (s.track c.pid accepted).2.cgroups.unevicted = g.unevicted from hcg]
        unfold track
        split <;> rfl
      rcases htr : s.track c.pid accepted with ⟨fence, s₁⟩
      rw [htr] at htrack h
      obtain rfl : s₁ = { s with cgroups := g } := htrack
      simp only at h
      split at h <;> cases h <;>
        exact ⟨hdirs, hun, rfl, rfl, rfl, fun e he => Or.inl he, fun hr => Or.inl hr⟩
  -- a memo hit: it races when the process has left the path
  | read fence path checkLeaf leafCgroupId =>
      rw [hpc] at h
      simp only [resolveMemo, Option.some.injEq] at h
      split at h
      · rename_i branchId hb
        cases h
        refine ⟨rfl, rfl, by simp, rfl, rfl, fun e he => Or.inl (by simpa using he), fun hr => ?_⟩
        simp only [Bool.or_eq_true, decide_eq_true_eq] at hr
        rcases hr with hr | hlost
        · exact Or.inl hr
        · exact Or.inr (Or.inl ⟨fence, path, checkLeaf, leafCgroupId, rfl, by simp [hb], hlost⟩)
      · cases h
        exact ⟨rfl, rfl, rfl, rfl, rfl, fun e he => Or.inl he, fun hr => Or.inl hr⟩
  | missed fence path checkLeaf leafCgroupId missGeneration =>
      rw [hpc] at h
      cases h
      exact ⟨rfl, rfl, rfl, rfl, rfl, fun e he => Or.inl he, fun hr => Or.inl hr⟩
  -- a walk that ends: it races when the process has left the path
  | walked fence path checkLeaf leafCgroupId missGeneration ids =>
      rw [hpc] at h
      cases h
      obtain ⟨-, hmap, -, -, hpaths, -⟩ :=
        BranchRouter.finishWalk_spec s.router fence c.pid path leafCgroupId missGeneration ids
      refine ⟨rfl, rfl, hmap, rfl, rfl, fun e he => ?_, fun hr => ?_⟩
      · rcases hpaths e he with ⟨-, rfl⟩ | hold
        · exact Or.inr ⟨fence, checkLeaf, leafCgroupId, missGeneration, ids, rfl⟩
        · exact Or.inl hold
      · simp only [Bool.or_eq_true, decide_eq_true_eq] at hr
        rcases hr with hr | hlost
        · exact Or.inl hr
        · exact Or.inr (Or.inr
            ⟨fence, path, checkLeaf, leafCgroupId, missGeneration, ids, rfl, hlost⟩)
  | returned b =>
      rw [hpc] at h
      cases h

/-! ## Undisturbed runs -/

/-- The invariant of an undisturbed run. -/
structure Steady (s : RouterSystem) : Prop extends Ok s where
  calm : s.raced = false
  root : s.cgroups.dirs [] = some 1
  unregistered : AssocList.find 1 s.router.cgroupBranchMap = none
  rootFree : ∀ c ∈ s.calls, ∀ m ∈ c.moments, RootFree 1 m
  stored : ∀ e ∈ s.router.pathBranchCache, s.cgroups.dirs e.1 ≠ none ∨
    ∃ cgId, (e.1, cgId) ∈ s.cgroups.unevicted

/-- An undisturbed event keeps the memo right. -/
theorem Steady.kept (h : s.Steady) {e : RouterEvent} (he : s.Undisturbed e s') : s.Kept e s' := by
  cases e with
  | setLeafRevalidation on =>
      cases on with
      | true => trivial
      | false =>
          intro p entry hmem
          rcases h.stored _ hmem with hthere | ⟨cgId, hun⟩
          · obtain ⟨cgId, hid⟩ := Option.ne_none_iff_exists'.1 hthere
            refine Or.inr ((h.memo _ hmem).2 ?_)
            rw [hid, he p entry hmem cgId hid]
          · cases hid : s.cgroups.dirs p with
            | none => exact Or.inl ⟨p, List.suffix_rfl, hid, cgId, hun⟩
            | some cgId =>
                refine Or.inr ((h.memo _ hmem).2 ?_)
                rw [hid, he p entry hmem cgId hid]
  | resolve i accepted =>
      intro c fence path checkLeaf leafCgroupId missGeneration ids hc hpc _ _
      have hhome := (he c hc).2 fence path checkLeaf leafCgroupId missGeneration ids hpc
      have hcall := h.calls c (List.mem_of_getElem? hc)
      unfold CallOk at hcall
      rw [hpc] at hcall
      refine Or.inr ?_
      rw [hcall.2.ids (by rw [hcall.2.leaf hhome]; exact hhome)]
  | _ => trivial

theorem find_remove_none {map : List (Nat × Nat)} {k cgId : Nat}
    (h : AssocList.find k map = none) : AssocList.find k (AssocList.remove cgId map) = none := by
  rw [AssocList.find_remove]
  split
  · rfl
  · exact h

theorem find_filter_none {map : List (Nat × Nat)} {k : Nat} {p : Nat × Nat → Bool}
    (h : AssocList.find k map = none) : AssocList.find k (map.filter p) = none := by
  unfold AssocList.find at h ⊢
  rw [Option.map_eq_none_iff, List.find?_eq_none] at h ⊢
  exact fun e he => h e (List.mem_filter.1 he).1

/-- What an undisturbed event leaves of the invariant before the calls have seen it. -/
theorem Steady.effect (h : s.Steady) {e : RouterEvent} (he : s.Effect e s')
    (hcalm : s.Undisturbed e s') :
    s'.raced = false ∧ s'.cgroups.dirs [] = some 1 ∧
      AssocList.find 1 s'.router.cgroupBranchMap = none ∧
      (∀ c ∈ s'.calls, ∀ m ∈ c.moments, RootFree 1 m) ∧
      ∀ e ∈ s'.router.pathBranchCache, s'.cgroups.dirs e.1 ≠ none ∨
        ∃ cgId, (e.1, cgId) ∈ s'.cgroups.unevicted := by
  -- a directory goes from the table only with an eviction to come
  have hmoves : ∀ g, s.cgroups.Moves g → ∀ e ∈ s.router.pathBranchCache, g.dirs e.1 ≠ none ∨
      ∃ cgId, (e.1, cgId) ∈ g.unevicted := by
    intro g hm e he
    by_cases hgone : g.dirs e.1 = none
    · rcases h.stored e he with hthere | ⟨cgId, hun⟩
      · exact Or.inr (hm.gone e.1 hthere hgone)
      · exact Or.inr ⟨cgId, hm.unevicted _ hun⟩
    · exact Or.inl hgone
  cases he with
  | @mkdir p hmake hevicted =>
      have hne : ([] : CgroupPath) ≠ p := by
        rintro rfl
        exact hmake.elim
      refine ⟨h.calm, ?_, h.unregistered, h.rootFree, hmoves _ (Cgroups.moves_mkdir h.cgroups hmake)⟩
      simpa [Cgroups.mkdir, hne] using h.root
  | @rmdir p hremove =>
      refine ⟨h.calm, ?_, h.unregistered, h.rootFree,
        hmoves _ (Cgroups.moves_rmdir h.cgroups hremove)⟩
      simpa [Cgroups.rmdir, hremove.1.symm] using h.root
  | spawn hnew hdir =>
      exact ⟨h.calm, h.root, h.unregistered, h.rootFree,
        hmoves _ (Cgroups.moves_spawn h.cgroups hnew hdir)⟩
  | migrate _ hdir =>
      exact ⟨h.calm, h.root, h.unregistered, h.rootFree,
        hmoves _ (Cgroups.moves_migrate h.cgroups hdir)⟩
  | @exit pid =>
      exact ⟨h.calm, h.root, h.unregistered, h.rootFree,
        hmoves _ (Cgroups.moves_exit h.cgroups pid)⟩
  | bump =>
      exact ⟨h.calm, h.root, h.unregistered, h.rootFree, hmoves _ (Cgroups.moves_bump h.cgroups)⟩
  | @registerCgroup cgId branchId r hread hr =>
      -- the root is never registered in such a run
      have hne : (1 : Nat) ≠ cgId := by
        rintro rfl
        exact hcalm h.root
      unfold BranchRouter.registerCgroup at hr
      split at hr
      · cases hr
      · cases hr
        refine ⟨h.calm, h.root, ?_, h.rootFree, fun e he => (by cases he)⟩
        show AssocList.find 1 (AssocList.assign cgId branchId s.router.cgroupBranchMap) = none
        rw [AssocList.find_assign, if_neg hne]
        exact h.unregistered
  | @unregisterCgroup cgId =>
      unfold BranchRouter.unregisterCgroup
      split
      · exact ⟨h.calm, h.root, h.unregistered, h.rootFree, h.stored⟩
      · exact ⟨h.calm, h.root, find_remove_none h.unregistered, h.rootFree, fun e he => (by cases he)⟩
  | evictCgroupId =>
      exact ⟨h.calm, h.root, find_remove_none h.unregistered, h.rootFree, fun e he => (by cases he)⟩
  | invalidateBranch =>
      exact ⟨h.calm, h.root, find_filter_none h.unregistered, h.rootFree, fun e he => (by cases he)⟩
  | setLeafRevalidation => exact ⟨h.calm, h.root, h.unregistered, h.rootFree, h.stored⟩
  | call =>
      refine ⟨h.calm, h.root, h.unregistered, fun c hc => ?_, h.stored⟩
      rcases List.mem_append.1 hc with hc | hc
      · exact h.rootFree c hc
      · cases List.mem_singleton.1 hc
        exact fun m hm => (by cases hm)
  | @resolve i c c' accepted s₁ hc hstep =>
      obtain ⟨hdirs, hun, hmap, hcalls, hmoments, hmemo, hraced⟩ := resolveStep_spec hstep
      obtain ⟨hread, hwalked⟩ := hcalm c hc
      refine ⟨?_, hdirs ▸ h.root, hmap ▸ h.unregistered, fun k hk => ?_, fun e he => ?_⟩
      -- both ways to race are excluded for this run
      · show s₁.raced = false
        cases hr : s₁.raced with
        | false => rfl
        | true =>
            rcases hraced hr with
              hold | ⟨f, p, ch, l, hpc, hhit, hlost⟩ | ⟨f, p, ch, l, g, ids, hpc, hlost⟩
            · rw [h.calm] at hold
              cases hold
            · exact absurd (hread f p ch l hpc hhit) hlost
            · exact absurd (hwalked f p ch l g ids hpc) hlost
      · rcases List.mem_or_eq_of_mem_set hk with hk | rfl
        · exact h.rootFree k (hcalls ▸ hk)
        · rw [hmoments]
          exact h.rootFree c (List.mem_of_getElem? hc)
      · show s₁.cgroups.dirs e.1 ≠ none ∨ ∃ cgId, (e.1, cgId) ∈ s₁.cgroups.unevicted
        rw [hdirs, hun]
        rcases hmemo e he with hold | ⟨f, ch, l, g, ids, hpc⟩
        · exact h.stored e hold
        · refine Or.inl ?_
          rw [hwalked f e.1 ch l g ids hpc]
          simp

theorem Steady.init (h : Init s) : s.Steady := by
  have hok := Ok.init h
  obtain ⟨fenceOn, revalidateLeaf, rfl⟩ := h
  exact { hok with
    calm := rfl
    root := rfl
    unregistered := rfl
    rootFree := fun c hc => (by cases hc)
    stored := fun e he => (by cases he) }

theorem Steady.step (h : s.Steady) {e : RouterEvent} (hs : Restrict Step Undisturbed s e s') :
    s'.Steady := by
  obtain ⟨⟨s₁, heffect, rfl⟩, hcond⟩ := hs
  have hcalm : s.Undisturbed e s₁ := by
    cases e with
    | setLeafRevalidation on => cases on <;> exact hcond
    | _ => exact hcond
  have hok : s₁.seen.Ok := h.toOk.step ⟨⟨s₁, heffect, rfl⟩, h.kept hcond⟩
  obtain ⟨hraced, hroot, hunreg, hfree, hstored⟩ := h.effect heffect hcalm
  refine { hok with
    calm := hraced
    root := hroot
    unregistered := hunreg
    rootFree := fun c hc m hm => ?_
    stored := hstored }
  obtain ⟨c₀, hc₀, rfl⟩ := List.mem_map.1 hc
  unfold see at hm
  split at hm
  · exact hfree c₀ hc₀ m hm
  · rcases List.mem_cons.1 hm with rfl | hm
    · refine ⟨hunreg, ?_⟩
      show s₁.cgroups.membership c₀.pid = [] ∨ (s₁.cgroups.membership c₀.pid).getLast? = some 1
      unfold Cgroups.membership
      split
      · refine Or.inr ?_
        rw [chain_getLast, Cgroups.cgroupId_of_dirs hroot]
      · exact Or.inl rfl
    · exact hfree c₀ hc₀ m hm

/-- In an undisturbed run the caches do not show: every answer is the one of the nearest
registered cgroup, at moments of the call. -/
theorem transparent_of_undisturbed (h : Reaches Init (Restrict Step Undisturbed) s) :
    s.Transparent := by
  have hsteady : s.Steady := h.invariant (fun _ => Steady.init) fun _ _ _ hi hs => hi.step hs
  intro c hc branchId hpc
  have hcall := hsteady.calls c hc
  unfold CallOk at hcall
  rw [hpc] at hcall
  rcases hcall with hans | ⟨hraced, -⟩
  · exact resolved_of_answered (hsteady.rootFree c hc) hans
  · rw [hsteady.calm] at hraced
    cases hraced

/-! ## A registered root -/

/-- An event that may follow, as far as the two runs below need it, where it leads to. -/
def play (s : RouterSystem) : RouterEvent → Option RouterSystem
  | .mkdir p =>
      if s.cgroups.dirs p = none ∧ p.length = 1 ∧ s.cgroups.unevicted = [] ∧
          s.cgroups.dirs [] ≠ none then
        some (seen { s with cgroups := s.cgroups.mkdir p })
      else none
  | .spawn pid p =>
      if s.cgroups.procs pid = none ∧ s.cgroups.dirs p ≠ none then
        some (seen { s with cgroups := s.cgroups.spawn pid p })
      else none
  | .registerCgroup cgId branchId =>
      if cgId < s.cgroups.nextId then
        (s.router.registerCgroup cgId branchId).map fun r => seen { s with router := r }
      else none
  | .call pid => some (seen { s with calls := s.calls ++ [{ pid := pid }] })
  | .resolve i accepted =>
      (s.calls[i]?).bind fun c => (s.resolveStep c accepted).map fun r =>
        seen { r.1 with calls := r.1.calls.set i r.2 }
  | _ => none

theorem step_of_play {e : RouterEvent} (h : s.play e = some s') : Step s e s' := by
  unfold play at h
  split at h
  · rename_i p
    split at h
    · rename_i hp
      cases h
      obtain ⟨hnone, hlen, hun, hroot⟩ := hp
      obtain ⟨name, rfl⟩ := List.length_eq_one_iff.1 hlen
      refine ⟨_, .mkdir ⟨hnone, hroot⟩ fun _ e he => ?_, rfl⟩
      rw [hun] at he
      cases he
    · cases h
  · split at h
    · rename_i hp
      cases h
      exact ⟨_, .spawn hp.1 hp.2, rfl⟩
    · cases h
  · split at h
    · rename_i hread
      obtain ⟨r, hr, rfl⟩ := Option.map_eq_some_iff.1 h
      exact ⟨_, .registerCgroup hread hr, rfl⟩
    · cases h
  · cases h
    exact ⟨_, .call, rfl⟩
  · obtain ⟨c, hc, h⟩ := Option.bind_eq_some_iff.1 h
    obtain ⟨⟨r, c'⟩, hstep, rfl⟩ := Option.map_eq_some_iff.1 h
    exact ⟨_, .resolve hc hstep, rfl⟩
  · cases h

/-- A process in a cgroup directly below the root, while one cgroup is registered. -/
def oneRegistered (cgId : Nat) : List RouterEvent := [
  .mkdir [[97]],
  .spawn 5 [[97]],
  .registerCgroup cgId 7,
  .call 5,
  .resolve 0 false,
  .resolve 0 false,
  .resolve 0 false,
  .resolve 0 false,
  .resolve 0 false]

/-- The answer of a call, and whether two moments of the call allow it. -/
def answerAllowed (s : RouterSystem) : Option (Nat × Bool) :=
  match s.calls with
  | [c] =>
      match c.pc with
      | .returned branchId =>
          some (branchId, c.moments.any fun m => c.moments.any fun m' =>
            branchId == BranchRouter.branchForCgroupIds m.map m'.cgroup)
      | _ => none
  | _ => none

theorem not_transparent {branchId : Nat} (h : s.answerAllowed = some (branchId, false)) :
    ¬s.Transparent := by
  intro ht
  unfold answerAllowed at h
  split at h
  · rename_i c hcalls
    split at h
    · rename_i b hpc
      obtain ⟨m, hm, m', hm', hb⟩ := ht c (by simp [hcalls]) b hpc
      have hany : (c.moments.any fun m => c.moments.any fun m' =>
          b == BranchRouter.branchForCgroupIds m.map m'.cgroup) = true := by
        simp only [List.any_eq_true, beq_iff_eq]
        exact ⟨m, hm, m', hm', hb⟩
      rw [hany] at h
      cases h
    · cases h
  · cases h

/-- A registered root is overlooked for the processes below it. -/
theorem root_overlooked : ¬ ∀ s : RouterSystem, Reaches Init Step s → s.Transparent := by
  intro h
  have hanswer : ((oneRegistered 1).foldlM play { fenceOn := false }).bind answerAllowed =
      some (0, false) := by decide +kernel
  obtain ⟨s, hs, hwrong⟩ := Option.bind_eq_some_iff.1 hanswer
  have hreach : Reaches Init Step s :=
    Reaches.run _ (fun _ _ _ _ he => step_of_play he) (.start ⟨false, true, rfl⟩) hs
  exact not_transparent hwrong (h s hreach)

/-- A check of an event that is undisturbed. -/
def calm (s : RouterSystem) : RouterEvent → Bool
  | .registerCgroup cgId _ => decide (s.cgroups.dirs [] ≠ some cgId)
  | .setLeafRevalidation on => on
  | .resolve i _ =>
      match s.calls[i]? with
      | none => true
      | some c =>
          match c.pc with
          | .read _ path checkLeaf leafCgroupId =>
              (s.router.memoBranch path checkLeaf leafCgroupId).isNone || decide (s.AtHome c path)
          | .walked _ path _ _ _ _ => decide (s.AtHome c path)
          | _ => true
  | _ => true

theorem undisturbed_of_calm {e : RouterEvent} (h : s.calm e = true) : s.Undisturbed e s' := by
  cases e with
  | registerCgroup cgId branchId =>
      show s.cgroups.dirs [] ≠ some cgId
      exact of_decide_eq_true h
  | setLeafRevalidation on =>
      cases on with
      | true => trivial
      | false => cases h
  | resolve i accepted =>
      intro c hc
      unfold calm at h
      simp only [hc] at h
      refine ⟨fun f p ch l hpc hhit => ?_, fun f p ch l g ids hpc => ?_⟩
      · rw [hpc] at h
        rcases Bool.or_eq_true_iff.1 h with hnone | hhome
        · exact absurd (Option.isNone_iff_eq_none.1 hnone) hhit
        · exact of_decide_eq_true hhome
      · rw [hpc] at h
        exact of_decide_eq_true h
  | _ => trivial

/-- An event that is played if it is undisturbed. -/
def playCalm (s : RouterSystem) (e : RouterEvent) : Option RouterSystem :=
  if s.calm e then s.play e else none

/-- The same process where its own cgroup is registered. -/
theorem transparent_of_undisturbed_oneRegistered : ∃ s : RouterSystem,
    s.answerAllowed = some (7, true) ∧ s.Transparent := by
  have hanswer : ((oneRegistered 2).foldlM playCalm { fenceOn := false }).bind answerAllowed =
      some (7, true) := by decide +kernel
  obtain ⟨s, hs, hright⟩ := Option.bind_eq_some_iff.1 hanswer
  refine ⟨s, hright, transparent_of_undisturbed
    (Reaches.run (oneRegistered 2) (fun e _ s s' he => ?_) (.start ⟨false, true, rfl⟩) hs)⟩
  unfold playCalm at he
  split at he
  · exact ⟨step_of_play he, undisturbed_of_calm ‹_›⟩
  · cases he

end RouterSystem
end ContextFS
