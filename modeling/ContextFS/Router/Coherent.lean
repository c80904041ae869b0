import ContextFS.Router.Resolve

/-!
# The caches of the router

What the caches hold while calls of `resolve`, registrations and the host go on.  The memo is right
for a path whose present directory has the id it was stored with; where the leaf is not looked at,
it is right for every path that exists.  An entry of the process cache is right while the fence has
the generation it was stored with.
-/

namespace ContextFS

open Lib

namespace ResolvePc

/-- What a call holds once it has read the membership: the generation it may store its answer with
and the path. -/
def held : ResolvePc → Option (Option Nat × CgroupPath)
  | .read fence path _ _ => some (fence, path)
  | .missed fence path _ _ _ => some (fence, path)
  | .walked fence path _ _ _ _ => some (fence, path)
  | _ => none

/-- The call has returned. -/
def Returned : ResolvePc → Prop
  | .returned _ => True
  | _ => False

theorem not_returned_of_held {pc : ResolvePc} {x : Option Nat × CgroupPath}
    (h : pc.held = some x) : ¬pc.Returned := by
  cases pc with
  | returned b => cases h
  | _ => exact fun hr => hr

end ResolvePc

namespace Call

/-- The branch is the one the present registrations give a cgroup the process was in. -/
def GoodFor (c : Call) (map : List (Nat × Nat)) (branchId : Nat) : Prop :=
  ∃ m ∈ c.moments, branchId = BranchRouter.branchForCgroupIds map (Cgroups.walked m.cgroup)

/-- The branch is the one the registrations in force at some moment of the call give a cgroup the
process was in at some moment of it. -/
def Answered (c : Call) (branchId : Nat) : Prop :=
  ∃ m ∈ c.moments, ∃ m' ∈ c.moments,
    branchId = BranchRouter.branchForCgroupIds m.map (Cgroups.walked m'.cgroup)

/-- The process has moved, ended or begun during the call. -/
def Moved (c : Call) : Prop := ∃ m ∈ c.moments, ∃ m' ∈ c.moments, m.cgroup ≠ m'.cgroup

end Call

namespace RouterSystem

/-- A path for which the memo is used without a look at the leaf. -/
def Trusting (s : RouterSystem) (p : CgroupPath) : Prop :=
  s.router.revalidateLeaf = false ∨
    ∃ c ∈ s.calls, ∃ fence leafCgroupId, c.pc = .read fence p false leafCgroupId ∧ s.AtHome c p

/-- What a call that has read the membership knows. -/
structure Holds (s : RouterSystem) (c : Call) (fence : Option Nat) (path : CgroupPath) : Prop where
  named : 0 < c.homeId ∧ c.homeId < s.cgroups.nextId
  there : ∀ q, s.cgroups.dirs q = some c.homeId → q = path ∧ s.cgroups.chain q = c.home
  seen : ∃ m ∈ c.moments, m.cgroup = c.home
  fence : ∀ gen, fence = some gen → gen ≤ s.cgroups.fenceGeneration ∧
    (gen = s.cgroups.fenceGeneration → s.cgroups.tracked c.pid = true ∧
      s.cgroups.procs c.pid = some path ∧ s.AtHome c path)

/-- The leaf id that was read with the membership. -/
def leafRead (c : Call) (checkLeaf : Bool) : Nat := if checkLeaf then c.homeId else 0

/-- What the walk of a call has found. -/
structure WalkOk (s : RouterSystem) (c : Call) (path : CgroupPath) (leafCgroupId : Nat)
    (ids : List Nat) : Prop where
  bound : leafCgroupId < s.cgroups.nextId
  leaf : s.AtHome c path → leafCgroupId = c.homeId
  ids : s.cgroups.dirs path = some leafCgroupId → ids = s.cgroups.walkIds path

def CallOk (s : RouterSystem) (c : Call) : Prop :=
  match c.pc with
  | .called => True
  | .uncached => True
  | .sampled gen => gen ≤ s.cgroups.fenceGeneration ∧ ∀ entry,
      (c.pid, entry) ∈ s.router.pidFenceCache → entry.generation = gen →
        c.GoodFor s.router.cgroupBranchMap entry.branchId ∨ s.raced = true ∧ c.Moved
  | .read fence path checkLeaf leafCgroupId =>
      s.Holds c fence path ∧ leafCgroupId = leafRead c checkLeaf
  | .missed fence path checkLeaf leafCgroupId _ =>
      s.Holds c fence path ∧ leafCgroupId = leafRead c checkLeaf
  | .walked fence path _ leafCgroupId _ ids =>
      s.Holds c fence path ∧ s.WalkOk c path leafCgroupId ids
  | .returned branchId => c.Answered branchId ∨ s.raced = true ∧ c.Moved

/-- A process cache entry and where its process is. -/
def CacheOk (s : RouterSystem) (pid : Pid) (entry : FenceEntry) : Prop :=
  entry.generation ≤ s.cgroups.fenceGeneration ∧
    (entry.generation = s.cgroups.fenceGeneration → s.cgroups.tracked pid = true ∧
      ∃ p, s.cgroups.procs pid = some p ∧
        entry.branchId =
          BranchRouter.branchForCgroupIds s.router.cgroupBranchMap (s.cgroups.walkIds p))

/-- A memo entry and the directory it was stored for. -/
def MemoOk (s : RouterSystem) (p : CgroupPath) (entry : PathEntry) : Prop :=
  entry.leafCgroupId < s.cgroups.nextId ∧
    (s.cgroups.dirs p = some entry.leafCgroupId → entry.branchId =
      BranchRouter.branchForCgroupIds s.router.cgroupBranchMap (s.cgroups.walkIds p))

/-- A branch is right for a path, or the path is waiting for an eviction. -/
def FreshFor (s : RouterSystem) (p : CgroupPath) (branchId : Nat) : Prop :=
  s.cgroups.Fresh s.router.cgroupBranchMap p branchId

structure Core (s : RouterSystem) : Prop where
  cgroups : s.cgroups.Ok
  map : ∀ e ∈ s.router.cgroupBranchMap, e.1 < s.cgroups.nextId
  memo : ∀ e ∈ s.router.pathBranchCache, s.MemoOk e.1 e.2
  trusted : ∀ p, s.Trusting p → ∀ entry, (p, entry) ∈ s.router.pathBranchCache →
    s.FreshFor p entry.branchId
  cache : ∀ e ∈ s.router.pidFenceCache, s.CacheOk e.1 e.2
  calls : ∀ c ∈ s.calls, s.CallOk c
  handed : ∀ c ∈ s.calls, ∀ k ∈ s.calls, ∀ gen path, c.pc = .sampled gen →
    k.pc.held = some (some gen, path) → k.pid = c.pid → ∃ m ∈ c.moments, m.cgroup = k.home

/-- The invariant between two events. -/
structure Ok (s : RouterSystem) : Prop extends Core s where
  present : ∀ c ∈ s.calls, ¬c.pc.Returned → s.moment c.pid ∈ c.moments

/-- An event that keeps the memo right where the leaf is not looked at: the check is switched off
only while it is right, and so is a walk that is stored. -/
def Kept (s : RouterSystem) : RouterEvent → RouterSystem → Prop
  | .setLeafRevalidation false, _ => ∀ p entry, (p, entry) ∈ s.router.pathBranchCache →
      s.FreshFor p entry.branchId
  | .resolve i _, _ => ∀ c fence path checkLeaf leafCgroupId missGeneration ids,
      s.calls[i]? = some c →
      c.pc = .walked fence path checkLeaf leafCgroupId missGeneration ids → s.Trusting path →
      s.router.generation = missGeneration →
      s.FreshFor path (BranchRouter.branchForCgroupIds s.router.cgroupBranchMap ids)
  | _, _ => True

variable {s s' : RouterSystem} {c c' : Call}

/-! ## Seeing the moments -/

theorem see_eq (s : RouterSystem) (c : Call) :
    (s.see c).pc = c.pc ∧ (s.see c).pid = c.pid ∧ (s.see c).home = c.home ∧
      (∀ m ∈ c.moments, m ∈ (s.see c).moments) ∧
      (¬c.pc.Returned → s.moment c.pid ∈ (s.see c).moments) := by
  unfold see
  split
  · rename_i branchId hpc
    exact ⟨rfl, rfl, rfl, fun m hm => hm, fun h => absurd (hpc ▸ trivial) h⟩
  · exact ⟨rfl, rfl, rfl, fun m hm => List.mem_cons_of_mem _ hm, fun _ => List.mem_cons_self⟩

/-- More moments do not hurt. -/
theorem CallOk.mono (h : s.CallOk c) (hpc : c'.pc = c.pc) (hpid : c'.pid = c.pid)
    (hhome : c'.home = c.home) (hm : ∀ m ∈ c.moments, m ∈ c'.moments) : s.CallOk c' := by
  have hid : c'.homeId = c.homeId := by unfold Call.homeId; rw [hhome]
  have hgood : ∀ map b, c.GoodFor map b → c'.GoodFor map b := fun map b ⟨m, hmem, hb⟩ =>
    ⟨m, hm m hmem, hb⟩
  have hmoved : c.Moved → c'.Moved := fun ⟨m, hmem, m', hmem', hne⟩ =>
    ⟨m, hm m hmem, m', hm m' hmem', hne⟩
  have hholds : ∀ fence path, s.Holds c fence path → s.Holds c' fence path := by
    intro fence path hh
    obtain ⟨m, hmem, hcg⟩ := hh.seen
    refine ⟨?_, ?_, ⟨m, hm m hmem, ?_⟩, ?_⟩
    · rw [hid]
      exact hh.named
    · rw [hid, hhome]
      exact hh.there
    · rw [hhome, hcg]
    · unfold AtHome
      rw [hid, hpid]
      exact hh.fence
  unfold CallOk at h ⊢
  rw [hpc]
  -- what a call at each place holds speaks of its moments positively
  cases hcpc : c.pc with
  | called => trivial
  | uncached => trivial
  | sampled gen =>
      rw [hcpc] at h
      refine ⟨h.1, fun entry hmem hgen => ?_⟩
      rw [hpid] at hmem
      rcases h.2 entry hmem hgen with hg | ⟨hr, hmv⟩
      · exact Or.inl (hgood _ _ hg)
      · exact Or.inr ⟨hr, hmoved hmv⟩
  | read fence path checkLeaf leaf =>
      rw [hcpc] at h
      refine ⟨hholds _ _ h.1, ?_⟩
      unfold leafRead
      rw [hid]
      exact h.2
  | missed fence path checkLeaf leaf gen =>
      rw [hcpc] at h
      refine ⟨hholds _ _ h.1, ?_⟩
      unfold leafRead
      rw [hid]
      exact h.2
  | walked fence path checkLeaf leaf gen ids =>
      rw [hcpc] at h
      refine ⟨hholds _ _ h.1, h.2.bound, ?_, h.2.ids⟩
      unfold AtHome
      rw [hid]
      exact h.2.leaf
  | returned b =>
      rw [hcpc] at h
      rcases h with ⟨m, hmem, m', hmem', hb⟩ | ⟨hr, hmv⟩
      · exact Or.inl ⟨m, hm m hmem, m', hm m' hmem', hb⟩
      · exact Or.inr ⟨hr, hmoved hmv⟩

/-! ## Changes around a call -/

theorem Holds.keeps {fence : Option Nat} {path : CgroupPath} (hok : s.cgroups.Ok)
    (hk : s.cgroups.Keeps s'.cgroups) (h : s.Holds c fence path) : s'.Holds c fence path := by
  constructor
  case named =>
    have hnext := hk.nextId
    have hnamed := h.named
    omega
  case there =>
    intro q hq
    have hold := hk.old hq h.named.2
    obtain ⟨rfl, hchain⟩ := h.there q hold
    exact ⟨rfl, (hk.chain hok (by simp [hold]) (by simp [hq])).trans hchain⟩
  case seen => exact h.seen
  case fence =>
    intro gen hf
    obtain ⟨hle, hnow⟩ := h.fence gen hf
    have hgrow := hk.generation
    refine ⟨Nat.le_trans hle hgrow, fun hgen => ?_⟩
    have hsame : gen = s.cgroups.fenceGeneration := by omega
    obtain ⟨htracked, hproc, hhome⟩ := hnow hsame
    obtain ⟨htracked', hproc'⟩ := hk.fenced _ _ htracked hproc (by omega)
    exact ⟨htracked', hproc', hk.same hhome (hk.ok.inside _ _ hproc')⟩

theorem WalkOk.keeps {path : CgroupPath} {leafCgroupId : Nat} {ids : List Nat}
    (hok : s.cgroups.Ok) (hk : s.cgroups.Keeps s'.cgroups)
    (hnamed : c.homeId < s.cgroups.nextId) (h : s.WalkOk c path leafCgroupId ids) :
    s'.WalkOk c path leafCgroupId ids := by
  constructor
  case bound => exact Nat.lt_of_lt_of_le h.bound hk.nextId
  case leaf => exact fun hhome => h.leaf (hk.old hhome hnamed)
  case ids =>
    intro hleaf
    have hold := hk.old hleaf h.bound
    exact (h.ids hold).trans (hk.walkIds hok (by simp [hold]) (by simp [hleaf])).symm

/-- A change elsewhere does not concern a call; what is new in the process cache has to be right
for it. -/
theorem CallOk.keeps (hok : s.cgroups.Ok) (hk : s.cgroups.Keeps s'.cgroups)
    (hcache : ∀ entry, (c.pid, entry) ∈ s'.router.pidFenceCache →
      c.pc = .sampled entry.generation →
      ((c.pid, entry) ∈ s.router.pidFenceCache ∧
        s'.router.cgroupBranchMap = s.router.cgroupBranchMap) ∨
      c.GoodFor s'.router.cgroupBranchMap entry.branchId ∨ s'.raced = true ∧ c.Moved)
    (hraced : s.raced = true → s'.raced = true) (h : s.CallOk c) : s'.CallOk c := by
  unfold CallOk at h ⊢
  cases hpc : c.pc with
  | called => trivial
  | uncached => trivial
  | sampled gen =>
      rw [hpc] at h
      refine ⟨Nat.le_trans h.1 hk.generation, fun entry hmem hgen => ?_⟩
      rcases hcache _ hmem (by rw [hpc, hgen]) with ⟨hold, hmap⟩ | hnew
      · rcases h.2 entry hold hgen with hg | ⟨hr, hmv⟩
        · exact Or.inl (hmap ▸ hg)
        · exact Or.inr ⟨hraced hr, hmv⟩
      · exact hnew
  | read fence path checkLeaf leaf =>
      rw [hpc] at h
      exact ⟨h.1.keeps hok hk, h.2⟩
  | missed fence path checkLeaf leaf gen =>
      rw [hpc] at h
      exact ⟨h.1.keeps hok hk, h.2⟩
  | walked fence path checkLeaf leaf gen ids =>
      rw [hpc] at h
      exact ⟨h.1.keeps hok hk, h.2.keeps hok hk h.1.named.2⟩
  | returned b =>
      rw [hpc] at h
      rcases h with hans | ⟨hr, hmv⟩
      · exact Or.inl hans
      · exact Or.inr ⟨hraced hr, hmv⟩

theorem CacheOk.keeps (hok : s.cgroups.Ok) (hk : s.cgroups.Keeps s'.cgroups)
    (hmap : s'.router.cgroupBranchMap = s.router.cgroupBranchMap) {pid : Pid} {entry : FenceEntry}
    (h : s.CacheOk pid entry) : s'.CacheOk pid entry := by
  obtain ⟨hle, hnow⟩ := h
  have hgrow := hk.generation
  refine ⟨Nat.le_trans hle hgrow, fun hgen => ?_⟩
  have hsame : entry.generation = s.cgroups.fenceGeneration := by omega
  obtain ⟨htracked, p, hproc, hbranch⟩ := hnow hsame
  obtain ⟨htracked', hproc'⟩ := hk.fenced _ _ htracked hproc (by omega)
  refine ⟨htracked', p, hproc', ?_⟩
  rw [hmap, hk.walkIds hok (hok.inside _ _ hproc) (hk.ok.inside _ _ hproc')]
  exact hbranch

theorem MemoOk.keeps (hok : s.cgroups.Ok) (hk : s.cgroups.Keeps s'.cgroups)
    (hmap : s'.router.cgroupBranchMap = s.router.cgroupBranchMap) {p : CgroupPath}
    {entry : PathEntry} (h : s.MemoOk p entry) : s'.MemoOk p entry := by
  refine ⟨Nat.lt_of_lt_of_le h.1 hk.nextId, fun hleaf => ?_⟩
  have hold := hk.old hleaf h.1
  rw [hmap, hk.walkIds hok (by simp [hold]) (by simp [hleaf])]
  exact h.2 hold

/-- Between two events the calls under way have seen the present moment. -/
theorem Core.seen (h : s.Core) : s.seen.Ok := by
  have hback : ∀ c ∈ s.seen.calls, ∃ c₀ ∈ s.calls, c = s.see c₀ := by
    intro c hc
    obtain ⟨c₀, hc₀, rfl⟩ := List.mem_map.1 hc
    exact ⟨c₀, hc₀, rfl⟩
  constructor
  case toCore =>
    constructor
    case cgroups => exact h.cgroups
    case map => exact h.map
    case memo => exact h.memo
    case trusted =>
      intro p hp
      refine h.trusted p ?_
      rcases hp with hoff | ⟨c, hc, fence, leaf, hpc, hhome⟩
      · exact Or.inl hoff
      · obtain ⟨c₀, hc₀, rfl⟩ := hback c hc
        obtain ⟨hspc, -, hshome, -⟩ := see_eq s c₀
        refine Or.inr ⟨c₀, hc₀, fence, leaf, hspc ▸ hpc, ?_⟩
        show s.cgroups.dirs p = some c₀.homeId
        rw [Call.homeId, ← hshome]
        exact hhome
    case cache => exact h.cache
    case calls =>
      intro c hc
      obtain ⟨c₀, hc₀, rfl⟩ := hback c hc
      obtain ⟨hspc, hspid, hshome, hsm, -⟩ := see_eq s c₀
      have hstill : s.seen.CallOk c₀ := (h.calls c₀ hc₀).keeps h.cgroups (.refl h.cgroups)
        (fun _ he _ => Or.inl ⟨he, rfl⟩) fun hr => hr
      exact hstill.mono hspc hspid hshome hsm
    case handed =>
      intro c hc k hk gen path hpc hheld hpid
      obtain ⟨c₀, hc₀, rfl⟩ := hback c hc
      obtain ⟨k₀, hk₀, rfl⟩ := hback k hk
      obtain ⟨hcpc, hcpid, -, hcm, -⟩ := see_eq s c₀
      obtain ⟨hkpc, hkpid, hkhome, -⟩ := see_eq s k₀
      obtain ⟨m, hm, hcg⟩ := h.handed c₀ hc₀ k₀ hk₀ gen path (hcpc ▸ hpc) (hkpc ▸ hheld)
        (hkpid ▸ hcpid ▸ hpid)
      exact ⟨m, hcm m hm, hcg.trans hkhome.symm⟩
  case present =>
    intro c hc hnot
    obtain ⟨c₀, hc₀, rfl⟩ := hback c hc
    obtain ⟨hspc, hspid, -, -, hnow⟩ := see_eq s c₀
    rw [hspid]
    exact hnow (hspc ▸ hnot)

/-! ## The host and the registrations -/

/-- The host changes; where the leaf is not looked at no directory is made again before it was
evicted, so what was right for a path stays right. -/
theorem Ok.moves_fresh (h : s.Ok) {g : Cgroups} (hm : s.cgroups.Moves g)
    (hguard : s.router.revalidateLeaf = false → ∀ e ∈ s.cgroups.unevicted,
      s.cgroups.dirs e.1 = none → g.dirs e.1 = none) {p : CgroupPath}
    (hp : Trusting { s with cgroups := g } p) :
    s.Trusting p ∧ ∀ b, s.FreshFor p b → FreshFor { s with cgroups := g } p b := by
  have hmap : ∀ cgId b, AssocList.find cgId s.router.cgroupBranchMap = some b →
      cgId < s.cgroups.nextId := fun cgId b hb => h.map _ (AssocList.mem_of_find hb)
  rcases hp with hoff | ⟨c, hc, fence, leaf, hpc, hhome⟩
  · exact ⟨Or.inl hoff, fun b hb => hm.stays_fresh hmap hb fun e he _ => hguard hoff e he⟩
  · have hread := h.calls c hc
    unfold CallOk at hread
    rw [hpc] at hread
    have hold : s.AtHome c p := hm.old hhome hread.1.named.2
    refine ⟨Or.inr ⟨c, hc, fence, leaf, hpc, hold⟩, fun b hb => hm.stays_fresh hmap hb
      fun e _ hsuffix hnone => absurd hnone (h.cgroups.suffix ?_ hsuffix)⟩
    rw [show s.cgroups.dirs p = some c.homeId from hold]
    simp

theorem Ok.moves (h : s.Ok) {g : Cgroups} (hm : s.cgroups.Moves g)
    (hguard : s.router.revalidateLeaf = false → ∀ e ∈ s.cgroups.unevicted,
      s.cgroups.dirs e.1 = none → g.dirs e.1 = none) :
    Core { s with cgroups := g } := by
  have hk := hm.toKeeps
  have hnext : s.cgroups.nextId ≤ g.nextId := hk.nextId
  constructor
  case cgroups => exact hk.ok
  case map => exact fun e he => Nat.lt_of_lt_of_le (h.map e he) hnext
  case memo =>
    intro e he
    refine MemoOk.keeps h.cgroups ?_ ?_ (h.memo e he)
    · exact hk
    · rfl
  case trusted =>
    intro p hp entry hmem
    obtain ⟨htrust, hfresh⟩ := h.moves_fresh hm hguard hp
    exact hfresh _ (h.trusted p htrust entry hmem)
  case cache =>
    intro e he
    refine CacheOk.keeps h.cgroups ?_ ?_ (h.cache e he)
    · exact hk
    · rfl
  case calls =>
    exact fun c hc => (h.calls c hc).keeps h.cgroups hk (fun _ he _ => Or.inl ⟨he, rfl⟩)
      fun hr => hr
  case handed => exact h.handed

/-- The registrations change and the caches are emptied. -/
theorem Ok.reset (h : s.Ok) {g : Cgroups} {r : BranchRouter} (hk : s.cgroups.Keeps g)
    (hmap : ∀ e ∈ r.cgroupBranchMap, e.1 < g.nextId)
    (hpaths : r.pathBranchCache = []) (hpids : r.pidFenceCache = []) :
    Core { s with cgroups := g, router := r } := by
  constructor
  case cgroups => exact hk.ok
  case map => exact hmap
  case memo =>
    intro e he
    rw [show r.pathBranchCache = [] from hpaths] at he
    cases he
  case trusted =>
    intro p _ entry hmem
    rw [show r.pathBranchCache = [] from hpaths] at hmem
    cases hmem
  case cache =>
    intro e he
    rw [show r.pidFenceCache = [] from hpids] at he
    cases he
  case calls =>
    refine fun c hc => (h.calls c hc).keeps h.cgroups hk (fun e he => ?_) fun hr => hr
    rw [show r.pidFenceCache = [] from hpids] at he
    cases he
  case handed => exact h.handed

/-- The check of the leaf is switched. -/
theorem Ok.switch (h : s.Ok) {on : Bool}
    (hfresh : on = false → ∀ p entry, (p, entry) ∈ s.router.pathBranchCache →
      s.FreshFor p entry.branchId) :
    Core { s with router := s.router.setLeafRevalidation on } := by
  constructor
  case cgroups => exact h.cgroups
  case map => exact h.map
  case memo => exact h.memo
  case trusted =>
    intro p hp entry hmem
    rcases hp with hoff | hread
    · exact hfresh hoff p entry hmem
    · exact h.trusted p (Or.inr hread) entry hmem
  case cache => exact h.cache
  case calls =>
    exact fun c hc => (h.calls c hc).keeps h.cgroups (.refl h.cgroups) (fun _ he _ => Or.inl ⟨he, rfl⟩)
      fun hr => hr
  case handed => exact h.handed

/-- A new call. -/
theorem Ok.call (h : s.Ok) (pid : Pid) : Core { s with calls := s.calls ++ [{ pid := pid }] } := by
  have hcases : ∀ c ∈ s.calls ++ [{ pid := pid }], c ∈ s.calls ∨ c = { pid := pid } := by
    intro c hc
    rcases List.mem_append.1 hc with hc | hc
    · exact Or.inl hc
    · exact Or.inr (List.mem_singleton.1 hc)
  constructor
  case cgroups => exact h.cgroups
  case map => exact h.map
  case memo => exact h.memo
  case trusted =>
    intro p hp entry hmem
    refine h.trusted p ?_ entry hmem
    rcases hp with hoff | ⟨c, hc, fence, leaf, hpc, hhome⟩
    · exact Or.inl hoff
    · rcases hcases c hc with hc | rfl
      · exact Or.inr ⟨c, hc, fence, leaf, hpc, hhome⟩
      · cases hpc
  case cache => exact h.cache
  case calls =>
    intro c hc
    rcases hcases c hc with hc | rfl
    · exact (h.calls c hc).keeps h.cgroups (.refl h.cgroups) (fun _ he _ => Or.inl ⟨he, rfl⟩) fun hr => hr
    · trivial
  case handed =>
    intro c hc k hk gen path hpc hheld hpid
    rcases hcases c hc with hc | rfl
    · rcases hcases k hk with hk | rfl
      · exact h.handed c hc k hk gen path hpc hheld hpid
      · cases hheld
    · cases hpc

/-! ## The steps of a call -/

/-- A call goes on without storing anything. -/
theorem Ok.replace (h : s.Ok) {i : Nat} {g : Cgroups} (hm : s.cgroups.Moves g)
    (hdirs : g.dirs = s.cgroups.dirs)
    (hcall : CallOk { s with cgroups := g, calls := s.calls.set i c' } c')
    (htrust : ∀ fence path leaf, c'.pc = .read fence path false leaf →
      s.router.revalidateLeaf = false)
    (hsampled : ∀ gen, c'.pc = .sampled gen → ∀ k ∈ s.calls, ∀ path,
      k.pc.held = some (some gen, path) → k.pid = c'.pid → ∃ m ∈ c'.moments, m.cgroup = k.home)
    (hheld : ∀ gen path, c'.pc.held = some (some gen, path) → ∀ k ∈ s.calls,
      k.pc = .sampled gen → c'.pid = k.pid → ∃ m ∈ k.moments, m.cgroup = c'.home) :
    Core { s with cgroups := g, calls := s.calls.set i c' } := by
  have hcore := h.moves hm fun _ e _ hnone => by rw [hdirs]; exact hnone
  constructor
  case cgroups => exact hcore.cgroups
  case map => exact hcore.map
  case memo => exact hcore.memo
  case trusted =>
    intro p hp entry hmem
    refine hcore.trusted p ?_ entry hmem
    rcases hp with hoff | ⟨k, hk, fence, leaf, hpc, hhome⟩
    · exact Or.inl hoff
    · rcases List.mem_or_eq_of_mem_set hk with hk | rfl
      · exact Or.inr ⟨k, hk, fence, leaf, hpc, hhome⟩
      · exact Or.inl (htrust fence p leaf hpc)
  case cache => exact hcore.cache
  case calls =>
    intro k hk
    rcases List.mem_or_eq_of_mem_set hk with hk | rfl
    · exact (hcore.calls k hk).keeps hcore.cgroups (.refl hcore.cgroups) (fun _ he _ => Or.inl ⟨he, rfl⟩)
        fun hr => hr
    · exact hcall
  case handed =>
    intro a ha k hk gen path hpc hkheld hpid
    rcases List.mem_or_eq_of_mem_set ha with ha₀ | rfl
    · rcases List.mem_or_eq_of_mem_set hk with hk₀ | rfl
      · exact h.handed a ha₀ k hk₀ gen path hpc hkheld hpid
      · exact hheld gen path hkheld a ha₀ hpc hpid
    · rcases List.mem_or_eq_of_mem_set hk with hk₀ | rfl
      · exact hsampled gen hpc k hk₀ path hkheld hpid
      · rw [hpc] at hkheld
        cases hkheld

/-- The chain of a process that is where its call has found it. -/
theorem Holds.membership {fence : Option Nat} {path : CgroupPath} (h : s.Holds c fence path)
    {q : CgroupPath} (hproc : s.cgroups.procs c.pid = some q) (hhome : s.AtHome c q) :
    s.cgroups.membership c.pid = c.home := by
  rw [Cgroups.membership, hproc]
  exact (h.there q hhome).2

theorem Holds.goto {fence : Option Nat} {path : CgroupPath} (h : s.Holds c fence path)
    (pc : ResolvePc) : s.Holds (c.goto pc) fence path :=
  ⟨h.named, h.there, h.seen, h.fence⟩

theorem CallOk.holds {fence : Option Nat} {path : CgroupPath} (h : s.CallOk c)
    (hheld : c.pc.held = some (fence, path)) : s.Holds c fence path := by
  unfold CallOk at h
  cases hpc : c.pc <;> rw [hpc] at h hheld <;> cases hheld
  · exact h.1
  · exact h.1
  · exact h.1

/-- The fence's generation is sampled. -/
theorem Ok.sample (h : s.Ok) {i : Nat} (hc : s.calls[i]? = some c) (hpc : c.pc = .called) :
    Core { s with
      calls := s.calls.set i (c.goto (.sampled s.cgroups.fenceGeneration)) } := by
  have hmem : c ∈ s.calls := List.mem_of_getElem? hc
  have hnow : s.moment c.pid ∈ c.moments := h.present c hmem (by rw [hpc]; exact fun hr => hr)
  refine h.replace (.refl h.cgroups) rfl ⟨Nat.le_refl _, fun entry hentry hgen => Or.inl ?_⟩
    (fun _ _ _ hr => (by cases hr)) (fun gen hgen k hk path hheld hpid => ?_)
    fun gen path hheld => (by cases hheld)
  · obtain ⟨-, p, hproc, hbranch⟩ := (h.cache _ hentry).2 hgen
    replace hproc : s.cgroups.procs c.pid = some p := hproc
    refine ⟨_, hnow, ?_⟩
    have hmember : (s.moment c.pid).cgroup = s.cgroups.chain p := by
      show s.cgroups.membership c.pid = s.cgroups.chain p
      rw [Cgroups.membership, hproc]
    rw [hmember, ← h.cgroups.walkIds (h.cgroups.inside _ _ hproc)]
    exact hbranch
  · cases hgen
    have hholds := (h.calls k hk).holds hheld
    obtain ⟨-, hproc, hhome⟩ := (hholds.fence _ rfl).2 rfl
    refine ⟨_, hnow, ?_⟩
    have hmember := hholds.membership hproc hhome
    rw [hpid] at hmember
    exact hmember

/-- A call goes to a place where it holds nothing. -/
theorem Ok.goto (h : s.Ok) {i : Nat} {pc : ResolvePc} (hpc : pc.held = none)
    (hsampled : ∀ gen, pc ≠ .sampled gen) (hcall : s.CallOk (c.goto pc)) :
    Core { s with calls := s.calls.set i (c.goto pc) } := by
  refine h.replace (.refl h.cgroups) rfl ?_ (fun fence path leaf hr => ?_)
    (fun gen hgen => absurd hgen (hsampled gen)) fun gen path hheld => ?_
  · exact hcall.keeps h.cgroups (.refl h.cgroups) (fun _ he _ => Or.inl ⟨he, rfl⟩) fun hr => hr
  · change pc = _ at hr
    rw [hr] at hpc
    cases hpc
  · change pc.held = _ at hheld
    rw [hpc] at hheld
    cases hheld

/-- The process cache is looked up. -/
theorem Ok.fenced (h : s.Ok) {i : Nat} (hc : s.calls[i]? = some c) {gen : Nat}
    (hpc : c.pc = .sampled gen) :
    Core { s with calls := s.calls.set i (s.resolveFenced c gen) } := by
  have hmem : c ∈ s.calls := List.mem_of_getElem? hc
  have hnow : s.moment c.pid ∈ c.moments := h.present c hmem (by rw [hpc]; exact fun hr => hr)
  have hcall := h.calls c hmem
  unfold CallOk at hcall
  rw [hpc] at hcall
  unfold resolveFenced
  cases hf : s.router.fencedBranch c.pid gen with
  | none => exact h.goto rfl (fun _ hr => (by cases hr)) trivial
  | some branchId =>
      refine h.goto rfl (fun _ hr => (by cases hr)) ?_
      unfold BranchRouter.fencedBranch at hf
      split at hf
      · rename_i entry hentry
        split at hf
        · rename_i hgen
          cases hf
          rcases hcall.2 entry (AssocList.mem_of_find hentry) hgen with ⟨m, hm, hb⟩ | hrace
          · exact Or.inl ⟨_, hnow, m, hm, hb⟩
          · exact Or.inr hrace
        · cases hf
      · cases hf

theorem track_spec (s : RouterSystem) (pid : Pid) (accepted : Bool) :
    ∃ g, (s.track pid accepted).2 = { s with cgroups := g } ∧ g.dirs = s.cgroups.dirs ∧
      g.nextId = s.cgroups.nextId ∧ g.procs = s.cgroups.procs ∧
      g.fenceGeneration = s.cgroups.fenceGeneration ∧ g.chain = s.cgroups.chain ∧
      (s.cgroups.Ok → s.cgroups.Moves g) ∧
      ∀ gen, (s.track pid accepted).1 = some gen →
        gen = s.cgroups.fenceGeneration ∧ g.tracked pid = true := by
  unfold track
  split
  · refine ⟨_, rfl, rfl, rfl, rfl, rfl, ?_, fun hok => Cgroups.moves_track hok pid,
      fun gen hgen => ⟨?_, ?_⟩⟩
    · funext p
      induction p with
      | nil => rfl
      | cons c p ih => rw [Cgroups.chain, ih, Cgroups.chain]; rfl
    · cases hgen
      rfl
    · simp
  · exact ⟨_, rfl, rfl, rfl, rfl, rfl, rfl, fun hok => .refl hok, fun gen hgen => (by cases hgen)⟩

/-- The membership is read. -/
theorem Ok.read (h : s.Ok) {i : Nat} (hc : s.calls[i]? = some c) (hpc : c.pc = .uncached)
    (accepted : Bool) :
    Core { (s.resolveRead c accepted).1 with
      calls := (s.resolveRead c accepted).1.calls.set i (s.resolveRead c accepted).2 } := by
  have hmem : c ∈ s.calls := List.mem_of_getElem? hc
  have hnow : s.moment c.pid ∈ c.moments := h.present c hmem (by rw [hpc]; exact fun hr => hr)
  obtain ⟨g, htrack, hdirs, hnext, hprocs, hgen, hchain, hmoves, hfence⟩ :=
    track_spec s c.pid accepted
  unfold resolveRead
  rcases htr : s.track c.pid accepted with ⟨fence, s₁⟩
  rw [htr] at htrack hfence
  obtain rfl : s₁ = { s with cgroups := g } := htrack
  simp only [hprocs]
  cases hproc : s.cgroups.procs c.pid with
  -- the process is gone: the answer is the branch of no cgroup
  | none =>
      refine h.replace (hmoves h.cgroups) hdirs (Or.inl ⟨_, hnow, _, hnow, ?_⟩)
        (fun _ _ _ hr => (by cases hr)) (fun _ hr => (by cases hr)) fun _ _ hr => (by cases hr)
      show 0 = BranchRouter.branchForCgroupIds s.router.cgroupBranchMap
        (Cgroups.walked (s.cgroups.membership c.pid))
      rw [Cgroups.membership, hproc]
      rfl
  | some path =>
      have hthere := h.cgroups.inside _ _ hproc
      have hid := Cgroups.dirs_of_cgroupId hthere
      have hmember : s.cgroups.membership c.pid = s.cgroups.chain path := by
        rw [Cgroups.membership, hproc]
      have hcid : g.cgroupId = s.cgroups.cgroupId := by
        funext p
        rw [Cgroups.cgroupId, Cgroups.cgroupId, hdirs]
      simp only [hchain, hcid]
      refine h.replace (hmoves h.cgroups) hdirs ⟨?_, ?_⟩ (fun _ _ _ hr => ?_)
        (fun _ hr => (by cases hr)) fun gen q hheld k hk hkpc hpid => ?_
      -- what the call holds now is its process's cgroup at this moment
      · constructor
        case named =>
          show 0 < (s.cgroups.chain path).headD 0 ∧ (s.cgroups.chain path).headD 0 < g.nextId
          rw [Cgroups.chain_headD, hnext]
          exact h.cgroups.bounded path _ hid
        case there =>
          intro q hq
          change g.dirs q = some ((s.cgroups.chain path).headD 0) at hq
          rw [Cgroups.chain_headD, hdirs] at hq
          obtain rfl := h.cgroups.distinct q path _ hq hid
          exact ⟨rfl, by rw [hchain]⟩
        case seen => exact ⟨_, hnow, hmember⟩
        case fence =>
          intro gen hf
          obtain ⟨rfl, htracked⟩ := hfence gen hf
          refine ⟨by rw [hgen], fun _ => ⟨htracked, by rw [hprocs]; exact hproc, ?_⟩⟩
          show g.dirs path = some ((s.cgroups.chain path).headD 0)
          rw [Cgroups.chain_headD, hdirs]
          exact hid
      · unfold leafRead Call.homeId
        show (if s.router.revalidateLeaf = true then s.cgroups.cgroupId path else 0) =
          if s.router.revalidateLeaf = true then (s.cgroups.chain path).headD 0 else 0
        rw [Cgroups.chain_headD]
      · change ResolvePc.read fence path s.router.revalidateLeaf _ = _ at hr
        injection hr
      -- a call for the same process that has sampled the generation saw it too
      · have hseen := h.present k hk (by rw [hkpc]; exact fun hr => hr)
        refine ⟨_, hseen, ?_⟩
        show s.cgroups.membership k.pid = s.cgroups.chain path
        rw [← show c.pid = k.pid from hpid]
        exact hmember

/-- A call that holds a path goes on holding it. -/
theorem Ok.hold (h : s.Ok) {i : Nat} (hc : s.calls[i]? = some c) {fence : Option Nat}
    {path : CgroupPath} {pc : ResolvePc} (hheld : c.pc.held = some (fence, path))
    (hpc : pc.held = some (fence, path)) (hnot : ∀ f p leaf, pc ≠ .read f p false leaf)
    (hcall : s.CallOk (c.goto pc)) : Core { s with calls := s.calls.set i (c.goto pc) } := by
  refine h.replace (.refl h.cgroups) rfl ?_ (fun f p leaf hr => absurd hr (hnot f p leaf))
    (fun gen hgen => ?_) fun gen q hq k hk hkpc hpid => ?_
  · exact hcall.keeps h.cgroups (.refl h.cgroups) (fun _ he _ => Or.inl ⟨he, rfl⟩) fun hr => hr
  · change pc = _ at hgen
    rw [hgen] at hpc
    cases hpc
  · have hsame : c.pc.held = some (some gen, q) := by
      rw [hheld, ← hpc]
      exact hq
    exact h.handed k hk c (List.mem_of_getElem? hc) gen q hkpc hsame hpid

/-- When the path that a call holds is no longer that of the home it has seen, its process has
moved. -/
theorem Ok.membership_ne_home (h : s.Ok) {i : Nat} (hc : s.calls[i]? = some c) {fence : Option Nat}
    {path : CgroupPath} (hheld : c.pc.held = some (fence, path)) (haway : ¬s.AtHome c path) :
    s.cgroups.membership c.pid ≠ c.home := by
  have hholds := (h.calls c (List.mem_of_getElem? hc)).holds hheld
  intro hsame
  cases hproc : s.cgroups.procs c.pid with
  | none =>
      rw [Cgroups.membership, hproc] at hsame
      have hpos := hholds.named.1
      simp [Call.homeId, ← hsame] at hpos
  | some q =>
      rw [Cgroups.membership, hproc] at hsame
      have hq : s.cgroups.dirs q = some c.homeId := by
        rw [Call.homeId, ← hsame, Cgroups.chain_headD]
        exact Cgroups.dirs_of_cgroupId (h.cgroups.inside _ _ hproc)
      obtain ⟨rfl, -⟩ := hholds.there q hq
      exact haway hq

/-- The branch found for the path is the one of the home that the call has seen, or the process has
moved. -/
theorem Ok.found_or_moved (h : s.Ok) {i : Nat} (hc : s.calls[i]? = some c) {fence : Option Nat}
    {path : CgroupPath} (hheld : c.pc.held = some (fence, path)) {branchId : Nat}
    (hright : s.AtHome c path → branchId =
      BranchRouter.branchForCgroupIds s.router.cgroupBranchMap (s.cgroups.walkIds path)) :
    branchId = BranchRouter.branchForCgroupIds s.router.cgroupBranchMap (Cgroups.walked c.home) ∨
      ¬s.AtHome c path ∧ s.cgroups.membership c.pid ≠ c.home := by
  by_cases hhome : s.AtHome c path
  · left
    have hholds := (h.calls c (List.mem_of_getElem? hc)).holds hheld
    rw [hright hhome, h.cgroups.walkIds (by rw [hhome]; simp), (hholds.there path hhome).2]
  · exact Or.inr ⟨hhome, h.membership_ne_home hc hheld hhome⟩

/-- A call returns the branch it has found for the path it holds, and stores it. -/
theorem Ok.answer (h : s.Ok) {i : Nat} (hc : s.calls[i]? = some c) {fence : Option Nat}
    {path : CgroupPath} (hheld : c.pc.held = some (fence, path)) {r : BranchRouter}
    {branchId : Nat} (hmap : r.cgroupBranchMap = s.router.cgroupBranchMap)
    (hleaf : r.revalidateLeaf = s.router.revalidateLeaf)
    (hright : s.AtHome c path → branchId =
      BranchRouter.branchForCgroupIds s.router.cgroupBranchMap (s.cgroups.walkIds path))
    (hmemo : ∀ e ∈ r.pathBranchCache, e ∈ s.router.pathBranchCache ∨
      s.MemoOk e.1 e.2 ∧ (s.Trusting e.1 → s.FreshFor e.1 e.2.branchId))
    (hcache : ∀ e ∈ r.pidFenceCache, e ∈ s.router.pidFenceCache ∨
      ∃ gen, fence = some gen ∧ e = (c.pid, ⟨branchId, gen⟩)) :
    Core { s with
      router := r
      raced := s.raced || decide (¬s.AtHome c path)
      calls := s.calls.set i (c.goto (.returned branchId)) } := by
  have hmem : c ∈ s.calls := List.mem_of_getElem? hc
  have hholds := (h.calls c hmem).holds hheld
  have hnow := h.present c hmem (ResolvePc.not_returned_of_held hheld)
  -- either the branch found is right now, or the process has been seen elsewhere
  have hfound := h.found_or_moved hc hheld hright
  -- a new entry of the process cache, for the calls that have sampled its generation
  have hnew : ∀ k ∈ s.calls, ∀ gen, fence = some gen → k.pid = c.pid → k.pc = .sampled gen →
      k.GoodFor r.cgroupBranchMap branchId ∨
        (s.raced || decide (¬s.AtHome c path)) = true ∧ k.Moved := by
    intro k hk gen hf hpid hkpc
    obtain ⟨m, hm, hcg⟩ := h.handed k hk c hmem gen path hkpc (hf ▸ hheld) hpid.symm
    rcases hfound with hgood | ⟨hhome, haway⟩
    · refine Or.inl ⟨m, hm, ?_⟩
      rw [hmap, hcg]
      exact hgood
    · refine Or.inr ⟨by simp [hhome], m, hm, _,
        h.present k hk (by rw [hkpc]; exact fun hr => hr), ?_⟩
      rw [hcg, hpid]
      exact haway.symm
  constructor
  case cgroups => exact h.cgroups
  case map =>
    intro e he
    rw [show (_ : List (Nat × Nat)) = s.router.cgroupBranchMap from hmap] at he
    exact h.map e he
  case memo =>
    intro e he
    have hok : s.MemoOk e.1 e.2 := by
      rcases hmemo e he with hold | ⟨hok, -⟩
      · exact h.memo e hold
      · exact hok
    refine MemoOk.keeps h.cgroups ?_ ?_ hok
    · exact .refl h.cgroups
    · exact hmap
  -- a new memo entry is only made where the memo may be trusted
  case trusted =>
    intro p hp entry hentry
    have htrust : s.Trusting p := by
      rcases hp with hoff | ⟨k, hk, f, leaf, hpc, hhome⟩
      · exact Or.inl (hleaf ▸ hoff)
      · rcases List.mem_or_eq_of_mem_set hk with hk | rfl
        · exact Or.inr ⟨k, hk, f, leaf, hpc, hhome⟩
        · cases hpc
    have hfresh : s.FreshFor p entry.branchId := by
      rcases hmemo _ hentry with hold | ⟨-, hok⟩
      · exact h.trusted p htrust entry hold
      · exact hok htrust
    unfold FreshFor at hfresh ⊢
    rw [show (_ : BranchRouter).cgroupBranchMap = s.router.cgroupBranchMap from hmap]
    exact hfresh
  case cache =>
    intro e he
    rcases hcache e he with hold | ⟨gen, hf, rfl⟩
    · refine CacheOk.keeps h.cgroups ?_ ?_ (h.cache e hold)
      · exact .refl h.cgroups
      · exact hmap
    -- a new cache entry is right as long as its generation lasts
    · obtain ⟨hle, hcurrent⟩ := hholds.fence gen hf
      refine ⟨hle, fun hgen => ?_⟩
      obtain ⟨htracked, hproc, hhome⟩ := hcurrent hgen
      refine ⟨htracked, path, hproc, ?_⟩
      rw [show (_ : BranchRouter).cgroupBranchMap = s.router.cgroupBranchMap from hmap]
      exact hright hhome
  case calls =>
    intro k hk
    rcases List.mem_or_eq_of_mem_set hk with hk | rfl
    · refine (h.calls k hk).keeps h.cgroups (.refl h.cgroups) (fun entry hentry hkpc => ?_)
        fun hr => by simp [hr]
      rcases hcache _ hentry with hold | ⟨gen, hf, heq⟩
      · exact Or.inl ⟨hold, hmap⟩
      · obtain ⟨hpid, rfl⟩ := Prod.mk.inj heq
        exact Or.inr (hnew k hk gen hf hpid hkpc)
    -- the call that returns
    · obtain ⟨m, hm, hcg⟩ := hholds.seen
      rcases hfound with hgood | ⟨hhome, haway⟩
      · refine Or.inl ⟨_, hnow, m, hm, ?_⟩
        rw [hcg]
        exact hgood
      · refine Or.inr ⟨by simp [hhome], m, hm, _, hnow, ?_⟩
        rw [hcg]
        exact haway.symm
  case handed =>
    intro a ha k hk gen q hpc hkheld hpid
    rcases List.mem_or_eq_of_mem_set ha with ha₀ | rfl
    · rcases List.mem_or_eq_of_mem_set hk with hk₀ | rfl
      · exact h.handed a ha₀ k hk₀ gen q hpc hkheld hpid
      · cases hkheld
    · cases hpc

/-- The memo is looked up. -/
theorem Ok.memoized (h : s.Ok) {i : Nat} (hc : s.calls[i]? = some c) {fence : Option Nat}
    {path : CgroupPath} {checkLeaf : Bool} {leafCgroupId : Nat}
    (hpc : c.pc = .read fence path checkLeaf leafCgroupId) :
    Core { (s.resolveMemo c fence path checkLeaf leafCgroupId).1 with
      calls := s.calls.set i (s.resolveMemo c fence path checkLeaf leafCgroupId).2 } := by
  have hmem : c ∈ s.calls := List.mem_of_getElem? hc
  have hcall := h.calls c hmem
  unfold CallOk at hcall
  rw [hpc] at hcall
  have hheld : c.pc.held = some (fence, path) := by rw [hpc]; rfl
  unfold resolveMemo
  cases hm : s.router.memoBranch path checkLeaf leafCgroupId with
  | none => exact h.hold hc hheld rfl (fun _ _ _ hr => (by cases hr)) ⟨hcall.1.goto _, hcall.2⟩
  | some branchId =>
      refine h.answer hc hheld (by simp) (by simp) (fun hhome => ?_)
        (fun e he => Or.inl (by simpa using he)) fun e he => ?_
      · unfold BranchRouter.memoBranch at hm
        split at hm
        · rename_i entry hentry
          split at hm
          · rename_i hcheck
            cases hm
            have hentry' := AssocList.mem_of_find hentry
            cases checkLeaf with
            | true =>
                have hleaf : entry.leafCgroupId = leafCgroupId := by simpa using hcheck
                refine (h.memo _ hentry').2 ?_
                rw [hleaf, hcall.2]
                exact hhome
            | false =>
                have htrust : s.Trusting path := Or.inr ⟨c, hmem, fence, leafCgroupId, hpc, hhome⟩
                exact (h.trusted path htrust entry hentry').right h.cgroups (by rw [hhome]; simp)
          · cases hm
        · cases hm
      · rcases BranchRouter.mem_fenceCacheStoreIf he with hnew | hold
        · exact Or.inr hnew
        · exact Or.inl hold

/-- The cgroups are walked. -/
theorem Ok.walk (h : s.Ok) {i : Nat} (hc : s.calls[i]? = some c) {fence : Option Nat}
    {path : CgroupPath} {checkLeaf : Bool} {leafCgroupId missGeneration : Nat}
    (hpc : c.pc = .missed fence path checkLeaf leafCgroupId missGeneration) :
    Core { s with
      calls := s.calls.set i (s.resolveWalk c fence path checkLeaf leafCgroupId missGeneration) } := by
  have hmem : c ∈ s.calls := List.mem_of_getElem? hc
  have hcall := h.calls c hmem
  unfold CallOk at hcall
  rw [hpc] at hcall
  refine h.hold hc (by rw [hpc]; rfl) rfl (fun _ _ _ hr => (by cases hr)) ⟨hcall.1.goto _, ?_⟩
  obtain ⟨hholds, hleaf⟩ := hcall
  have hroot : 0 < s.cgroups.nextId := by
    have hnamed := hholds.named
    omega
  constructor
  case bound =>
    cases checkLeaf with
    | true =>
        simp only [leafRead, if_true] at hleaf
        rw [if_pos rfl, hleaf]
        exact hholds.named.2
    | false =>
        rw [if_neg Bool.false_ne_true]
        unfold Cgroups.cgroupId
        cases hd : s.cgroups.dirs path with
        | none => exact hroot
        | some cgId => exact (h.cgroups.bounded path cgId hd).2
  case leaf =>
    intro hhome
    cases checkLeaf with
    | true =>
        simp only [leafRead, if_true] at hleaf
        rw [if_pos rfl]
        exact hleaf
    | false =>
        rw [if_neg Bool.false_ne_true]
        exact Cgroups.cgroupId_of_dirs hhome
  case ids =>
    intro hdir
    exact congrArg (BranchRouter.cgroupPathIds s.cgroups.cgroupId path)
      (Cgroups.cgroupId_of_dirs hdir).symm

/-- The answer of the walk is looked up and stored. -/
theorem Ok.finish (h : s.Ok) {i : Nat} (hc : s.calls[i]? = some c) {fence : Option Nat}
    {path : CgroupPath} {checkLeaf : Bool} {leafCgroupId missGeneration : Nat} {ids : List Nat}
    (hpc : c.pc = .walked fence path checkLeaf leafCgroupId missGeneration ids)
    (hkept : s.Trusting path → s.router.generation = missGeneration →
      s.FreshFor path (BranchRouter.branchForCgroupIds s.router.cgroupBranchMap ids)) :
    Core { (s.resolveFinish c fence path leafCgroupId missGeneration ids).1 with
      calls := s.calls.set i
        (s.resolveFinish c fence path leafCgroupId missGeneration ids).2 } := by
  have hmem : c ∈ s.calls := List.mem_of_getElem? hc
  have hcall := h.calls c hmem
  unfold CallOk at hcall
  rw [hpc] at hcall
  obtain ⟨hfst, hmap, -, hleaf, hpaths, hpids⟩ :=
    BranchRouter.finishWalk_spec s.router fence c.pid path leafCgroupId missGeneration ids
  unfold resolveFinish
  rcases hfin : s.router.finishWalk fence c.pid path leafCgroupId missGeneration ids with ⟨b, r⟩
  rw [hfin] at hfst hmap hleaf hpaths hpids
  obtain rfl : b = _ := hfst
  refine h.answer hc (by rw [hpc]; rfl) hmap hleaf (fun hhome => ?_) (fun e he => ?_)
    fun e he => ?_
  · rw [hcall.2.ids (by rw [hcall.2.leaf hhome]; exact hhome)]
  · rcases hpaths e he with ⟨hgen, rfl⟩ | hold
    · refine Or.inr ⟨⟨hcall.2.bound, fun hdir => ?_⟩, fun htrust => hkept htrust hgen⟩
      rw [hcall.2.ids hdir]
    · exact Or.inl hold
  · rcases hpids e he with ⟨gen, -, hf, rfl⟩ | hold
    · exact Or.inr ⟨gen, hf, rfl⟩
    · exact Or.inl hold

/-- Every step of a call keeps the invariant. -/
theorem Ok.resolve (h : s.Ok) {i : Nat} (hc : s.calls[i]? = some c) {accepted : Bool}
    (hstep : s.resolveStep c accepted = some (s', c'))
    (hkept : s.Kept (.resolve i accepted) s') :
    Core { s' with calls := s'.calls.set i c' } := by
  unfold resolveStep at hstep
  cases hpc : c.pc with
  | called =>
      rw [hpc] at hstep
      cases hstep
      split
      · exact h.sample hc hpc
      · exact h.goto rfl (fun _ hr => (by cases hr)) trivial
  | sampled gen =>
      rw [hpc] at hstep
      cases hstep
      exact h.fenced hc hpc
  | uncached =>
      rw [hpc] at hstep
      have hread := h.read hc hpc accepted
      rw [Option.some.inj hstep] at hread
      exact hread
  | read fence path checkLeaf leafCgroupId =>
      rw [hpc] at hstep
      have hmemo := h.memoized hc hpc
      have hcalls : (s.resolveMemo c fence path checkLeaf leafCgroupId).1.calls = s.calls := by
        unfold resolveMemo
        split <;> rfl
      rw [← hcalls, Option.some.inj hstep] at hmemo
      exact hmemo
  | missed fence path checkLeaf leafCgroupId missGeneration =>
      rw [hpc] at hstep
      cases hstep
      exact h.walk hc hpc
  | walked fence path checkLeaf leafCgroupId missGeneration ids =>
      rw [hpc] at hstep
      have hfinish := h.finish hc hpc (hkept c fence path checkLeaf leafCgroupId missGeneration ids
        hc hpc)
      have hcalls : (s.resolveFinish c fence path leafCgroupId missGeneration ids).1.calls =
        s.calls := rfl
      rw [← hcalls, Option.some.inj hstep] at hfinish
      exact hfinish
  | returned b =>
      rw [hpc] at hstep
      cases hstep

/-- Every event keeps the invariant. -/
theorem Ok.effect (h : s.Ok) {e : RouterEvent} (he : s.Effect e s') (hkept : s.Kept e s') :
    s'.Core := by
  cases he with
  | @mkdir p hmake hevicted =>
      refine h.moves (Cgroups.moves_mkdir h.cgroups hmake) fun hoff e he hnone => ?_
      have hne : e.1 ≠ p := hevicted hoff e he
      simpa [Cgroups.mkdir, hne] using hnone
  | @rmdir p hremove =>
      refine h.moves (Cgroups.moves_rmdir h.cgroups hremove) fun _ e _ hnone => ?_
      by_cases hp : e.1 = p
      · simp [Cgroups.rmdir, hp]
      · simpa [Cgroups.rmdir, hp] using hnone
  | spawn hnew hdir => exact h.moves (Cgroups.moves_spawn h.cgroups hnew hdir) fun _ _ _ hn => hn
  | migrate _ hdir => exact h.moves (Cgroups.moves_migrate h.cgroups hdir) fun _ _ _ hn => hn
  | @exit pid => exact h.moves (Cgroups.moves_exit h.cgroups pid) fun _ _ _ hn => hn
  | bump => exact h.moves (Cgroups.moves_bump h.cgroups) fun _ _ _ hn => hn
  | @registerCgroup cgId branchId r hread hr =>
      unfold BranchRouter.registerCgroup at hr
      split at hr
      · cases hr
      · cases hr
        refine h.reset (.refl h.cgroups) (fun e he => ?_) rfl rfl
        rcases AssocList.mem_assign he with rfl | hold
        · exact hread
        · exact h.map e hold
  | @unregisterCgroup cgId =>
      unfold BranchRouter.unregisterCgroup
      split
      · exact h.toCore
      · exact h.reset (.refl h.cgroups) (fun e he => h.map e (List.mem_filter.1 he).1) rfl rfl
  | evictCgroupId =>
      exact h.reset (.evicted h.cgroups _) (fun e he => h.map e (List.mem_filter.1 he).1) rfl rfl
  | invalidateBranch =>
      exact h.reset (.refl h.cgroups) (fun e he => h.map e (List.mem_filter.1 he).1) rfl rfl
  | @setLeafRevalidation on =>
      refine h.switch fun hoff => ?_
      subst hoff
      exact hkept
  | call => exact h.call _
  | resolve hc hstep => exact h.resolve hc hstep fun c => hkept c

theorem Ok.init (h : Init s) : s.Ok := by
  obtain ⟨fenceOn, revalidateLeaf, rfl⟩ := h
  constructor
  case toCore =>
    constructor
    case cgroups =>
      have hdirs : ∀ p cgId, ({} : Cgroups).dirs p = some cgId → p = [] ∧ cgId = 1 := by
        intro p cgId hp
        by_cases hnil : p = []
        · simp only [hnil, if_true, Option.some.injEq] at hp
          exact ⟨hnil, hp.symm⟩
        · simp [hnil] at hp
      constructor
      case root => simp
      case closed => intro c p hp; simp at hp
      case bounded =>
        intro p cgId hp
        obtain ⟨-, rfl⟩ := hdirs p cgId hp
        exact ⟨Nat.one_pos, Nat.one_lt_two⟩
      case distinct =>
        intro p q cgId hp hq
        rw [(hdirs p cgId hp).1, (hdirs q cgId hq).1]
      case inside => intro pid p hp; cases hp
    all_goals simp
  case present => simp

theorem Ok.step (h : s.Ok) {e : RouterEvent} (hs : Restrict Step Kept s e s') : s'.Ok := by
  obtain ⟨⟨s₁, heffect, rfl⟩, hkept⟩ := hs
  have hcond : s.Kept e s₁ := by
    cases e with
    | setLeafRevalidation on => cases on <;> exact hkept
    | _ => exact hkept
  exact (h.effect heffect hcond).seen

end RouterSystem
end ContextFS
