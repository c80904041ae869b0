import ContextFS.Router.BranchRouter

/-!
# Cgroups and processes

What the router reads of its host: directories with ids that are not reused, the cgroups of the
processes, and the kernel's routing fence, whose generation grows with every migration or exit of a
process it tracks.
-/

namespace ContextFS

open Lib

/-- The cgroups of the host, the processes in them and the kernel's routing fence. -/
structure Cgroups where
  dirs : CgroupPath → Option Nat := fun p => if p = [] then some 1 else none
  nextId : Nat := 2
  procs : Pid → Option CgroupPath := fun _ => none
  fenceGeneration : Nat := 0
  tracked : Pid → Bool := fun _ => false
  /-- Directories that were removed and not evicted since. -/
  unevicted : List (CgroupPath × Nat) := []

namespace Cgroups

/-- `cgroup_id`: the inode of the directory, zero where there is none. -/
def cgroupId (g : Cgroups) (p : CgroupPath) : Nat := (g.dirs p).getD 0

/-- The ids of a cgroup and of all the cgroups it is in, the root's last. -/
def chain (g : Cgroups) : CgroupPath → List Nat
  | [] => [g.cgroupId []]
  | c :: p => g.cgroupId (c :: p) :: chain g p

/-- The cgroup of a process, as its chain; nothing for a pid without a process. -/
def membership (g : Cgroups) (pid : Pid) : List Nat :=
  match g.procs pid with
  | some p => g.chain p
  | none => []

/-- A change of the routing of a process that the fence sees if it tracks the process. -/
def bumpIf (g : Cgroups) (pid : Pid) : Cgroups :=
  { g with fenceGeneration := if g.tracked pid then g.fenceGeneration + 1 else g.fenceGeneration }

def mkdir (g : Cgroups) (p : CgroupPath) : Cgroups :=
  { g with dirs := Function.update g.dirs p (some g.nextId), nextId := g.nextId + 1 }

def rmdir (g : Cgroups) (p : CgroupPath) : Cgroups :=
  { g with
    dirs := Function.update g.dirs p none
    unevicted := (p, g.cgroupId p) :: g.unevicted }

def spawn (g : Cgroups) (pid : Pid) (p : CgroupPath) : Cgroups :=
  { g with procs := Function.update g.procs pid (some p) }

def migrate (g : Cgroups) (pid : Pid) (p : CgroupPath) : Cgroups :=
  { g.bumpIf pid with procs := Function.update g.procs pid (some p) }

def exit (g : Cgroups) (pid : Pid) : Cgroups :=
  { g.bumpIf pid with
    procs := Function.update g.procs pid none
    tracked := Function.update g.tracked pid false }

/-- A directory that may be made: its parent is there and it is not. -/
def CanMake (g : Cgroups) : CgroupPath → Prop
  | [] => False
  | c :: p => g.dirs (c :: p) = none ∧ g.dirs p ≠ none

/-- A directory that may be removed: nothing is in it. -/
def CanRemove (g : Cgroups) (p : CgroupPath) : Prop :=
  p ≠ [] ∧ g.dirs p ≠ none ∧ (∀ c, g.dirs (c :: p) = none) ∧ ∀ pid, g.procs pid ≠ some p

/-! ## The ids of a path -/

/-- The part of a chain that a walk reads: all of it but the root, unless the root is all there
is. -/
def walked : List Nat → List Nat
  | [] => []
  | [cgId] => [cgId]
  | cgId :: cgId' :: ids => cgId :: (cgId' :: ids).dropLast

/-- The ids that a walk over the present directories gives. -/
def walkIds (g : Cgroups) (p : CgroupPath) : List Nat :=
  BranchRouter.cgroupPathIds g.cgroupId p (g.cgroupId p)

/-- Directories lie in directories, ids tell them apart, and processes are in them. -/
structure Ok (g : Cgroups) : Prop where
  root : g.dirs [] ≠ none
  closed : ∀ c p, g.dirs (c :: p) ≠ none → g.dirs p ≠ none
  bounded : ∀ p cgId, g.dirs p = some cgId → 0 < cgId ∧ cgId < g.nextId
  distinct : ∀ p q cgId, g.dirs p = some cgId → g.dirs q = some cgId → p = q
  inside : ∀ pid p, g.procs pid = some p → g.dirs p ≠ none

theorem chain_ne_nil (g : Cgroups) (p : CgroupPath) : g.chain p ≠ [] := by
  cases p <;> simp [chain]

theorem chain_headD (g : Cgroups) (p : CgroupPath) : (g.chain p).headD 0 = g.cgroupId p := by
  cases p <;> rfl

theorem cgroupId_of_dirs {g : Cgroups} {p : CgroupPath} {cgId : Nat} (h : g.dirs p = some cgId) :
    g.cgroupId p = cgId := by
  simp [cgroupId, h]

theorem dirs_of_cgroupId {g : Cgroups} {p : CgroupPath} (h : g.dirs p ≠ none) :
    g.dirs p = some (g.cgroupId p) := by
  obtain ⟨cgId, hid⟩ := Option.ne_none_iff_exists'.1 h
  rw [cgroupId_of_dirs hid, hid]

theorem walked_cons_cons (cgId : Nat) {ids : List Nat} (h : ids ≠ []) :
    walked (cgId :: ids) = cgId :: ids.dropLast := by
  cases ids with
  | nil => exact absurd rfl h
  | cons cgId' ids => rfl

namespace Ok

variable {g : Cgroups}

theorem presentId (h : g.Ok) {p : CgroupPath} (hp : g.dirs p ≠ none) :
    BranchRouter.presentId (g.cgroupId p) = [g.cgroupId p] := by
  have hpos := (h.bounded p _ (dirs_of_cgroupId hp)).1
  simp [BranchRouter.presentId, Nat.pos_iff_ne_zero.1 hpos]

theorem ancestorIds (h : g.Ok) : ∀ {p : CgroupPath}, g.dirs p ≠ none → ∀ c,
    BranchRouter.ancestorIds g.cgroupId (c :: p) = (g.chain p).dropLast
  | [], _, _ => rfl
  | c :: p, hp, _ => by
      have hup := h.closed c p hp
      rw [BranchRouter.ancestorIds, h.presentId hp, ancestorIds h hup c]
      simp [chain, List.dropLast_cons_of_ne_nil (chain_ne_nil g p)]

/-- A walk over the directories of an existing cgroup reads its chain. -/
theorem walkIds (h : g.Ok) {p : CgroupPath} (hp : g.dirs p ≠ none) :
    g.walkIds p = walked (g.chain p) := by
  unfold Cgroups.walkIds BranchRouter.cgroupPathIds
  rw [h.presentId hp]
  cases p with
  | nil => rfl
  | cons c p =>
      rw [h.ancestorIds (h.closed c p hp) c, chain, walked_cons_cons _ (chain_ne_nil g p)]
      rfl

/-- What is above an existing directory exists. -/
theorem suffix (h : g.Ok) {p q : CgroupPath} (hp : g.dirs p ≠ none) (hq : q <:+ p) :
    g.dirs q ≠ none := by
  obtain ⟨r, rfl⟩ := hq
  induction r with
  | nil => exact hp
  | cons c r ih => exact ih (h.closed c _ hp)

end Ok

/-! ## Changes of the host -/

/-- What every change respects: an id belongs to one directory for good, and a tracked process
stays where it is while the generation does. -/
structure Keeps (g g' : Cgroups) : Prop where
  ok : g'.Ok
  nextId : g.nextId ≤ g'.nextId
  generation : g.fenceGeneration ≤ g'.fenceGeneration
  fresh : ∀ p cgId, g'.dirs p = some cgId → g.dirs p = some cgId ∨
    g.dirs p = none ∧ g.nextId ≤ cgId
  fenced : ∀ pid p, g.tracked pid = true → g.procs pid = some p →
    g'.fenceGeneration = g.fenceGeneration → g'.tracked pid = true ∧ g'.procs pid = some p

/-- A change of the host: a directory that is gone is not evicted yet. -/
structure Moves (g g' : Cgroups) : Prop extends Keeps g g' where
  gone : ∀ p, g.dirs p ≠ none → g'.dirs p = none → ∃ cgId, (p, cgId) ∈ g'.unevicted
  unevicted : ∀ e ∈ g.unevicted, e ∈ g'.unevicted

namespace Keeps

variable {g g' : Cgroups}

theorem same (h : g.Keeps g') {p : CgroupPath} {cgId : Nat} (hp : g.dirs p = some cgId)
    (hp' : g'.dirs p ≠ none) : g'.dirs p = some cgId := by
  obtain ⟨cgId', hid⟩ := Option.ne_none_iff_exists'.1 hp'
  rcases h.fresh p cgId' hid with hold | ⟨hnone, -⟩
  · rw [hid, ← hold, hp]
  · rw [hp] at hnone
    cases hnone

theorem cgroupId (h : g.Keeps g') {p : CgroupPath} (hp : g.dirs p ≠ none)
    (hp' : g'.dirs p ≠ none) : g'.cgroupId p = g.cgroupId p := by
  rw [cgroupId_of_dirs (h.same (dirs_of_cgroupId hp) hp')]

/-- A directory that stays keeps its chain. -/
theorem chain (hok : g.Ok) (h : g.Keeps g') : ∀ {p : CgroupPath}, g.dirs p ≠ none →
    g'.dirs p ≠ none → g'.chain p = g.chain p
  | [], hp, hp' => by rw [Cgroups.chain, Cgroups.chain, h.cgroupId hp hp']
  | c :: p, hp, hp' => by
      rw [Cgroups.chain, Cgroups.chain, h.cgroupId hp hp',
        chain hok h (hok.closed c p hp) (h.ok.closed c p hp')]

theorem walkIds (hok : g.Ok) (h : g.Keeps g') {p : CgroupPath} (hp : g.dirs p ≠ none)
    (hp' : g'.dirs p ≠ none) : g'.walkIds p = g.walkIds p := by
  rw [h.ok.walkIds hp', hok.walkIds hp, h.chain hok hp hp']

/-- An old id is the id of a directory that was there. -/
theorem old (h : g.Keeps g') {p : CgroupPath} {cgId : Nat} (hp : g'.dirs p = some cgId)
    (hold : cgId < g.nextId) : g.dirs p = some cgId := by
  rcases h.fresh p cgId hp with hsame | ⟨-, hnew⟩
  · exact hsame
  · omega

theorem refl (h : g.Ok) : g.Keeps g where
  ok := h
  nextId := Nat.le_refl _
  generation := Nat.le_refl _
  fresh := fun _ _ hp => Or.inl hp
  fenced := fun _ _ ht hp _ => ⟨ht, hp⟩

/-- Evictions do not concern the directories. -/
theorem evicted (h : g.Ok) (unevicted : List (CgroupPath × Nat)) :
    g.Keeps { g with unevicted := unevicted } where
  ok := ⟨h.root, h.closed, h.bounded, h.distinct, h.inside⟩
  nextId := Nat.le_refl _
  generation := Nat.le_refl _
  fresh := fun _ _ hp => Or.inl hp
  fenced := fun _ _ ht hp _ => ⟨ht, hp⟩

end Keeps

/-! ## The answer of a walk -/

/-- The branch of a path is right, or a directory above it is gone and not evicted yet. -/
def Fresh (g : Cgroups) (map : List (Nat × Nat)) (p : CgroupPath) (branchId : Nat) : Prop :=
  (∃ q, q <:+ p ∧ g.dirs q = none ∧ ∃ cgId, (q, cgId) ∈ g.unevicted) ∨
    branchId = BranchRouter.branchForCgroupIds map (g.walkIds p)

theorem Fresh.right {g : Cgroups} {map : List (Nat × Nat)} {p : CgroupPath} {branchId : Nat}
    (h : g.Fresh map p branchId) (hok : g.Ok) (hp : g.dirs p ≠ none) :
    branchId = BranchRouter.branchForCgroupIds map (g.walkIds p) := by
  rcases h with ⟨q, hq, hnone, -⟩ | hright
  · exact absurd hnone (hok.suffix hp hq)
  · exact hright

theorem branch_presentId_congr {map : List (Nat × Nat)} {cgId cgId' : Nat} {ids ids' : List Nat}
    (hid : cgId' = cgId ∨ cgId = 0 ∧ AssocList.find cgId' map = none)
    (hids : BranchRouter.branchForCgroupIds map ids' = BranchRouter.branchForCgroupIds map ids) :
    BranchRouter.branchForCgroupIds map (BranchRouter.presentId cgId' ++ ids') =
      BranchRouter.branchForCgroupIds map (BranchRouter.presentId cgId ++ ids) := by
  rcases hid with rfl | ⟨rfl, hnone⟩
  · unfold BranchRouter.presentId
    split
    · exact hids
    · simp only [List.cons_append, List.nil_append, BranchRouter.branchForCgroupIds]
      split
      · rfl
      · exact hids
  · unfold BranchRouter.presentId
    split
    · exact hids
    · simp only [List.cons_append, List.nil_append, BranchRouter.branchForCgroupIds, hnone]
      simpa using hids

theorem branch_ancestorIds_congr {map : List (Nat × Nat)} {id id' : CgroupPath → Nat} :
    ∀ {p : CgroupPath}, (∀ q, q <:+ p → id' q = id q ∨ id q = 0 ∧ AssocList.find (id' q) map = none) →
      BranchRouter.branchForCgroupIds map (BranchRouter.ancestorIds id' p) =
        BranchRouter.branchForCgroupIds map (BranchRouter.ancestorIds id p)
  | [], _ => rfl
  | [_], _ => rfl
  | c :: d :: p, h => by
      have hup : d :: p <:+ c :: d :: p := List.suffix_cons c (d :: p)
      exact branch_presentId_congr (h _ hup)
        (branch_ancestorIds_congr fun q hq => h q (hq.trans hup))

namespace Moves

variable {g g' : Cgroups}

theorem refl (h : g.Ok) : g.Moves g :=
  { Keeps.refl h with
    gone := fun _ hp hp' => absurd hp' hp
    unevicted := fun _ he => he }

/-- A right answer stays right while no directory that is not evicted is made again: a new
directory is not registered. -/
theorem stays_fresh (h : g.Moves g') {map : List (Nat × Nat)}
    (hmap : ∀ cgId branchId, AssocList.find cgId map = some branchId → cgId < g.nextId)
    {p : CgroupPath} {branchId : Nat} (hfresh : g.Fresh map p branchId)
    (hguard : ∀ e ∈ g.unevicted, e.1 <:+ p → g.dirs e.1 = none → g'.dirs e.1 = none) :
    g'.Fresh map p branchId := by
  rcases hfresh with ⟨q, hq, hnone, cgId, hmem⟩ | hright
  · exact Or.inl ⟨q, hq, hguard _ hmem hq hnone, cgId, h.unevicted _ hmem⟩
  by_cases hgone : ∃ q, q <:+ p ∧ g.dirs q ≠ none ∧ g'.dirs q = none
  · obtain ⟨q, hq, hthere, hnone⟩ := hgone
    exact Or.inl ⟨q, hq, hnone, h.gone q hthere hnone⟩
  refine Or.inr (hright.trans ?_)
  push Not at hgone
  have hids : ∀ q, q <:+ p → g'.cgroupId q = g.cgroupId q ∨
      g.cgroupId q = 0 ∧ AssocList.find (g'.cgroupId q) map = none := by
    intro q hq
    by_cases hthere : g.dirs q = none
    · cases hq' : g'.dirs q with
      | none => exact Or.inl (by simp [Cgroups.cgroupId, hthere, hq'])
      | some cgId =>
          refine Or.inr ⟨by simp [Cgroups.cgroupId, hthere], ?_⟩
          rw [cgroupId_of_dirs hq']
          rcases h.fresh q cgId hq' with hold | ⟨-, hnew⟩
          · rw [hthere] at hold
            cases hold
          · cases hfind : AssocList.find cgId map with
            | none => rfl
            | some b =>
                have hlt := hmap cgId b hfind
                omega
    · exact Or.inl (h.cgroupId hthere (hgone q hq hthere))
  exact (branch_presentId_congr (hids p List.suffix_rfl)
    (branch_ancestorIds_congr fun q hq => hids q hq)).symm

end Moves

variable {g : Cgroups}

theorem moves_mkdir (h : g.Ok) {p : CgroupPath} (hmake : g.CanMake p) : g.Moves (g.mkdir p) := by
  obtain ⟨c, q, rfl, hnone, hparent⟩ :
      ∃ c q, p = c :: q ∧ g.dirs (c :: q) = none ∧ g.dirs q ≠ none := by
    cases p with
    | nil => exact hmake.elim
    | cons c q => exact ⟨c, q, rfl, hmake.1, hmake.2⟩
  -- the new directory has the next id, which no directory has
  have hcases : ∀ r cgId, (g.mkdir (c :: q)).dirs r = some cgId →
      g.dirs r = some cgId ∨ r = c :: q ∧ cgId = g.nextId := by
    intro r cgId hr
    simp only [mkdir, Function.update_apply] at hr
    split at hr
    · exact Or.inr ⟨‹_›, by simpa using hr.symm⟩
    · exact Or.inl hr
  have hstays : ∀ r, g.dirs r ≠ none → (g.mkdir (c :: q)).dirs r ≠ none := by
    intro r hr
    simp only [mkdir, Function.update_apply]
    split
    · simp
    · exact hr
  refine ⟨⟨?ok, ?nextId, ?generation, ?fresh, ?fenced⟩, ?gone, ?unevicted⟩
  case ok =>
    constructor
    · exact hstays [] h.root
    · intro c' r hr
      obtain ⟨cgId, hid⟩ := Option.ne_none_iff_exists'.1 hr
      rcases hcases _ _ hid with hold | ⟨heq, -⟩
      · exact hstays r (h.closed c' r (by simp [hold]))
      · obtain ⟨-, rfl⟩ := List.cons.inj heq
        exact hstays r hparent
    · intro r cgId hr
      show 0 < cgId ∧ cgId < g.nextId + 1
      rcases hcases _ _ hr with hold | ⟨-, rfl⟩
      · have hb := h.bounded r cgId hold
        omega
      · obtain ⟨root, hroot⟩ := Option.ne_none_iff_exists'.1 h.root
        have hb := h.bounded [] root hroot
        omega
    · intro r r' cgId hr hr'
      rcases hcases _ _ hr with hold | ⟨rfl, rfl⟩
      · rcases hcases _ _ hr' with hold' | ⟨rfl, rfl⟩
        · exact h.distinct r r' cgId hold hold'
        · have hb := h.bounded r _ hold
          omega
      · rcases hcases _ _ hr' with hold' | ⟨rfl, -⟩
        · have hb := h.bounded r' _ hold'
          omega
        · rfl
    · exact fun pid r hr => hstays r (h.inside pid r hr)
  case nextId => exact Nat.le_succ _
  case generation => exact Nat.le_refl _
  case fresh =>
    intro r cgId hr
    rcases hcases _ _ hr with hold | ⟨rfl, rfl⟩
    · exact Or.inl hold
    · exact Or.inr ⟨hnone, Nat.le_refl _⟩
  case gone => exact fun r hr hr' => absurd hr' (hstays r hr)
  case unevicted => exact fun e he => he
  case fenced => exact fun pid r ht hr _ => ⟨ht, hr⟩

theorem moves_rmdir (h : g.Ok) {p : CgroupPath} (hremove : g.CanRemove p) :
    g.Moves (g.rmdir p) := by
  obtain ⟨hroot, hthere, hempty, hout⟩ := hremove
  have hother : ∀ r, r ≠ p → (g.rmdir p).dirs r = g.dirs r := fun r hr => by
    simp [rmdir, Function.update_of_ne hr]
  have hcases : ∀ r cgId, (g.rmdir p).dirs r = some cgId → r ≠ p ∧ g.dirs r = some cgId := by
    intro r cgId hr
    by_cases hrp : r = p
    · subst hrp
      simp [rmdir] at hr
    · exact ⟨hrp, (hother r hrp).symm.trans hr⟩
  refine ⟨⟨?ok, ?nextId, ?generation, ?fresh, ?fenced⟩, ?gone, ?unevicted⟩
  case ok =>
    constructor
    · rw [hother [] (Ne.symm hroot)]
      exact h.root
    · intro c r hr
      obtain ⟨cgId, hid⟩ := Option.ne_none_iff_exists'.1 hr
      obtain ⟨-, hold⟩ := hcases _ _ hid
      have hrp : r ≠ p := by
        rintro rfl
        rw [hempty c] at hold
        cases hold
      rw [hother r hrp]
      exact h.closed c r (by simp [hold])
    · exact fun r cgId hr => h.bounded r cgId (hcases _ _ hr).2
    · exact fun r r' cgId hr hr' => h.distinct r r' cgId (hcases _ _ hr).2 (hcases _ _ hr').2
    · intro pid r hr
      rw [hother r fun hrp => hout pid (hrp ▸ hr)]
      exact h.inside pid r hr
  case nextId => exact Nat.le_refl _
  case generation => exact Nat.le_refl _
  case fresh => exact fun r cgId hr => Or.inl (hcases _ _ hr).2
  case gone =>
    intro r hr hr'
    by_cases hrp : r = p
    · subst hrp
      exact ⟨g.cgroupId r, List.mem_cons_self⟩
    · rw [hother r hrp] at hr'
      exact absurd hr' hr
  case unevicted => exact fun e he => List.mem_cons_of_mem _ he
  case fenced => exact fun pid r ht hr _ => ⟨ht, hr⟩

/-- Changes of the processes and the fence alone. -/
theorem moves_of_dirs {g' : Cgroups} (h : g.Ok) (hdirs : g'.dirs = g.dirs)
    (hnext : g'.nextId = g.nextId) (hunevicted : g'.unevicted = g.unevicted)
    (hinside : ∀ pid p, g'.procs pid = some p → g.dirs p ≠ none)
    (hgen : g.fenceGeneration ≤ g'.fenceGeneration)
    (hfenced : ∀ pid p, g.tracked pid = true → g.procs pid = some p →
      g'.fenceGeneration = g.fenceGeneration → g'.tracked pid = true ∧ g'.procs pid = some p) :
    g.Moves g' where
  ok :=
    { root := hdirs ▸ h.root
      closed := hdirs ▸ h.closed
      bounded := by
        rw [hdirs, hnext]
        exact h.bounded
      distinct := hdirs ▸ h.distinct
      inside := fun pid p hp => hdirs ▸ hinside pid p hp }
  nextId := hnext ▸ Nat.le_refl _
  generation := hgen
  fresh := fun p cgId hp => Or.inl (hdirs ▸ hp)
  gone := fun p hp hp' => absurd hp' (hdirs ▸ hp)
  unevicted := fun e he => hunevicted ▸ he
  fenced := hfenced

theorem moves_spawn (h : g.Ok) {pid : Pid} {p : CgroupPath} (hnew : g.procs pid = none)
    (hdir : g.dirs p ≠ none) : g.Moves (g.spawn pid p) := by
  refine moves_of_dirs h rfl rfl rfl (fun k q hq => ?_) (Nat.le_refl _) fun k q ht hq _ => ⟨ht, ?_⟩
  · simp only [spawn, Function.update_apply] at hq
    split at hq
    · cases hq
      exact hdir
    · exact h.inside k q hq
  · have hk : k ≠ pid := by
      rintro rfl
      rw [hnew] at hq
      cases hq
    simpa [spawn, hk] using hq

/-- A generation that has not grown did not see a tracked process. -/
theorem ne_of_bumpIf {pid k : Pid} (ht : g.tracked k = true)
    (hgen : (g.bumpIf pid).fenceGeneration = g.fenceGeneration) : k ≠ pid := by
  rintro rfl
  simp [bumpIf, ht] at hgen

theorem le_bumpIf (g : Cgroups) (pid : Pid) :
    g.fenceGeneration ≤ (g.bumpIf pid).fenceGeneration := by
  simp only [bumpIf]
  split <;> omega

theorem moves_migrate (h : g.Ok) {pid : Pid} {p : CgroupPath} (hdir : g.dirs p ≠ none) :
    g.Moves (g.migrate pid p) := by
  refine moves_of_dirs h rfl rfl rfl (fun k q hq => ?_) (le_bumpIf g pid) fun k q ht hq hgen => ?_
  · simp only [migrate, bumpIf, Function.update_apply] at hq
    split at hq
    · cases hq
      exact hdir
    · exact h.inside k q hq
  · have hk : k ≠ pid := ne_of_bumpIf ht hgen
    exact ⟨ht, by simpa [migrate, bumpIf, hk] using hq⟩

theorem moves_exit (h : g.Ok) (pid : Pid) : g.Moves (g.exit pid) := by
  refine moves_of_dirs h rfl rfl rfl (fun k q hq => ?_) (le_bumpIf g pid) fun k q ht hq hgen => ?_
  · simp only [exit, bumpIf, Function.update_apply] at hq
    split at hq
    · cases hq
    · exact h.inside k q hq
  · have hk : k ≠ pid := ne_of_bumpIf ht hgen
    exact ⟨by simpa [exit, bumpIf, hk] using ht, by simpa [exit, bumpIf, hk] using hq⟩

theorem moves_bump (h : g.Ok) :
    g.Moves { g with fenceGeneration := g.fenceGeneration + 1 } := by
  refine moves_of_dirs h rfl rfl rfl h.inside (Nat.le_succ _) fun k q _ _ hgen => ?_
  exact absurd hgen (Nat.succ_ne_self _)

theorem moves_track (h : g.Ok) (pid : Pid) :
    g.Moves { g with tracked := Function.update g.tracked pid true } := by
  refine moves_of_dirs h rfl rfl rfl h.inside (Nat.le_refl _) fun k q ht hq _ => ⟨?_, hq⟩
  simp only [Function.update_apply]
  split
  · rfl
  · exact ht

end Cgroups
end ContextFS
