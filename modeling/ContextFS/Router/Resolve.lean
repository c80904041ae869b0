import ContextFS.Lib.Runs
import ContextFS.Router.Cgroups

/-!
# Resolving a process to a branch

The router among the cgroups of a host.  A call of `resolve` has three critical sections: it looks
into the process cache, into the memo, and it stores what a walk has found.  What it reads before
each of them, without the lock, is a step of its own: the generation of the fence; the membership
and the leaf's id; the ids of the walk.  Anything may happen between two steps.

While the leaf is not revalidated, a removed directory is evicted before its path is created again.
-/

namespace ContextFS

open Lib

/-- What is in force at a moment of a call: the registrations and the cgroup of its process. -/
structure Moment where
  map : List (Nat × Nat)
  cgroup : List Nat

/-- Where a call of `resolve` is. -/
inductive ResolvePc
  | called
  | sampled (gen : Nat)
  | uncached
  | read (fence : Option Nat) (path : CgroupPath) (checkLeaf : Bool) (leafCgroupId : Nat)
  | missed (fence : Option Nat) (path : CgroupPath) (checkLeaf : Bool)
      (leafCgroupId missGeneration : Nat)
  | walked (fence : Option Nat) (path : CgroupPath) (checkLeaf : Bool)
      (leafCgroupId missGeneration : Nat) (ids : List Nat)
  | returned (branchId : Nat)

structure Call where
  pid : Pid
  pc : ResolvePc := .called
  /-- The cgroup the process was in when its membership was read, as a chain. -/
  home : List Nat := []
  /-- The moments of the call so far. -/
  moments : List Moment := []

namespace Call

/-- The id of the cgroup the process was in. -/
def homeId (c : Call) : Nat := c.home.headD 0

def goto (c : Call) (pc : ResolvePc) : Call := { c with pc := pc }

end Call

structure RouterSystem where
  cgroups : Cgroups := {}
  router : BranchRouter := {}
  fenceOn : Bool
  calls : List Call := []
  /-- Whether a call has taken an answer from the memo or a walk after the cgroup its process was
  in had been removed. -/
  raced : Bool := false

namespace RouterSystem

/-- The present moment, for a process. -/
def moment (s : RouterSystem) (pid : Pid) : Moment :=
  { map := s.router.cgroupBranchMap, cgroup := s.cgroups.membership pid }

/-- A call that has not returned sees the present moment. -/
def see (s : RouterSystem) (c : Call) : Call :=
  match c.pc with
  | .returned _ => c
  | _ => { c with moments := s.moment c.pid :: c.moments }

/-- The calls after a change of the system. -/
def seen (s : RouterSystem) : RouterSystem := { s with calls := s.calls.map s.see }

/-- The cgroup of a call is still the one its process was in. -/
def AtHome (s : RouterSystem) (c : Call) (path : CgroupPath) : Prop :=
  s.cgroups.dirs path = some c.homeId

instance (s : RouterSystem) (c : Call) (path : CgroupPath) : Decidable (s.AtHome c path) :=
  inferInstanceAs (Decidable (_ = _))

/-- The first critical section of `resolve`. -/
def resolveFenced (s : RouterSystem) (c : Call) (gen : Nat) : Call :=
  match s.router.fencedBranch c.pid gen with
  | some branchId => c.goto (.returned branchId)
  | none => c.goto .uncached

/-- `fence_track`, and the generation after it. -/
def track (s : RouterSystem) (pid : Pid) (accepted : Bool) : Option Nat × RouterSystem :=
  if s.fenceOn && accepted then
    (some s.cgroups.fenceGeneration,
      { s with cgroups := { s.cgroups with tracked := Function.update s.cgroups.tracked pid true } })
  else (none, s)

/-- What `resolve` reads of its process: the membership, and the leaf if it is revalidated. -/
def resolveRead (s : RouterSystem) (c : Call) (accepted : Bool) : RouterSystem × Call :=
  let (fence, s) := s.track c.pid accepted
  match s.cgroups.procs c.pid with
  | none => (s, c.goto (.returned 0))
  | some path =>
      let checkLeaf := s.router.revalidateLeaf
      let leafCgroupId := if checkLeaf then s.cgroups.cgroupId path else 0
      (s, { c.goto (.read fence path checkLeaf leafCgroupId) with home := s.cgroups.chain path })

/-- The second critical section of `resolve`. -/
def resolveMemo (s : RouterSystem) (c : Call) (fence : Option Nat) (path : CgroupPath)
    (checkLeaf : Bool) (leafCgroupId : Nat) : RouterSystem × Call :=
  match s.router.memoBranch path checkLeaf leafCgroupId with
  | some branchId =>
      ({ s with
          router := s.router.fenceCacheStoreIf fence c.pid branchId
          raced := s.raced || decide (¬s.AtHome c path) },
        c.goto (.returned branchId))
  | none => (s, c.goto (.missed fence path checkLeaf leafCgroupId s.router.generation))

/-- The walk: the leaf, if it was not read before, and the ancestors. -/
def resolveWalk (s : RouterSystem) (c : Call) (fence : Option Nat) (path : CgroupPath)
    (checkLeaf : Bool) (leafCgroupId missGeneration : Nat) : Call :=
  let leafCgroupId := if checkLeaf then leafCgroupId else s.cgroups.cgroupId path
  c.goto (.walked fence path checkLeaf leafCgroupId missGeneration
    (BranchRouter.cgroupPathIds s.cgroups.cgroupId path leafCgroupId))

/-- The last critical section of `resolve`. -/
def resolveFinish (s : RouterSystem) (c : Call) (fence : Option Nat) (path : CgroupPath)
    (leafCgroupId missGeneration : Nat) (ids : List Nat) : RouterSystem × Call :=
  let (branchId, router) := s.router.finishWalk fence c.pid path leafCgroupId missGeneration ids
  ({ s with router := router, raced := s.raced || decide (¬s.AtHome c path) },
    c.goto (.returned branchId))

/-- One step of a call; `accepted` is the answer of `fence_track`. -/
def resolveStep (s : RouterSystem) (c : Call) (accepted : Bool) : Option (RouterSystem × Call) :=
  match c.pc with
  | .called =>
      some (s, c.goto (if s.fenceOn then .sampled s.cgroups.fenceGeneration else .uncached))
  | .sampled gen => some (s, s.resolveFenced c gen)
  | .uncached => some (s.resolveRead c accepted)
  | .read fence path checkLeaf leafCgroupId =>
      some (s.resolveMemo c fence path checkLeaf leafCgroupId)
  | .missed fence path checkLeaf leafCgroupId missGeneration =>
      some (s, s.resolveWalk c fence path checkLeaf leafCgroupId missGeneration)
  | .walked fence path _ leafCgroupId missGeneration ids =>
      some (s.resolveFinish c fence path leafCgroupId missGeneration ids)
  | .returned _ => none

end RouterSystem

inductive RouterEvent
  | mkdir (p : CgroupPath)
  | rmdir (p : CgroupPath)
  | spawn (pid : Pid) (p : CgroupPath)
  | migrate (pid : Pid) (p : CgroupPath)
  | exit (pid : Pid)
  | bump
  | registerCgroup (cgId branchId : Nat)
  | unregisterCgroup (cgId : Nat)
  | evictCgroupId (cgId : Nat)
  | invalidateBranch (branchId : Nat)
  | setLeafRevalidation (on : Bool)
  | call (pid : Pid)
  | resolve (i : Nat) (accepted : Bool)

namespace RouterSystem

/-- The system after an event, before the calls have seen it. -/
inductive Effect (s : RouterSystem) : RouterEvent → RouterSystem → Prop
  | mkdir {p : CgroupPath} (hmake : s.cgroups.CanMake p)
      (hevicted : s.router.revalidateLeaf = false → ∀ e ∈ s.cgroups.unevicted, e.1 ≠ p) :
      Effect s (.mkdir p) { s with cgroups := s.cgroups.mkdir p }
  | rmdir {p : CgroupPath} (hremove : s.cgroups.CanRemove p) :
      Effect s (.rmdir p) { s with cgroups := s.cgroups.rmdir p }
  | spawn {pid : Pid} {p : CgroupPath} (hnew : s.cgroups.procs pid = none)
      (hdir : s.cgroups.dirs p ≠ none) :
      Effect s (.spawn pid p) { s with cgroups := s.cgroups.spawn pid p }
  | migrate {pid : Pid} {p : CgroupPath} (hthere : s.cgroups.procs pid ≠ none)
      (hdir : s.cgroups.dirs p ≠ none) :
      Effect s (.migrate pid p) { s with cgroups := s.cgroups.migrate pid p }
  | exit {pid : Pid} : Effect s (.exit pid) { s with cgroups := s.cgroups.exit pid }
  | bump :
      Effect s .bump
        { s with cgroups := { s.cgroups with fenceGeneration := s.cgroups.fenceGeneration + 1 } }
  | registerCgroup {cgId branchId : Nat} {r : BranchRouter} (hread : cgId < s.cgroups.nextId)
      (hr : s.router.registerCgroup cgId branchId = some r) :
      Effect s (.registerCgroup cgId branchId) { s with router := r }
  | unregisterCgroup {cgId : Nat} :
      Effect s (.unregisterCgroup cgId) { s with router := (s.router.unregisterCgroup cgId).2 }
  | evictCgroupId {cgId : Nat} :
      Effect s (.evictCgroupId cgId)
        { s with
          router := s.router.evictCgroupId cgId
          cgroups := { s.cgroups with
            unevicted := s.cgroups.unevicted.filter fun e => decide (e.2 ≠ cgId) } }
  | invalidateBranch {branchId : Nat} :
      Effect s (.invalidateBranch branchId)
        { s with router := s.router.invalidateBranch branchId }
  | setLeafRevalidation {on : Bool} :
      Effect s (.setLeafRevalidation on) { s with router := s.router.setLeafRevalidation on }
  | call {pid : Pid} : Effect s (.call pid) { s with calls := s.calls ++ [{ pid := pid }] }
  | resolve {i : Nat} {c c' : Call} {accepted : Bool} {s' : RouterSystem} (hc : s.calls[i]? = some c)
      (hstep : s.resolveStep c accepted = some (s', c')) :
      Effect s (.resolve i accepted) { s' with calls := s'.calls.set i c' }

/-- One event, seen by the calls under way. -/
def Step (s : RouterSystem) (e : RouterEvent) (s' : RouterSystem) : Prop :=
  ∃ s₁, s.Effect e s₁ ∧ s' = s₁.seen

/-- An empty router on a host without processes. -/
def Init (s : RouterSystem) : Prop :=
  ∃ fenceOn revalidateLeaf, s = { fenceOn := fenceOn, router := { revalidateLeaf := revalidateLeaf } }

end RouterSystem
end ContextFS
