import ContextFS.Lib.AssocList
import ContextFS.Store.Hash

/-!
# The branch router

The cgroups registered for branches, with two caches in front of them: a memo keyed by cgroup
path and a cache keyed by process.  Every operation here is one that runs under the router's lock;
what `resolve` reads between its locks is in `Resolve`.

The path of a cgroup is the list of the names below `/sys/fs/cgroup`, the innermost first.
-/

namespace ContextFS

open Lib

abbrev Pid := Int

abbrev CgroupPath := List Bytes

/-- `BranchRouter::PathEntry`. -/
structure PathEntry where
  leafCgroupId : Nat
  branchId : Nat

/-- `BranchRouter::FenceEntry`. -/
structure FenceEntry where
  branchId : Nat
  generation : Nat

structure BranchRouter where
  cgroupBranchMap : List (Nat × Nat) := []
  pathBranchCache : List (CgroupPath × PathEntry) := []
  pidFenceCache : List (Pid × FenceEntry) := []
  generation : Nat := 0
  revalidateLeaf : Bool := true

namespace BranchRouter

def kPathCacheCap : Nat := 1024

def kFenceCacheCap : Nat := 4096

/-- Both caches are dropped. -/
def clearCaches (r : BranchRouter) : BranchRouter :=
  { r with pathBranchCache := [], pidFenceCache := [] }

/-- `fence_cache_store`. -/
def fenceCacheStore (r : BranchRouter) (pid : Pid) (branchId gen : Nat) : BranchRouter :=
  let cache := if kFenceCacheCap ≤ r.pidFenceCache.length then [] else r.pidFenceCache
  { r with pidFenceCache := AssocList.assign pid ⟨branchId, gen⟩ cache }

/-- `register_cgroup`; the id of the directory was read before, zero where there is none. -/
def registerCgroup (r : BranchRouter) (cgId branchId : Nat) : Option BranchRouter :=
  if cgId = 0 then none
  else
    some { r with
      cgroupBranchMap := AssocList.assign cgId branchId r.cgroupBranchMap
      generation := r.generation + 1 }.clearCaches

/-- `unregister_cgroup`, with whether something was erased. -/
def unregisterCgroup (r : BranchRouter) (cgId : Nat) : Bool × BranchRouter :=
  if cgId = 0 then (false, r)
  else
    let erased := (AssocList.find cgId r.cgroupBranchMap).isSome
    (erased, { r with
      cgroupBranchMap := AssocList.remove cgId r.cgroupBranchMap
      generation := if erased then r.generation + 1 else r.generation }.clearCaches)

/-- `evict_cgroup_id`. -/
def evictCgroupId (r : BranchRouter) (cgId : Nat) : BranchRouter :=
  { r with
    cgroupBranchMap := AssocList.remove cgId r.cgroupBranchMap
    generation := r.generation + 1 }.clearCaches

/-- `invalidate_branch`. -/
def invalidateBranch (r : BranchRouter) (branchId : Nat) : BranchRouter :=
  { r with
    cgroupBranchMap := r.cgroupBranchMap.filter fun e => decide (e.2 ≠ branchId)
    generation := r.generation + 1 }.clearCaches

/-- `set_leaf_revalidation`. -/
def setLeafRevalidation (r : BranchRouter) (on : Bool) : BranchRouter :=
  { r with revalidateLeaf := on }

/-- `has_cgroup_for_branch`. -/
def hasCgroupForBranch (r : BranchRouter) (branchId : Nat) : Bool :=
  r.cgroupBranchMap.any fun e => decide (e.2 = branchId)

/-! ## Looking a cgroup up -/

/-- An id that was read, if the directory was there. -/
def presentId (cgId : Nat) : List Nat := if cgId = 0 then [] else [cgId]

/-- The loop of `cgroup_path_ids` after the leaf.  It stops at a path whose last slash is the one
behind `/sys/fs/cgroup`, so it does not get to that directory itself. -/
def ancestorIds (cgroupId : CgroupPath → Nat) : CgroupPath → List Nat
  | [] => []
  | [_] => []
  | _ :: c :: path => presentId (cgroupId (c :: path)) ++ ancestorIds cgroupId (c :: path)

/-- `cgroup_path_ids`. -/
def cgroupPathIds (cgroupId : CgroupPath → Nat) (path : CgroupPath) (leafCgroupId : Nat) :
    List Nat :=
  presentId leafCgroupId ++ ancestorIds cgroupId path

/-- `branch_for_cgroup_ids`. -/
def branchForCgroupIds (map : List (Nat × Nat)) : List Nat → Nat
  | [] => 0
  | cgId :: ids =>
      match AssocList.find cgId map with
      | some branchId => branchId
      | none => branchForCgroupIds map ids

/-- The first critical section of `resolve`, with the generation the fence had. -/
def fencedBranch (r : BranchRouter) (pid : Pid) (gen : Nat) : Option Nat :=
  match AssocList.find pid r.pidFenceCache with
  | some entry => if entry.generation = gen then some entry.branchId else none
  | none => none

/-- The second critical section of `resolve`: the memo. -/
def memoBranch (r : BranchRouter) (path : CgroupPath) (checkLeaf : Bool) (leafCgroupId : Nat) :
    Option Nat :=
  match AssocList.find path r.pathBranchCache with
  | some entry =>
      if !checkLeaf || decide (entry.leafCgroupId = leafCgroupId) then some entry.branchId else none
  | none => none

/-- A branch is stored for a process whose generation was sampled. -/
def fenceCacheStoreIf (r : BranchRouter) (fence : Option Nat) (pid : Pid) (branchId : Nat) :
    BranchRouter :=
  match fence with
  | some gen => r.fenceCacheStore pid branchId gen
  | none => r

/-- The last critical section of `resolve`: the branch for the ids of the walk, which is cached
only where nothing was registered or unregistered since the memo was looked up. -/
def finishWalk (r : BranchRouter) (fence : Option Nat) (pid : Pid) (path : CgroupPath)
    (leafCgroupId missGeneration : Nat) (ids : List Nat) : Nat × BranchRouter :=
  let branchId := branchForCgroupIds r.cgroupBranchMap ids
  if r.generation = missGeneration then
    let cache := if kPathCacheCap ≤ r.pathBranchCache.length then [] else r.pathBranchCache
    let r := { r with
      pathBranchCache := AssocList.assign path ⟨leafCgroupId, branchId⟩ cache }
    (branchId, r.fenceCacheStoreIf fence pid branchId)
  else (branchId, r)

/-! ## What is in the caches -/

variable {r : BranchRouter}

theorem mem_fenceCacheStore {pid : Pid} {branchId gen : Nat} {e : Pid × FenceEntry}
    (h : e ∈ (r.fenceCacheStore pid branchId gen).pidFenceCache) :
    e = (pid, ⟨branchId, gen⟩) ∨ e ∈ r.pidFenceCache := by
  rcases AssocList.mem_assign h with h | h
  · exact Or.inl h
  · split at h
    · cases h
    · exact Or.inr h

theorem mem_fenceCacheStoreIf {fence : Option Nat} {pid : Pid} {branchId : Nat}
    {e : Pid × FenceEntry} (h : e ∈ (r.fenceCacheStoreIf fence pid branchId).pidFenceCache) :
    (∃ gen, fence = some gen ∧ e = (pid, ⟨branchId, gen⟩)) ∨ e ∈ r.pidFenceCache := by
  cases fence with
  | none => exact Or.inr h
  | some gen =>
      rcases mem_fenceCacheStore h with h | h
      · exact Or.inl ⟨gen, rfl, h⟩
      · exact Or.inr h

@[simp] theorem fenceCacheStoreIf_map (fence : Option Nat) (pid : Pid) (branchId : Nat) :
    (r.fenceCacheStoreIf fence pid branchId).cgroupBranchMap = r.cgroupBranchMap := by
  cases fence <;> rfl

@[simp] theorem fenceCacheStoreIf_paths (fence : Option Nat) (pid : Pid) (branchId : Nat) :
    (r.fenceCacheStoreIf fence pid branchId).pathBranchCache = r.pathBranchCache := by
  cases fence <;> rfl

@[simp] theorem fenceCacheStoreIf_generation (fence : Option Nat) (pid : Pid) (branchId : Nat) :
    (r.fenceCacheStoreIf fence pid branchId).generation = r.generation := by
  cases fence <;> rfl

@[simp] theorem fenceCacheStoreIf_revalidateLeaf (fence : Option Nat) (pid : Pid)
    (branchId : Nat) :
    (r.fenceCacheStoreIf fence pid branchId).revalidateLeaf = r.revalidateLeaf := by
  cases fence <;> rfl

/-- What a walk may add to the caches. -/
theorem finishWalk_spec (r : BranchRouter) (fence : Option Nat) (pid : Pid) (path : CgroupPath)
    (leafCgroupId missGeneration : Nat) (ids : List Nat) :
    let branchId := branchForCgroupIds r.cgroupBranchMap ids
    let r' := (r.finishWalk fence pid path leafCgroupId missGeneration ids).2
    (r.finishWalk fence pid path leafCgroupId missGeneration ids).1 = branchId ∧
      r'.cgroupBranchMap = r.cgroupBranchMap ∧ r'.generation = r.generation ∧
      r'.revalidateLeaf = r.revalidateLeaf ∧
      (∀ e ∈ r'.pathBranchCache,
        r.generation = missGeneration ∧ e = (path, ⟨leafCgroupId, branchId⟩) ∨
          e ∈ r.pathBranchCache) ∧
      ∀ e ∈ r'.pidFenceCache,
        (∃ gen, r.generation = missGeneration ∧ fence = some gen ∧
          e = (pid, ⟨branchId, gen⟩)) ∨ e ∈ r.pidFenceCache := by
  simp only [finishWalk]
  split
  · rename_i hgen
    refine ⟨rfl, by simp, by simp, by simp, fun e he => ?_, fun e he => ?_⟩
    · simp only [fenceCacheStoreIf_paths] at he
      rcases AssocList.mem_assign he with h | h
      · exact Or.inl ⟨hgen, h⟩
      · split at h
        · cases h
        · exact Or.inr h
    · rcases mem_fenceCacheStoreIf he with ⟨gen, hf, h⟩ | h
      · exact Or.inl ⟨gen, hgen, hf, h⟩
      · exact Or.inr h
  · exact ⟨rfl, rfl, rfl, rfl, fun e he => Or.inr he, fun e he => Or.inr he⟩

end BranchRouter
end ContextFS
