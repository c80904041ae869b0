import ContextFS.Store.Hash

/-!
# Branch refs

`refs/<branch>` is a file of 64 hexadecimal digits and a newline.  A ref write can fail
before the rename, leaving the old file, or after it, when only the directory fsync is
missing and the caller is told of a failure although the new file is in place.
-/

namespace ContextFS

open Std

/-- How a coming ref operation ends. -/
inductive RefFault
  | success
  | beforeRename
  | afterRename
deriving DecidableEq

structure Refs where
  files : ExtTreeMap Bytes Bytes := ∅
  faults : List RefFault := []
  listError : Option String := none

namespace Refs

def nextFault (r : Refs) : RefFault × Refs :=
  match r.faults with
  | [] => (.success, r)
  | f :: fs => (f, { r with faults := fs })

/-- `"main"`. -/
def mainName : Bytes := [109, 97, 105, 110]

/-- `list_refs`: the names in order, or the enumeration error. -/
def listRefs (r : Refs) : Except String (List Bytes) :=
  match r.listError with
  | some err => .error err
  | none => .ok r.files.keys

/-- `read_ref`: exactly 64 digits and a newline. -/
def readRef (r : Refs) (branch : Bytes) : Option Hash :=
  match r.files[branch]? with
  | none => none
  | some content =>
      if content.length = 65 ∧ content[64]? = some 10 then hexToHashStrict (content.take 64)
      else none

/-- `write_ref`. -/
def writeRef (r : Refs) (branch : Bytes) (commit : Hash) : Bool × Refs :=
  match r.nextFault with
  | (.beforeRename, r) => (false, r)
  | (.afterRename, r) =>
      (false, { r with files := r.files.insert branch (hashToHex commit ++ [10]) })
  | (.success, r) =>
      (true, { r with files := r.files.insert branch (hashToHex commit ++ [10]) })

/-- `remove_ref`: `main` stays, and there must be a file to unlink. -/
def removeRef (r : Refs) (branch : Bytes) : Bool × Refs :=
  if branch = mainName then (false, r)
  else
    match r.nextFault with
    | (.beforeRename, r) => (false, r)
    | (.afterRename, r) => (false, { r with files := r.files.erase branch })
    | (.success, r) =>
        if r.files.contains branch then (true, { r with files := r.files.erase branch })
        else (false, r)

@[simp] theorem nextFault_files (r : Refs) : r.nextFault.2.files = r.files := by
  unfold nextFault
  split <;> rfl

theorem readRef_insert (r : Refs) (branch other : Bytes) (commit : Hash) :
    { r with files := r.files.insert branch (hashToHex commit ++ [10]) }.readRef other =
      if branch = other then some commit else r.readRef other := by
  by_cases hb : branch = other
  · subst hb
    have hlen : (hashToHex commit).length = 64 := by simp [hashToHex, commit.length_eq]
    have htake : (hashToHex commit ++ [10]).take 64 = hashToHex commit := by
      rw [← hlen, List.take_left]
    simp [readRef, hlen, htake]
  · simp [readRef, ExtTreeMap.getElem?_insert, hb]

/-- A ref write changes at most its own ref, and a write that reports success changed it. -/
theorem writeRef_cases (r : Refs) (branch : Bytes) (commit : Hash) :
    ((r.writeRef branch commit).1 = false ∧
        ∀ other, (r.writeRef branch commit).2.readRef other = r.readRef other) ∨
      ∀ other, (r.writeRef branch commit).2.readRef other =
        if branch = other then some commit else r.readRef other := by
  have hread : ∀ other, r.nextFault.2.readRef other = r.readRef other := by
    intro other
    simp [readRef]
  unfold writeRef
  rcases hnf : r.nextFault with ⟨_ | _ | _, r₀⟩
  · right
    intro other
    rw [readRef_insert, ← hread other, hnf]
  · left
    refine ⟨rfl, fun other => ?_⟩
    rw [← hread other, hnf]
  · right
    intro other
    rw [readRef_insert, ← hread other, hnf]

@[simp] theorem listError_nextFault (r : Refs) : r.nextFault.2.listError = r.listError := by
  unfold nextFault
  split <;> rfl

@[simp] theorem listError_writeRef (r : Refs) (branch : Bytes) (commit : Hash) :
    (r.writeRef branch commit).2.listError = r.listError := by
  have hlist := listError_nextFault r
  unfold writeRef
  split <;> rename_i hnf <;> rw [hnf] at hlist <;> exact hlist

/-- The files after a ref write. -/
theorem files_writeRef (r : Refs) (branch : Bytes) (commit : Hash) :
    ((r.writeRef branch commit).1 = false ∧ (r.writeRef branch commit).2.files = r.files) ∨
      (r.writeRef branch commit).2.files = r.files.insert branch (hashToHex commit ++ [10]) := by
  have hfiles := nextFault_files r
  unfold writeRef
  split <;> rename_i r' hnf <;> rw [hnf] at hfiles <;> change r'.files = r.files at hfiles
  · exact Or.inl ⟨rfl, hfiles⟩
  · exact Or.inr (by rw [hfiles])
  · exact Or.inr (by rw [hfiles])

theorem readRef_writeRef_of_ok {r : Refs} {branch : Bytes} {commit : Hash}
    (h : (r.writeRef branch commit).1 = true) (other : Bytes) :
    (r.writeRef branch commit).2.readRef other =
      if branch = other then some commit else r.readRef other := by
  rcases writeRef_cases r branch commit with ⟨hfail, -⟩ | hok
  · simp [hfail] at h
  · exact hok other

end Refs
end ContextFS
