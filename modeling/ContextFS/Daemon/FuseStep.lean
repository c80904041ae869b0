import ContextFS.Daemon.FuseAdapter

/-!
# What a request can do

`Started` says once, for every request, what it answers or which blob it writes and how it goes
on, together with everything it has checked before.  Later proofs split on it and never unfold
an operation.
-/

namespace ContextFS

open Std Lib ObjectStore WorkingTree

/-- A request that runs under the lock of a branch. -/
inductive FuseOp
  | openFile (b : Nat) (path : FsPath) (trunc : Bool)
  | create (b : Nat) (path : FsPath) (mode : UInt32)
  | read (fh offset size : Nat)
  | write (fh offset : Nat) (data : Bytes)
  | flush (fh : Nat)
  | truncateFh (path : FsPath) (fh length : Nat)
  | truncate (b : Nat) (path : FsPath) (length : Nat)
  | unlink (b : Nat) (path : FsPath)
  | rmdir (b : Nat) (path : FsPath)
  | mkdir (b : Nat) (path : FsPath) (mode : UInt32)
  | rename (b : Nat) (source target : FsPath)
  | symlink (b : Nat) (target : Bytes) (path : FsPath)
  | chmod (b : Nat) (path : FsPath) (mode : UInt32)

namespace FuseOp

/-- The request up to its blob write. -/
def start (d : Daemon) : FuseOp → Critical
  | .openFile b path trunc => d.casOpen b path trunc
  | .create b path mode => d.casCreate b path mode
  | .read fh offset size => d.casRead fh offset size
  | .write fh offset data => d.casWrite fh offset data
  | .flush fh => d.casFlush fh
  | .truncateFh path fh length => d.casTruncateFh path fh length
  | .truncate b path length => d.casTruncate b path length
  | .unlink b path => d.casUnlink b path
  | .rmdir b path => d.casRmdir b path
  | .mkdir b path mode => d.casMkdir b path mode
  | .rename b source target => d.casRename b source target
  | .symlink b target path => d.casSymlink b target path
  | .chmod b path mode => d.casChmod b path mode

/-- The branch a request of a handle belongs to. -/
def fhBranch (d : Daemon) (fh : Nat) : Option Nat := (d.getFh fh).map (·.branchId)

/-- The branch whose lock the request takes. -/
def lock (d : Daemon) : FuseOp → Option Nat
  | .openFile b _ _ | .create b _ _ | .truncate b _ _ | .unlink b _ | .rmdir b _ | .mkdir b _ _
  | .rename b _ _ | .symlink b _ _ | .chmod b _ _ => some b
  | .read fh _ _ | .write fh _ _ | .flush fh | .truncateFh _ fh _ => fhBranch d fh

end FuseOp

/-- A handle that a request may use: it is open, and neither its branch nor it is gone. -/
structure UsableFh (d : Daemon) (fh : Nat) (s : FhState) (br : BranchContext) : Prop where
  open_ : d.getFh fh = some s
  branch : d.branch s.branchId = some br
  live : s.stale = false

/-- The blob `cas_truncate` writes. -/
def truncatedBlob (d : Daemon) (e : WorkingTreeEntry) (length : Nat) : Bytes :=
  Daemon.resize (if e.hash = zeroHash then [] else (d.store.readBlob e.hash).getD []) length

/-- What a request does in the daemon state `d`. -/
inductive Started (d : Daemon) : FuseOp → Critical → Prop
  | refused (op : FuseOp) (e : Errno) : Started d op (d.fail e)
  | opened {b path br e size} (hbr : d.branch b = some br) (he : br.wt.lookup path = some e)
      (hk : e.kind = .blob) (hsize : d.entrySize e = .ok size) :
      Started d (.openFile b path false)
        (.reply (.ok (.handle d.nextFhId)) (d.allocateFh (d.newFh b br path e.hash size false)).2)
  | openTrunc {b path br e} (hbr : d.branch b = some br) (he : br.wt.lookup path = some e)
      (hk : e.kind = .blob) :
      Started d (.openFile b path true) (.write [] (Daemon.openEmpty b br path e.mode))
  | create {b path mode br} (hok : refuseMutation path .eacces = none)
      (hbr : d.branch b = some br) :
      Started d (.create b path mode)
        (.write [] (Daemon.openEmpty b br path ((mode &&& modePerm) ||| 0o100000)))
  | read {fh offset size s br} (hs : UsableFh d fh s br) :
      Started d (.read fh offset size)
        (.reply (.ok (.bytes (s.writeBuf.read offset size (s.ensureBaseCache d.store).baseCache)))
          (d.modifyFh fh fun s => s.ensureBaseCache d.store))
  | write {fh offset data s br} (hs : UsableFh d fh s br) :
      Started d (.write fh offset data)
        (.reply (.ok (.count data.length))
          (d.modifyFh fh fun s => { s with writeBuf := s.writeBuf.write offset data }))
  | flushClean {fh s br} (hs : UsableFh d fh s br) (hclean : s.writeBuf.isDirty = false) :
      Started d (.flush fh) (.reply (.ok .ok) d)
  | flush {fh s br} (hs : UsableFh d fh s br) (hdirty : s.writeBuf.isDirty = true) :
      Started d (.flush fh) (.write (s.flushData d.store) (Daemon.putFlushed fh s d.store))
  | truncateFh {path fh length s br} (hs : UsableFh d fh s br) :
      Started d (.truncateFh path fh length)
        (.reply (.ok .ok) (d.modifyFh fh fun s => { s with writeBuf := s.writeBuf.truncate length }))
  | truncate {b path length br e} (hbr : d.branch b = some br)
      (he : br.wt.lookup path = some e) (hk : e.kind = .blob) :
      Started d (.truncate b path length)
        (.write (truncatedBlob d e length) (Daemon.putBlob b path .blob e.mode))
  | unlink {b path br e} (hbr : d.branch b = some br) (he : br.wt.lookup path = some e)
      (hk : e.kind ≠ .tree) :
      Started d (.unlink b path) (.reply (.ok .ok) (d.modifyTree b fun wt => wt.remove path))
  | rmdir {b path br e} (hbr : d.branch b = some br) (he : br.wt.lookup path = some e)
      (hk : e.kind = .tree) (hempty : br.wt.listDir path = []) :
      Started d (.rmdir b path) (.reply (.ok .ok) (d.modifyTree b fun wt => wt.remove path))
  | mkdir {b path mode br} (hok : refuseMutation path .eacces = none)
      (hbr : d.branch b = some br) (he : br.wt.lookup path = none) :
      Started d (.mkdir b path mode)
        (.reply (.ok .ok) (d.modifyTree b fun wt =>
          wt.insert path ⟨.tree, zeroHash, (mode &&& modePerm) ||| 0o40000⟩))
  | renameDir {b source target br e} (hok : refuseMutation source .eacces = none ∧
        refuseMutation target .eacces = none) (hbr : d.branch b = some br)
      (he : br.wt.lookup source = some e) (hk : e.kind = .tree) :
      Started d (.rename b source target)
        (.reply (.ok .ok) (d.modifyTree b fun wt => wt.renameDir source target))
  | renameEntry {b source target br e} (hok : refuseMutation source .eacces = none ∧
        refuseMutation target .eacces = none) (hbr : d.branch b = some br)
      (he : br.wt.lookup source = some e) (hk : e.kind ≠ .tree) :
      Started d (.rename b source target)
        (.reply (.ok .ok) (d.modifyTree b fun wt => wt.renameEntry source target))
  | symlink {b target path br} (hok : refuseMutation path .eacces = none)
      (hbr : d.branch b = some br) (he : br.wt.lookup path = none) :
      Started d (.symlink b target path) (.write target (Daemon.putBlob b path .symlink 0o120777))
  | chmod {b path mode br e} (hbr : d.branch b = some br) (he : br.wt.lookup path = some e) :
      Started d (.chmod b path mode)
        (.reply (.ok .ok) (d.modifyTree b fun wt =>
          wt.insert path { e with mode := (e.mode &&& modeType) ||| (mode &&& modePerm) }))

namespace Daemon

/-- What is proved of a request under the lock of its branch holds of it without one. -/
theorem started_withBranch {d : Daemon} {op : FuseOp} {b : Nat} {k : BranchContext → Critical}
    (h : ∀ br, d.branch b = some br → Started d op (k br)) : Started d op (d.withBranch b k) := by
  unfold withBranch
  cases hbr : d.branch b with
  | none => exact .refused op _
  | some br => exact h br hbr

theorem started_withFh {d : Daemon} {op : FuseOp} {fh : Nat} {k : FhState → Critical}
    (h : ∀ s br, UsableFh d fh s br → Started d op (k s)) : Started d op (d.withFh fh k) := by
  unfold withFh
  cases hfh : d.getFh fh with
  | none => exact .refused op _
  | some s =>
      refine started_withBranch fun br hbr => ?_
      cases hstale : s.stale with
      | true => exact .refused op _
      | false => exact h s br ⟨hfh, hbr, hstale⟩

/-- The lookup at the start of an operation on an existing path. -/
theorem started_lookup {d : Daemon} {op : FuseOp} {b : Nat} {path : FsPath}
    {k : BranchContext → WorkingTreeEntry → Critical}
    (h : ∀ br e, d.branch b = some br → br.wt.lookup path = some e → Started d op (k br e)) :
    Started d op (d.withBranch b fun br =>
      match br.wt.lookup path with
      | none => d.fail .enoent
      | some e => k br e) := by
  refine started_withBranch fun br hbr => ?_
  cases he : br.wt.lookup path with
  | none => exact .refused op _
  | some e => exact h br e hbr he

/-- The refusals before the lock. -/
theorem started_refuseMutation {d : Daemon} {op : FuseOp} {path : FsPath} {hidden : Errno}
    {k : Critical} (h : refuseMutation path hidden = none → Started d op k) :
    Started d op (match refuseMutation path hidden with
      | some e => d.fail e
      | none => k) := by
  cases hr : refuseMutation path hidden with
  | some e => exact .refused op e
  | none => exact h hr

end Daemon

open Daemon

/-- Every request does one of these things. -/
theorem FuseOp.started (d : Daemon) (op : FuseOp) : Started d op (op.start d) := by
  cases op with
  | openFile b path trunc =>
      show Started d _ (d.casOpen b path trunc)
      unfold casOpen
      split
      · exact .refused _ _
      split
      · exact .refused _ _
      refine started_lookup fun br e hbr he => ?_
      -- a handle is opened for a file and nothing else
      by_cases hk : e.kind = .blob
      · rw [if_neg (not_not.2 hk)]
        cases trunc with
        | true => exact .openTrunc hbr he hk
        | false =>
            rw [if_neg Bool.false_ne_true]
            cases hsize : d.entrySize e with
            | error err => exact .refused _ _
            | ok size => exact .opened hbr he hk hsize
      · rw [if_pos hk]
        exact .refused _ _
  | create b path mode =>
      exact started_refuseMutation fun hok => started_withBranch fun br hbr => .create hok hbr
  | read fh offset size => exact started_withFh fun s br hs => .read hs
  | write fh offset data => exact started_withFh fun s br hs => .write hs
  | flush fh =>
      refine started_withFh fun s br hs => ?_
      cases hdirty : s.writeBuf.isDirty with
      | true => exact .flush hs hdirty
      | false => exact .flushClean hs hdirty
  | truncateFh path fh length =>
      exact started_refuseMutation fun _ => started_withFh fun s br hs => .truncateFh hs
  | truncate b path length =>
      refine started_refuseMutation fun _ => started_lookup fun br e hbr he => ?_
      by_cases hk : e.kind = .blob
      · rw [if_neg (not_not.2 hk)]
        exact .truncate hbr he hk
      · rw [if_pos hk]
        exact .refused _ _
  | unlink b path =>
      refine started_refuseMutation fun _ => started_lookup fun br e hbr he => ?_
      by_cases hk : e.kind = .tree
      · rw [if_pos hk]
        exact .refused _ _
      · rw [if_neg hk]
        exact .unlink hbr he hk
  | rmdir b path =>
      refine started_refuseMutation fun _ => started_lookup fun br e hbr he => ?_
      by_cases hk : e.kind = .tree
      · rw [if_neg (not_not.2 hk)]
        -- only an empty directory goes
        by_cases hempty : br.wt.listDir path = []
        · rw [if_neg (not_not.2 hempty)]
          exact .rmdir hbr he hk hempty
        · rw [if_pos hempty]
          exact .refused _ _
      · rw [if_pos hk]
        exact .refused _ _
  | mkdir b path mode =>
      refine started_refuseMutation fun hok => started_withBranch fun br hbr => ?_
      cases he : br.wt.lookup path with
      | none => exact .mkdir hok hbr he
      | some e => exact .refused _ _
  | rename b source target =>
      show Started d _ (d.casRename b source target)
      unfold casRename
      split
      · exact .refused _ _
      rename_i hrefuse
      simp only [Bool.or_eq_true, not_or, Option.not_isSome_iff_eq_none] at hrefuse
      refine started_lookup fun br e hbr he => ?_
      -- a directory moves with all below it
      by_cases hk : e.kind = .tree
      · rw [if_pos hk]
        exact .renameDir hrefuse hbr he hk
      · rw [if_neg hk]
        exact .renameEntry hrefuse hbr he hk
  | symlink b target path =>
      refine started_refuseMutation fun hok => started_withBranch fun br hbr => ?_
      cases he : br.wt.lookup path with
      | none => exact .symlink hok hbr he
      | some e => exact .refused _ _
  | chmod b path mode =>
      refine started_refuseMutation fun _ => started_lookup fun br e hbr he => .chmod hbr he

/-! ## Updates of trees and handles -/

namespace Daemon

variable (d : Daemon)

@[simp] theorem modifyTree_store (b : Nat) (f : WorkingTree → WorkingTree) :
    (d.modifyTree b f).store = d.store := by
  unfold modifyTree
  split <;> rfl

@[simp] theorem modifyTree_fhTable (b : Nat) (f : WorkingTree → WorkingTree) :
    (d.modifyTree b f).fhTable = d.fhTable := by
  unfold modifyTree
  split <;> rfl

@[simp] theorem modifyTree_refs (b : Nat) (f : WorkingTree → WorkingTree) :
    (d.modifyTree b f).refs = d.refs := by
  unfold modifyTree
  split <;> rfl

@[simp] theorem modifyTree_nextFhId (b : Nat) (f : WorkingTree → WorkingTree) :
    (d.modifyTree b f).nextFhId = d.nextFhId := by
  unfold modifyTree
  split <;> rfl

@[simp] theorem modifyFh_store (fh : Nat) (f : FhState → FhState) :
    (d.modifyFh fh f).store = d.store := by
  unfold modifyFh
  split <;> rfl

@[simp] theorem modifyFh_branches (fh : Nat) (f : FhState → FhState) :
    (d.modifyFh fh f).branches = d.branches := by
  unfold modifyFh
  split <;> rfl

@[simp] theorem modifyFh_refs (fh : Nat) (f : FhState → FhState) :
    (d.modifyFh fh f).refs = d.refs := by
  unfold modifyFh
  split <;> rfl

@[simp] theorem modifyFh_nextFhId (fh : Nat) (f : FhState → FhState) :
    (d.modifyFh fh f).nextFhId = d.nextFhId := by
  unfold modifyFh
  split <;> rfl

@[simp] theorem allocateFh_store (s : FhState) : (d.allocateFh s).2.store = d.store := rfl

@[simp] theorem allocateFh_branches (s : FhState) :
    (d.allocateFh s).2.branches = d.branches := rfl

@[simp] theorem releaseFh_store (fh : Nat) : (d.releaseFh fh).store = d.store := rfl

@[simp] theorem releaseFh_branches (fh : Nat) : (d.releaseFh fh).branches = d.branches := rfl

theorem tree_congr {d d' : Daemon} (h : d'.branches = d.branches) (b : Nat) :
    d'.tree b = d.tree b := by
  simp [tree, branch, h]

theorem tree_modifyTree (b c : Nat) (f : WorkingTree → WorkingTree) :
    (d.modifyTree b f).tree c = if b = c then (d.tree c).map f else d.tree c := by
  unfold modifyTree tree branch
  cases hb : d.branches[b]? with
  | none =>
      by_cases hbc : b = c
      · subst hbc
        simp [hb]
      · simp [hbc]
  | some br =>
      by_cases hbc : b = c
      · subst hbc
        simp [hb]
      · simp [ExtTreeMap.getElem?_insert, hbc]

theorem getFh_modifyFh (fh k : Nat) (f : FhState → FhState) :
    (d.modifyFh fh f).getFh k = if fh = k then (d.getFh k).map f else d.getFh k := by
  unfold modifyFh getFh
  cases hfh : d.fhTable[fh]? with
  | none =>
      by_cases hk : fh = k
      · subst hk
        simp [hfh]
      · simp [hk]
  | some s =>
      by_cases hk : fh = k
      · subst hk
        simp [hfh]
      · simp [ExtTreeMap.getElem?_insert, hk]

@[simp] theorem getFh_modifyTree (b fh : Nat) (f : WorkingTree → WorkingTree) :
    (d.modifyTree b f).getFh fh = d.getFh fh := by
  simp [getFh]

theorem getFh_allocateFh (s : FhState) (k : Nat) :
    (d.allocateFh s).2.getFh k = if d.nextFhId = k then some s else d.getFh k := by
  by_cases hk : d.nextFhId = k
  · simp [allocateFh, getFh, hk]
  · simp [allocateFh, getFh, ExtTreeMap.getElem?_insert, hk]

theorem getFh_releaseFh (fh k : Nat) :
    (d.releaseFh fh).getFh k = if fh = k then none else d.getFh k := by
  by_cases hk : fh = k
  · simp [releaseFh, getFh, hk]
  · simp [releaseFh, getFh, ExtTreeMap.getElem?_erase, hk]

theorem tree_of_branch {d : Daemon} {b : Nat} {br : BranchContext} (h : d.branch b = some br) :
    d.tree b = some br.wt := by
  simp [tree, h]

end Daemon
end ContextFS
