import ContextFS.Daemon.State

/-!
# The file operations

Every operation that changes something runs under the lock of one branch and writes at most one
blob.  It is a `Critical`: what it answers, or the blob it writes and how it goes on with the
hash `write_blob` returns.  Other branches, and the collector, can act while the blob is written.

`ensure_path`, which most operations call first, is a step of its own: it takes the lock of
`main` and lets it go again.
-/

namespace ContextFS

open Std Lib ObjectStore WorkingTree

inductive Errno
  | eacces
  | ebadf
  | eexist
  | einval
  | eio
  | eisdir
  | enoent
  | enotdir
  | enotempty
  | estale
deriving DecidableEq

/-- The answer to a request that succeeded. -/
inductive Reply
  | ok
  | handle (fh : Nat)
  | count (n : Nat)
  | bytes (data : Bytes)
  | names (names : List Name)
  | attr (mode : UInt32) (size nlink : Nat)
deriving DecidableEq

abbrev Answer := Except Errno Reply

/-- An operation under the lock of its branch. -/
inductive Critical
  | reply (answer : Answer) (d : Daemon)
  | write (data : Bytes) (finish : Hash → Daemon → Answer × Daemon)

/-- The operation when nothing else runs. -/
def Critical.run [Blake3] (d : Daemon) : Critical → Answer × Daemon
  | .reply answer d' => (answer, d')
  | .write data finish =>
      let w := d.store.writeBlob data
      finish w.2 { d with store := w.1 }

/-- `".agentvfs-store"`. -/
def storeName : Name :=
  [46, 97, 103, 101, 110, 116, 118, 102, 115, 45, 115, 116, 111, 114, 101]

/-- `".agentvfs-control"`. -/
def controlName : Name :=
  [46, 97, 103, 101, 110, 116, 118, 102, 115, 45, 99, 111, 110, 116, 114, 111, 108]

/-- `Daemon::is_hidden`. -/
def isHidden (path : FsPath) : Bool := path.head? = some storeName

/-- `is_fast_control_path`. -/
def isFastControlPath (path : FsPath) : Bool := path = [controlName]

/-- `is_fast_control_descendant`. -/
def isFastControlDescendant (path : FsPath) : Bool :=
  path.head? = some controlName && path.length ≠ 1

/-- The refusal of a mutation before any lock is taken: `fast_control_mutation_error`, then the
hidden store. -/
def refuseMutation (path : FsPath) (hidden : Errno) : Option Errno :=
  if isFastControlDescendant path then some .enotdir
  else if isFastControlPath path then some .eacces
  else if isHidden path then some hidden
  else none

/-- The type bits of a mode. -/
def modeType : UInt32 := 0o170000

/-- The permission bits of a mode. -/
def modePerm : UInt32 := 0o7777

namespace Daemon

/-- An operation that answers with an error. -/
def fail (d : Daemon) (e : Errno) : Critical := .reply (.error e) d

/-- The lock of a branch; a branch deleted meanwhile is `retired`. -/
def withBranch (d : Daemon) (b : Nat) (k : BranchContext → Critical) : Critical :=
  match d.branch b with
  | none => d.fail .estale
  | some br => k br

/-- The lock of the branch a handle is bound to. -/
def withFh (d : Daemon) (fh : Nat) (k : FhState → Critical) : Critical :=
  match d.getFh fh with
  | none => d.fail .ebadf
  | some s =>
      d.withBranch s.branchId fun _ => if s.stale then d.fail .estale else k s

/-- The end of an operation that replaces what is at a path by a blob just written. -/
def putBlob (b : Nat) (path : FsPath) (kind : EntryKind) (mode : UInt32) (h : Hash) (d : Daemon) :
    Answer × Daemon :=
  (.ok .ok, d.modifyTree b fun wt => wt.insert path ⟨kind, h, mode⟩)

/-- The same with the empty blob, and a handle on the file. -/
def openEmpty (b : Nat) (br : BranchContext) (path : FsPath) (mode : UInt32) (h : Hash)
    (d : Daemon) : Answer × Daemon :=
  let d := d.modifyTree b fun wt => wt.insert path ⟨.blob, h, mode⟩
  let a := d.allocateFh (d.newFh b br path h 0 true)
  (.ok (.handle a.1), a.2)

/-- The end of a flush; a blob that could not be written leaves the tree alone. -/
def putFlushed (fh : Nat) (s : FhState) (store : ObjectStore) (h : Hash) (d : Daemon) :
    Answer × Daemon :=
  if h = zeroHash then (.error .eio, d.modifyFh fh fun s => s.ensureBaseCache store)
  else
    (.ok .ok, (d.modifyTree s.branchId fun wt => insertFlushed wt s.path h).modifyFh fh
      fun s' => s'.flushed h (s.flushData store))

/-- What `cas_getattr` takes for the size of an entry without an open handle, and `cas_open` for
the size of its base. -/
def entrySize (d : Daemon) (e : WorkingTreeEntry) : Except Errno Nat :=
  if e.hash = zeroHash then .ok 0
  else
    match d.store.readBlob e.hash with
    | none => .error .eio
    | some data => .ok data.length

/-- `cas_open` below the fast control file. -/
def casOpen (d : Daemon) (b : Nat) (path : FsPath) (trunc : Bool) : Critical :=
  if isFastControlDescendant path then d.fail .enotdir
  else if isHidden path then d.fail .enoent
  else
    d.withBranch b fun br =>
      match br.wt.lookup path with
      | none => d.fail .enoent
      | some e =>
          if e.kind ≠ .blob then d.fail .eisdir
          else if trunc then .write [] (openEmpty b br path e.mode)
          else
            match d.entrySize e with
            | .error err => d.fail err
            | .ok size =>
                let a := d.allocateFh (d.newFh b br path e.hash size false)
                .reply (.ok (.handle a.1)) a.2

/-- `cas_create`: neither the parent nor the path itself is looked at. -/
def casCreate (d : Daemon) (b : Nat) (path : FsPath) (mode : UInt32) : Critical :=
  match refuseMutation path .eacces with
  | some e => d.fail e
  | none =>
      d.withBranch b fun br =>
        .write [] (openEmpty b br path ((mode &&& modePerm) ||| 0o100000))

/-- `cas_read`. -/
def casRead (d : Daemon) (fh offset size : Nat) : Critical :=
  d.withFh fh fun s =>
    .reply (.ok (.bytes (s.writeBuf.read offset size (s.ensureBaseCache d.store).baseCache)))
      (d.modifyFh fh fun s => s.ensureBaseCache d.store)

/-- `cas_write`. -/
def casWrite (d : Daemon) (fh offset : Nat) (data : Bytes) : Critical :=
  d.withFh fh fun _ =>
    .reply (.ok (.count data.length))
      (d.modifyFh fh fun s => { s with writeBuf := s.writeBuf.write offset data })

/-- `cas_flush`: the content goes to the path the handle was opened at. -/
def casFlush (d : Daemon) (fh : Nat) : Critical :=
  d.withFh fh fun s =>
    if !s.writeBuf.isDirty then .reply (.ok .ok) d
    else .write (s.flushData d.store) (putFlushed fh s d.store)

/-- `cas_release`: a flush whose answer is dropped, then `release_fh`. -/
def casRelease [Blake3] (d : Daemon) (fh : Nat) : Answer × Daemon :=
  (.ok .ok, ((d.casFlush fh).run d).2.releaseFh fh)

/-- `cas_truncate` through a handle. -/
def casTruncateFh (d : Daemon) (path : FsPath) (fh length : Nat) : Critical :=
  match refuseMutation path .eacces with
  | some e => d.fail e
  | none =>
      d.withFh fh fun _ =>
        .reply (.ok .ok) (d.modifyFh fh fun s => { s with writeBuf := s.writeBuf.truncate length })

/-- `std::vector::resize` with zeros. -/
def resize (data : Bytes) (length : Nat) : Bytes :=
  data.take length ++ List.replicate (length - data.length) 0

/-- `cas_truncate` by path. -/
def casTruncate (d : Daemon) (b : Nat) (path : FsPath) (length : Nat) : Critical :=
  match refuseMutation path .eacces with
  | some e => d.fail e
  | none =>
      d.withBranch b fun br =>
        match br.wt.lookup path with
        | none => d.fail .enoent
        | some e =>
            if e.kind ≠ .blob then d.fail .eisdir
            else
              let blob := if e.hash = zeroHash then [] else (d.store.readBlob e.hash).getD []
              .write (resize blob length) (putBlob b path .blob e.mode)

/-- `cas_unlink`. -/
def casUnlink (d : Daemon) (b : Nat) (path : FsPath) : Critical :=
  match refuseMutation path .eacces with
  | some e => d.fail e
  | none =>
      d.withBranch b fun br =>
        match br.wt.lookup path with
        | none => d.fail .enoent
        | some e =>
            if e.kind = .tree then d.fail .eisdir
            else .reply (.ok .ok) (d.modifyTree b fun wt => wt.remove path)

/-- `cas_rmdir`. -/
def casRmdir (d : Daemon) (b : Nat) (path : FsPath) : Critical :=
  match refuseMutation path .eacces with
  | some e => d.fail e
  | none =>
      d.withBranch b fun br =>
        match br.wt.lookup path with
        | none => d.fail .enoent
        | some e =>
            if e.kind ≠ .tree then d.fail .enotdir
            else if br.wt.listDir path ≠ [] then d.fail .enotempty
            else .reply (.ok .ok) (d.modifyTree b fun wt => wt.remove path)

/-- `cas_mkdir`. -/
def casMkdir (d : Daemon) (b : Nat) (path : FsPath) (mode : UInt32) : Critical :=
  match refuseMutation path .eacces with
  | some e => d.fail e
  | none =>
      d.withBranch b fun br =>
        if (br.wt.lookup path).isSome then d.fail .eexist
        else
          .reply (.ok .ok) (d.modifyTree b fun wt =>
            wt.insert path ⟨.tree, zeroHash, (mode &&& modePerm) ||| 0o40000⟩)

/-- `cas_rename`: the flags are ignored, and so is what lives at the target. -/
def casRename (d : Daemon) (b : Nat) (source target : FsPath) : Critical :=
  if (refuseMutation source .eacces).isSome || (refuseMutation target .eacces).isSome then
    d.fail .eacces
  else
    d.withBranch b fun br =>
      match br.wt.lookup source with
      | none => d.fail .enoent
      | some e =>
          if e.kind = .tree then
            .reply (.ok .ok) (d.modifyTree b fun wt => wt.renameDir source target)
          else .reply (.ok .ok) (d.modifyTree b fun wt => wt.renameEntry source target)

/-- `cas_symlink`. -/
def casSymlink (d : Daemon) (b : Nat) (target : Bytes) (path : FsPath) : Critical :=
  match refuseMutation path .eacces with
  | some e => d.fail e
  | none =>
      d.withBranch b fun br =>
        if (br.wt.lookup path).isSome then d.fail .eexist
        else .write target (putBlob b path .symlink 0o120777)

/-- `cas_chmod`. -/
def casChmod (d : Daemon) (b : Nat) (path : FsPath) (mode : UInt32) : Critical :=
  match refuseMutation path .enoent with
  | some e => d.fail e
  | none =>
      d.withBranch b fun br =>
        match br.wt.lookup path with
        | none => d.fail .enoent
        | some e =>
            .reply (.ok .ok) (d.modifyTree b fun wt =>
              wt.insert path { e with mode := (e.mode &&& modeType) ||| (mode &&& modePerm) })

/-! ## Operations that only look -/

/-- The tree of the branch that `branch_for_pid` finds for a process routed to `b`: the one of
`main`, which is always there, when `b` is gone.  The operations below take no lock and do not
ask whether the branch is retired. -/
def treeForPid (d : Daemon) (b : Nat) : WorkingTree := ((d.tree b).or (d.tree 0)).getD {}

/-- `cas_readdir`: the base names of the live children. -/
def casReaddir (d : Daemon) (b : Nat) (path : FsPath) : Answer :=
  if isHidden path then .error .enoent
  else
    let wt := d.treeForPid b
    if path ≠ [] ∧ (wt.lookup path).map (·.kind) ≠ some .tree then .error .enoent
    else
      .ok (.names (((wt.listDir path).map fun pe => pe.1.getLastD []).filter fun name =>
        name ≠ storeName ∧ name ≠ controlName))

/-- `cas_getattr` without a handle, below the root and the fast control file; `order` is the
order the handle table is visited in. -/
def casGetattr (d : Daemon) (b : Nat) (order : List Nat) (path : FsPath) : Answer :=
  if isFastControlDescendant path then .error .enotdir
  else if isHidden path then .error .enoent
  else
    match d.tree b with
    -- the branch was retired while the request waited for its lock
    | none => .error .estale
    | some wt =>
        match wt.lookup path with
        | none => .error .enoent
        | some e =>
            match e.kind with
            | .tree => .ok (.attr ((e.mode &&& modePerm) ||| 0o40000) 0 2)
            | .blob =>
                match d.entrySize e with
                | .error err => .error err
                | .ok size => .ok (.attr ((e.mode &&& modePerm) ||| 0o100000)
                    ((d.dirtyFhSizeForPath order path b).getD size) 1)
            | .symlink =>
                match d.entrySize e with
                | .error err => .error err
                | .ok size =>
                    .ok (.attr 0o120777 ((d.dirtyFhSizeForPath order path b).getD size) 1)
            | _ => .error .enoent

/-- `cas_readlink`. -/
def casReadlink (d : Daemon) (b : Nat) (path : FsPath) (size : Nat) : Answer :=
  if isFastControlPath path then .error .einval
  else if isFastControlDescendant path then .error .enotdir
  else if isHidden path then .error .enoent
  else
    match (d.treeForPid b).lookup path with
    | none => .error .enoent
    | some e =>
        if e.kind ≠ .symlink then .error .einval
        else
          match d.store.readBlob e.hash with
          | none => .error .eio
          | some data => .ok (.bytes (data.take (size - 1)))

end Daemon
end ContextFS
