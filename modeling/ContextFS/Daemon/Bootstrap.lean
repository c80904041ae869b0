import ContextFS.Daemon.FuseAdapter

/-!
# Filling `main` from the source directory

A path of the source is ingested on demand by `ensure_path`, or by the background walk.  Both
take the lock of `main` for each critical section; the walk takes it once for every child it
visits.  What the source directory holds at a path when it is looked at is an argument.
-/

namespace ContextFS

open Std Lib ObjectStore WorkingTree

/-- What `symlink_status` and the reads behind it find at a path of the source directory. -/
inductive SourceEntry
  | missing
  | unsupported
  | failed (text : String)
  | directory (perms : UInt32)
  | symlink (perms : UInt32) (target : Bytes)
  | file (perms : UInt32) (data : Bytes)
deriving DecidableEq

/-- The source directory as `ensure_path` sees it. -/
abbrev Source := FsPath → SourceEntry

namespace SourceEntry

/-- `st.type() == fs::file_type::directory`. -/
def isDirectory : SourceEntry → Bool
  | .directory _ => true
  | _ => false

end SourceEntry

inductive IngestResult
  | inserted
  | missing
  | unsupported
  | failed (text : String)
deriving DecidableEq

/-- `is_reserved_root_name`. -/
def isReservedRootName (name : Name) : Bool := name = storeName || name = controlName

section Ingest

variable [Blake3]

/-- `insert_source` of a blob just written. -/
def insertBlob (path : FsPath) (kind : EntryKind) (mode : UInt32) (data : Bytes)
    (emptyText : String) (store : ObjectStore) (wt : WorkingTree) :
    IngestResult × ObjectStore × WorkingTree :=
  let w := store.writeBlob data
  if w.2 = zeroHash then
    (.failed (if w.1.lastError = "" then emptyText else w.1.lastError), w.1, wt)
  else (.inserted, w.1, wt.insertSource path ⟨kind, w.2, mode⟩)

/-- `ingest_entry`; the mode is what `encode_mode` makes of the permissions. -/
def ingestEntry (path : FsPath) (src : SourceEntry) (store : ObjectStore) (wt : WorkingTree) :
    IngestResult × ObjectStore × WorkingTree :=
  match src with
  | .missing => (.missing, store, wt)
  | .unsupported => (.unsupported, store, wt)
  | .failed text => (.failed text, store, wt)
  | .directory perms =>
      (.inserted, store,
        wt.insertSource path ⟨.tree, zeroHash, (perms &&& modePerm) ||| 0o40000⟩)
  | .symlink perms target =>
      insertBlob path .symlink ((perms &&& modePerm) ||| 0o120000) target
        "write symlink blob returned zero hash" store wt
  | .file perms data =>
      insertBlob path .blob ((perms &&& modePerm) ||| 0o100000) data
        "write file blob returned zero hash" store wt

/-- The first loop of `ensure_path`, from the path upwards: the paths without an entry, the
topmost first, or `none` below a whiteout. -/
def missingPaths (wt : WorkingTree) : List FsPath → Option (List FsPath)
  | [] => some []
  | q :: above =>
      match wt.lookupRaw q with
      | some e => if e.kind = .deleted then none else some []
      | none => (missingPaths wt above).map fun missing => missing ++ [q]

/-- The paths from `path` up to the root, without the root. -/
def upwards (path : FsPath) : List FsPath := (path.inits.filter (· ≠ [])).reverse

/-- The second loop of `ensure_path`. -/
def ingestMissing (source : Source) :
    List FsPath → ObjectStore → WorkingTree → Bool × ObjectStore × WorkingTree
  | [], store, wt => (true, store, wt)
  | q :: rest, store, wt =>
      match wt.lookupRaw q with
      | some e =>
          if e.kind = .deleted then (false, store, wt) else ingestMissing source rest store wt
      | none =>
          if isReservedRootName (q.getLastD []) then (false, store, wt)
          else
            match ingestEntry q (source q) store wt with
            | (.inserted, store, wt) => ingestMissing source rest store wt
            | (_, store, wt) => (false, store, wt)

/-- `ensure_path`. -/
def ensurePath (source : Source) (path : FsPath) (store : ObjectStore) (wt : WorkingTree) :
    Bool × ObjectStore × WorkingTree :=
  match missingPaths wt (upwards path) with
  | none => (false, store, wt)
  | some missing => ingestMissing source missing store wt

/-! ## The background walk -/

/-- Where `walk_bg` is: the queue of directories, and the directory being enumerated with the
names still to come. -/
inductive Walker
  | stopped
  | running (queue : List FsPath) (current : Option (FsPath × List Name))

/-- `start_background`. -/
def Walker.start : Walker := .running [[]] none

/-- One child of the directory `dir`. -/
def walkChild (dir : FsPath) (name : Name) (rest : List Name) (queue : List FsPath)
    (src : SourceEntry) (store : ObjectStore) (wt : WorkingTree) :
    Walker × ObjectStore × WorkingTree :=
  let next := fun queue => Walker.running queue (some (dir, rest))
  let child := dir ++ [name]
  let pushed := if src.isDirectory then queue ++ [child] else queue
  if dir = [] && isReservedRootName name then (next queue, store, wt)
  else
    match src, wt.lookupRaw child with
    | .failed _, _ | .missing, _ => (.stopped, store, wt)
    | _, some e => (next (if e.kind = .tree then pushed else queue), store, wt)
    | _, none =>
        match ingestEntry child src store wt with
        | (.inserted, store, wt) => (next pushed, store, wt)
        | (.unsupported, store, wt) => (next queue, store, wt)
        | (_, store, wt) => (.stopped, store, wt)

/-- The next step of the walk.  `listing` is what the enumeration of the directory at the front
of the queue finds, and `src` what the next child is. -/
def walkStep (w : Walker) (listing : Option (List Name)) (src : SourceEntry) (store : ObjectStore)
    (wt : WorkingTree) : Walker × ObjectStore × WorkingTree :=
  match w with
  | .stopped => (w, store, wt)
  | .running queue (some (dir, name :: rest)) => walkChild dir name rest queue src store wt
  | .running queue (some (_, [])) => (.running queue none, store, wt)
  | .running (dir :: queue) none =>
      match listing with
      | none => (.stopped, store, wt)
      | some names => (.running queue (some (dir, names)), store, wt)
  | .running [] none => (.stopped, store, wt.foldIntoBase)

end Ingest

end ContextFS
