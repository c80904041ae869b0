import ContextFS.Daemon.BufferedFile
import ContextFS.Daemon.PublishStep
import ContextFS.Store.WriteOutcome

/-!
# Reads and writes of objects that fail

Six sites lay new content over an object, write it and put the hash into a tree.  Only the two
that flush a handle look at the hash before they do, and none of them looks whether the read
succeeded: an unreadable base counts as empty.  Here every read of a call can find other objects
unreadable, and every write can fail; the store itself keeps what it has.
-/

namespace ContextFS

open Std Lib ObjectStore WorkingTree

/-- The contents of the objects and, for every read of a call, the objects it finds.  An object
that cannot be read is missing from those; a read that succeeds gives the content. -/
structure ObjectReads (s : ObjectStore) where
  content : Hash → Bytes
  held : ∀ h data, s.HoldsBlob h data → data = content h
  seen : Nat → ObjectStore
  honest : ∀ n h data, (seen n).readBlob h = some data → data = content h

/-- The bytes under an entry or a handle; the null hash stands for an empty file. -/
def ObjectReads.base {s : ObjectStore} (r : ObjectReads s) (h : Hash) : Bytes :=
  if h = zeroHash then [] else r.content h

/-- A handle after some writes. -/
def FhState.written (s : FhState) (writes : List (Nat × Bytes)) : FhState :=
  { s with writeBuf := writes.foldl (fun b w => b.write w.1 w.2) s.writeBuf }

/-- What a flush of the handle is to write. -/
def FhState.intended {store : ObjectStore} (s : FhState) (r : ObjectReads store) : Bytes :=
  s.writeBuf.materialize (r.base s.baseBlob)

/-- The blob `cas_truncate` writes when its read finds the objects of `seen`. -/
def truncatedSeeing (seen : ObjectStore) (e : WorkingTreeEntry) (length : Nat) : Bytes :=
  Daemon.resize (if e.hash = zeroHash then [] else (seen.readBlob e.hash).getD []) length

/-- `flush_fhs_for_branch`; the read for the handle `fh` finds the objects of `seen fh`. -/
def flushFhsSeeing [Blake3] (seen : Nat → ObjectStore) (branchId : Nat) :
    List Nat → ObjectStore × FhTable × WorkingTree → Bool × ObjectStore × FhTable × WorkingTree
  | [], st => (true, st)
  | fh :: order, (store, fhs, wt) =>
      match fhs[fh]? with
      | none => flushFhsSeeing seen branchId order (store, fhs, wt)
      | some s =>
          if s.needsFlush branchId then
            let data := s.flushData (seen fh)
            let w := store.writeBlob data
            if w.2 = zeroHash then
              (false, w.1, fhs.insert fh (s.ensureBaseCache (seen fh)), wt)
            else
              flushFhsSeeing seen branchId order
                (w.1, fhs.insert fh (s.flushed w.2 data), insertFlushed wt s.path w.2)
          else flushFhsSeeing seen branchId order (store, fhs, wt)

namespace Daemon

/-- The live entry at a path of a branch. -/
def look (d : Daemon) (b : Nat) (path : FsPath) : Option WorkingTreeEntry :=
  (d.tree b).bind fun wt => wt.lookup path

/-- `cas_flush`; the read of the base finds the objects of `seen`. -/
def casFlushSeeing (d : Daemon) (seen : ObjectStore) (fh : Nat) : Critical :=
  d.withFh fh fun s =>
    if !s.writeBuf.isDirty then .reply (.ok .ok) d
    else .write (s.flushData seen) (putFlushed fh s seen)

/-- `cas_truncate` by path; the read of the old content finds the objects of `seen`. -/
def casTruncateSeeing (d : Daemon) (seen : ObjectStore) (b : Nat) (path : FsPath) (length : Nat) :
    Critical :=
  match refuseMutation path .eacces with
  | some e => d.fail e
  | none =>
      d.withBranch b fun br =>
        match br.wt.lookup path with
        | none => d.fail .enoent
        | some e =>
            if e.kind ≠ .blob then d.fail .eisdir
            else .write (truncatedSeeing seen e length) (putBlob b path .blob e.mode)

/-- Some calls of `cas_write` on one handle. -/
def writeAll [Blake3] (d : Daemon) (fh : Nat) (writes : List (Nat × Bytes)) : Daemon :=
  writes.foldl (fun d w => ((d.casWrite fh w.1 w.2).run d).2) d

end Daemon

/-! ## The law -/

/-- A site that writes an object and names it in a tree.  The flush of a branch visits every
handle once. -/
inductive Mutator
  | openTrunc (b : Nat) (path : FsPath)
  | create (b : Nat) (path : FsPath) (mode : UInt32)
  | truncate (b : Nat) (path : FsPath) (length : Nat)
  | symlink (b : Nat) (target : Bytes) (path : FsPath)
  | writeFlush (fh : Nat) (writes : List (Nat × Bytes))
  | flushBranch (b : Nat) (order : List Nat) (once : order.Nodup)

/-- The content a path is to get. -/
structure Put where
  path : FsPath
  kind : EntryKind
  data : Bytes

/-- What a flush of the handle is to do. -/
def FhState.put {store : ObjectStore} (s : FhState) (r : ObjectReads store) : Put :=
  ⟨s.path, .blob, s.intended r⟩

/-- What is to be done for the handles a flush of a branch visits. -/
def flushPuts {store : ObjectStore} (r : ObjectReads store) (b : Nat) (fhs : FhTable)
    (order : List Nat) : List Put :=
  (order.filterMap fun fh => fhs[fh]?).filterMap fun s =>
    if s.needsFlush b then some (s.put r) else none

namespace Mutator

/-- What the call reports, and the daemon after it. -/
def perform [Blake3] (d : Daemon) (r : ObjectReads d.store) : Mutator → Bool × Daemon
  | .openTrunc b path => ((d.casOpen b path true).run d).map Except.isOk id
  | .create b path mode => ((d.casCreate b path mode).run d).map Except.isOk id
  | .truncate b path length =>
      ((d.casTruncateSeeing (r.seen 0) b path length).run d).map Except.isOk id
  | .symlink b target path => ((d.casSymlink b target path).run d).map Except.isOk id
  | .writeFlush fh writes =>
      (((d.writeAll fh writes).casFlushSeeing (r.seen fh) fh).run (d.writeAll fh writes)).map
        Except.isOk id
  | .flushBranch b order _ =>
      match d.branch b with
      | none => (false, d)
      | some br =>
          let f := flushFhsSeeing r.seen b order (d.store, d.fhTable, br.wt)
          (f.1, { d.setTree b br f.2.2.2 with store := f.2.1, fhTable := f.2.2.1 })

/-- The branch the call is about. -/
def branch (d : Daemon) : Mutator → Nat
  | .openTrunc b _ | .create b _ _ | .truncate b _ _ | .symlink b _ _ | .flushBranch b _ _ => b
  | .writeFlush fh _ => ((d.getFh fh).map (·.branchId)).getD 0

/-- What the call is to do, in order. -/
def puts (d : Daemon) (r : ObjectReads d.store) : Mutator → List Put
  | .openTrunc _ path => [⟨path, .blob, []⟩]
  | .create _ path _ => [⟨path, .blob, []⟩]
  | .truncate b path length =>
      match d.look b path with
      | none => []
      | some e => [⟨path, .blob, Daemon.resize (r.base e.hash) length⟩]
  | .symlink _ target path => [⟨path, .symlink, target⟩]
  | .writeFlush fh writes =>
      match d.getFh fh with
      | none => []
      | some s =>
          if (s.written writes).writeBuf.isDirty then [(s.written writes).put r] else []
  | .flushBranch b order _ => flushPuts r b d.fhTable order

/-- A flush of a branch up to one of its handles; the other calls are looked at when they are
done. -/
inductive CutTo : Mutator → Mutator → Prop
  | whole (m : Mutator) : CutTo m m
  | flushBranch {b : Nat} {order pre : List Nat} (once : order.Nodup) (hpre : pre <+: order) :
      CutTo (.flushBranch b order once) (.flushBranch b pre (once.sublist hpre.sublist))

end Mutator

/-- The last of some puts at a path. -/
def lastPut (puts : List Put) (path : FsPath) : Option Put :=
  puts.reverse.find? fun p => p.path = path

/-- The entry at a path is the old one, or names a stored object with the content that was put
there last. -/
def Shown (store : ObjectStore) (old : Option WorkingTreeEntry) :
    Option Put → Option WorkingTreeEntry → Prop
  | none, new => new = old
  | some p, new =>
      ∃ h mode, new = some ⟨p.kind, h, mode⟩ ∧ h ≠ zeroHash ∧ store.HoldsBlob h p.data

/-- Either everything that was to be done is done, or a failure is reported and something is not;
no path has changed but those that are done. -/
def PutLaw (before after : FsPath → Option WorkingTreeEntry) (store : ObjectStore)
    (puts : List Put) (ok : Bool) : Prop :=
  ∃ done rest, puts = done ++ rest ∧ (ok = true → rest = []) ∧
    (ok = false → rest = [] → done = []) ∧
    ∀ path, Shown store (before path) (lastPut done path) (after path)

/-- The law of a call, at every point of a flush. -/
def Mutator.Law [Blake3] (d : Daemon) (r : ObjectReads d.store) (m : Mutator) : Prop :=
  ∀ m', m.CutTo m' →
    PutLaw (d.look (m'.branch d)) ((m'.perform d r).2.look (m'.branch d))
      (m'.perform d r).2.store (m'.puts d r) (m'.perform d r).1

section Fits

variable [Blake3]

/-- The disk takes the next write. -/
def DiskTakes (store : ObjectStore) : Prop := store.startWrite.1 = none

/-- No file of other content lies under the digest of the blob. -/
def OwnDigest (store : ObjectStore) (data : Bytes) : Prop :=
  ∀ f, store.atTurn.objects[objectHash .blob (blobBody data)]? = some f → f.raw = blobRaw data

/-- The store can take the blob. -/
def Lands (store : ObjectStore) (data : Bytes) : Prop :=
  DiskTakes store ∧ objectHash .blob (blobBody data) ≠ zeroHash ∧ OwnDigest store data

omit [Blake3] in
/-- The old content of a file can be read, or all that is to be kept of it are zeros. -/
def KeptRead {store : ObjectStore} (r : ObjectReads store) (e : WorkingTreeEntry) (length : Nat) :
    Prop :=
  e.hash = zeroHash ∨ (r.seen 0).readBlob e.hash ≠ none ∨
    ∀ byte ∈ (r.content e.hash).take length, byte = 0

omit [Blake3] in
/-- The base of the handle is not loaded and can be read now, or the handle has its bytes cached,
wherever they show through the buffer. -/
def FhState.BaseRight {store : ObjectStore} (s : FhState) (r : ObjectReads store)
    (seen : ObjectStore) : Prop :=
  (s.baseCacheLoaded = false ∧ s.baseBlob ≠ zeroHash ∧ seen.readBlob s.baseBlob ≠ none) ∨
    s.writeBuf.SameThrough s.baseCache (r.base s.baseBlob)

/-- The disk does not take the flush of a handle, or the base of the handle is right and no other
content lies under the digest. -/
def FhState.FlushFits {store₀ : ObjectStore} (s : FhState) (r : ObjectReads store₀) (fh : Nat)
    (store : ObjectStore) : Prop :=
  ¬ DiskTakes store ∨ s.BaseRight r (r.seen fh) ∧
    (objectHash .blob (blobBody (s.intended r)) = zeroHash ∨ OwnDigest store (s.intended r))

/-- When a call meets its law: a check refuses it, or the store takes the blob and the bytes the
new ones are laid over can be read.  A flush may find out that the disk refuses; a flush of a
branch comes to a handle when all before it were written. -/
def Mutator.Fits (d : Daemon) (r : ObjectReads d.store) : Mutator → Prop
  | .openTrunc b path => isFastControlDescendant path = false → isHidden path = false →
      ∀ e, d.look b path = some e → e.kind = .blob → Lands d.store []
  | .create b path _ => refuseMutation path .eacces = none → d.branch b ≠ none → Lands d.store []
  | .truncate b path length => refuseMutation path .eacces = none →
      ∀ e, d.look b path = some e → e.kind = .blob →
        KeptRead r e length ∧ Lands d.store (Daemon.resize (r.base e.hash) length)
  | .symlink b target path => refuseMutation path .eacces = none → d.branch b ≠ none →
      d.look b path = none → Lands d.store target
  | .writeFlush fh writes => ∀ s br, UsableFh d fh s br →
      (s.written writes).writeBuf.isDirty = true → (s.written writes).FlushFits r fh d.store
  | .flushBranch b order _ => ∀ br, d.branch b = some br →
      ∀ pre fh post s, order = pre ++ fh :: post → d.getFh fh = some s → s.needsFlush b = true →
        ∀ store fhs wt,
          flushFhsSeeing r.seen b pre (d.store, d.fhTable, br.wt) = (true, store, fhs, wt) →
          s.FlushFits r fh store

/-- Digests tell the blobs apart that the call meets: none is the null hash, and no write meets a
file of other content under its own. -/
def Mutator.DigestsTell (d : Daemon) (r : ObjectReads d.store) (m : Mutator) : Prop :=
  (∀ data : Bytes, objectHash .blob (blobBody data) ≠ zeroHash) ∧
    (m.perform d r).2.store.collided = false

/-! ## What is written -/

/-- The blob is written, and it holds `data`. -/
def LandsAs (store : ObjectStore) (written data : Bytes) : Prop :=
  ¬ store.WriteFails written ∧ store.LeavesBlob written data

/-- The flush of a handle writes what it is to write, or finds out that it cannot write. -/
def FhState.FlushWrites {store₀ : ObjectStore} (s : FhState) (r : ObjectReads store₀) (fh : Nat)
    (store : ObjectStore) : Prop :=
  store.WriteFails (s.flushData (r.seen fh)) ∨
    store.LeavesBlob (s.flushData (r.seen fh)) (s.intended r)

/-- What a call writes is right. -/
def Mutator.WritesRight (d : Daemon) (r : ObjectReads d.store) : Mutator → Prop
  | .openTrunc b path => isFastControlDescendant path = false → isHidden path = false →
      ∀ e, d.look b path = some e → e.kind = .blob → LandsAs d.store [] []
  | .create b path _ => refuseMutation path .eacces = none → d.branch b ≠ none →
      LandsAs d.store [] []
  | .truncate b path length => refuseMutation path .eacces = none →
      ∀ e, d.look b path = some e → e.kind = .blob →
        LandsAs d.store (truncatedSeeing (r.seen 0) e length)
          (Daemon.resize (r.base e.hash) length)
  | .symlink b target path => refuseMutation path .eacces = none → d.branch b ≠ none →
      d.look b path = none → LandsAs d.store target target
  | .writeFlush fh writes => ∀ s br, UsableFh d fh s br →
      (s.written writes).writeBuf.isDirty = true → (s.written writes).FlushWrites r fh d.store
  | .flushBranch b order _ => ∀ br, d.branch b = some br →
      ∀ pre fh post s, order = pre ++ fh :: post → d.getFh fh = some s → s.needsFlush b = true →
        ∀ store fhs wt,
          flushFhsSeeing r.seen b pre (d.store, d.fhTable, br.wt) = (true, store, fhs, wt) →
          s.FlushWrites r fh store

end Fits

/-! ## Puts -/

theorem lastPut_append_singleton (puts : List Put) (p : Put) (path : FsPath) :
    lastPut (puts ++ [p]) path = if p.path = path then some p else lastPut puts path := by
  unfold lastPut
  rw [List.reverse_append, List.reverse_singleton, List.singleton_append, List.find?_cons]
  by_cases hp : p.path = path
  · simp [hp]
  · simp [hp]

theorem Shown.mono {s s' : ObjectStore} (he : Extends s s') {old new : Option WorkingTreeEntry}
    {p : Option Put} (h : Shown s old p new) : Shown s' old p new := by
  cases p with
  | none => exact h
  | some p =>
      obtain ⟨k, mode, hnew, hk, hheld⟩ := h
      exact ⟨k, mode, hnew, hk, hheld.mono he⟩

/-- A failure that changes nothing. -/
theorem PutLaw.failed {before after : FsPath → Option WorkingTreeEntry} (store : ObjectStore)
    (puts : List Put) (h : ∀ path, after path = before path) :
    PutLaw before after store puts false :=
  ⟨[], puts, rfl, fun hok => (by cases hok), fun _ _ => rfl, h⟩

/-- A success where nothing was to be done. -/
theorem PutLaw.nothing {before after : FsPath → Option WorkingTreeEntry} (store : ObjectStore)
    (h : ∀ path, after path = before path) : PutLaw before after store [] true :=
  ⟨[], [], rfl, fun _ => rfl, fun _ _ => rfl, h⟩

/-- A success that puts one entry. -/
theorem putLaw_singleton_iff {before after : FsPath → Option WorkingTreeEntry}
    {store : ObjectStore} {p : Put} {h : Hash} {mode : UInt32}
    (hafter : ∀ path, after path =
      if p.path = path then some ⟨p.kind, h, mode⟩ else before path) :
    PutLaw before after store [p] true ↔ h ≠ zeroHash ∧ store.HoldsBlob h p.data := by
  have hself : after p.path = some ⟨p.kind, h, mode⟩ := by rw [hafter, if_pos rfl]
  constructor
  · rintro ⟨done, rest, hputs, hrest, -, hshown⟩
    rw [hrest rfl, List.append_nil] at hputs
    have hat := hshown p.path
    rw [← hputs, ← List.nil_append [p], lastPut_append_singleton, if_pos rfl] at hat
    obtain ⟨k, m, hnew, hk, hheld⟩ := hat
    rw [hself] at hnew
    cases hnew
    exact ⟨hk, hheld⟩
  · rintro ⟨hh, hheld⟩
    refine ⟨[p], [], rfl, fun _ => rfl, fun hok => (by cases hok), fun path => ?_⟩
    rw [← List.nil_append [p], lastPut_append_singleton]
    by_cases hp : p.path = path
    · rw [if_pos hp]
      exact ⟨h, mode, by rw [hafter, if_pos hp], hh, hheld⟩
    · rw [if_neg hp]
      exact (hafter path).trans (if_neg hp)

/-! ## The four sites that do not look at the hash -/

namespace Daemon

theorem look_of_branch {d : Daemon} {b : Nat} {br : BranchContext} (h : d.branch b = some br)
    (path : FsPath) : d.look b path = br.wt.lookup path := by
  rw [look, tree_of_branch h]
  rfl

theorem look_congr {d d' : Daemon} (h : d'.branches = d.branches) (b : Nat) (path : FsPath) :
    d'.look b path = d.look b path := by
  rw [look, tree_congr h]
  rfl

theorem look_insert {d : Daemon} {b : Nat} {br : BranchContext} (hbr : d.branch b = some br)
    (path q : FsPath) {e : WorkingTreeEntry} (he : e.kind ≠ .deleted) :
    (d.modifyTree b fun wt => wt.insert path e).look b q =
      if path = q then some e else d.look b q := by
  rw [look, tree_modifyTree, if_pos rfl, look, tree_of_branch hbr]
  exact lookup_insert br.wt path q e he

/-- The daemon after an entry was put for a blob that was written. -/
def afterPut [Blake3] (d : Daemon) (b : Nat) (path : FsPath) (kind : EntryKind) (mode : UInt32)
    (written : Bytes) : Daemon :=
  ({ d with store := (d.store.writeBlob written).1 } : Daemon).modifyTree b fun wt =>
    wt.insert path ⟨kind, (d.store.writeBlob written).2, mode⟩

/-- A write whose hash goes into the tree unseen keeps the law exactly if it lands. -/
theorem putLaw_afterPut_iff [Blake3] {d : Daemon} {b : Nat} {br : BranchContext} (path : FsPath)
    {kind : EntryKind} (mode : UInt32) (written data : Bytes) (hbr : d.branch b = some br)
    (hkind : kind ≠ .deleted) :
    PutLaw (d.look b) ((d.afterPut b path kind mode written).look b)
      (d.afterPut b path kind mode written).store [⟨path, kind, data⟩] true ↔
      LandsAs d.store written data := by
  have hstore : (d.afterPut b path kind mode written).store = (d.store.writeBlob written).1 :=
    modifyTree_store ..
  have hbr' : ({ d with store := (d.store.writeBlob written).1 } : Daemon).branch b = some br := hbr
  have hafter : ∀ q, (d.afterPut b path kind mode written).look b q =
      if path = q then some ⟨kind, (d.store.writeBlob written).2, mode⟩ else d.look b q :=
    fun q => look_insert hbr' path q hkind
  rw [putLaw_singleton_iff hafter, hstore]
  unfold LandsAs
  rw [← writeBlob_eq_zeroHash_iff]
  constructor
  · rintro ⟨hne, hheld⟩
    refine ⟨hne, (holdsBlob_writeBlob_iff ?_ data).1 hheld⟩
    rwa [← writeBlob_eq_zeroHash_iff]
  · rintro ⟨hne, hleaves⟩
    refine ⟨hne, (holdsBlob_writeBlob_iff ?_ data).2 hleaves⟩
    rwa [← writeBlob_eq_zeroHash_iff]

end Daemon

open Daemon

section Sites

variable [Blake3] {d : Daemon}

/-- The law of a critical section that is to do some puts in a branch. -/
def Critical.Law (d : Daemon) (b : Nat) (puts : List Put) (c : Critical) : Prop :=
  PutLaw (d.look b) ((c.run d).2.look b) (c.run d).2.store puts (c.run d).1.isOk

/-- A call that a check refuses keeps the law. -/
theorem law_of_refused (b : Nat) (puts : List Put) (e : Errno) : (d.fail e).Law d b puts :=
  PutLaw.failed d.store puts fun _ => rfl

/-- A call that ends with `putBlob`. -/
theorem law_putBlob_iff {b : Nat} {br : BranchContext} (path : FsPath) {kind : EntryKind}
    (mode : UInt32) (written data : Bytes) (hbr : d.branch b = some br)
    (hkind : kind ≠ .deleted) :
    (Critical.write written (putBlob b path kind mode)).Law d b [⟨path, kind, data⟩] ↔
      LandsAs d.store written data :=
  putLaw_afterPut_iff path mode written data hbr hkind

/-- A call that ends with `openEmpty`; the new handle shows nowhere. -/
theorem law_openEmpty_iff {b : Nat} {br : BranchContext} (path : FsPath) (mode : UInt32)
    (hbr : d.branch b = some br) :
    (Critical.write [] (openEmpty b br path mode)).Law d b [⟨path, .blob, []⟩] ↔
      LandsAs d.store [] [] :=
  putLaw_afterPut_iff path mode [] [] hbr (by decide)

theorem law_openTrunc_iff (b : Nat) (path : FsPath) :
    (d.casOpen b path true).Law d b [⟨path, .blob, []⟩] ↔
      (isFastControlDescendant path = false → isHidden path = false →
        ∀ e, d.look b path = some e → e.kind = .blob → LandsAs d.store [] []) := by
  unfold casOpen
  cases hdesc : isFastControlDescendant path with
  | true => exact iff_of_true (law_of_refused ..) fun h => (by cases h)
  | false =>
      cases hhidden : isHidden path with
      | true => exact iff_of_true (law_of_refused ..) fun _ h => (by cases h)
      | false =>
          simp only [Bool.false_eq_true, if_false, forall_const, if_true]
          unfold withBranch
          cases hbr : d.branch b with
          | none =>
              refine iff_of_true (law_of_refused ..) fun e he => ?_
              simp [look, tree, hbr] at he
          | some br =>
              dsimp only
              rw [look_of_branch hbr]
              cases he : br.wt.lookup path with
              | none => exact iff_of_true (law_of_refused ..) fun e h => (by cases h)
              | some e =>
                  by_cases hk : e.kind = .blob
                  · simp only [hk, ne_eq, not_true_eq_false, if_false]
                    rw [law_openEmpty_iff path e.mode hbr]
                    constructor
                    · exact fun h _ _ _ => h
                    · exact fun h => h e rfl hk
                  · simp only [ne_eq, hk, not_false_eq_true, if_true]
                    refine iff_of_true (law_of_refused ..) fun e' he' hk' => ?_
                    cases he'
                    exact absurd hk' hk

theorem law_create_iff (b : Nat) (path : FsPath) (mode : UInt32) :
    (d.casCreate b path mode).Law d b [⟨path, .blob, []⟩] ↔
      (refuseMutation path .eacces = none → d.branch b ≠ none → LandsAs d.store [] []) := by
  unfold casCreate
  cases hrefuse : refuseMutation path .eacces with
  | some e => exact iff_of_true (law_of_refused ..) fun h => (by cases h)
  | none =>
      unfold withBranch
      cases hbr : d.branch b with
      | none => exact iff_of_true (law_of_refused ..) fun _ h => (h rfl).elim
      | some br =>
          rw [law_openEmpty_iff path _ hbr]
          simp

theorem law_symlink_iff (b : Nat) (target : Bytes) (path : FsPath) :
    (d.casSymlink b target path).Law d b [⟨path, .symlink, target⟩] ↔
      (refuseMutation path .eacces = none → d.branch b ≠ none → d.look b path = none →
        LandsAs d.store target target) := by
  unfold casSymlink
  cases hrefuse : refuseMutation path .eacces with
  | some e => exact iff_of_true (law_of_refused ..) fun h => (by cases h)
  | none =>
      unfold withBranch
      cases hbr : d.branch b with
      | none => exact iff_of_true (law_of_refused ..) fun _ h => (h rfl).elim
      | some br =>
          dsimp only
          rw [look_of_branch hbr]
          cases he : br.wt.lookup path with
          | some e =>
              refine iff_of_true (law_of_refused ..) fun _ _ h => ?_
              cases h
          | none =>
              simp only [Option.isSome_none, Bool.false_eq_true, if_false]
              rw [law_putBlob_iff path _ target target hbr (by decide)]
              simp

theorem law_truncate_iff (r : ObjectReads d.store) (b : Nat) (path : FsPath) (length : Nat) :
    (d.casTruncateSeeing (r.seen 0) b path length).Law d b
        ((Mutator.truncate b path length).puts d r) ↔
      (refuseMutation path .eacces = none →
        ∀ e, d.look b path = some e → e.kind = .blob →
          LandsAs d.store (truncatedSeeing (r.seen 0) e length)
            (Daemon.resize (r.base e.hash) length)) := by
  unfold casTruncateSeeing
  dsimp only [Mutator.puts]
  cases hrefuse : refuseMutation path .eacces with
  | some e => exact iff_of_true (law_of_refused ..) fun h => (by cases h)
  | none =>
      unfold withBranch
      cases hbr : d.branch b with
      | none =>
          refine iff_of_true (law_of_refused ..) fun _ e he => ?_
          simp [look, tree, hbr] at he
      | some br =>
          dsimp only
          rw [look_of_branch hbr]
          cases he : br.wt.lookup path with
          | none => exact iff_of_true (law_of_refused ..) fun _ e h => (by cases h)
          | some e =>
              by_cases hk : e.kind = .blob
              · simp only [hk, ne_eq, not_true_eq_false, if_false]
                rw [law_putBlob_iff path e.mode _ _ hbr (by decide)]
                constructor
                · rintro h - e' he' -
                  cases he'
                  exact h
                · exact fun h => h trivial e rfl hk
              · simp only [ne_eq, hk, not_false_eq_true, if_true]
                refine iff_of_true (law_of_refused ..) fun _ e' he' hk' => ?_
                cases he'
                exact absurd hk' hk

/-! ## The flush of one handle -/

omit [Blake3] in
theorem withFh_of_usable {fh : Nat} {s : FhState} {br : BranchContext} (h : UsableFh d fh s br)
    (k : FhState → Critical) : d.withFh fh k = k s := by
  simp [withFh, withBranch, h.open_, h.branch, h.live]

omit [Blake3] in
theorem withFh_of_unusable {fh : Nat} (h : ∀ s br, ¬ UsableFh d fh s br) :
    ∃ e, ∀ k, d.withFh fh k = d.fail e := by
  unfold withFh
  cases hfh : d.getFh fh with
  | none => exact ⟨.ebadf, fun _ => rfl⟩
  | some s =>
      unfold withBranch
      cases hbr : d.branch s.branchId with
      | none => exact ⟨.estale, fun _ => by simp [hbr]⟩
      | some br =>
          cases hstale : s.stale with
          | true => exact ⟨.estale, fun _ => by simp [hbr, hstale]⟩
          | false => exact (h s br ⟨hfh, hbr, hstale⟩).elim

theorem writeAll_of_unusable {fh : Nat} (h : ∀ s br, ¬ UsableFh d fh s br)
    (writes : List (Nat × Bytes)) : d.writeAll fh writes = d := by
  obtain ⟨e, he⟩ := withFh_of_unusable h
  induction writes with
  | nil => rfl
  | cons w writes ih =>
      have hstep : ((d.casWrite fh w.1 w.2).run d).2 = d := by
        rw [casWrite, he]
        rfl
      rw [writeAll, List.foldl_cons, hstep]
      exact ih

/-- Writes change the buffer of their handle only. -/
theorem writeAll_of_usable {fh : Nat} {s : FhState} {br : BranchContext}
    (h : UsableFh d fh s br) (writes : List (Nat × Bytes)) :
    (d.writeAll fh writes).store = d.store ∧ (d.writeAll fh writes).branches = d.branches ∧
      UsableFh (d.writeAll fh writes) fh (s.written writes) br := by
  induction writes generalizing d s with
  | nil => exact ⟨rfl, rfl, h⟩
  | cons w writes ih =>
      have hstep : ((d.casWrite fh w.1 w.2).run d).2 =
          d.modifyFh fh fun s => { s with writeBuf := s.writeBuf.write w.1 w.2 } := by
        rw [casWrite, withFh_of_usable h]
        rfl
      have hnext : UsableFh (d.modifyFh fh fun s =>
          { s with writeBuf := s.writeBuf.write w.1 w.2 }) fh
          { s with writeBuf := s.writeBuf.write w.1 w.2 } br := by
        refine ⟨?_, ?_, h.live⟩
        · rw [getFh_modifyFh, if_pos rfl, h.open_]
          rfl
        · rw [Daemon.branch, modifyFh_branches]
          exact h.branch
      obtain ⟨hstore, hbranches, huse⟩ := ih hnext
      rw [writeAll, List.foldl_cons, hstep]
      exact ⟨hstore.trans (modifyFh_store ..), hbranches.trans (modifyFh_branches ..), huse⟩

omit [Blake3] in
theorem lookup_insertFlushed_mode (wt : WorkingTree) (path : FsPath) (h : Hash) :
    ∃ mode, ∀ q, (insertFlushed wt path h).lookup q =
      if path = q then some ⟨.blob, h, mode⟩ else wt.lookup q :=
  ⟨_, fun q => lookup_insert wt path q _ (show EntryKind.blob ≠ .deleted by decide)⟩

omit [Blake3] in
/-- The end of a flush whose blob was written. -/
theorem putFlushed_of_ne {fh : Nat} {s : FhState} {br : BranchContext} {h : Hash}
    (hbr : d.branch s.branchId = some br) (hz : h ≠ zeroHash) (seen : ObjectStore) :
    (putFlushed fh s seen h d).1.isOk = true ∧ (putFlushed fh s seen h d).2.store = d.store ∧
      ∃ mode, ∀ q, (putFlushed fh s seen h d).2.look s.branchId q =
        if s.path = q then some ⟨.blob, h, mode⟩ else d.look s.branchId q := by
  unfold putFlushed
  rw [if_neg hz]
  obtain ⟨mode, hlookup⟩ := lookup_insertFlushed_mode br.wt s.path h
  refine ⟨rfl, (modifyFh_store ..).trans (modifyTree_store ..), mode, fun q => ?_⟩
  rw [look_congr (modifyFh_branches ..), look, tree_modifyTree, if_pos rfl, tree_of_branch hbr,
    look_of_branch hbr]
  exact hlookup q

omit [Blake3] in
/-- The end of a flush whose blob was not. -/
theorem putFlushed_zeroHash (fh : Nat) (s : FhState) (seen : ObjectStore) :
    (putFlushed fh s seen zeroHash d).1.isOk = false ∧
      ∀ b q, (putFlushed fh s seen zeroHash d).2.look b q = d.look b q := by
  unfold putFlushed
  rw [if_pos rfl]
  exact ⟨rfl, fun b q => look_congr (modifyFh_branches ..) b q⟩

/-- A flush that finds its handle dirty. -/
theorem law_flushDirty_iff (r : ObjectReads d.store) {d₁ : Daemon} {fh : Nat} {s : FhState}
    {br : BranchContext} (hstore : d₁.store = d.store) (hbranches : d₁.branches = d.branches)
    (h : UsableFh d₁ fh s br) :
    let c := Critical.write (s.flushData (r.seen fh)) (putFlushed fh s (r.seen fh))
    PutLaw (d.look s.branchId) ((c.run d₁).2.look s.branchId) (c.run d₁).2.store [s.put r]
      (c.run d₁).1.isOk ↔ s.FlushWrites r fh d.store := by
  let d₂ : Daemon := { d₁ with store := (d₁.store.writeBlob (s.flushData (r.seen fh))).1 }
  show PutLaw (d.look s.branchId)
      ((putFlushed fh s (r.seen fh) (d₁.store.writeBlob (s.flushData (r.seen fh))).2 d₂).2.look
        s.branchId)
      (putFlushed fh s (r.seen fh) (d₁.store.writeBlob (s.flushData (r.seen fh))).2 d₂).2.store
      [s.put r]
      (putFlushed fh s (r.seen fh) (d₁.store.writeBlob (s.flushData (r.seen fh))).2 d₂).1.isOk ↔
    s.FlushWrites r fh d.store
  have hlook : ∀ q, d₂.look s.branchId q = d.look s.branchId q := look_congr hbranches _
  unfold FhState.FlushWrites
  by_cases hfails : d.store.WriteFails (s.flushData (r.seen fh))
  · have hz : (d₁.store.writeBlob (s.flushData (r.seen fh))).2 = zeroHash := by
      rw [hstore]
      exact (writeBlob_eq_zeroHash_iff ..).2 hfails
    rw [hz]
    obtain ⟨hok, hsame⟩ := putFlushed_zeroHash (d := d₂) fh s (r.seen fh)
    rw [hok]
    exact iff_of_true (PutLaw.failed _ _ fun q => (hsame _ q).trans (hlook q)) (Or.inl hfails)
  · have hz : (d₁.store.writeBlob (s.flushData (r.seen fh))).2 ≠ zeroHash := by
      rw [hstore]
      exact fun hz => hfails ((writeBlob_eq_zeroHash_iff ..).1 hz)
    have hbr : d₂.branch s.branchId = some br := h.branch
    obtain ⟨hok, hheld, mode, hafter⟩ :=
      @putFlushed_of_ne d₂ fh s br _ hbr hz (r.seen fh)
    have hput : ∀ q, (putFlushed fh s (r.seen fh)
        (d₁.store.writeBlob (s.flushData (r.seen fh))).2 d₂).2.look s.branchId q =
        if (s.put r).path = q then
          some ⟨(s.put r).kind, (d₁.store.writeBlob (s.flushData (r.seen fh))).2, mode⟩
        else d.look s.branchId q := by
      intro q
      rw [hafter, hlook]
      rfl
    rw [hok, putLaw_singleton_iff hput, hheld]
    show _ ∧ HoldsBlob (d₁.store.writeBlob (s.flushData (r.seen fh))).1 _ (s.intended r) ↔ _
    rw [hstore] at hz ⊢
    rw [holdsBlob_writeBlob_iff hfails]
    constructor
    · rintro ⟨-, hleaves⟩
      exact Or.inr hleaves
    · rintro (hf | hleaves)
      · exact (hfails hf).elim
      · exact ⟨hz, hleaves⟩

theorem law_writeFlush_iff (r : ObjectReads d.store) (fh : Nat) (writes : List (Nat × Bytes)) :
    PutLaw (d.look ((Mutator.writeFlush fh writes).branch d))
        (((Mutator.writeFlush fh writes).perform d r).2.look
          ((Mutator.writeFlush fh writes).branch d))
        ((Mutator.writeFlush fh writes).perform d r).2.store
        ((Mutator.writeFlush fh writes).puts d r)
        ((Mutator.writeFlush fh writes).perform d r).1 ↔
      (Mutator.writeFlush fh writes).WritesRight d r := by
  dsimp only [Mutator.perform, Mutator.puts, Mutator.branch, Mutator.WritesRight, Prod.map]
  by_cases huse : ∃ s br, UsableFh d fh s br
  · obtain ⟨s, br, huse⟩ := huse
    obtain ⟨hstore, hbranches, huse₁⟩ := writeAll_of_usable huse writes
    rw [huse.open_]
    dsimp only [Option.map, Option.getD]
    rw [casFlushSeeing, withFh_of_usable huse₁]
    cases hdirty : (s.written writes).writeBuf.isDirty with
    | true =>
        simp only [Bool.not_true, Bool.false_eq_true, if_false, if_true]
        refine (law_flushDirty_iff r hstore hbranches huse₁).trans ⟨fun h s' br' hs' _ => ?_,
          fun h => h s br huse hdirty⟩
        cases huse.open_.symm.trans hs'.open_
        exact h
    | false =>
        simp only [Bool.not_false, Bool.false_eq_true, if_false, if_true]
        refine iff_of_true (PutLaw.nothing _ fun q => look_congr hbranches _ q) ?_
        intro s' br' hs' hdirty'
        cases huse.open_.symm.trans hs'.open_
        rw [hdirty] at hdirty'
        cases hdirty'
  · have hunusable : ∀ s br, ¬ UsableFh d fh s br := fun s br h => huse ⟨s, br, h⟩
    obtain ⟨e, he⟩ := withFh_of_unusable hunusable
    rw [writeAll_of_unusable hunusable, casFlushSeeing, he]
    exact iff_of_true (law_of_refused ..) fun s br h => (hunusable s br h).elim

/-! ## The flush of a branch -/

/-- One handle more. -/
theorem flushFhsSeeing_append_singleton (seen : Nat → ObjectStore) (b : Nat) (pre : List Nat)
    (fh : Nat) (st : ObjectStore × FhTable × WorkingTree) :
    flushFhsSeeing seen b (pre ++ [fh]) st =
      if (flushFhsSeeing seen b pre st).1 then
        flushFhsSeeing seen b [fh] (flushFhsSeeing seen b pre st).2
      else flushFhsSeeing seen b pre st := by
  induction pre generalizing st with
  | nil => exact (if_pos rfl).symm
  | cons k pre ih =>
      obtain ⟨store, fhs, wt⟩ := st
      cases hk : fhs[k]? with
      | none => simp only [List.cons_append, flushFhsSeeing, hk, ih]
      | some s =>
          by_cases hneeds : s.needsFlush b = true
          · by_cases hz : (store.writeBlob (s.flushData (seen k))).2 = zeroHash
            · simp [flushFhsSeeing, hk, hneeds, hz]
            · simp only [List.cons_append, flushFhsSeeing, hk, hneeds, if_true, if_neg hz, ih]
          · simp only [List.cons_append, flushFhsSeeing, hk, if_neg hneeds, ih]

/-- A flush leaves the handles alone that it does not visit. -/
theorem getElem?_flushFhsSeeing (seen : Nat → ObjectStore) (b : Nat) {order : List Nat} {fh : Nat}
    (h : fh ∉ order) (st : ObjectStore × FhTable × WorkingTree) :
    (flushFhsSeeing seen b order st).2.2.1[fh]? = st.2.1[fh]? := by
  induction order generalizing st with
  | nil => rfl
  | cons k order ih =>
      obtain ⟨store, fhs, wt⟩ := st
      simp only [List.mem_cons, not_or] at h
      have hother : ∀ s : FhState, (fhs.insert k s)[fh]? = fhs[fh]? := by
        intro s
        rw [ExtTreeMap.getElem?_insert, if_neg (by simpa using Ne.symm h.1)]
      cases hk : fhs[k]? with
      | none =>
          simp only [flushFhsSeeing, hk]
          exact ih h.2 _
      | some s =>
          by_cases hneeds : s.needsFlush b = true
          · by_cases hz : (store.writeBlob (s.flushData (seen k))).2 = zeroHash
            · simp only [flushFhsSeeing, hk, hneeds, if_true, if_pos hz]
              exact hother _
            · simp only [flushFhsSeeing, hk, hneeds, if_true, if_neg hz]
              exact (ih h.2 _).trans (hother _)
          · simp only [flushFhsSeeing, hk, if_neg hneeds]
            exact ih h.2 _

/-- The three things one more handle can do. -/
inductive FlushStep (r : ObjectReads d.store) (b fh : Nat) (fhs : FhTable) (store : ObjectStore)
    (wt : WorkingTree) (next : Bool × ObjectStore × FhTable × WorkingTree) : Prop
  | idle (hidle : ∀ s, fhs[fh]? = some s → s.needsFlush b = false)
      (hok : next.1 = true) (hstore : next.2.1 = store) (hwt : next.2.2.2 = wt)
  | failed {s : FhState} (hs : fhs[fh]? = some s) (hneeds : s.needsFlush b = true)
      (hfails : store.WriteFails (s.flushData (r.seen fh))) (hok : next.1 = false)
      (hstore : Extends store next.2.1) (hwt : next.2.2.2 = wt)
  | flushed {s : FhState} (hs : fhs[fh]? = some s) (hneeds : s.needsFlush b = true)
      (hfails : ¬ store.WriteFails (s.flushData (r.seen fh))) (hok : next.1 = true)
      (hstore : next.2.1 = (store.writeBlob (s.flushData (r.seen fh))).1)
      (hwt : next.2.2.2 =
        insertFlushed wt s.path (store.writeBlob (s.flushData (r.seen fh))).2)

theorem flushStep (r : ObjectReads d.store) (b fh : Nat) (fhs : FhTable) (store : ObjectStore)
    (wt : WorkingTree) :
    FlushStep r b fh fhs store wt (flushFhsSeeing r.seen b [fh] (store, fhs, wt)) := by
  cases hs : fhs[fh]? with
  | none =>
      simp only [flushFhsSeeing, hs]
      exact .idle (fun s h => (by cases hs.symm.trans h)) rfl rfl rfl
  | some s =>
      by_cases hneeds : s.needsFlush b = true
      · by_cases hz : (store.writeBlob (s.flushData (r.seen fh))).2 = zeroHash
        · simp only [flushFhsSeeing, hs, hneeds, if_true, if_pos hz]
          exact .failed hs hneeds ((writeBlob_eq_zeroHash_iff ..).1 hz) rfl
            (extends_writeObject ..) rfl
        · simp only [flushFhsSeeing, hs, hneeds, if_true, if_neg hz]
          exact .flushed hs hneeds (fun h => hz ((writeBlob_eq_zeroHash_iff ..).2 h)) rfl rfl rfl
      · simp only [flushFhsSeeing, hs, if_neg hneeds]
        refine .idle (fun s' h => ?_) rfl rfl rfl
        cases hs.symm.trans h
        simpa using hneeds

omit [Blake3] in
theorem flushPuts_append_singleton (r : ObjectReads d.store) (b : Nat) (fhs : FhTable)
    (pre : List Nat) (fh : Nat) :
    flushPuts r b fhs (pre ++ [fh]) = flushPuts r b fhs pre ++
      match fhs[fh]? with
      | none => []
      | some s => if s.needsFlush b then [s.put r] else [] := by
  unfold flushPuts
  cases hs : fhs[fh]? with
  | none => simp [List.filterMap_append, hs]
  | some s => cases hneeds : s.needsFlush b <;> simp [List.filterMap_append, hs, hneeds]

/-- The law of a flush of the branch up to some handle. -/
def FlushLaw (r : ObjectReads d.store) (b : Nat) (wt : WorkingTree) (pre : List Nat) : Prop :=
  PutLaw wt.lookup (flushFhsSeeing r.seen b pre (d.store, d.fhTable, wt)).2.2.2.lookup
    (flushFhsSeeing r.seen b pre (d.store, d.fhTable, wt)).2.1 (flushPuts r b d.fhTable pre)
    (flushFhsSeeing r.seen b pre (d.store, d.fhTable, wt)).1

/-- One more handle keeps the law when what it writes is right. -/
theorem flushLaw_append_singleton {r : ObjectReads d.store} {b fh : Nat} {wt : WorkingTree}
    {pre : List Nat} (hlaw : FlushLaw r b wt pre) (hnew : fh ∉ pre)
    (hfits : ∀ s, d.getFh fh = some s → s.needsFlush b = true → ∀ store fhs wt',
      flushFhsSeeing r.seen b pre (d.store, d.fhTable, wt) = (true, store, fhs, wt') →
      s.FlushWrites r fh store) : FlushLaw r b wt (pre ++ [fh]) := by
  unfold FlushLaw at hlaw ⊢
  rw [flushFhsSeeing_append_singleton, flushPuts_append_singleton]
  have hkept := getElem?_flushFhsSeeing r.seen b hnew (d.store, d.fhTable, wt)
  generalize hrun : flushFhsSeeing r.seen b pre (d.store, d.fhTable, wt) = run at hlaw hkept ⊢
  -- either the loop had ended before this handle, or all before it were put
  obtain ⟨ok, store, fhs, wt'⟩ := run
  obtain ⟨done, rest, hputs, hrest, hdone, hshown⟩ := hlaw
  cases ok with
  | false =>
      rw [if_neg Bool.false_ne_true]
      exact ⟨done, rest ++ _, by rw [hputs, List.append_assoc], fun h => (by cases h),
        fun _ h => hdone rfl (List.append_eq_nil_iff.1 h).1, hshown⟩
  | true =>
      rw [if_pos rfl]
      have hall : flushPuts r b d.fhTable pre = done := by rw [hputs, hrest rfl, List.append_nil]
      change fhs[fh]? = d.fhTable[fh]? at hkept
      have hstep := flushStep r b fh fhs store wt'
      dsimp only
      generalize flushFhsSeeing r.seen b [fh] (store, fhs, wt') = next at hstep ⊢
      rw [← hkept, hall]
      cases hstep with
      | idle hidle hok hstore hwt =>
          rw [hok, hstore, hwt]
          refine ⟨done, [], ?_, fun _ => rfl, fun h => (by cases h), hshown⟩
          cases hs : fhs[fh]? with
          | none => rfl
          | some s => simp [hidle s hs]
      | failed hs hneeds hfails hok hstore hwt =>
          rw [hok, hwt]
          rename_i s
          refine ⟨done, [s.put r], ?_, fun h => (by cases h), fun _ h => (by cases h),
            fun path => (hshown path).mono hstore⟩
          simp [hs, hneeds]
      -- the blob is stored and is what was intended
      | flushed hs hneeds hfails hok hstore hwt =>
          rename_i s
          rw [hok, hstore, hwt]
          have hz : (store.writeBlob (s.flushData (r.seen fh))).2 ≠ zeroHash :=
            fun h => hfails ((writeBlob_eq_zeroHash_iff ..).1 h)
          have hleaves : store.LeavesBlob (s.flushData (r.seen fh)) (s.intended r) :=
            (hfits s (hkept.symm.trans hs) hneeds store fhs wt' hrun).resolve_left hfails
          have hheld := (holdsBlob_writeBlob_iff hfails _).2 hleaves
          refine ⟨done ++ [s.put r], [], by simp [hs, hneeds], fun _ => rfl,
            fun h => (by cases h), fun path => ?_⟩
          obtain ⟨mode, hlookup⟩ := lookup_insertFlushed_mode wt' s.path
            (store.writeBlob (s.flushData (r.seen fh))).2
          rw [lastPut_append_singleton, hlookup]
          by_cases hp : s.path = path
          · rw [if_pos hp, if_pos (show (s.put r).path = path from hp)]
            exact ⟨_, mode, rfl, hz, hheld⟩
          · rw [if_neg hp, if_neg (show ¬ (s.put r).path = path from hp)]
            exact (hshown path).mono (extends_writeObject ..)

/-- A handle that was flushed by the law wrote the right bytes. -/
theorem flushWrites_of_flushLaw {r : ObjectReads d.store} {b fh : Nat} {wt : WorkingTree}
    {pre : List Nat} (hlaw : FlushLaw r b wt (pre ++ [fh])) (hnew : fh ∉ pre) {s : FhState}
    (hs : d.getFh fh = some s) (hneeds : s.needsFlush b = true) {store : ObjectStore}
    {fhs : FhTable} {wt' : WorkingTree}
    (hrun : flushFhsSeeing r.seen b pre (d.store, d.fhTable, wt) = (true, store, fhs, wt')) :
    s.FlushWrites r fh store := by
  unfold FlushLaw at hlaw
  have hkept := getElem?_flushFhsSeeing r.seen b hnew (d.store, d.fhTable, wt)
  rw [hrun] at hkept
  change fhs[fh]? = d.getFh fh at hkept
  rw [flushFhsSeeing_append_singleton, flushPuts_append_singleton, hrun, if_pos rfl] at hlaw
  dsimp only at hlaw
  have hstep := flushStep r b fh fhs store wt'
  generalize flushFhsSeeing r.seen b [fh] (store, fhs, wt') = next at hstep hlaw
  have hput : (match d.fhTable[fh]? with
      | none => []
      | some s => if s.needsFlush b then [s.put r] else []) = [s.put r] := by
    change d.fhTable[fh]? = some s at hs
    simp [hs, hneeds]
  rw [hput] at hlaw
  cases hstep with
  | idle hidle hok hstore hwt =>
      rw [hidle s (hkept.trans hs)] at hneeds
      cases hneeds
  | failed hs' _ hfails _ _ _ =>
      cases hs'.symm.trans (hkept.trans hs)
      exact Or.inl hfails
  | flushed hs' _ hfails hok hstore hwt =>
      cases hs'.symm.trans (hkept.trans hs)
      right
      rw [hok, hstore, hwt] at hlaw
      obtain ⟨done, rest, hputs, hrest, -, hshown⟩ := hlaw
      rw [hrest rfl, List.append_nil] at hputs
      have hat := hshown s.path
      obtain ⟨mode, hlookup⟩ := lookup_insertFlushed_mode wt' s.path
        (store.writeBlob (s.flushData (r.seen fh))).2
      rw [← hputs, lastPut_append_singleton, if_pos (show (s.put r).path = s.path from rfl),
        hlookup, if_pos rfl] at hat
      obtain ⟨h, mode', hnew', -, hheld⟩ := hat
      cases hnew'
      exact (holdsBlob_writeBlob_iff hfails _).1 hheld

theorem flushLaw_iff (r : ObjectReads d.store) (b : Nat) (wt : WorkingTree) {order : List Nat}
    (once : order.Nodup) :
    (∀ pre, pre <+: order → FlushLaw r b wt pre) ↔
      ∀ pre fh post s, order = pre ++ fh :: post → d.getFh fh = some s → s.needsFlush b = true →
        ∀ store fhs wt',
          flushFhsSeeing r.seen b pre (d.store, d.fhTable, wt) = (true, store, fhs, wt') →
          s.FlushWrites r fh store := by
  have hfresh : ∀ pre fh post, order = pre ++ fh :: post → fh ∉ pre := by
    rintro pre fh post rfl hmem
    exact (List.nodup_append.1 once).2.2 fh hmem fh List.mem_cons_self rfl
  constructor
  · intro hlaw pre fh post s horder hs hneeds store fhs wt' hrun
    refine flushWrites_of_flushLaw (hlaw (pre ++ [fh]) ⟨post, ?_⟩) (hfresh pre fh post horder) hs
      hneeds hrun
    rw [horder, List.append_assoc]
    rfl
  · intro hfits pre
    induction pre using List.reverseRecOn with
    | nil =>
        intro _
        exact ⟨[], [], rfl, fun _ => rfl, fun _ _ => rfl, fun _ => rfl⟩
    | append_singleton pre fh ih =>
        rintro ⟨post, horder⟩
        have hsplit : order = pre ++ fh :: post := by
          rw [← horder, List.append_assoc]
          rfl
        exact flushLaw_append_singleton (ih ⟨fh :: post, hsplit.symm⟩)
          (hfresh pre fh post hsplit) fun s hs hneeds => hfits pre fh post s hsplit hs hneeds

theorem putLaw_flushBranch_iff (r : ObjectReads d.store) {b : Nat} {br : BranchContext}
    (hbr : d.branch b = some br) {order : List Nat} (once : order.Nodup) :
    PutLaw (d.look b) (((Mutator.flushBranch b order once).perform d r).2.look b)
        ((Mutator.flushBranch b order once).perform d r).2.store
        ((Mutator.flushBranch b order once).puts d r)
        ((Mutator.flushBranch b order once).perform d r).1 ↔ FlushLaw r b br.wt order := by
  have hbefore : d.look b = br.wt.lookup := funext (look_of_branch hbr)
  have hafter : ((Mutator.flushBranch b order once).perform d r).2.look b =
      (flushFhsSeeing r.seen b order (d.store, d.fhTable, br.wt)).2.2.2.lookup := by
    have hbranches : ((Mutator.flushBranch b order once).perform d r).2.branches =
        d.branches.insert b { br with
          wt := (flushFhsSeeing r.seen b order (d.store, d.fhTable, br.wt)).2.2.2 } := by
      simp only [Mutator.perform, hbr]
      rfl
    have htree := tree_of_branches_insert hbranches b
    rw [if_pos rfl] at htree
    funext q
    rw [look, htree]
    rfl
  rw [hbefore, hafter]
  simp only [Mutator.perform, hbr]
  exact Iff.rfl

end Sites

/-- A call keeps the law exactly if what it writes is right: for the four sites that insert the
hash unseen when their write lands on the right content, for a flush also when the write fails. -/
theorem law_iff_writesRight [Blake3] (d : Daemon) (r : ObjectReads d.store) (m : Mutator) :
    m.Law d r ↔ m.WritesRight d r := by
  have hwhole : ∀ m' : Mutator, m'.CutTo m' := .whole
  cases m with
  | openTrunc b path =>
      refine Iff.trans ⟨fun h => h _ (hwhole _), ?_⟩ (law_openTrunc_iff b path)
      rintro h - ⟨-⟩
      exact h
  | create b path mode =>
      refine Iff.trans ⟨fun h => h _ (hwhole _), ?_⟩ (law_create_iff b path mode)
      rintro h - ⟨-⟩
      exact h
  | truncate b path length =>
      refine Iff.trans ⟨fun h => h _ (hwhole _), ?_⟩ (law_truncate_iff r b path length)
      rintro h - ⟨-⟩
      exact h
  | symlink b target path =>
      refine Iff.trans ⟨fun h => h _ (hwhole _), ?_⟩ (law_symlink_iff b target path)
      rintro h - ⟨-⟩
      exact h
  | writeFlush fh writes =>
      refine Iff.trans ⟨fun h => h _ (hwhole _), ?_⟩ (law_writeFlush_iff r fh writes)
      rintro h - ⟨-⟩
      exact h
  | flushBranch b order once =>
      cases hbr : d.branch b with
      | none =>
          refine iff_of_true ?_ fun br h => (by cases hbr.symm.trans h)
          have hfailed : ∀ (pre : List Nat) (once : pre.Nodup),
              (Mutator.flushBranch b pre once).perform d r = (false, d) := by
            intro pre once
            simp only [Mutator.perform, hbr]
          rintro - (⟨-⟩ | ⟨-, hpre⟩)
          · rw [hfailed]
            exact PutLaw.failed _ _ fun _ => rfl
          · rw [hfailed]
            exact PutLaw.failed _ _ fun _ => rfl
      | some br =>
          refine Iff.trans ?_ ((flushLaw_iff r b br.wt once).trans ⟨fun h br' hbr' => ?_,
            fun h => h br hbr⟩)
          · constructor
            · intro h pre hpre
              exact (putLaw_flushBranch_iff r hbr _).1 (h _ (.flushBranch once hpre))
            · rintro h - (⟨-⟩ | ⟨-, hpre⟩)
              · exact (putLaw_flushBranch_iff r hbr once).2 (h order (List.prefix_refl _))
              · exact (putLaw_flushBranch_iff r hbr _).2 (h _ hpre)
          · cases hbr.symm.trans hbr'
            exact h

/-! ## From what is written to what is found -/

section Found

variable [Blake3] {d : Daemon}

theorem leavesBlob_self_iff {store : ObjectStore} {data : Bytes} :
    store.LeavesBlob data data ↔ OwnDigest store data := by
  unfold LeavesBlob OwnDigest
  cases store.atTurn.objects[objectHash .blob (blobBody data)]? with
  | none => exact iff_of_true rfl fun f h => (by cases h)
  | some f => exact ⟨fun h _ hf => (by cases hf; exact h), fun h => h f rfl⟩

theorem landsAs_self_iff {store : ObjectStore} {data : Bytes} :
    LandsAs store data data ↔ Lands store data := by
  unfold LandsAs Lands WriteFails DiskTakes
  rw [leavesBlob_self_iff, not_or, not_not, and_assoc]

/-- A write that meets no other content leaves its own. -/
theorem eq_of_leavesBlob {store : ObjectStore} {written data : Bytes}
    (hfails : ¬ store.WriteFails written) (hc : (store.writeBlob written).1.collided = false)
    (h : store.LeavesBlob written data) : written = data := by
  have hne := mt (writeBlob_eq_zeroHash_iff store written).1 hfails
  obtain ⟨f, hf, hraw⟩ := holdsBlob_writeBlob hne hc
  obtain ⟨f', hf', hraw'⟩ := (holdsBlob_writeBlob_iff hfails data).2 h
  cases hf.symm.trans hf'
  exact blobRaw_injective (hraw.symm.trans hraw')

omit [Blake3] in
/-- `cas_truncate` writes the right bytes exactly if it read what it keeps. -/
theorem truncatedSeeing_eq_iff {store : ObjectStore} (r : ObjectReads store)
    (e : WorkingTreeEntry) (length : Nat) :
    truncatedSeeing (r.seen 0) e length = Daemon.resize (r.base e.hash) length ↔
      KeptRead r e length := by
  unfold truncatedSeeing ObjectReads.base KeptRead
  by_cases hz : e.hash = zeroHash
  · simp [hz]
  rw [if_neg hz, if_neg hz]
  cases hread : (r.seen 0).readBlob e.hash with
  | some data =>
      rw [r.honest 0 _ data hread]
      simp
  | none =>
      simp only [Option.getD_none, hz, ne_eq, not_true_eq_false, false_or]
      constructor
      · intro h byte hbyte
        have hin : byte ∈ Daemon.resize (r.content e.hash) length :=
          List.mem_append_left _ hbyte
        rw [← h] at hin
        simpa [Daemon.resize] using (List.mem_replicate.1 (by simpa [Daemon.resize] using hin)).2
      · intro h
        have hzeros := List.eq_replicate_of_mem h
        unfold Daemon.resize
        rw [hzeros, List.length_take, List.replicate_append_replicate, List.take_nil,
          List.nil_append, List.length_nil]
        congr 1
        omega

omit [Blake3] in
/-- A flush writes the right bytes exactly if the base of the handle is right. -/
theorem flushData_eq_iff {store : ObjectStore} (r : ObjectReads store) (s : FhState) (n : Nat) :
    s.flushData (r.seen n) = s.intended r ↔ s.BaseRight r (r.seen n) := by
  unfold FhState.flushData FhState.intended FhState.BaseRight FhState.ensureBaseCache
  rw [WriteBuffer.materialize_eq_iff]
  cases hloaded : s.baseCacheLoaded with
  | true => simp
  | false =>
      by_cases hz : s.baseBlob = zeroHash
      · simp [hz]
      · cases hread : (r.seen n).readBlob s.baseBlob with
        | none => simp [hz]
        | some data =>
            have hbase : r.base s.baseBlob = data := by
              rw [ObjectReads.base, if_neg hz, r.honest n _ data hread]
            simp [hz, hbase, WriteBuffer.SameThrough]

theorem flushWrites_of_flushFits {store₀ store : ObjectStore} {r : ObjectReads store₀}
    {s : FhState} {fh : Nat} (h : s.FlushFits r fh store) : s.FlushWrites r fh store := by
  rcases h with hdisk | ⟨hright, hdigest⟩
  · exact Or.inl (Or.inl hdisk)
  · unfold FhState.FlushWrites
    rw [(flushData_eq_iff r s fh).2 hright]
    exact hdigest.imp Or.inr leavesBlob_self_iff.2

/-- Where digests tell blobs apart, a flush that writes the right bytes had the right base. -/
theorem flushFits_of_flushWrites {store₀ store : ObjectStore} {r : ObjectReads store₀}
    {s : FhState} {fh : Nat} (hnull : ∀ data : Bytes, objectHash .blob (blobBody data) ≠ zeroHash)
    (hc : ¬ store.WriteFails (s.flushData (r.seen fh)) →
      (store.writeBlob (s.flushData (r.seen fh))).1.collided = false)
    (h : s.FlushWrites r fh store) : s.FlushFits r fh store := by
  by_cases hfails : store.WriteFails (s.flushData (r.seen fh))
  · exact Or.inl (hfails.resolve_right (hnull _))
  · have hleaves := h.resolve_left hfails
    have hdata := eq_of_leavesBlob hfails (hc hfails) hleaves
    rw [hdata] at hleaves
    exact Or.inr ⟨(flushData_eq_iff r s fh).1 hdata, Or.inr (leavesBlob_self_iff.1 hleaves)⟩

theorem Mutator.writesRight_of_fits {r : ObjectReads d.store} {m : Mutator} (h : m.Fits d r) :
    m.WritesRight d r := by
  cases m with
  | openTrunc b path =>
      exact fun hdesc hhidden e he hk => landsAs_self_iff.2 (h hdesc hhidden e he hk)
  | create b path mode => exact fun hok hbr => landsAs_self_iff.2 (h hok hbr)
  | symlink b target path => exact fun hok hbr hnone => landsAs_self_iff.2 (h hok hbr hnone)
  | truncate b path length =>
      intro hok e he hk
      obtain ⟨hkept, hlands⟩ := h hok e he hk
      rw [(truncatedSeeing_eq_iff r e length).2 hkept]
      exact landsAs_self_iff.2 hlands
  | writeFlush fh writes =>
      exact fun s br hs hdirty => flushWrites_of_flushFits (h s br hs hdirty)
  | flushBranch b order once =>
      exact fun br hbr pre fh post s horder hs hneeds store fhs wt hrun =>
        flushWrites_of_flushFits (h br hbr pre fh post s horder hs hneeds store fhs wt hrun)

/-- A flush of a branch only adds to the store. -/
theorem extends_flushFhsSeeing (seen : Nat → ObjectStore) (b : Nat) (order : List Nat)
    (st : ObjectStore × FhTable × WorkingTree) :
    Extends st.1 (flushFhsSeeing seen b order st).2.1 := by
  induction order generalizing st with
  | nil => exact .refl _
  | cons fh order ih =>
      obtain ⟨store, fhs, wt⟩ := st
      cases hs : fhs[fh]? with
      | none =>
          simp only [flushFhsSeeing, hs]
          exact ih (store, fhs, wt)
      | some s =>
          by_cases hneeds : s.needsFlush b = true
          · simp only [flushFhsSeeing, hs, hneeds, if_true]
            have hwrite : Extends store (store.writeBlob (s.flushData (seen fh))).1 :=
              extends_writeObject ..
            split
            · exact hwrite
            · exact hwrite.trans (ih (_, _, _))
          · simp only [flushFhsSeeing, hs, if_neg hneeds]
            exact ih (store, fhs, wt)

/-- A flush of more handles goes on from the store of the first ones. -/
theorem extends_flushFhsSeeing_append (seen : Nat → ObjectStore) (b : Nat) (pre post : List Nat)
    (st : ObjectStore × FhTable × WorkingTree) :
    Extends (flushFhsSeeing seen b pre st).2.1 (flushFhsSeeing seen b (pre ++ post) st).2.1 := by
  induction post using List.reverseRecOn with
  | nil => rw [List.append_nil]
  | append_singleton post fh ih =>
      rw [← List.append_assoc, flushFhsSeeing_append_singleton]
      split
      · exact ih.trans (extends_flushFhsSeeing seen b [fh] _)
      · exact ih

/-- The store after a truncate that gets to its write. -/
theorem store_perform_truncate (r : ObjectReads d.store) {b : Nat} {path : FsPath} {length : Nat}
    {e : WorkingTreeEntry} (hok : refuseMutation path .eacces = none)
    (he : d.look b path = some e) (hk : e.kind = .blob) :
    ((Mutator.truncate b path length).perform d r).2.store =
      (d.store.writeBlob (truncatedSeeing (r.seen 0) e length)).1 := by
  dsimp only [Mutator.perform, Prod.map]
  cases hbr : d.branch b with
  | none => simp [look, tree, hbr] at he
  | some br =>
      rw [look_of_branch hbr] at he
      simp only [casTruncateSeeing, hok, withBranch, hbr, he, hk, ne_eq, not_true_eq_false,
        if_false]
      show (putBlob b path .blob e.mode _ _).2.store = _
      unfold putBlob
      exact modifyTree_store ..

/-- The store after a flush that gets to its write. -/
theorem store_perform_writeFlush (r : ObjectReads d.store) {fh : Nat}
    {writes : List (Nat × Bytes)} {s : FhState} {br : BranchContext} (huse : UsableFh d fh s br)
    (hdirty : (s.written writes).writeBuf.isDirty = true) :
    ((Mutator.writeFlush fh writes).perform d r).2.store =
      (d.store.writeBlob ((s.written writes).flushData (r.seen fh))).1 := by
  obtain ⟨hstore, -, huse₁⟩ := writeAll_of_usable huse writes
  dsimp only [Mutator.perform, Prod.map]
  rw [casFlushSeeing, withFh_of_usable huse₁]
  simp only [hdirty, Bool.not_true, Bool.false_eq_true, if_false, Critical.run, hstore]
  show (putFlushed fh _ _ _ _).2.store = _
  unfold putFlushed
  split
  · exact modifyFh_store ..
  · exact (modifyFh_store ..).trans (modifyTree_store ..)

/-- The store after a flush of a branch, and the write of one of its handles. -/
theorem collided_flushFhsSeeing (r : ObjectReads d.store) {b fh : Nat} {pre post : List Nat}
    {s : FhState} (once : (pre ++ fh :: post).Nodup) (hs : d.getFh fh = some s)
    (hneeds : s.needsFlush b = true) {wt wt' : WorkingTree} {store : ObjectStore} {fhs : FhTable}
    (hrun : flushFhsSeeing r.seen b pre (d.store, d.fhTable, wt) = (true, store, fhs, wt'))
    (hc : (flushFhsSeeing r.seen b (pre ++ fh :: post) (d.store, d.fhTable, wt)).2.1.collided =
      false) (hfails : ¬ store.WriteFails (s.flushData (r.seen fh))) :
    (store.writeBlob (s.flushData (r.seen fh))).1.collided = false := by
  have hnew : fh ∉ pre := fun hmem =>
    (List.nodup_append.1 once).2.2 fh hmem fh List.mem_cons_self rfl
  have hkept := getElem?_flushFhsSeeing r.seen b hnew (d.store, d.fhTable, wt)
  have hmore := extends_flushFhsSeeing_append r.seen b (pre ++ [fh]) post (d.store, d.fhTable, wt)
  rw [List.append_assoc, List.singleton_append] at hmore
  have hc₁ := hmore.collided_eq hc
  rw [flushFhsSeeing_append_singleton, hrun, if_pos rfl] at hc₁
  rw [hrun] at hkept
  change fhs[fh]? = d.getFh fh at hkept
  have hstep := flushStep r b fh fhs store wt'
  generalize flushFhsSeeing r.seen b [fh] (store, fhs, wt') = next at hstep hc₁
  cases hstep with
  | idle hidle =>
      rw [hidle s (hkept.trans hs)] at hneeds
      cases hneeds
  | failed hs' _ hfails' =>
      cases hs'.symm.trans (hkept.trans hs)
      exact (hfails hfails').elim
  | flushed hs' _ _ _ hstore =>
      cases hs'.symm.trans (hkept.trans hs)
      rwa [hstore] at hc₁

/-- Where digests tell blobs apart, a call that writes the right bytes found what it needs. -/
theorem Mutator.fits_of_writesRight {r : ObjectReads d.store} {m : Mutator}
    (hdigests : m.DigestsTell d r) (h : m.WritesRight d r) : m.Fits d r := by
  obtain ⟨hnull, hc⟩ := hdigests
  cases m with
  | openTrunc b path =>
      exact fun hdesc hhidden e he hk => landsAs_self_iff.1 (h hdesc hhidden e he hk)
  | create b path mode => exact fun hok hbr => landsAs_self_iff.1 (h hok hbr)
  | symlink b target path => exact fun hok hbr hnone => landsAs_self_iff.1 (h hok hbr hnone)
  | truncate b path length =>
      intro hok e he hk
      obtain ⟨hfails, hleaves⟩ := h hok e he hk
      rw [store_perform_truncate r hok he hk] at hc
      have hdata := eq_of_leavesBlob hfails hc hleaves
      rw [hdata] at hfails hleaves
      exact ⟨(truncatedSeeing_eq_iff r e length).1 hdata, landsAs_self_iff.1 ⟨hfails, hleaves⟩⟩
  | writeFlush fh writes =>
      intro s br hs hdirty
      rw [store_perform_writeFlush r hs hdirty] at hc
      exact flushFits_of_flushWrites hnull (fun _ => hc) (h s br hs hdirty)
  | flushBranch b order once =>
      intro br hbr pre fh post s horder hs hneeds store fhs wt hrun
      subst horder
      simp only [Mutator.perform, hbr] at hc
      exact flushFits_of_flushWrites hnull
        (collided_flushFhsSeeing r once hs hneeds hrun hc)
        (h br hbr pre fh post s rfl hs hneeds store fhs wt hrun)

end Found

/-- For every daemon and every pattern of failing reads and writes, a call keeps the law if it
fits: the store takes its blob, and what the new bytes are laid over is cached truly or can be
read.  As far as digests tell blobs apart, it keeps the law only then. -/
theorem storeFailures_iff [Blake3] (d : Daemon) (r : ObjectReads d.store) (m : Mutator) :
    (m.Fits d r → m.Law d r) ∧ (m.DigestsTell d r → m.Law d r → m.Fits d r) :=
  ⟨fun h => (law_iff_writesRight d r m).2 (Mutator.writesRight_of_fits h),
    fun hdigests h => Mutator.fits_of_writesRight hdigests ((law_iff_writesRight d r m).1 h)⟩

/-! ## A full disk -/

section FullDisk

local instance fullDiskDigest : Blake3 := foldDigest

/-- One branch with an empty tree, on a disk that is full. -/
def fullDiskMounted : Daemon where
  store := { faults := [some "No space left on device"] }
  branches := (∅ : ExtTreeMap Nat BranchContext).insert 0 ⟨[109], {}⟩

/-- There are no objects. -/
def nothingRead : ObjectReads fullDiskMounted.store where
  content _ := []
  held h data := by
    rintro ⟨f, hf, -⟩
    simp [fullDiskMounted] at hf
  seen _ := {}
  honest n h data hread := by
    simp [ObjectStore.readBlob, ObjectStore.readObject] at hread

/-- `cas_create` inserts the null hash that the failed write returns, and succeeds. -/
theorem create_inserts_null_hash :
    ¬ ∀ (d : Daemon) (r : ObjectReads d.store) (m : Mutator), m.Law d r := by
  intro hlaw
  have hcreate := hlaw fullDiskMounted nothingRead (.create 0 [[97]] 0o644) _ (.whole _)
  have hbranch : fullDiskMounted.branch 0 ≠ none := by
    simp [fullDiskMounted, Daemon.branch]
  have hlands := (law_create_iff 0 [[97]] 0o644).1 hcreate (by decide) hbranch
  exact hlands.1 (Or.inl (by decide))

end FullDisk

/-! ## An unreadable file -/

section Unreadable

/-- The digest of the examples with 1 for its last byte, so that it is never the null hash. -/
local instance markedDigest : Blake3 where
  digest message := ⟨(foldDigest.digest message).bytes.dropLast ++ [1], by
    rw [List.length_append, List.length_dropLast, Hash.length_eq]
    rfl⟩

/-- A store with one blob, whose only byte is 7. -/
def oneBlob : ObjectStore × Hash := ({} : ObjectStore).writeBlob [7]

/-- One branch with that blob as the file `a`. -/
def oneFileMounted : Daemon where
  store := oneBlob.1
  branches := (∅ : ExtTreeMap Nat BranchContext).insert 0
    ⟨[109], ({} : WorkingTree).insert [[97]] ⟨.blob, oneBlob.2, 0o644⟩⟩

/-- No read finds the blob. -/
def unreadable : ObjectReads oneFileMounted.store where
  content _ := [7]
  held h data := by
    rintro ⟨f, hf, hraw⟩
    have hobj : oneFileMounted.store.objects =
        (∅ : ExtTreeMap Hash ObjectFile).insert oneBlob.2 ⟨blobRaw [7], 0⟩ := rfl
    rw [hobj, ExtTreeMap.getElem?_insert] at hf
    split at hf
    · cases hf
      exact (blobRaw_injective hraw).symm
    · simp at hf
  seen _ := {}
  honest n h data hread := by
    simp [ObjectStore.readBlob, ObjectStore.readObject] at hread

/-- `cas_truncate` to the length it has replaces the unreadable byte by a zero, and succeeds. -/
theorem storeFailures_iff_unreadable :
    ¬ (Mutator.truncate 0 [[97]] 1).Law oneFileMounted unreadable := by
  intro hlaw
  have hnull : ∀ data : Bytes, objectHash .blob (blobBody data) ≠ zeroHash := by
    intro data h
    have hlast := congrArg (fun hash : Hash => hash.bytes.getLast?) h
    rw [show zeroHash.bytes.getLast? = some 0 from rfl] at hlast
    simp [objectHash, Blake3.digest] at hlast
  have hfits := (storeFailures_iff oneFileMounted unreadable (.truncate 0 [[97]] 1)).2
    ⟨hnull, by decide +kernel⟩ hlaw
  have hlook : oneFileMounted.look 0 [[97]] = some ⟨.blob, oneBlob.2, 0o644⟩ := by
    decide +kernel
  rcases (hfits (by decide) _ hlook rfl).1 with hz | hread | hzeros
  · exact hnull [7] hz
  · exact hread (by simp [unreadable, ObjectStore.readBlob, ObjectStore.readObject])
  · exact absurd (hzeros 7 (by simp [unreadable])) (by decide)

end Unreadable

end ContextFS
