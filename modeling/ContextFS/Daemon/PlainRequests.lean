import ContextFS.Daemon.PlainService

/-!
# The requests of a mount, call by call

Every request that the plain service promises to answer is matched with its call.
-/

namespace ContextFS

open Std Lib ObjectStore WorkingTree

/-- The call of the plain service that a request stands for. -/
def FuseOp.call : FuseOp → PlainCall
  | .openFile b path trunc => .openFile b path trunc
  | .create b path mode => .create b path (mode &&& modePerm)
  | .read fh offset size => .read fh offset size
  | .write fh offset data => .write fh offset data
  | .flush fh => .save fh
  | .truncateFh _ fh length => .resize fh length
  | .truncate b path length => .truncate b path length
  | .unlink b path => .unlink b path
  | .rmdir b path => .rmdir b path
  | .mkdir b path mode => .mkdir b path (mode &&& modePerm)
  | .rename b source target => .rename b source target
  | .symlink b target path => .symlink b target path
  | .chmod b path mode => .chmod b path (mode &&& modePerm)

/-- The path that comes with a handle is no special one. -/
def FuseOp.Ordinary : FuseOp → Prop
  | .truncateFh path _ _ => refuseMutation path .eacces = none
  | _ => True

/-! ## Modes and paths -/

/-- The permissions of an entry made with type bits. -/
theorem perm_of_mode (mode bits : UInt32) (hbits : bits &&& modePerm = 0) :
    ((mode &&& modePerm) ||| bits) &&& modePerm = mode &&& modePerm := by
  have hdistrib : ((mode &&& modePerm) ||| bits) &&& modePerm =
      ((mode &&& modePerm) &&& modePerm) ||| (bits &&& modePerm) :=
    UInt32.toBitVec_inj.1 BitVec.and_or_distrib_right
  rw [hdistrib, hbits, UInt32.and_assoc, UInt32.and_self, UInt32.or_zero]

theorem perm_of_chmod (old mode : UInt32) :
    ((old &&& modeType) ||| (mode &&& modePerm)) &&& modePerm = mode &&& modePerm := by
  have htype : modeType &&& modePerm = 0 := by decide
  rw [UInt32.or_comm, perm_of_mode _ _ (by rw [UInt32.and_assoc, htype, UInt32.and_zero])]

theorem plain_of_open {path : FsPath} (h : fileConventions.Open path) :
    isHidden path = false ∧ isFastControlPath path = false ∧
      isFastControlDescendant path = false := by
  obtain ⟨name, hhead, hname⟩ := h
  simp only [fileConventions, Bool.or_eq_false_iff, decide_eq_false_iff_not] at hname
  obtain ⟨hstore, hcontrol⟩ := hname
  refine ⟨?_, ?_, ?_⟩
  · simp [isHidden, hhead, hstore]
  · cases path with
    | nil => rfl
    | cons first rest =>
        simp only [List.head?_cons, Option.some.injEq] at hhead
        simp [isFastControlPath, hhead, hcontrol]
  · simp [isFastControlDescendant, hhead, hcontrol]

theorem refuseMutation_of_open {path : FsPath} (h : fileConventions.Open path)
    (e : Errno) : refuseMutation path e = none := by
  obtain ⟨hhidden, hfast, hbelow⟩ := plain_of_open h
  simp [refuseMutation, hhidden, hfast, hbelow]

/-! ## The requests -/

section Requests

variable {d : Daemon} {sv : PlainService}

theorem NodeShown.file {store : ObjectStore} {hash : Hash} {data : Bytes} {mode perm : UInt32}
    (hdata : blobContent store hash = some data) (hperm : mode &&& modePerm = perm) :
    NodeShown store ⟨.blob, hash, mode⟩ ⟨.file, perm, data⟩ where
  kind := rfl
  perm := hperm
  data := fun _ => hdata
  link := fun hk => by cases hk

/-- The handle on a file that was just made or emptied. -/
theorem serves_openEmpty (h : d.Serves sv) {b : Nat} {br : BranchContext}
    {v : FileView Name UInt8 UInt32} (hbr : d.branch b = some br)
    (hv : ViewShown d.store br.wt v) (path : FsPath) {mode perm : UInt32} {hash : Hash}
    (hdata : blobContent d.store hash = some []) (hperm : mode &&& modePerm = perm) :
    let r := (sv.setView b (v.put path ⟨.file, perm, []⟩)).addFile ⟨b, path, ⟨[], []⟩, false⟩
    Means (.answer (Daemon.openEmpty b br path mode hash d).1) r.1 ∧
      (Daemon.openEmpty b br path mode hash d).2.Serves r.2 := by
  have hput := h.setView (f := fun wt => wt.insert path ⟨.blob, hash, mode⟩)
    (Daemon.tree_of_branch hbr) (hv.insert path (.file hdata hperm))
  have hnext : (d.modifyTree b fun wt => wt.insert path ⟨.blob, hash, mode⟩).nextFhId =
      sv.nextFile := hput.nextFile
  constructor
  · show Means (.answer (.ok (.handle _))) (.ok (.opened sv.nextFile))
    rw [← hnext]
    exact .opened _
  · exact hput.addFile (draftShown_newFh b br path [] (Or.inl ⟨rfl, rfl⟩))

variable [Blake3]

theorem matches_openFile (h : d.Serves sv) {b : Nat} {path : FsPath} (trunc : Bool)
    (hpath : fileConventions.Open path) :
    Matches d (d.casOpen b path trunc) (sv.call fileConventions (.openFile b path trunc)) := by
  obtain ⟨hhidden, -, hbelow⟩ := plain_of_open hpath
  unfold Daemon.casOpen
  rw [if_neg (by simp [hbelow]), if_neg (by simp [hhidden])]
  refine matches_lookup h fun br v e n hbr hv hshown he hn hnode => ?_
  by_cases hk : n.kind = .file
  · rw [if_neg (not_not.2 (hnode.isFile.2 hk)), if_neg (not_not.2 hk)]
    cases trunc with
    | true =>
        refine matches_write h (by simp) fun hash d' hd' hext hbr' _ _ hdata => ?_
        have hbranch : d'.branch b = some br := by rwa [Daemon.branch, hbr']
        have hempty := serves_openEmpty hd' hbranch (hshown.mono hext) path hdata hnode.perm
        rw [← hk] at hempty
        exact hempty
    | false =>
        rw [if_neg Bool.false_ne_true, if_neg Bool.false_ne_true,
          hnode.entrySize (by rw [hk]; decide)]
        have hdraft := draftShown_newFh (d := d) b br path n.data
          (Or.inr ⟨rfl, hnode.data (by rw [hk]; decide)⟩)
        refine matches_reply ?_ (h.addFile hdraft)
        show Means (.answer (.ok (.handle d.nextFhId))) (.ok (.opened sv.nextFile))
        rw [h.nextFile]
        exact .opened _
  · rw [if_pos fun hkind => hk (hnode.isFile.1 hkind), if_pos hk]
    exact matches_fail h .isDir

theorem matches_create (h : d.Serves sv) {b : Nat} {path : FsPath} (mode : UInt32)
    (hpath : fileConventions.Open path) :
    Matches d (d.casCreate b path mode)
      (sv.call fileConventions (.create b path (mode &&& modePerm))) := by
  unfold Daemon.casCreate
  rw [refuseMutation_of_open hpath]
  refine matches_withBranch h fun br v hbr hv hshown => ?_
  refine matches_write h (by simp) fun hash d' hd' hext hbr' _ _ hdata => ?_
  exact serves_openEmpty hd' (by rw [Daemon.branch, hbr']; exact hbr) (hshown.mono hext) path
    hdata (perm_of_mode mode _ (by decide))

theorem matches_read (h : d.Serves sv) {fh : Nat} (offset size : Nat) (hsettled : sv.Settled fh) :
    Matches d (d.casRead fh offset size) (sv.call fileConventions (.read fh offset size)) := by
  refine matches_withFh h fun s f br v hs hf hv hdraft _ => ?_
  refine matches_reply ?_ (h.loadFile hs.open_ hf hdraft)
  show Means (.answer (.ok (.bytes (s.writeBuf.read offset size (s.base d.store))))) _
  rw [(hdraft.refines (hsettled f hf)).2]
  exact .data _

/-- An edit goes to the buffer of the handle. -/
theorem matches_edit (h : d.Serves sv) {s : FhState} {f : OpenFile Name UInt8} {fh : Nat}
    (hs : d.getFh fh = some s) (hdraft : DraftShown d.store s f) (op : Lib.FileOp UInt8)
    (hop : op.reach < 2 ^ 63) {a : Answer} {a' : PlainAnswer} (hmeans : Means (.answer a) a') :
    Matches d (.reply a (d.modifyFh fh fun s => { s with writeBuf := s.writeBuf.onBuffer op }))
      (a', sv.setFile fh { f with draft := f.draft.edit op }) :=
  matches_reply hmeans (h.setFile hs (hdraft.edit op (by omega)))

theorem matches_write_request (h : d.Serves sv) (fh : Nat) {offset : Nat} {data : Bytes}
    (hend : offset + data.length < 2 ^ 63) :
    Matches d (d.casWrite fh offset data) (sv.call fileConventions (.write fh offset data)) :=
  matches_withFh h fun _ _ _ _ hs _ _ hdraft _ =>
    matches_edit h hs.open_ hdraft (.write offset data) hend (.count _)

theorem matches_truncateFh (h : d.Serves sv) {path : FsPath} (fh : Nat) {length : Nat}
    (hpath : refuseMutation path .eacces = none) (hend : length < 2 ^ 63) :
    Matches d (d.casTruncateFh path fh length) (sv.call fileConventions (.resize fh length)) := by
  unfold Daemon.casTruncateFh
  rw [hpath]
  exact matches_withFh h fun _ _ _ _ hs _ _ hdraft _ =>
    matches_edit h hs.open_ hdraft (.truncate length) hend .done

omit [Blake3] in
/-- A node as a flush leaves it. -/
theorem viewShown_insertFlushed {store : ObjectStore} {wt : WorkingTree}
    {v : FileView Name UInt8 UInt32} (h : ViewShown store wt v) (path : FsPath) {hash : Hash}
    {data : Bytes} (hdata : blobContent store hash = some data) :
    ViewShown store (insertFlushed wt path hash)
      (v.put path ⟨.file, ((v path).map (·.perm)).getD fileConventions.savedPerm, data⟩) := by
  refine h.insert path (.file hdata ?_)
  rcases optionRel_cases (h path) with ⟨hl, hv⟩ | ⟨e, n, hl, hv, hnode⟩
  · rw [hl, hv]
    decide
  · rw [hl, hv]
    exact hnode.perm

theorem matches_flush (h : d.Serves sv) {fh : Nat} (hsettled : sv.Settled fh) :
    Matches d (d.casFlush fh) (sv.call fileConventions (.save fh)) := by
  refine matches_withFh h fun s f br v hs hf hv hdraft hshown => ?_
  rw [← hdraft.dirty]
  cases hdirty : s.writeBuf.isDirty with
  | false => exact matches_reply .done h
  | true =>
      have hcontent := (hdraft.refines (hsettled f hf)).1
      show Matches d (.write (s.flushData d.store) (Daemon.putFlushed fh s d.store))
        (.ok .done, sv.save fileConventions fh f v)
      rw [hcontent]
      refine matches_write h hdraft.bound fun hash d' hd' hext hbr' hfh' hne hdata => ?_
      unfold Daemon.putFlushed
      rw [if_neg hne, hcontent]
      refine ⟨.done, ?_⟩
      have hput := hd'.setView (f := fun wt => insertFlushed wt s.path hash)
        (Daemon.tree_of_branch (d := d') (by rw [Daemon.branch, hbr']; exact hs.branch))
        (viewShown_insertFlushed (hshown.mono hext) s.path hdata)
      rw [hdraft.tree, hdraft.path] at hput
      have hget : (d'.modifyTree f.tree fun wt => insertFlushed wt f.path hash).getFh fh =
          some s := by
        rw [Daemon.getFh_modifyTree, Daemon.getFh, hfh']
        exact hs.open_
      rw [hdraft.tree, hdraft.path]
      exact hput.setFile hget (hdraft.flushed hash)

/-- The node at a path gets another content. -/
theorem matches_putBlob (h : d.Serves sv) {b : Nat} {br : BranchContext}
    {v : FileView Name UInt8 UInt32} (hbr : d.branch b = some br)
    (hshown : ViewShown d.store br.wt v) (path : FsPath) {kind : NodeKind} {mode perm : UInt32}
    {data : Bytes} (hlen : data.length < 2 ^ 64)
    (hperm : mode &&& modePerm = perm) :
    Matches d (.write data (Daemon.putBlob b path kind.entryKind mode))
      (.ok .done, sv.setView b (v.put path ⟨kind, perm, data⟩)) := by
  refine matches_write h hlen fun hash d' hd' hext hbr' _ hne hdata => ?_
  have htree : d'.tree b = some br.wt :=
    Daemon.tree_of_branch (by rw [Daemon.branch, hbr']; exact hbr)
  have hnode : NodeShown d'.store ⟨kind.entryKind, hash, mode⟩ ⟨kind, perm, data⟩ := {
    kind := rfl
    perm := hperm
    data := fun _ => hdata
    link := fun _ => hne }
  exact ⟨.done, hd'.setView (f := fun wt => wt.insert path ⟨kind.entryKind, hash, mode⟩) htree
    ((hshown.mono hext).insert path hnode)⟩

theorem matches_truncate (h : d.Serves sv) {b : Nat} {path : FsPath} {length : Nat}
    (hpath : fileConventions.Open path) (hlen : length < 2 ^ 63) :
    Matches d (d.casTruncate b path length)
      (sv.call fileConventions (.truncate b path length)) := by
  unfold Daemon.casTruncate
  rw [refuseMutation_of_open hpath]
  refine matches_lookup h fun br v e n hbr hv hshown he hn hnode => ?_
  by_cases hk : n.kind = .file
  · rw [if_neg (not_not.2 (hnode.isFile.2 hk)), if_neg (not_not.2 hk)]
    obtain ⟨kind, perm, data⟩ := n
    obtain rfl : kind = .file := hk
    have hdata := hnode.data (fun hdir => by cases hdir)
    have hblob : (if e.hash = zeroHash then [] else (d.store.readBlob e.hash).getD []) =
        data := by
      unfold blobContent at hdata
      split at hdata
      · rename_i hz
        rw [if_pos hz]
        exact Option.some.inj hdata
      · rename_i hz
        rw [if_neg hz, hdata, Option.getD_some]
    simp only [hblob]
    have hlen' : (Lib.resize data length).length < 2 ^ 64 := by
      rw [length_resize]
      omega
    exact matches_putBlob h hbr hshown path hlen' hnode.perm
  · rw [if_pos fun hkind => hk (hnode.isFile.1 hkind), if_pos hk]
    exact matches_fail h .isDir

/-- A change of a tree that writes no blob. -/
theorem matches_modifyTree (h : d.Serves sv) {b : Nat} {br : BranchContext}
    (hbr : d.branch b = some br) {f : WorkingTree → WorkingTree} {v : FileView Name UInt8 UInt32}
    (hv : ViewShown d.store (f br.wt) v) :
    Matches d (.reply (.ok .ok) (d.modifyTree b f)) (.ok .done, sv.setView b v) :=
  matches_reply .done (h.setView (Daemon.tree_of_branch hbr) hv)

theorem matches_unlink (h : d.Serves sv) {b : Nat} {path : FsPath}
    (hpath : fileConventions.Open path) :
    Matches d (d.casUnlink b path) (sv.call fileConventions (.unlink b path)) := by
  unfold Daemon.casUnlink
  rw [refuseMutation_of_open hpath]
  refine matches_lookup h fun br v e n hbr hv hshown he hn hnode => ?_
  by_cases hk : n.kind = .dir
  · rw [if_pos (hnode.isDir.2 hk), if_pos hk]
    exact matches_fail h .isDir
  · rw [if_neg fun hkind => hk (hnode.isDir.1 hkind), if_neg hk]
    exact matches_modifyTree h hbr (hshown.remove path)

omit [Blake3] in
/-- The live entries of a directory are its nodes, unless something is at the root. -/
theorem mem_listDir_shown {store : ObjectStore} {wt : WorkingTree}
    {v : FileView Name UInt8 UInt32} (h : ViewShown store wt v) {path : FsPath}
    (hroot : path = [] → v [] = none) (p : FsPath) :
    (∃ e, (p, e) ∈ wt.listDir path) ↔ ∃ name, p = path ++ [name] ∧ v p ≠ none := by
  constructor
  · rintro ⟨e, he⟩
    obtain ⟨hl, hdrop⟩ := mem_listDir.1 he
    obtain ⟨n, hn, -⟩ := h.lookup_some hl
    have hne : p ≠ [] := by
      rintro rfl
      cases (hroot hdrop.symm).symm.trans hn
    refine ⟨p.getLast hne, ?_, by rw [hn]; exact Option.some_ne_none n⟩
    rw [← hdrop, List.dropLast_append_getLast]
  · rintro ⟨name, rfl, hne⟩
    cases hl : wt.lookup (path ++ [name]) with
    | none => exact absurd ((h.lookup_none _).1 hl) hne
    | some e => exact ⟨e, mem_listDir.2 ⟨hl, List.dropLast_concat⟩⟩

theorem matches_rmdir (h : d.Serves sv) {b : Nat} {path : FsPath}
    (hpath : fileConventions.Open path) :
    Matches d (d.casRmdir b path) (sv.call fileConventions (.rmdir b path)) := by
  unfold Daemon.casRmdir
  rw [refuseMutation_of_open hpath]
  refine matches_lookup h fun br v e n hbr hv hshown he hn hnode => ?_
  by_cases hk : n.kind = .dir
  · rw [if_neg (not_not.2 (hnode.isDir.2 hk)), if_neg (not_not.2 hk)]
    have hroot : path = [] → v [] = none := by
      rintro rfl
      obtain ⟨name, hname, -⟩ := hpath
      cases hname
    have hempty : br.wt.listDir path ≠ [] ↔ ∃ name, v (path ++ [name]) ≠ none := by
      constructor
      · intro hne
        obtain ⟨⟨p, e⟩, hin⟩ := List.exists_mem_of_ne_nil _ hne
        obtain ⟨name, rfl, hname⟩ := (mem_listDir_shown hshown hroot p).1 ⟨e, hin⟩
        exact ⟨name, hname⟩
      · rintro ⟨name, hname⟩
        obtain ⟨e, hin⟩ := (mem_listDir_shown hshown hroot _).2 ⟨name, rfl, hname⟩
        exact List.ne_nil_of_mem hin
    by_cases hchild : ∃ name, v (path ++ [name]) ≠ none
    · rw [if_pos (hempty.2 hchild), if_pos hchild]
      exact matches_fail h .notEmpty
    · rw [if_neg fun hne => hchild (hempty.1 hne), if_neg hchild]
      exact matches_modifyTree h hbr (hshown.remove path)
  · rw [if_pos fun hkind => hk (hnode.isDir.1 hkind), if_pos hk]
    exact matches_fail h .notDir

/-- A request that makes something asks whether the path is taken. -/
theorem matches_ifTaken {br : BranchContext} {v : FileView Name UInt8 UInt32}
    (h : d.Serves sv) (hshown : ViewShown d.store br.wt v) (path : FsPath) {k : Critical}
    {r : PlainAnswer × PlainService} (hk : Matches d k r) :
    Matches d (if (br.wt.lookup path).isSome then d.fail .eexist else k)
      (if (v path).isSome then (.error .taken, sv) else r) := by
  have hsome : (br.wt.lookup path).isSome = (v path).isSome := by
    rcases optionRel_cases (hshown path) with ⟨hl, hv⟩ | ⟨e, n, hl, hv, -⟩
    · rw [hl, hv]
      rfl
    · rw [hl, hv]
      rfl
  rw [hsome]
  split
  · exact matches_fail h .taken
  · exact hk

theorem matches_mkdir (h : d.Serves sv) {b : Nat} {path : FsPath} (mode : UInt32)
    (hpath : fileConventions.Open path) :
    Matches d (d.casMkdir b path mode)
      (sv.call fileConventions (.mkdir b path (mode &&& modePerm))) := by
  unfold Daemon.casMkdir
  rw [refuseMutation_of_open hpath]
  refine matches_withBranch h fun br v hbr hv hshown => matches_ifTaken h hshown path ?_
  exact matches_modifyTree h hbr (hshown.insert path {
    kind := rfl
    perm := perm_of_mode mode _ (by decide)
    data := fun hk => absurd rfl hk
    link := fun hk => by cases hk })

theorem matches_symlink (h : d.Serves sv) {b : Nat} {target : Bytes} {path : FsPath}
    (hpath : fileConventions.Open path) (hlen : target.length < 2 ^ 63) :
    Matches d (d.casSymlink b target path)
      (sv.call fileConventions (.symlink b target path)) := by
  unfold Daemon.casSymlink
  rw [refuseMutation_of_open hpath]
  refine matches_withBranch h fun br v hbr hv hshown => matches_ifTaken h hshown path ?_
  exact matches_putBlob h hbr hshown path (by omega) (by decide)

theorem matches_rename (h : d.Serves sv) {b : Nat} {source target : FsPath}
    (hsource : fileConventions.Open source) (htarget : fileConventions.Open target)
    (hdir : ∀ v n, sv.view b = some v → v source = some n → n.kind = .dir →
      v.Vacant source target) :
    Matches d (d.casRename b source target)
      (sv.call fileConventions (.rename b source target)) := by
  unfold Daemon.casRename
  rw [refuseMutation_of_open hsource, refuseMutation_of_open htarget, if_neg (by simp)]
  refine matches_lookup h fun br v e n hbr hv hshown he hn hnode => ?_
  by_cases hk : n.kind = .dir
  · rw [if_pos (hnode.isDir.2 hk), if_pos hk]
    exact matches_modifyTree h hbr (hshown.renameDir (hdir v n hv hn hk))
  · rw [if_neg fun hkind => hk (hnode.isDir.1 hkind), if_neg hk]
    refine matches_modifyTree h hbr (hshown.renameEntry target ?_)
    rw [he]
    exact Option.some_ne_none e

theorem matches_chmod (h : d.Serves sv) {b : Nat} {path : FsPath} (mode : UInt32)
    (hpath : fileConventions.Open path) :
    Matches d (d.casChmod b path mode)
      (sv.call fileConventions (.chmod b path (mode &&& modePerm))) := by
  unfold Daemon.casChmod
  rw [refuseMutation_of_open hpath]
  refine matches_lookup h fun br v e n hbr hv hshown he hn hnode => ?_
  exact matches_modifyTree h hbr (hshown.insert path {
    kind := hnode.kind
    perm := perm_of_chmod e.mode mode
    data := hnode.data
    link := hnode.link })

/-- Every request that the service makes a promise about is matched. -/
theorem matches_request (h : d.Serves sv) {op : FuseOp} (hordinary : op.Ordinary)
    (hallowed : FileService.Allowed fileConventions sv op.call) :
    Matches d (op.start d) (sv.call fileConventions op.call) := by
  cases op with
  | openFile b path trunc => exact matches_openFile h trunc hallowed
  | create b path mode => exact matches_create h mode hallowed
  | read fh offset size => exact matches_read h offset size hallowed
  | write fh offset data => exact matches_write_request h fh hallowed
  | flush fh => exact matches_flush h hallowed
  | truncateFh path fh length => exact matches_truncateFh h fh hordinary hallowed
  | truncate b path length => exact matches_truncate h hallowed.1 hallowed.2
  | unlink b path => exact matches_unlink h hallowed
  | rmdir b path => exact matches_rmdir h hallowed
  | mkdir b path mode => exact matches_mkdir h mode hallowed
  | rename b source target => exact matches_rename h hallowed.1 hallowed.2.1 hallowed.2.2
  | symlink b target path => exact matches_symlink h hallowed.1 hallowed.2
  | chmod b path mode => exact matches_chmod h mode hallowed

end Requests
end ContextFS
