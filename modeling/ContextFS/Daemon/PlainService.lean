import ContextFS.Daemon.PlainFiles
import ContextFS.Lib.Traces

/-!
# The daemon serves plain files

A request is matched with a call of the plain service: it is answered with what the call is
answered, and the daemon still stands for the service afterwards.  What a request does under the
lock of its branch is followed step by step; a blob that it writes has to reach the store.
-/

namespace ContextFS

open Std Lib ObjectStore WorkingTree

abbrev PlainService := FileService Name UInt8 UInt32 Hash

abbrev PlainCall := FileCall Name UInt8 UInt32 Hash

abbrev PlainAnswer := FileAnswer Name UInt8 UInt32

/-- The daemon stands for the service: its trees for the views, its handles for the open files,
and its commits for the snapshots. -/
structure Daemon.Serves (d : Daemon) (sv : PlainService) : Prop where
  views : ∀ b, Option.Rel (ViewShown d.store) (d.tree b) (sv.view b)
  files : ∀ fh, Option.Rel (DraftShown d.store) (d.getFh fh) (sv.file fh)
  snapshots : ∀ h v, sv.snapshot h = some v →
    ∃ wt, CommitShows d.store h wt ∧ ViewShown d.store wt v
  nextFile : d.nextFhId = sv.nextFile
  nextTree : d.nextBranchId = sv.nextTree

/-! ## What an answer means -/

namespace Lib

/-- The error a refusal is answered with. -/
def FileRefusal.errno : FileRefusal → Errno
  | .missing => .enoent
  | .closed => .ebadf
  | .gone => .estale
  | .isDir => .eisdir
  | .notDir => .enotdir
  | .notLink => .einval
  | .notEmpty => .enotempty
  | .taken => .eexist

/-- The type bits of the mode of a node. -/
def NodeKind.typeBits : NodeKind → UInt32
  | .dir => 0o40000
  | .file => 0o100000
  | .link => 0o120000

def NodeKind.nlink : NodeKind → Nat
  | .dir => 2
  | .file | .link => 1

end Lib

/-- What the daemon reports: the answer to a request, or the id of a new branch. -/
inductive Reported
  | answer (a : Answer)
  | branch (b : Nat)

/-- A report means what the service answers; names are listed once each. -/
inductive Means : Reported → PlainAnswer → Prop
  | refused (r : FileRefusal) : Means (.answer (.error r.errno)) (.error r)
  | done : Means (.answer (.ok .ok)) (.ok .done)
  | opened (fh : Nat) : Means (.answer (.ok (.handle fh))) (.ok (.opened fh))
  | count (n : Nat) : Means (.answer (.ok (.count n))) (.ok (.count n))
  | data (data : Bytes) : Means (.answer (.ok (.bytes data))) (.ok (.data data))
  | names {l : List Name} {names : Set Name} (hnodup : l.Nodup) (hmem : ∀ n, n ∈ l ↔ n ∈ names) :
      Means (.answer (.ok (.names l))) (.ok (.names names))
  | stat (kind : NodeKind) (perm : UInt32) (size : Nat) :
      Means (.answer (.ok (.attr (perm ||| kind.typeBits) size kind.nlink)))
        (.ok (.stat kind perm size))
  | tree (b : Nat) : Means (.branch b) (.ok (.tree b))

/-! ## Changes on both sides -/

section Changes

variable {d : Daemon} {sv : PlainService}

namespace Daemon.Serves

theorem withStore (h : d.Serves sv) {store : ObjectStore} (he : Extends d.store store) :
    Daemon.Serves { d with store := store } sv where
  views := fun b => optionRel_imp (h.views b) fun _ _ hv => hv.mono he
  files := fun fh => optionRel_imp (h.files fh) fun _ _ hf => hf.mono he
  snapshots := fun t v hv => by
    obtain ⟨wt, hshows, hview⟩ := h.snapshots t v hv
    exact ⟨wt, hshows.mono he, hview.mono he⟩
  nextFile := h.nextFile
  nextTree := h.nextTree

theorem tree (h : d.Serves sv) {b : Nat} {wt : WorkingTree} (hwt : d.tree b = some wt) :
    ∃ v, sv.view b = some v ∧ ViewShown d.store wt v := by
  rcases optionRel_cases (h.views b) with ⟨hnone, -⟩ | ⟨wt', v, hwt', hv, hview⟩
  · cases hwt.symm.trans hnone
  · cases hwt.symm.trans hwt'
    exact ⟨v, hv, hview⟩

theorem setView (h : d.Serves sv) {b : Nat} {wt : WorkingTree} (hwt : d.tree b = some wt)
    {f : WorkingTree → WorkingTree} {v : FileView Name UInt8 UInt32}
    (hv : ViewShown d.store (f wt) v) : (d.modifyTree b f).Serves (sv.setView b v) where
  views := fun c => by
    rw [tree_modifyTree, modifyTree_store, FileService.setView_view]
    by_cases hc : b = c
    · subst hc
      rw [if_pos rfl, if_pos rfl, hwt]
      exact .some hv
    · rw [if_neg hc, if_neg hc]
      exact h.views c
  files := fun fh => by
    rw [getFh_modifyTree, modifyTree_store]
    exact h.files fh
  snapshots := by
    rw [modifyTree_store]
    exact h.snapshots
  nextFile := (modifyTree_nextFhId d b f).trans h.nextFile
  nextTree := by
    refine Eq.trans ?_ h.nextTree
    unfold modifyTree
    split <;> rfl

theorem setFile (h : d.Serves sv) {fh : Nat} {s : FhState} (hs : d.getFh fh = some s)
    {g : FhState → FhState} {f : OpenFile Name UInt8} (hf : DraftShown d.store (g s) f) :
    (d.modifyFh fh g).Serves (sv.setFile fh f) where
  views := fun b => by
    have htree : (d.modifyFh fh g).tree b = d.tree b := by
      unfold Daemon.tree branch
      rw [modifyFh_branches]
    rw [htree, modifyFh_store]
    exact h.views b
  files := fun k => by
    rw [getFh_modifyFh, modifyFh_store, FileService.setFile_file]
    by_cases hk : fh = k
    · subst hk
      rw [if_pos rfl, if_pos rfl, hs]
      exact .some hf
    · rw [if_neg hk, if_neg hk]
      exact h.files k
  snapshots := by
    rw [modifyFh_store]
    exact h.snapshots
  nextFile := (modifyFh_nextFhId d fh g).trans h.nextFile
  nextTree := by
    refine Eq.trans ?_ h.nextTree
    unfold modifyFh
    split <;> rfl

/-- The base of a handle is loaded: nobody sees a difference. -/
theorem loadFile (h : d.Serves sv) {fh : Nat} {s : FhState} (hs : d.getFh fh = some s)
    {f : OpenFile Name UInt8} (hfile : sv.file fh = some f) (hf : DraftShown d.store s f) :
    (d.modifyFh fh fun s => s.ensureBaseCache d.store).Serves sv := by
  have hset := h.setFile (g := fun s => s.ensureBaseCache d.store) hs hf.ensureBaseCache
  rwa [sv.setFile_self hfile] at hset

theorem addFile (h : d.Serves sv) {s : FhState} {f : OpenFile Name UInt8}
    (hf : DraftShown d.store s f) : (d.allocateFh s).2.Serves (sv.addFile f).2 where
  views := h.views
  files := fun k => by
    show Option.Rel _ _ ((sv.setFile sv.nextFile f).file k)
    rw [getFh_allocateFh, allocateFh_store, FileService.setFile_file, h.nextFile]
    split
    · exact .some hf
    · exact h.files k
  snapshots := h.snapshots
  nextFile := by
    show d.nextFhId + 1 = sv.nextFile + 1
    rw [h.nextFile]
  nextTree := h.nextTree

theorem closeFile (h : d.Serves sv) (fh : Nat) :
    (d.releaseFh fh).Serves { sv with file := Function.update sv.file fh none } where
  views := h.views
  files := fun k => by
    have hget : (d.releaseFh fh).getFh k = if fh = k then none else d.getFh k := by
      unfold releaseFh getFh
      rw [ExtTreeMap.getElem?_erase]
      simp
    show Option.Rel _ _ (Function.update sv.file fh none k)
    simp only [hget, Function.update_apply, eq_comm (a := k)]
    split
    · exact .none
    · exact h.files k
  snapshots := h.snapshots
  nextFile := h.nextFile
  nextTree := h.nextTree

end Daemon.Serves

/-! ## Under the lock of a branch -/

variable [Blake3]

/-- The blob the operation writes reaches the store, under a hash of its own. -/
def Critical.Stored (d : Daemon) : Critical → Prop
  | .reply _ _ => True
  | .write data _ =>
      (d.store.writeBlob data).2 ≠ zeroHash ∧ (d.store.writeBlob data).1.collided = false

instance (d : Daemon) : (c : Critical) → Decidable (c.Stored d)
  | .reply _ _ => .isTrue trivial
  | .write _ _ => inferInstanceAs (Decidable (_ ∧ _))

/-- The operation is answered as the service answers, and leads to where it leads. -/
def Matches (d : Daemon) (c : Critical) (r : PlainAnswer × PlainService) : Prop :=
  c.Stored d → Means (.answer (c.run d).1) r.1 ∧ (c.run d).2.Serves r.2

theorem matches_reply {a : Answer} {d' : Daemon} {r : PlainAnswer × PlainService}
    (hmeans : Means (.answer a) r.1) (hserves : d'.Serves r.2) : Matches d (.reply a d') r :=
  fun _ => ⟨hmeans, hserves⟩

theorem matches_fail (h : d.Serves sv) (r : FileRefusal) :
    Matches d (d.fail r.errno) (.error r, sv) := matches_reply (.refused r) h

theorem matches_write (h : d.Serves sv) {data : Bytes} (hlen : data.length < 2 ^ 64)
    {finish : Hash → Daemon → Answer × Daemon} {r : PlainAnswer × PlainService}
    (hfinish : ∀ (hash : Hash) (d' : Daemon), d'.Serves sv → Extends d.store d'.store →
      d'.branches = d.branches → d'.fhTable = d.fhTable → hash ≠ zeroHash →
      blobContent d'.store hash = some data →
        Means (.answer (finish hash d').1) r.1 ∧ (finish hash d').2.Serves r.2) :
    Matches d (.write data finish) r := by
  rintro ⟨hne, hc⟩
  have he : Extends d.store (d.store.writeBlob data).1 := extends_writeObject d.store .blob _
  refine hfinish _ _ (h.withStore he) he rfl rfl hne ?_
  rw [blobContent, if_neg hne]
  exact readBlob_writeBlob hlen hne hc

theorem matches_withBranch (h : d.Serves sv) {b : Nat} {k : BranchContext → Critical}
    {k' : FileView Name UInt8 UInt32 → PlainAnswer × PlainService}
    (hk : ∀ br v, d.branch b = some br → sv.view b = some v → ViewShown d.store br.wt v →
      Matches d (k br) (k' v)) : Matches d (d.withBranch b k) (sv.withView b k') := by
  unfold Daemon.withBranch FileService.withView
  have hview := h.views b
  unfold Daemon.tree at hview
  cases hbr : d.branch b with
  | none =>
      rw [hbr] at hview
      cases hv : sv.view b with
      | none => exact matches_fail h .gone
      | some v =>
          rw [hv] at hview
          cases hview
  | some br =>
      rw [hbr] at hview
      cases hv : sv.view b with
      | none =>
          rw [hv] at hview
          cases hview
      | some v =>
          rw [hv] at hview
          cases hview with
          | some hshown => exact hk br v hbr hv hshown

theorem matches_lookup (h : d.Serves sv) {b : Nat} {path : FsPath}
    {k : BranchContext → WorkingTreeEntry → Critical}
    {k' : FileView Name UInt8 UInt32 → FileNode UInt8 UInt32 → PlainAnswer × PlainService}
    (hk : ∀ br v e n, d.branch b = some br → sv.view b = some v → ViewShown d.store br.wt v →
      br.wt.lookup path = some e → v path = some n → NodeShown d.store e n →
        Matches d (k br e) (k' v n)) :
    Matches d (d.withBranch b fun br =>
      match br.wt.lookup path with
      | none => d.fail .enoent
      | some e => k br e) (sv.withNode b path k') := by
  refine matches_withBranch h fun br v hbr hv hshown => ?_
  cases he : br.wt.lookup path with
  | none =>
      rw [(hshown.lookup_none path).1 he]
      exact matches_fail h .missing
  | some e =>
      obtain ⟨n, hn, hnode⟩ := hshown.lookup_some he
      rw [hn]
      exact hk br v e n hbr hv hshown he hn hnode

theorem matches_withFh (h : d.Serves sv) {fh : Nat} {k : FhState → Critical}
    {k' : OpenFile Name UInt8 → FileView Name UInt8 UInt32 → PlainAnswer × PlainService}
    (hk : ∀ s f br v, UsableFh d fh s br → sv.file fh = some f → sv.view f.tree = some v →
      DraftShown d.store s f → ViewShown d.store br.wt v → Matches d (k s) (k' f v)) :
    Matches d (d.withFh fh k) (sv.withFile fh k') := by
  unfold Daemon.withFh FileService.withFile
  rcases optionRel_cases (h.files fh) with ⟨hs, hf⟩ | ⟨s, f, hs, hf, hdraft⟩
  · simp only [hs, hf]
    exact matches_fail h .closed
  · simp only [hs, hf]
    rw [← hdraft.tree]
    refine matches_withBranch h fun br v hbr hv hshown => ?_
    rw [← hdraft.stale]
    cases hstale : s.stale with
    | true => exact matches_fail h .gone
    | false => exact hk s f br v ⟨hs, hbr, hstale⟩ hf (hdraft.tree ▸ hv) hdraft hshown

end Changes
end ContextFS
