import ContextFS.Daemon.RenameDir
import ContextFS.Daemon.RollsBack
import ContextFS.Daemon.SharedFile
import ContextFS.Lib.FileService

/-!
# What the daemon shows of plain files

Entries stand for nodes: a hash for the content of its blob.  A handle stands for a draft: what
was written through it lies in its buffer, over a base that may not be loaded yet.
-/

namespace ContextFS

open Std Lib ObjectStore WorkingTree

/-- The conventions of the daemon. -/
def fileConventions : FileConventions Name UInt32 where
  savedPerm := 0o644
  linkPerm := 0o777
  hidden name := name = storeName || name = controlName
  bound := 2 ^ 63
  home := 0

/-! ## Nodes -/

/-- The kind of the entries that stand for nodes of a kind. -/
def Lib.NodeKind.entryKind : NodeKind → EntryKind
  | .dir => .tree
  | .file => .blob
  | .link => .symlink

theorem entryKind_inj {k k' : NodeKind} : k.entryKind = k'.entryKind ↔ k = k' := by
  cases k <;> cases k' <;> decide

/-- The entry stands for the node. -/
structure NodeShown (store : ObjectStore) (e : WorkingTreeEntry) (n : FileNode UInt8 UInt32) :
    Prop where
  kind : e.kind = n.kind.entryKind
  perm : e.mode &&& modePerm = n.perm
  data : n.kind ≠ .dir → blobContent store e.hash = some n.data
  link : n.kind = .link → e.hash ≠ zeroHash

/-- The live entries of a tree stand for the nodes of a view. -/
def ViewShown (store : ObjectStore) (wt : WorkingTree) (v : FileView Name UInt8 UInt32) : Prop :=
  ∀ p, Option.Rel (NodeShown store) (wt.lookup p) (v p)

theorem optionRel_cases {α β : Type*} {r : α → β → Prop} {a : Option α} {b : Option β}
    (h : Option.Rel r a b) :
    (a = none ∧ b = none) ∨ ∃ x y, a = some x ∧ b = some y ∧ r x y := by
  cases h with
  | some hr => exact Or.inr ⟨_, _, rfl, rfl, hr⟩
  | none => exact Or.inl ⟨rfl, rfl⟩

theorem optionRel_imp {α β : Type*} {r r' : α → β → Prop} {a : Option α} {b : Option β}
    (h : Option.Rel r a b) (himp : ∀ x y, r x y → r' x y) : Option.Rel r' a b := by
  cases h with
  | some hr => exact .some (himp _ _ hr)
  | none => exact .none

theorem blobContent_mono {store store' : ObjectStore} (he : Extends store store') {h : Hash}
    {data : Bytes} (hdata : blobContent store h = some data) :
    blobContent store' h = some data := by
  unfold blobContent at *
  split at hdata
  · rename_i hz
    rw [if_pos hz]
    exact hdata
  · rename_i hz
    rw [if_neg hz]
    exact he.readBlob hdata

theorem length_blobContent {store : ObjectStore} {h : Hash} {data : Bytes}
    (hdata : blobContent store h = some data) : data.length < 2 ^ 64 := by
  unfold blobContent at hdata
  split at hdata
  · cases hdata
    simp
  · exact Daemon.length_lt_of_readBlob hdata

section

variable {store store' : ObjectStore} {e : WorkingTreeEntry} {n : FileNode UInt8 UInt32}
  {wt : WorkingTree} {v : FileView Name UInt8 UInt32}

namespace NodeShown

theorem mono (h : NodeShown store e n) (he : Extends store store') : NodeShown store' e n where
  kind := h.kind
  perm := h.perm
  data := fun hk => blobContent_mono he (h.data hk)
  link := h.link

theorem live (h : NodeShown store e n) : e.kind ≠ .deleted := by
  rw [h.kind]
  cases n.kind <;> decide

theorem kind_eq (h : NodeShown store e n) (k : NodeKind) : e.kind = k.entryKind ↔ n.kind = k := by
  rw [h.kind, entryKind_inj]

theorem isFile (h : NodeShown store e n) : e.kind = .blob ↔ n.kind = .file := h.kind_eq .file

theorem isDir (h : NodeShown store e n) : e.kind = .tree ↔ n.kind = .dir := h.kind_eq .dir

theorem isLink (h : NodeShown store e n) : e.kind = .symlink ↔ n.kind = .link := h.kind_eq .link

/-- Where the entry is not a directory its content has a length. -/
theorem entrySize {d : Daemon} (h : NodeShown d.store e n) (hk : n.kind ≠ .dir) :
    d.entrySize e = .ok n.data.length := by
  have hdata := h.data hk
  unfold blobContent at hdata
  unfold Daemon.entrySize
  split at hdata
  · rename_i hz
    rw [if_pos hz, ← Option.some.inj hdata]
    rfl
  · rename_i hz
    rw [if_neg hz, hdata]

theorem congr {e' : WorkingTreeEntry} (h : NodeShown store e n) (he : SameView e e') :
    NodeShown store e' n where
  kind := he.1 ▸ h.kind
  perm := he.2.1 ▸ h.perm
  data := fun hk => by
    rw [← he.2.2 (fun htree => hk (h.isDir.1 htree))]
    exact h.data hk
  link := fun hk => by
    rw [← he.2.2 (fun htree => by cases hk.symm.trans (h.isDir.1 htree))]
    exact h.link hk

end NodeShown

namespace ViewShown

theorem mono (h : ViewShown store wt v) (he : Extends store store') : ViewShown store' wt v :=
  fun p => optionRel_imp (h p) fun _ _ hn => hn.mono he

theorem congr {wt' : WorkingTree} (h : ViewShown store wt v) (hsame : wt.SameLive wt') :
    ViewShown store wt' v := by
  intro p
  rcases optionRel_cases (h p) with ⟨hl, hv⟩ | ⟨e, n, hl, hv, hn⟩
  · rcases optionRel_cases (hsame p) with ⟨-, hl'⟩ | ⟨e₁, e', hl₁, -, -⟩
    · rw [hl', hv]
      exact .none
    · cases hl.symm.trans hl₁
  · rcases optionRel_cases (hsame p) with ⟨hl₁, -⟩ | ⟨e₁, e', hl₁, hl', he⟩
    · cases hl.symm.trans hl₁
    · cases hl.symm.trans hl₁
      rw [hl', hv]
      exact .some (hn.congr he)

theorem lookup_none (h : ViewShown store wt v) (p : FsPath) : wt.lookup p = none ↔ v p = none := by
  rcases optionRel_cases (h p) with ⟨hl, hv⟩ | ⟨e, n, hl, hv, -⟩
  · simp [hl, hv]
  · simp [hl, hv]

theorem lookup_some (h : ViewShown store wt v) {p : FsPath} {e : WorkingTreeEntry}
    (he : wt.lookup p = some e) : ∃ n, v p = some n ∧ NodeShown store e n := by
  rcases optionRel_cases (h p) with ⟨hl, -⟩ | ⟨e', n, hl, hv, hn⟩
  · cases he.symm.trans hl
  · cases he.symm.trans hl
    exact ⟨n, hv, hn⟩

theorem insert (h : ViewShown store wt v) (p : FsPath) (hn : NodeShown store e n) :
    ViewShown store (wt.insert p e) (v.put p n) := by
  intro q
  rw [lookup_insert _ _ _ _ hn.live, FileView.put]
  by_cases hq : p = q
  · subst hq
    rw [if_pos rfl, Function.update_self]
    exact .some hn
  · rw [if_neg hq, Function.update_of_ne (Ne.symm hq)]
    exact h q

theorem remove (h : ViewShown store wt v) (p : FsPath) :
    ViewShown store (wt.remove p) (v.erase p) := by
  intro q
  rw [lookup_remove, FileView.erase]
  by_cases hq : p = q
  · subst hq
    rw [if_pos rfl, Function.update_self]
    exact .none
  · rw [if_neg hq, Function.update_of_ne (Ne.symm hq)]
    exact h q

theorem renameEntry (h : ViewShown store wt v) {source : FsPath} (target : FsPath)
    (hl : wt.lookup source ≠ none) :
    ViewShown store (wt.renameEntry source target) (v.moveNode source target) := by
  obtain ⟨e, hraw⟩ : ∃ e, wt.lookupRaw source = some e := by
    cases hraw : wt.lookupRaw source with
    | none => exact absurd (lookup_of_lookupRaw_none hraw) hl
    | some e => exact ⟨e, rfl⟩
  intro q
  rw [lookup_renameEntry, hraw, FileView.moveNode]
  simp only [eq_comm (a := q)]
  split
  · exact h source
  · split
    · exact .none
    · exact h q

theorem renameDir (h : ViewShown store wt v) {source target : FsPath}
    (hv : v.Vacant source target) :
    ViewShown store (wt.renameDir source target) (v.moveTree source target) := by
  intro q
  rw [lookup_renameDir hv.not_into hv.not_onto, FileView.moveTree]
  by_cases hs : source <+: q
  · have ht : ¬ target <+: q := fun ht => not_both_below hv.not_into hv.not_onto hs ht
    rw [if_pos hs, if_neg ht, if_pos hs]
    exact .none
  · rw [if_neg hs, if_neg hs]
    by_cases ht : target <+: q
    · rw [if_pos ht]
      split
      · exact h _
      · rename_i hraw
        -- nothing was recorded there: then nothing is moved, and nothing was at the target
        have hnone : wt.lookup (source ++ q.drop target.length) = none :=
          lookup_of_lookupRaw_none (by simpa [ht] using hraw)
        rw [(h.lookup_none q).2 (hv.nothing q ht), (h.lookup_none _).1 hnone]
        exact .none
    · rw [if_neg ht, if_neg fun hraw => ht hraw.1]
      exact h q

end ViewShown
end

/-! ## Drafts -/

attribute [ext] WriteBuffer

namespace WriteBuffer

variable {b : WriteBuffer} {base f : Bytes} {cut : Nat → Bool}

/-- What is left of a cut file shows the right bytes, unless it has grown over bytes of the base
that were cut off. -/
theorem Tracks.refines (h : Tracks base b f cut)
    (hcut : ∀ pos < f.length, cut pos = true → byteAt base pos = 0) : b.Refines base f := by
  have hread : ∀ pos < f.length, b.readByte base pos = byteAt f pos := by
    intro pos hpos
    rw [h.bytes, readByte_eq]
    cases hc : cut pos with
    | false => rfl
    | true => rw [hcut pos hpos hc, if_pos rfl]
  obtain ⟨hlen, hbyte⟩ := b.materialize_spec base
  rw [h.size] at hlen hbyte
  refine ⟨ext_byteAt hlen fun pos hpos => ?_, h.size, fun offset size => ?_⟩
  · rw [hlen] at hpos
    rw [hbyte pos hpos, hread pos hpos]
  · obtain ⟨hrlen, hrbyte⟩ := read_spec b base offset size
    rw [h.size] at hrlen hrbyte
    refine ext_byteAt (hrlen.trans (length_readAt f offset size).symm) fun pos hpos => ?_
    rw [hrlen] at hpos
    rw [hrbyte pos hpos, hread _ (by omega), byteAt_readAt, if_pos (by omega)]

/-- The base size a buffer was made with makes no difference to it. -/
theorem onBuffer_baseSize (h : b.Sound) (n : Nat) (op : Lib.FileOp UInt8) :
    ({ b with baseSize := n } : WriteBuffer).onBuffer op =
      { b.onBuffer op with baseSize := n } := by
  cases op with
  | truncate size =>
      show ({ b with baseSize := n } : WriteBuffer).truncate size = _
      simp only [onBuffer, truncate]
      split
      · split <;> rfl
      · rfl
  | write offset data =>
      show ({ b with baseSize := n } : WriteBuffer).write offset data =
        { b.write offset data with baseSize := n }
      ext1
      · simp only [write]
        split
        · rfl
        · split <;> rfl
      · simp only [write]
        split
        · rfl
        · split <;> split <;> rfl
      · by_cases hsize : b.sizeOverride = none
        · have hsound : Sound { b with baseSize := n } := ⟨h.spaced, h.bounded⟩
          exact (sizeOverride_write hsound hsize offset data).trans
            (sizeOverride_write h hsize offset data).symm
        · obtain ⟨size, hsize⟩ := Option.ne_none_iff_exists'.1 hsize
          simp only [write, effectiveSize, hsize, Option.getD_some]
          split
          · exact hsize.symm
          · split <;> rfl
      · simp only [write]
        split
        · rfl
        · split <;> split <;> rfl

/-- Every edit makes a buffer dirty. -/
theorem isDirty_onBuffer (b : WriteBuffer) (op : Lib.FileOp UInt8) :
    (b.onBuffer op).isDirty = (b.isDirty || op.isEdit) := by
  cases op with
  | truncate size =>
      have hsize : (b.truncate size).sizeOverride = some size := by
        unfold truncate
        simp only
        split
        · split <;> rfl
        · rfl
      simp [onBuffer, isDirty, hsize, Lib.FileOp.isEdit]
  | write offset data =>
      by_cases hlen : data.length = 0
      · rw [List.length_eq_zero_iff] at hlen
        simp [onBuffer, write, hlen, Lib.FileOp.isEdit]
      · have hmerged : ∀ start mergeEnd touched,
            0 < (mergedExtent offset data start mergeEnd touched).length := by
          intro start mergeEnd touched
          simp only [mergedExtent, copyInto, List.length_append]
          omega
        have hbytes : 0 < (b.write offset data).dirtyBytes := by
          unfold write
          rw [if_neg hlen]
          simp only
          split
          · exact Nat.add_pos_right _ (hmerged _ _ _)
          · exact Nat.add_pos_right _ (hmerged _ _ _)
        have hdata : data.isEmpty = false := by
          cases data with
          | nil => exact absurd rfl hlen
          | cons => rfl
        simp [onBuffer, isDirty, hbytes, Lib.FileOp.isEdit, hdata]

end WriteBuffer

theorem FhState.base_setWriteBuf (s : FhState) (store : ObjectStore) (writeBuf : WriteBuffer) :
    FhState.base { s with writeBuf := writeBuf } store = s.base store := by
  unfold FhState.base FhState.ensureBaseCache
  split
  · rfl
  · split <;> rfl

theorem FhState.base_setStale (s : FhState) (store : ObjectStore) :
    FhState.base { s with stale := true } store = s.base store := by
  unfold FhState.base FhState.ensureBaseCache
  split
  · rfl
  · split <;> rfl

/-- The handle stands for the open file.  Until the base is loaded its size is known; from the
first flush on the buffer was made for another one, which `onBuffer_baseSize` makes good. -/
structure DraftShown (store : ObjectStore) (s : FhState) (f : OpenFile Name UInt8) : Prop where
  tree : s.branchId = f.tree
  path : s.path = f.path
  stale : s.stale = f.stale
  based : s.Based store
  base : s.base store = f.draft.base
  tracks : WriteBuffer.Tracks f.draft.base { s.writeBuf with baseSize := f.draft.base.length }
    f.draft.content (cutAt f.draft.edits)
  dirty : s.writeBuf.isDirty = f.draft.dirty
  size : s.baseCacheLoaded = false → s.baseSize = f.draft.base.length
  bound : f.draft.content.length < 2 ^ 64

namespace DraftShown

variable {store store' : ObjectStore} {s : FhState} {f : OpenFile Name UInt8}

theorem mono (h : DraftShown store s f) (he : Extends store store') : DraftShown store' s f where
  tree := h.tree
  path := h.path
  stale := h.stale
  based := h.based.mono he
  base := (h.based.base_eq he).trans h.base
  tracks := h.tracks
  dirty := h.dirty
  size := h.size
  bound := h.bound

theorem ensureBaseCache (h : DraftShown store s f) :
    DraftShown store (s.ensureBaseCache store) f := by
  obtain ⟨hpath, hbranch, hstale, hbuf, -⟩ := s.ensureBaseCache_spec store
  have hloaded := s.ensureBaseCache_loaded store
  exact {
    tree := hbranch.trans h.tree
    path := hpath.trans h.path
    stale := hstale.trans h.stale
    based := h.based.ensureBaseCache store
    base := (FhState.base_of_loaded hloaded store).trans h.base
    tracks := hbuf.symm ▸ h.tracks
    dirty := hbuf.symm ▸ h.dirty
    size := fun hnot => by cases hloaded.symm.trans hnot
    bound := h.bound }

theorem setStale (h : DraftShown store s f) :
    DraftShown store { s with stale := true } { f with stale := true } where
  tree := h.tree
  path := h.path
  stale := rfl
  based := ⟨h.based.readable, by rw [FhState.base_setStale]; exact h.based.size⟩
  base := (FhState.base_setStale s store).trans h.base
  tracks := h.tracks
  dirty := h.dirty
  size := h.size
  bound := h.bound

/-- A content that is settled is what a read shows and a flush writes. -/
theorem refines (h : DraftShown store s f) (hsettled : f.draft.Settled) :
    s.flushData store = f.draft.content ∧ ∀ offset size,
      s.writeBuf.read offset size (s.base store) = readAt f.draft.content offset size := by
  have hr := h.tracks.refines hsettled
  rw [← h.base] at hr
  exact ⟨hr.materialize, hr.read⟩

/-- The size the handle reports. -/
theorem effectiveSize (h : DraftShown store s f) :
    s.writeBuf.effectiveSize (if s.baseCacheLoaded then s.baseCache.length else s.baseSize) =
      f.draft.content.length := by
  have hsize : (if s.baseCacheLoaded then s.baseCache.length else s.baseSize) =
      f.draft.base.length := by
    cases hloaded : s.baseCacheLoaded with
    | false => exact h.size hloaded
    | true => rw [← h.base, FhState.base_of_loaded hloaded, if_pos rfl]
  rw [hsize]
  exact h.tracks.size

theorem edit (h : DraftShown store s f) (op : Lib.FileOp UInt8) (hop : op.reach < 2 ^ 64) :
    DraftShown store { s with writeBuf := s.writeBuf.onBuffer op }
      { f with draft := f.draft.edit op } where
  tree := h.tree
  path := h.path
  stale := h.stale
  based := h.based.setWriteBuf _
  base := (FhState.base_setWriteBuf s store _).trans h.base
  tracks := by
    have hsound : s.writeBuf.Sound := ⟨h.tracks.sound.spaced, h.tracks.sound.bounded⟩
    have hstep := h.tracks.step op
    rw [WriteBuffer.onBuffer_baseSize hsound] at hstep
    rw [Draft.content_edit, funext fun pos => Draft.cutAt_edit f.draft op pos]
    exact hstep
  dirty := by rw [WriteBuffer.isDirty_onBuffer, Draft.dirty_edit, h.dirty]
  size := h.size
  bound := by
    rw [Draft.content_edit]
    exact Draft.length_onFile_lt h.bound hop

/-- A draft that was just saved. -/
theorem tracks_saved (data : Bytes) (buf : WriteBuffer) (hbuf : buf.overlay = [])
    (hsize : buf.sizeOverride = none) :
    WriteBuffer.Tracks data { buf with baseSize := data.length } data fun _ => false where
  sound := ⟨by rw [hbuf]; exact ⟨List.Pairwise.nil, fun _ he => (by cases he)⟩,
    fun _ hn => by cases hsize.symm.trans hn⟩
  baseSize := rfl
  size := by simp [WriteBuffer.effectiveSize, WriteBuffer.overlaySize, hbuf, hsize]
  bytes := fun _ => by rw [hbuf]; rfl
  uncovered := fun _ hcut => by cases hcut

theorem flushed (h : DraftShown store s f) (hash : Hash) :
    DraftShown store' (s.flushed hash f.draft.content) { f with draft := f.draft.saved } where
  tree := h.tree
  path := h.path
  stale := h.stale
  based := ⟨Or.inl rfl, by rw [FhState.base_of_loaded rfl]; exact h.bound⟩
  base := FhState.base_of_loaded rfl store'
  tracks := tracks_saved f.draft.content _ rfl rfl
  dirty := WriteBuffer.isDirty_clear _
  size := fun hnot => by cases hnot
  bound := h.bound

end DraftShown

/-- A new handle stands for a file just opened. -/
theorem draftShown_newFh {d : Daemon} {store : ObjectStore} (b : Nat) (br : BranchContext)
    (path : FsPath) (data : Bytes) {hash : Hash} {knownEmpty : Bool}
    (hdata : knownEmpty = true ∧ data = [] ∨
      knownEmpty = false ∧ blobContent store hash = some data) :
    DraftShown store (d.newFh b br path hash data.length knownEmpty)
      ⟨b, path, ⟨data, []⟩, false⟩ := by
  have hbase : (d.newFh b br path hash data.length knownEmpty).Based store ∧
      (d.newFh b br path hash data.length knownEmpty).base store = data := by
    rcases hdata with ⟨rfl, rfl⟩ | ⟨rfl, hdata⟩
    · exact ⟨⟨Or.inl rfl, by rw [FhState.base_of_loaded rfl]; simp [Daemon.newFh]⟩, rfl⟩
    · have hlen := length_blobContent hdata
      have heq : (d.newFh b br path hash data.length false).base store = data := by
        unfold blobContent at hdata
        split at hdata
        · rename_i hz
          simpa [FhState.base, FhState.ensureBaseCache, Daemon.newFh, hz] using hdata
        · rename_i hz
          simp [FhState.base, FhState.ensureBaseCache, Daemon.newFh, hz, hdata]
      refine ⟨⟨?_, heq.symm ▸ hlen⟩, heq⟩
      unfold blobContent at hdata
      split at hdata
      · rename_i hz
        exact Or.inr (Or.inl hz)
      · exact Or.inr (Or.inr ⟨data, hdata⟩)
  exact {
    tree := rfl
    path := rfl
    stale := rfl
    based := hbase.1
    base := hbase.2
    tracks := DraftShown.tracks_saved data _ rfl rfl
    dirty := rfl
    size := fun _ => rfl
    bound := by rw [← hbase.2]; exact hbase.1.size }

end ContextFS
