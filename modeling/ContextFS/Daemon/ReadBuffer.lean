import ContextFS.Daemon.BufferedFile
import ContextFS.Daemon.FuseAdapter
import ContextFS.Lib.Runs

/-!
# Two ways to read

A handle that was opened for reading and has never been written to serves `cas_read_buf` from the
file of its object, which stays open: a range of the file is described and nothing is copied.
Every other handle serves it from memory, through the overlay, as `cas_read` always does.  The
flag that decides is cleared by the first write or truncate and never set again.
-/

namespace ContextFS

open Std Lib ObjectStore WorkingTree

/-! ## Views of objects -/

/-- `BlobView`: the file of an object, which nobody writes to, and the payload size of its
header. -/
structure BlobView where
  file : Bytes
  payloadSize : Nat

/-- `BlobView::kPayloadOffset`: the tag and the size. -/
def BlobView.payloadOffset : Nat := 12

inductive OpenError
  | errno (e : Errno)
  | eoverflow
deriving DecidableEq

/-- `open_blob`. -/
def ObjectStore.openBlob (s : ObjectStore) (h : Hash) : Except OpenError BlobView :=
  match s.objects[h]? with
  | none => .error (.errno .eio)
  | some f =>
      if f.raw.length < BlobView.payloadOffset then .error (.errno .eio)
      else if f.raw.take 4 ≠ ObjectTag.blob.bytes then .error (.errno .eio)
      else
        let payloadSize := decodeLe (slice f.raw 4 8)
        if 2 ^ 63 - 1 - BlobView.payloadOffset < payloadSize then .error .eoverflow
        else if f.raw.length ≠ BlobView.payloadOffset + payloadSize then .error (.errno .eio)
        else .ok ⟨f.raw, payloadSize⟩

/-- `fuse_bufvec` with its single buffer: a range of an open file, or memory. -/
inductive ReadBuf
  | fd (file : Bytes) (pos count : Nat)
  | memory (data : Bytes)

/-- The bytes a buffer describes. -/
def ReadBuf.bytes : ReadBuf → Bytes
  | .fd file pos count => readAt file pos count
  | .memory data => data

/-- `make_fd_read_buf`, for an offset that is not negative. -/
def makeFdReadBuf (view : Option BlobView) (requested offset : Nat) : Except Errno ReadBuf :=
  match view with
  | none => .error .eio
  | some view =>
      let bounded := min offset view.payloadSize
      let remaining := if offset < view.payloadSize then view.payloadSize - offset else 0
      let count := min remaining requested
      .ok (.fd view.file (BlobView.payloadOffset + bounded) count)

/-- What `cas_read` leaves in the buffer of its caller, and the `int` it returns. -/
structure ReadReply where
  data : Bytes
  returned : Int

/-- A `size_t` converted to `int`. -/
def asInt (n : Nat) : Int := Int.bmod n (2 ^ 32)

/-- A `uint64_t` converted to `off_t`. -/
def asOffT (n : Nat) : Int := Int.bmod n (2 ^ 64)

/-- The bytes the caller takes from the reply; a negative result is an error. -/
def ReadReply.bytes (r : ReadReply) : Option Bytes :=
  if r.returned < 0 then none else some (r.data.take r.returned.toNat)

/-! ## A handle -/

/-- `FhState` with what it needs for reading. -/
structure ReadFh where
  state : FhState
  fdReadEligible : Bool := false
  blobView : Option BlobView := none

/-- The store, the tree of the branch and one of its handles. -/
structure ReadState where
  store : ObjectStore
  wt : WorkingTree
  fh : ReadFh

/-- `O_TRUNC`. -/
def wantsTrunc (flags : UInt32) : Bool := flags &&& 0o1000 ≠ 0

/-- `O_ACCMODE` is `O_WRONLY`. -/
def writeOnly (flags : UInt32) : Bool := flags &&& 3 = 1

/-- The part of `FhState` that opening fills in. -/
def openedState (branchId : Nat) (pinned : Hash) (path : FsPath) (base : Hash) (baseSize : Nat)
    (knownEmpty : Bool) : FhState where
  path := path
  branchId := branchId
  pinnedCommit := pinned
  baseBlob := base
  baseSize := baseSize
  baseCacheLoaded := knownEmpty
  writeBuf := { baseSize := baseSize }

/-- `cas_open` below its path checks. -/
def openFh [Blake3] (store : ObjectStore) (wt : WorkingTree) (branchId : Nat) (pinned : Hash)
    (path : FsPath) (flags : UInt32) : Except OpenError ReadState :=
  match wt.lookup path with
  | none => .error (.errno .enoent)
  | some e =>
      if e.kind ≠ .blob then .error (.errno .eisdir)
      else if wantsTrunc flags then
        let w := store.writeBlob []
        .ok {
          store := w.1
          wt := wt.insert path ⟨.blob, w.2, e.mode⟩
          fh := { state := openedState branchId pinned path w.2 0 true } }
      -- a file without an object is empty, and has no view
      else if e.hash = zeroHash then
        .ok { store := store, wt := wt,
              fh := { state := openedState branchId pinned path e.hash 0 false } }
      else
        match store.openBlob e.hash with
        | .error err => .error err
        | .ok view =>
            .ok {
              store := store
              wt := wt
              fh := {
                state := openedState branchId pinned path e.hash view.payloadSize false
                fdReadEligible := !writeOnly flags
                blobView := if writeOnly flags then none else some view } }

/-- `cas_create` below its path checks. -/
def createFh [Blake3] (store : ObjectStore) (wt : WorkingTree) (branchId : Nat) (pinned : Hash)
    (path : FsPath) (mode : UInt32) : ReadState :=
  let w := store.writeBlob []
  { store := w.1
    wt := wt.insert path ⟨.blob, w.2, (mode &&& modePerm) ||| 0o100000⟩
    fh := { state := openedState branchId pinned path w.2 0 true } }

namespace ReadState

/-- The state with another handle. -/
def withState (st : ReadState) (s : FhState) : ReadState :=
  { st with fh := { st.fh with state := s } }

/-- `ensure_base_cache`. -/
def ensureBaseCache (st : ReadState) : ReadState :=
  st.withState (st.fh.state.ensureBaseCache st.store)

/-- `cas_read`. -/
def casRead (st : ReadState) (offset size : Nat) : Except Errno ReadReply × ReadState :=
  if st.fh.state.stale then (.error .estale, st)
  else
    let st := st.ensureBaseCache
    let data := st.fh.state.writeBuf.read offset size st.fh.state.baseCache
    (.ok ⟨data, asInt data.length⟩, st)

/-- `make_overlay_read_buf`, for an offset that is not negative. -/
def makeOverlayReadBuf (st : ReadState) (size offset : Nat) : Except Errno ReadBuf × ReadState :=
  let st := st.ensureBaseCache
  (.ok (.memory (st.fh.state.writeBuf.read offset size st.fh.state.baseCache)), st)

/-- `cas_read_buf`, for an offset that is not negative. -/
def casReadBuf (st : ReadState) (size offset : Nat) : Except Errno ReadBuf × ReadState :=
  if st.fh.state.stale then (.error .estale, st)
  else if st.fh.fdReadEligible then (makeFdReadBuf st.fh.blobView size offset, st)
  else st.makeOverlayReadBuf size offset

/-- A mutation through the handle: `cas_write` and `cas_truncate`. -/
def mutate (st : ReadState) (f : WriteBuffer → WriteBuffer) : ReadState :=
  if st.fh.state.stale then st
  else
    { st with fh := { st.fh with
      fdReadEligible := false
      state := { st.fh.state with writeBuf := f st.fh.state.writeBuf } } }

/-- `cas_flush`, and what `flush_fhs_for_branch` does when it comes to the handle. -/
def flush [Blake3] (st : ReadState) : ReadState :=
  if st.fh.state.stale || !st.fh.state.writeBuf.isDirty then st
  else
    let data := st.fh.state.flushData st.store
    let w := st.store.writeBlob data
    if w.2 = zeroHash then { st.ensureBaseCache with store := w.1 }
    else
      { st.withState (st.fh.state.flushed w.2 data) with
        store := w.1
        wt := insertFlushed st.wt st.fh.state.path w.2 }

/-- The size a handle has: its base under its write buffer. -/
def size (st : ReadState) : Nat := st.fh.state.writeBuf.effectiveSize st.fh.state.baseSize

/-- The size `cas_getattr` reports through the handle. -/
def casGetattrFh (st : ReadState) : Except Errno Int :=
  if st.fh.state.stale then .error .estale
  else
    match st.wt.lookup st.fh.state.path with
    | none => .error .enoent
    | some e =>
        match e.kind with
        | .tree => .ok 0
        | .blob => .ok (asOffT st.size)
        | .symlink => .ok (asOffT st.size)
        | _ => .error .enoent

end ReadState

/-- What happens to the handle, and to the store around it. -/
inductive ReadEvent
  | read (offset size : Nat)
  | readBuf (size offset : Nat)
  | write (offset : Nat) (data : Bytes)
  | truncate (length : Nat)
  | flush
  | invalidate
  | others (store : ObjectStore)

/-- The base of the handle is readable in `store` as it is now. -/
def ReadState.BaseStays (st : ReadState) (store : ObjectStore) : Prop :=
  st.fh.state.baseCacheLoaded = false → st.fh.state.baseBlob ≠ zeroHash →
    store.readBlob st.fh.state.baseBlob = st.store.readBlob st.fh.state.baseBlob

/-- One event; the store changes under a handle in any way that leaves its base readable. -/
inductive ReadStep [Blake3] : ReadState → ReadEvent → ReadState → Prop
  | read (st : ReadState) (offset size : Nat) :
      ReadStep st (.read offset size) (st.casRead offset size).2
  | readBuf (st : ReadState) (size offset : Nat) :
      ReadStep st (.readBuf size offset) (st.casReadBuf size offset).2
  | write (st : ReadState) (offset : Nat) (data : Bytes) :
      ReadStep st (.write offset data) (st.mutate fun b => b.write offset data)
  | truncate (st : ReadState) (length : Nat) :
      ReadStep st (.truncate length) (st.mutate fun b => b.truncate length)
  | flush (st : ReadState) : ReadStep st .flush st.flush
  | invalidate (st : ReadState) :
      ReadStep st .invalidate (st.withState { st.fh.state with stale := true })
  | others (st : ReadState) {store : ObjectStore} (h : st.BaseStays store) :
      ReadStep st (.others store) { st with store := store }

/-- A handle that was just opened or created. -/
inductive JustOpened [Blake3] : ReadState → Prop
  | opened {store wt branchId pinned path flags st}
      (h : openFh store wt branchId pinned path flags = .ok st) : JustOpened st
  | created (store wt branchId pinned path mode) :
      JustOpened (createFh store wt branchId pinned path mode)

/-- The two answers to one request say the same. -/
inductive SameAnswer : Except Errno ReadBuf → Except Errno ReadReply → Prop
  | bytes {buf : ReadBuf} {reply : ReadReply} (h : reply.bytes = some buf.bytes) :
      SameAnswer (.ok buf) (.ok reply)
  | refused (e : Errno) : SameAnswer (.error e) (.error e)

/-! ## Views and reads -/

theorem asInt_of_lt {n : Nat} (h : n < 2 ^ 31) : asInt n = n := by
  refine Int.bmod_eq_of_le_mul_two ?_ ?_
  · have hnonneg := Int.natCast_nonneg n
    norm_num
    omega
  · norm_num at h ⊢
    omega

theorem asInt_lt (n : Nat) : asInt n < 2 ^ 31 := by
  have hlt := Int.bmod_lt (x := (n : Int)) (show 0 < 2 ^ 32 by norm_num)
  norm_num at hlt
  exact hlt

theorem asOffT_of_lt {n : Nat} (h : n < 2 ^ 63) : asOffT n = n := by
  refine Int.bmod_eq_of_le_mul_two ?_ ?_
  · norm_num
    omega
  · norm_num at h ⊢
    omega

/-- The reply carries its data exactly if the number of bytes fits an `int`. -/
theorem ReadReply.bytes_eq_iff (data : Bytes) :
    (ReadReply.mk data (asInt data.length)).bytes = some data ↔ data.length < 2 ^ 31 := by
  unfold ReadReply.bytes
  dsimp only
  constructor
  · intro h
    split at h
    · cases h
    · have hlen := congrArg List.length (Option.some.inj h)
      rw [List.length_take] at hlen
      have hlt := asInt_lt data.length
      omega
  · intro h
    rw [asInt_of_lt h, if_neg (by omega), Int.toNat_natCast, List.take_length]

/-- A view that could be opened shows what `read_blob` reads. -/
theorem readBlob_of_openBlob {s : ObjectStore} {h : Hash} {view : BlobView}
    (hview : s.openBlob h = .ok view) :
    view.payloadSize = (view.file.drop BlobView.payloadOffset).length ∧
      s.readBlob h = some (view.file.drop BlobView.payloadOffset) := by
  unfold ObjectStore.openBlob at hview
  split at hview
  · cases hview
  rename_i f hf
  split at hview
  · cases hview
  rename_i hlong
  split at hview
  · cases hview
  rename_i htag
  simp only at hview
  split at hview
  · cases hview
  split at hview
  · cases hview
  rename_i hsize
  cases hview
  simp only [BlobView.payloadOffset, Nat.not_lt, ne_eq, not_not] at hlong htag hsize ⊢
  refine ⟨by rw [List.length_drop]; omega, ?_⟩
  have hprefix : ObjectTag.blob.bytes.isPrefixOf f.raw = true := by
    rw [List.isPrefixOf_iff_prefix, ← htag]
    exact List.take_prefix ..
  have htagLen : ObjectTag.blob.bytes.length = 4 := rfl
  have hslice : slice (f.raw.drop 4) 0 8 = slice f.raw 4 8 := by
    simp [slice]
  unfold ObjectStore.readBlob ObjectStore.readObject
  rw [hf]
  simp only [if_true, hprefix, htagLen, List.length_drop, hslice, List.drop_drop]
  rw [if_neg (by omega), if_neg (by omega)]

/-- A buffer nothing was written to shows the base. -/
theorem read_of_untouched {b : WriteBuffer} (hoverlay : b.overlay = [])
    (hoverride : b.sizeOverride = none) (base : Bytes) (offset size : Nat) :
    b.read offset size base = readAt base offset size := by
  have heff : b.effectiveSize base.length = base.length := by
    simp [WriteBuffer.effectiveSize, hoverride, hoverlay, WriteBuffer.overlaySize]
  obtain ⟨hlen, hbyte⟩ := WriteBuffer.read_spec b base offset size
  rw [heff] at hlen hbyte
  have hlenAt : (readAt base offset size).length = min size (base.length - offset) := by
    rw [readAt, List.length_take, List.length_drop]
  refine ext_byteAt (hlen.trans hlenAt.symm) fun pos hpos => ?_
  rw [hlen] at hpos
  rw [hbyte pos hpos, readByte_eq, hoverlay, readAt, byteAt_take, if_pos (by omega), byteAt_drop]
  rfl

/-- The range of the file that a view describes is the range of the payload. -/
theorem readAt_view (view : BlobView) (size offset : Nat)
    (hsize : view.payloadSize = (view.file.drop BlobView.payloadOffset).length) :
    ∃ buf, makeFdReadBuf (some view) size offset = .ok buf ∧
      buf.bytes = readAt (view.file.drop BlobView.payloadOffset) offset size := by
  refine ⟨_, rfl, ?_⟩
  generalize hbase : view.file.drop BlobView.payloadOffset = base at hsize ⊢
  show readAt view.file (BlobView.payloadOffset + min offset view.payloadSize) (min
    (if offset < view.payloadSize then view.payloadSize - offset else 0) size) = _
  have hdrop : ∀ n, view.file.drop (BlobView.payloadOffset + n) = base.drop n := by
    intro n
    rw [← hbase, List.drop_drop]
  rw [readAt, readAt, hdrop, hsize]
  by_cases hlt : offset < base.length
  · rw [if_pos hlt, Nat.min_eq_left (Nat.le_of_lt hlt), Nat.min_comm, ← List.take_take,
      List.take_of_length_le (show (base.drop offset).length ≤ base.length - offset by
        rw [List.length_drop])]
  · rw [if_neg hlt, List.drop_of_length_le (show base.length ≤ offset by omega)]
    simp

/-! ## The handle over its base -/

/-- The base of the handle is `base`: that is its size, what is cached of it and what its object
holds.  An eligible handle has an untouched buffer and a view of the base. -/
structure ReadState.Over (st : ReadState) (base : Bytes) : Prop where
  size : st.fh.state.baseSize = base.length
  loaded : st.fh.state.baseCacheLoaded = true → st.fh.state.baseCache = base
  unloaded : st.fh.state.baseCacheLoaded = false → st.fh.state.baseCache = [] ∧
    (st.fh.state.baseBlob = zeroHash → base = []) ∧
    (st.fh.state.baseBlob ≠ zeroHash → st.store.readBlob st.fh.state.baseBlob = some base)
  eligible : st.fh.fdReadEligible = true → st.fh.state.writeBuf.overlay = [] ∧
    st.fh.state.writeBuf.sizeOverride = none ∧ st.fh.state.writeBuf.isDirty = false ∧
    ∃ view, st.fh.blobView = some view ∧
      view.payloadSize = (view.file.drop BlobView.payloadOffset).length ∧
      view.file.drop BlobView.payloadOffset = base
  listed : ∃ e, st.wt.lookup st.fh.state.path = some e ∧ e.kind = .blob

namespace ReadState

variable {st : ReadState} {base : Bytes}

theorem Over.baseCache_ensureBaseCache (h : st.Over base) :
    (st.fh.state.ensureBaseCache st.store).baseCache = base ∧
      (st.fh.state.ensureBaseCache st.store).baseCacheLoaded = true ∧
      (st.fh.state.ensureBaseCache st.store).baseSize = st.fh.state.baseSize ∧
      (st.fh.state.ensureBaseCache st.store).writeBuf = st.fh.state.writeBuf ∧
      (st.fh.state.ensureBaseCache st.store).path = st.fh.state.path := by
  unfold FhState.ensureBaseCache
  cases hloaded : st.fh.state.baseCacheLoaded with
  | true =>
      rw [if_pos rfl]
      exact ⟨h.loaded hloaded, hloaded, rfl, rfl, rfl⟩
  | false =>
      obtain ⟨hcache, hzero, hread⟩ := h.unloaded hloaded
      rw [if_neg Bool.false_ne_true]
      by_cases hz : st.fh.state.baseBlob = zeroHash
      · rw [if_pos hz]
        exact ⟨hcache.trans (hzero hz).symm, rfl, rfl, rfl, rfl⟩
      · rw [if_neg hz]
        refine ⟨?_, rfl, rfl, rfl, rfl⟩
        show (st.store.readBlob st.fh.state.baseBlob).getD _ = base
        rw [hread hz, Option.getD_some]

theorem Over.ensureBaseCache (h : st.Over base) : st.ensureBaseCache.Over base := by
  obtain ⟨hcache, hloaded, hsize, hbuf, hpath⟩ := h.baseCache_ensureBaseCache
  constructor
  case size => exact hsize.trans h.size
  case loaded => exact fun _ => hcache
  case unloaded =>
    intro hunloaded
    cases hloaded.symm.trans hunloaded
  case eligible =>
    intro heligible
    show (st.fh.state.ensureBaseCache st.store).writeBuf.overlay = [] ∧
      (st.fh.state.ensureBaseCache st.store).writeBuf.sizeOverride = none ∧
      (st.fh.state.ensureBaseCache st.store).writeBuf.isDirty = false ∧ _
    rw [hbuf]
    exact h.eligible heligible
  case listed =>
    show ∃ e, st.wt.lookup (st.fh.state.ensureBaseCache st.store).path = some e ∧ _
    rw [hpath]
    exact h.listed

theorem Over.mutate (h : st.Over base) (f : WriteBuffer → WriteBuffer) :
    (st.mutate f).Over base := by
  unfold ReadState.mutate
  split
  · exact h
  · exact ⟨h.size, h.loaded, h.unloaded, fun heligible => (by cases heligible), h.listed⟩

theorem Over.invalidate (h : st.Over base) :
    (st.withState { st.fh.state with stale := true }).Over base :=
  ⟨h.size, h.loaded, h.unloaded, h.eligible, h.listed⟩

theorem Over.others (h : st.Over base) {store : ObjectStore} (hstays : st.BaseStays store) :
    ({ st with store := store } : ReadState).Over base := by
  refine ⟨h.size, h.loaded, fun hunloaded => ?_, h.eligible, h.listed⟩
  obtain ⟨hcache, hzero, hread⟩ := h.unloaded hunloaded
  exact ⟨hcache, hzero, fun hz => (hstays hunloaded hz).trans (hread hz)⟩

/-- A flush keeps the base or gives the handle what it wrote for a new one. -/
theorem Over.flush [Blake3] (h : st.Over base) : ∃ base', st.flush.Over base' := by
  unfold ReadState.flush
  split
  · exact ⟨base, h⟩
  rename_i hdirty
  simp only [Bool.or_eq_true, Bool.not_eq_true', not_or, Bool.not_eq_true, Bool.not_eq_false]
    at hdirty
  have hineligible : st.fh.fdReadEligible = false := by
    cases heligible : st.fh.fdReadEligible with
    | false => rfl
    | true =>
        have hclean := (h.eligible heligible).2.2.1
        rw [hdirty.2] at hclean
        cases hclean
  dsimp only
  split
  · refine ⟨base, ?_⟩
    have hkept := h.ensureBaseCache
    have hloaded := h.baseCache_ensureBaseCache.2.1
    refine ⟨hkept.size, hkept.loaded, fun hunloaded => ?_, hkept.eligible, hkept.listed⟩
    cases hloaded.symm.trans hunloaded
  · refine ⟨st.fh.state.flushData st.store, rfl, fun _ => rfl, fun hunloaded => ?_,
      fun heligible => ?_, ?_⟩
    · cases hunloaded
    · cases hineligible.symm.trans heligible
    · refine ⟨_, (lookup_insert st.wt _ _ _ (show EntryKind.blob ≠ .deleted by decide)).trans
        (if_pos rfl), rfl⟩

theorem Over.step [Blake3] {st' : ReadState} {e : ReadEvent} (h : st.Over base)
    (hs : ReadStep st e st') : ∃ base', st'.Over base' := by
  cases hs with
  | read offset size =>
      refine ⟨base, ?_⟩
      unfold casRead
      split
      · exact h
      · exact h.ensureBaseCache
  | readBuf size offset =>
      refine ⟨base, ?_⟩
      unfold casReadBuf
      split
      · exact h
      split
      · exact h
      · exact h.ensureBaseCache
  | write offset data => exact ⟨base, h.mutate _⟩
  | truncate length => exact ⟨base, h.mutate _⟩
  | flush => exact h.flush
  | invalidate => exact ⟨base, h.invalidate⟩
  | others hstays => exact ⟨base, h.others hstays⟩

theorem over_of_justOpened [Blake3] (h : JustOpened st) : ∃ base, st.Over base := by
  cases h with
  | created store wt branchId pinned path mode =>
      refine ⟨[], rfl, fun _ => rfl, fun h => (by cases h), fun h => (by cases h), ?_⟩
      exact ⟨_, (lookup_insert wt path path _ (show EntryKind.blob ≠ .deleted by decide)).trans
        (if_pos rfl), rfl⟩
  | @opened store wt branchId pinned path flags _ h =>
      unfold openFh at h
      split at h
      · cases h
      rename_i e he
      split at h
      · cases h
      rename_i hkind
      have hblob : e.kind = .blob := not_not.1 hkind
      split at h
      · cases h
        refine ⟨[], rfl, fun _ => rfl, fun h => (by cases h), fun h => (by cases h), ?_⟩
        exact ⟨_, (lookup_insert wt path path _ (show EntryKind.blob ≠ .deleted by decide)).trans
          (if_pos rfl), rfl⟩
      split at h
      · rename_i hz
        cases h
        exact ⟨[], rfl, fun h => (by cases h), fun _ => ⟨rfl, fun _ => rfl, fun hne => (hne hz).elim⟩,
          fun h => (by cases h), e, he, hblob⟩
      rename_i hnonzero
      split at h
      · cases h
      rename_i view hview
      cases h
      obtain ⟨hsize, hread⟩ := readBlob_of_openBlob hview
      refine ⟨view.file.drop BlobView.payloadOffset, hsize, fun h => (by cases h),
        fun _ => ⟨rfl, fun hz => ?_, fun _ => hread⟩, fun heligible => ?_, e, he, hblob⟩
      · exact (hnonzero hz).elim
      · change (!writeOnly flags) = true at heligible
        rw [Bool.not_eq_true'] at heligible
        refine ⟨rfl, rfl, rfl, view, ?_, hsize, rfl⟩
        show (if writeOnly flags then none else some view) = some view
        rw [heligible, if_neg Bool.false_ne_true]

/-- Both reads give what the buffer shows over the base, and the same refusals; the reply of
`cas_read` has to tell their number in an `int`. -/
theorem Over.sameAnswer_iff (h : st.Over base) (offset size : Nat) :
    SameAnswer (st.casReadBuf size offset).1 (st.casRead offset size).1 ↔
      st.fh.state.stale = true ∨ min size (st.size - offset) < 2 ^ 31 := by
  obtain ⟨hcache, -, -, hbuf, -⟩ := h.baseCache_ensureBaseCache
  have hlen : (st.fh.state.writeBuf.read offset size base).length =
      min size (st.size - offset) := by
    rw [ReadState.size, h.size]
    exact (WriteBuffer.read_spec ..).1
  unfold casReadBuf casRead
  cases hstale : st.fh.state.stale with
  | true => exact iff_of_true (.refused _) (Or.inl rfl)
  | false =>
      simp only [Bool.false_eq_true, if_false, false_or]
      have hread : (st.ensureBaseCache.fh.state.writeBuf.read offset size
          st.ensureBaseCache.fh.state.baseCache) = st.fh.state.writeBuf.read offset size base := by
        show (st.fh.state.ensureBaseCache st.store).writeBuf.read offset size
          (st.fh.state.ensureBaseCache st.store).baseCache = _
        rw [hcache, hbuf]
      rw [hread, ← hlen, ← ReadReply.bytes_eq_iff]
      have hiff : ∀ buf : ReadBuf, buf.bytes = st.fh.state.writeBuf.read offset size base →
          (SameAnswer (.ok buf) (.ok ⟨st.fh.state.writeBuf.read offset size base,
              asInt (st.fh.state.writeBuf.read offset size base).length⟩) ↔
            (ReadReply.mk (st.fh.state.writeBuf.read offset size base)
              (asInt (st.fh.state.writeBuf.read offset size base).length)).bytes =
              some (st.fh.state.writeBuf.read offset size base)) := by
        intro buf hbytes
        constructor
        · rintro ⟨hsame⟩
          rw [hsame, hbytes]
        · intro hsame
          exact .bytes (hsame.trans (congrArg some hbytes.symm))
      cases heligible : st.fh.fdReadEligible with
      | true =>
          obtain ⟨hoverlay, hoverride, -, view, hview, hsize, hbase⟩ := h.eligible heligible
          obtain ⟨buf, hbuf, hbytes⟩ := readAt_view view size offset hsize
          rw [if_pos rfl, hview, hbuf]
          refine hiff buf ?_
          rw [hbytes, hbase, read_of_untouched hoverlay hoverride]
      | false =>
          rw [if_neg Bool.false_ne_true]
          exact hiff _ hread

/-- The bytes of a buffer end at the size of the handle. -/
theorem Over.length_bytes (h : st.Over base) {offset size : Nat} {buf : ReadBuf}
    (hbuf : (st.casReadBuf size offset).1 = .ok buf) :
    buf.bytes.length = min size (st.size - offset) := by
  obtain ⟨hcache, -, -, hwrite, -⟩ := h.baseCache_ensureBaseCache
  have hlen : (st.fh.state.writeBuf.read offset size base).length =
      min size (st.size - offset) := by
    rw [ReadState.size, h.size]
    exact (WriteBuffer.read_spec ..).1
  unfold casReadBuf at hbuf
  split at hbuf
  · cases hbuf
  split at hbuf
  · rename_i heligible
    obtain ⟨hoverlay, hoverride, -, view, hview, hsize, hbase⟩ := h.eligible heligible
    obtain ⟨buf', hbuf', hbytes⟩ := readAt_view view size offset hsize
    rw [hview, hbuf'] at hbuf
    cases hbuf
    rw [hbytes, hbase, ← read_of_untouched hoverlay hoverride, hlen]
  · cases hbuf
    rw [← hlen, ← hcache, ← hwrite]
    rfl

/-- Through the handle, its size is reported. -/
theorem Over.casGetattrFh_eq (h : st.Over base) {n : Int} (hn : st.casGetattrFh = .ok n) :
    n = asOffT st.size := by
  obtain ⟨e, he, hkind⟩ := h.listed
  unfold ReadState.casGetattrFh at hn
  split at hn
  · cases hn
  rw [he] at hn
  simp only [hkind] at hn
  exact (Except.ok.inj hn).symm

end ReadState

/-- At every point of a handle's life and for every request, `cas_read_buf` describes the bytes
that `cas_read` returns, provided an `int` can tell their number; and the size `fstat` reports,
provided an `off_t` can hold it, is where the reads end. -/
theorem casReadBuf_agrees [Blake3] {st : ReadState} (h : Reaches JustOpened ReadStep st) :
    (∀ offset size, min size (st.size - offset) < 2 ^ 31 →
      SameAnswer (st.casReadBuf size offset).1 (st.casRead offset size).1) ∧
    ∀ n, st.casGetattrFh = .ok n → st.size < 2 ^ 63 → ∀ offset size buf,
      (st.casReadBuf size offset).1 = .ok buf →
      (buf.bytes.length : Int) = min (size : Int) (max 0 (n - offset)) := by
  obtain ⟨base, hover⟩ : ∃ base, st.Over base :=
    h.invariant (fun _ => ReadState.over_of_justOpened) fun _ _ _ ⟨_, hover⟩ hs => hover.step hs
  constructor
  · intro offset size hcount
    exact (hover.sameAnswer_iff offset size).2 (Or.inr hcount)
  · intro n hn hsize offset size buf hbuf
    rw [hover.casGetattrFh_eq hn, asOffT_of_lt hsize, hover.length_bytes hbuf]
    omega

/-! ## A request for more than an `int` -/

section LargeRead

local instance largeReadDigest : Blake3 := foldDigest

/-- A new file of 2^31 zeros, never written. -/
def sparseFile : ReadState :=
  (createFh {} {} 0 zeroHash [[97]] 0o644).mutate fun b => b.truncate (2 ^ 31)

theorem reaches_sparseFile : Reaches JustOpened ReadStep sparseFile :=
  .step (.start (.created {} {} 0 zeroHash [[97]] 0o644)) (.truncate _ _)

/-- The number of bytes is negative as an `int`. -/
theorem large_reads_differ : ¬ ∀ st, Reaches JustOpened ReadStep st → ∀ offset size,
    SameAnswer (st.casReadBuf size offset).1 (st.casRead offset size).1 := by
  intro h
  obtain ⟨base, hover⟩ : ∃ base, sparseFile.Over base :=
    reaches_sparseFile.invariant (fun _ => ReadState.over_of_justOpened)
      fun _ _ _ ⟨_, hover⟩ hs => hover.step hs
  have hsize : sparseFile.size = 2 ^ 31 := rfl
  have hstale : sparseFile.fh.state.stale = false := rfl
  rcases (hover.sameAnswer_iff 0 (2 ^ 31)).1 (h _ reaches_sparseFile 0 (2 ^ 31)) with hs | hlt
  · rw [hstale] at hs
    cases hs
  · rw [hsize] at hlt
    omega

/-- One byte of the sparse file. -/
theorem casReadBuf_agrees_sparseFile :
    (∀ offset size, min size (sparseFile.size - offset) < 2 ^ 31 →
      SameAnswer (sparseFile.casReadBuf size offset).1 (sparseFile.casRead offset size).1) ∧
    ∀ n, sparseFile.casGetattrFh = .ok n → sparseFile.size < 2 ^ 63 → ∀ offset size buf,
      (sparseFile.casReadBuf size offset).1 = .ok buf →
      (buf.bytes.length : Int) = min (size : Int) (max 0 (n - offset)) :=
  casReadBuf_agrees reaches_sparseFile

end LargeRead

end ContextFS
