import ContextFS.Daemon.BufferBounds
import ContextFS.Daemon.MergeBranch
import ContextFS.Lib.DisjointWrites
import ContextFS.Lib.Runs

/-!
# Several handles of one file

A flush lays the writes of a handle over the content the handle took for its base, when it was
opened or last flushed, and puts the whole of it at the path.  What another handle has put there
since survives only as far as that base shows it.  As long as every flush finds the base in
agreement with the file wherever the handle has not written, the file collects the writes of all
handles.
-/

namespace ContextFS

open Std Lib ObjectStore WorkingTree

/-! ## What a buffer holds after some writes -/

namespace WriteBuffer

/-- The buffer shows the bytes of some writes and nothing else. -/
structure Holds (b : WriteBuffer) (W : Set (FileWrite UInt8)) : Prop where
  wellFormed : b.WellFormed
  noSize : b.sizeOverride = none
  written : ∀ w ∈ W, ∀ pos, w.Covers pos → overlayAt b.overlay pos = some (byteAt w.2 (pos - w.1))
  kept : ∀ pos, (∀ w ∈ W, ¬ w.Covers pos) → overlayAt b.overlay pos = none

variable {b : WriteBuffer} {W : Set (FileWrite UInt8)}

theorem holds_empty (hover : b.overlay = []) (hsize : b.sizeOverride = none)
    (hdirty : b.dirtyBytes = 0) : b.Holds ∅ where
  wellFormed := {
    sound := ⟨by rw [hover]; exact ⟨List.Pairwise.nil, fun _ he => (by cases he)⟩,
      fun n hn => by rw [hsize] at hn; cases hn⟩
    dirty := by rw [hover, hdirty]; rfl
    ends := fun e he => by rw [hover] at he; cases he
    size := fun n hn => by rw [hsize] at hn; cases hn }
  noSize := hsize
  written := fun _ hw => absurd hw (Set.notMem_empty _)
  kept := fun _ _ => by rw [hover]; rfl

/-- Without an explicit size a write sets none: the extent it leaves reaches its end. -/
theorem sizeOverride_write (h : b.Sound) (hnone : b.sizeOverride = none) (offset : Nat)
    (data : Bytes) : (b.write offset data).sizeOverride = none := by
  unfold write
  split
  · exact hnone
  rename_i hlen
  simp only
  have hsplit := touchSplit_of_spaced h.spaced
    (show offset < offset + data.length by omega) rfl rfl
  have hspaced := spaced_merged h.spaced (by omega) hsplit
  have hends := ends_merged hsplit
  generalize (splitAt b.overlay offset).1 ++ _ :: _ = overlay at *
  have hend : offset + data.length ≤ overlaySize overlay b.baseSize :=
    ((hends _).1 ((overlaySize_le hspaced b.baseSize _).1 (Nat.le_refl _)).2).1
  rw [if_neg]
  · exact hnone
  · unfold effectiveSize
    simp only [hnone, Option.getD_none]
    omega

theorem Holds.write (h : b.Holds W) {offset : Nat} {data : Bytes}
    (hapart : ∀ w ∈ W, w.Apart (offset, data)) (hend : offset + data.length < 2 ^ 63) :
    (b.write offset data).Holds (insert (offset, data) W) := by
  obtain ⟨-, -, -, hover⟩ := write_spec h.wellFormed.sound offset data
  refine ⟨(write_wellFormed h.wellFormed hend).2,
    sizeOverride_write h.wellFormed.sound h.noSize offset data, ?_, ?_⟩
  · rintro w (rfl | hw) pos hpos
    · rw [hover]
      exact if_pos hpos
    · have hout : ¬ (offset ≤ pos ∧ pos < offset + data.length) := hapart w hw pos hpos
      rw [hover, if_neg hout, h.written w hw pos hpos]
  · intro pos hnone
    have hout : ¬ (offset ≤ pos ∧ pos < offset + data.length) :=
      hnone (offset, data) (Or.inl rfl)
    rw [hover, if_neg hout, h.kept pos fun w hw => hnone w (Or.inr hw)]

theorem Holds.covered (h : b.Holds W) {pos : Nat} :
    overlayAt b.overlay pos ≠ none ↔ ∃ w ∈ W, w.Covers pos := by
  constructor
  · intro hsome
    by_contra hnone
    exact hsome (h.kept pos fun w hw hpos => hnone ⟨w, hw, hpos⟩)
  · rintro ⟨w, hw, hpos⟩
    rw [h.written w hw pos hpos]
    exact Option.some_ne_none _

/-- The buffer ends where its base or the last covered position does. -/
theorem Holds.effectiveSize_le (h : b.Holds W) (baseSize n : Nat) :
    b.effectiveSize baseSize ≤ n ↔ baseSize ≤ n ∧ ∀ w ∈ W, ∀ pos, w.Covers pos → pos < n := by
  have hspaced := h.wellFormed.sound.spaced
  have hcov : ∀ pos, (∃ e ∈ b.overlay, e.1 ≤ pos ∧ pos < extentEnd e) ↔
      ∃ w ∈ W, w.Covers pos := by
    intro pos
    rw [← h.covered]
    constructor
    · exact overlayAt_isSome
    · intro hsome
      by_contra hnone
      refine hsome (overlayAt_eq_none fun e he => ?_)
      by_contra hin
      exact hnone ⟨e, he, by omega⟩
  unfold effectiveSize
  rw [h.noSize, Option.getD_none, overlaySize_le hspaced]
  refine and_congr_right fun _ => ?_
  constructor
  · intro hends w hw pos hpos
    obtain ⟨e, he, hin⟩ := (hcov pos).2 ⟨w, hw, hpos⟩
    have hend := hends e he
    omega
  · intro hin e he
    -- the last byte of the extent comes from a write
    have hlen := List.length_pos_iff.2 (hspaced.2 e he)
    obtain ⟨w, hw, hpos⟩ := (hcov (e.1 + e.2.length - 1)).1
      ⟨e, he, by omega, by change _ < e.1 + e.2.length; omega⟩
    have hlt := hin w hw _ hpos
    show e.1 + e.2.length ≤ n
    omega

theorem Holds.materialize (h : b.Holds W) (base : Bytes) :
    Overlaid W base (b.materialize base) := by
  obtain ⟨hlen, hbyte⟩ := b.materialize_spec base
  have hsize := h.effectiveSize_le base.length
  have hin := ((hsize _).1 (Nat.le_refl _))
  refine ⟨fun w hw pos hpos => ?_, fun pos hnone => ?_, fun n => ?_⟩
  · rw [hbyte pos (hin.2 w hw pos hpos), readByte_eq, h.written w hw pos hpos, Option.getD_some]
  · by_cases hpos : pos < b.effectiveSize base.length
    · rw [hbyte pos hpos, readByte_eq, h.kept pos hnone, Option.getD_none]
    · rw [byteAt_of_le (by omega), byteAt_of_le (by omega)]
  · rw [hlen]
    exact hsize n

/-- A buffer that is not dirty holds nothing that counts. -/
theorem Holds.eq_nil_of_clean (h : b.Holds W) (hclean : b.isDirty = false) :
    ∀ w ∈ W, w.2 = [] := by
  intro w hw
  by_contra hne
  have hpos := List.length_pos_iff.2 hne
  have hsome := h.covered.2 ⟨w, hw, show w.Covers w.1 from ⟨Nat.le_refl _, by omega⟩⟩
  have hbytes : extentBytes b.overlay = 0 := by
    have hzero : b.dirtyBytes = 0 := by simpa [isDirty, h.noSize] using hclean
    rw [← h.wellFormed.dirty, hzero]
  cases hover : b.overlay with
  | nil =>
      rw [hover] at hsome
      exact hsome rfl
  | cons e es =>
      have hlen := List.length_pos_iff.2 (h.wellFormed.sound.spaced.2 e (by simp [hover]))
      rw [hover, extentBytes_cons] at hbytes
      omega

end WriteBuffer

/-! ## A handle over its base -/

namespace FhState

/-- An open handle of a branch on a path that is not stale. -/
def OnFile (s : FhState) (b : Nat) (path : FsPath) : Prop :=
  s.branchId = b ∧ s.path = path ∧ s.stale = false

instance (s : FhState) (b : Nat) (path : FsPath) : Decidable (s.OnFile b path) :=
  inferInstanceAs (Decidable (_ ∧ _ ∧ _))

/-- What the handle lays its writes over. -/
def base (s : FhState) (store : ObjectStore) : Bytes := (s.ensureBaseCache store).baseCache

/-- Over `content` the buffer shows the same bytes as over the base of the handle. -/
structure Agrees (s : FhState) (store : ObjectStore) (content : Bytes) : Prop where
  size : s.writeBuf.effectiveSize content.length =
    s.writeBuf.effectiveSize (s.base store).length
  bytes : ∀ pos, overlayAt s.writeBuf.overlay pos = none →
    byteAt content pos = byteAt (s.base store) pos

/-- What was written through the first handle, the base of the second one shows already. -/
def Yields (s s' : FhState) (store : ObjectStore) : Prop :=
  ∀ pos v, overlayAt s.writeBuf.overlay pos = some v →
    pos < s'.writeBuf.effectiveSize (s'.base store).length ∧ byteAt (s'.base store) pos = v

/-- The base can be read, and its size is a word. -/
structure Based (s : FhState) (store : ObjectStore) : Prop where
  readable : s.baseCacheLoaded = true ∨ s.baseBlob = zeroHash ∨
    ∃ data, store.readBlob s.baseBlob = some data
  size : (s.base store).length < 2 ^ 64

variable {s : FhState} {store store' : ObjectStore} {W : Set (FileWrite UInt8)}

theorem Based.base_eq (h : s.Based store) (he : Extends store store') :
    s.base store' = s.base store := by
  unfold base ensureBaseCache
  by_cases hloaded : s.baseCacheLoaded = true
  · rw [if_pos hloaded, if_pos hloaded]
  · rw [if_neg hloaded, if_neg hloaded]
    by_cases hzero : s.baseBlob = zeroHash
    · rw [if_pos hzero, if_pos hzero]
    · obtain ⟨data, hdata⟩ := (h.readable.resolve_left hloaded).resolve_left hzero
      rw [if_neg hzero, if_neg hzero, hdata, he.readBlob hdata]

theorem Based.mono (h : s.Based store) (he : Extends store store') : s.Based store' where
  readable := by
    rcases h.readable with hloaded | hzero | ⟨data, hdata⟩
    · exact Or.inl hloaded
    · exact Or.inr (Or.inl hzero)
    · exact Or.inr (Or.inr ⟨data, he.readBlob hdata⟩)
  size := by
    rw [h.base_eq he]
    exact h.size

theorem ensureBaseCache_loaded (s : FhState) (store : ObjectStore) :
    (s.ensureBaseCache store).baseCacheLoaded = true := by
  unfold ensureBaseCache
  split
  · assumption
  · split <;> rfl

theorem base_of_loaded (h : s.baseCacheLoaded = true) (store : ObjectStore) :
    s.base store = s.baseCache := by
  unfold base ensureBaseCache
  rw [if_pos h]

theorem Based.setWriteBuf (h : s.Based store) (writeBuf : WriteBuffer) :
    FhState.Based { s with writeBuf := writeBuf } store where
  readable := h.readable
  size := by
    have hbase : FhState.base { s with writeBuf := writeBuf } store = s.base store := by
      unfold base FhState.ensureBaseCache
      split
      · rfl
      · split <;> rfl
    rw [hbase]
    exact h.size

theorem Based.ensureBaseCache (h : s.Based store) (store' : ObjectStore) :
    (s.ensureBaseCache store).Based store' where
  readable := Or.inl (s.ensureBaseCache_loaded store)
  size := by
    rw [base_of_loaded (s.ensureBaseCache_loaded store)]
    exact h.size

/-- The content a flush writes is that of the current file with the writes of the handle on top,
exactly when the base agrees with the file wherever the handle has not written. -/
theorem overlaid_flushData_iff (h : s.writeBuf.Holds W) {content : Bytes} :
    Overlaid W content (s.flushData store) ↔ s.Agrees store content := by
  have hover : Overlaid W (s.base store) (s.flushData store) := h.materialize _
  constructor
  · intro hcontent
    refine ⟨eq_of_forall_ge_iff fun n => ?_, fun pos hpos => ?_⟩
    · rw [h.effectiveSize_le, h.effectiveSize_le, ← hcontent.size, hover.size]
    · have hnone : ∀ w ∈ W, ¬ w.Covers pos := fun w hw hcov =>
        h.covered.2 ⟨w, hw, hcov⟩ hpos
      rw [← hcontent.kept pos hnone, hover.kept pos hnone]
  · intro hagrees
    refine ⟨hover.written, fun pos hnone => ?_, fun n => ?_⟩
    · rw [hover.kept pos hnone, hagrees.bytes pos (h.kept pos hnone)]
    · rw [hover.size, ← h.effectiveSize_le, ← h.effectiveSize_le, hagrees.size]

/-- A handle that yields nothing of a second one's writes still agrees with the file after these
were flushed. -/
theorem Agrees.after {s' : FhState} {W' : Set (FileWrite UInt8)} {content content' : Bytes}
    (h' : s'.Agrees store content) (hW : s.writeBuf.Holds W) (hW' : s'.writeBuf.Holds W')
    (hyields : s.Yields s' store) (hover : Overlaid W content content') :
    s'.Agrees store content' := by
  have hcovered : ∀ w ∈ W, ∀ pos, w.Covers pos →
      pos < s'.writeBuf.effectiveSize (s'.base store).length ∧
        byteAt (s'.base store) pos = byteAt w.2 (pos - w.1) := fun w hw pos hpos =>
    hyields pos _ (hW.written w hw pos hpos)
  refine ⟨eq_of_forall_ge_iff fun n => ?_, fun pos hpos => ?_⟩
  · rw [← h'.size, hW'.effectiveSize_le, hW'.effectiveSize_le, hover.size]
    constructor
    · rintro ⟨⟨hlen, -⟩, hin'⟩
      exact ⟨hlen, hin'⟩
    · rintro ⟨hlen, hin'⟩
      refine ⟨⟨hlen, fun w hw pos hpos => ?_⟩, hin'⟩
      have hlt := (hcovered w hw pos hpos).1
      rw [← h'.size] at hlt
      exact hlt.trans_le ((hW'.effectiveSize_le _ _).2 ⟨hlen, hin'⟩)
  · by_cases hcov : ∃ w ∈ W, w.Covers pos
    · obtain ⟨w, hw, hcov⟩ := hcov
      rw [hover.written w hw pos hcov, (hcovered w hw pos hcov).2]
    · rw [hover.kept pos fun w hw hcov' => hcov ⟨w, hw, hcov'⟩, h'.bytes pos hpos]

end FhState
/-! ## The file and the handles on it -/

/-- What a blob hash stands for; the null hash is left behind by an empty blob that could not be
written. -/
def blobContent (store : ObjectStore) (h : Hash) : Option Bytes :=
  if h = zeroHash then some [] else store.readBlob h

/-- The content of the regular file at a path. -/
def fileContent (store : ObjectStore) (wt : WorkingTree) (path : FsPath) : Option Bytes :=
  match wt.lookup path with
  | none => none
  | some e => if e.kind = .blob then blobContent store e.hash else none

theorem fileContent_extends {store store' : ObjectStore} {wt : WorkingTree} {path : FsPath}
    {content : Bytes} (h : fileContent store wt path = some content)
    (he : Extends store store') : fileContent store' wt path = some content := by
  unfold fileContent at *
  cases hl : wt.lookup path with
  | none =>
      rw [hl] at h
      cases h
  | some e =>
      simp only [hl] at h ⊢
      split at h
      · rename_i hk
        rw [if_pos hk]
        unfold blobContent at *
        split at h
        · rename_i hz
          rw [if_pos hz]
          exact h
        · rename_i hz
          rw [if_neg hz]
          exact he.readBlob h
      · cases h

theorem fileContent_insert (store : ObjectStore) (wt : WorkingTree) (path : FsPath) (h : Hash)
    (mode : UInt32) :
    fileContent store (wt.insert path ⟨.blob, h, mode⟩) path = blobContent store h := by
  unfold fileContent
  rw [lookup_insert _ _ _ _ (by simp), if_pos rfl]
  rfl

theorem fileContent_insert_of_ne (store : ObjectStore) (wt : WorkingTree) {path path' : FsPath}
    (hne : path' ≠ path) (h : Hash) (mode : UInt32) :
    fileContent store (wt.insert path' ⟨.blob, h, mode⟩) path = fileContent store wt path := by
  unfold fileContent
  rw [lookup_insert _ _ _ _ (by simp), if_neg hne]

/-- The file has a content, and every handle on it holds its share of the writes. -/
structure Shared (b : Nat) (path : FsPath) (store : ObjectStore) (fhs : FhTable) (wt : WorkingTree)
    (content : Bytes) (held : Nat → Set (FileWrite UInt8)) : Prop where
  file : fileContent store wt path = some content
  handle : ∀ (fh : Nat) s, fhs[fh]? = some s → s.OnFile b path →
    s.writeBuf.Holds (held fh) ∧ s.Based store
  held_open : ∀ (fh : Nat) w, w ∈ held fh → ∃ s, fhs[fh]? = some s ∧ s.OnFile b path

namespace Shared

variable {b : Nat} {path : FsPath} {store store' : ObjectStore} {fhs : FhTable} {wt : WorkingTree}
  {content : Bytes} {held : Nat → Set (FileWrite UInt8)}

theorem mono (h : Shared b path store fhs wt content held) (he : Extends store store') :
    Shared b path store' fhs wt content held where
  file := fileContent_extends h.file he
  handle := fun fh s hs hon => ⟨(h.handle fh s hs hon).1, (h.handle fh s hs hon).2.mono he⟩
  held_open := h.held_open

theorem of_file {wt' : WorkingTree} {content' : Bytes}
    (h : Shared b path store fhs wt content held)
    (hfile : fileContent store wt' path = some content') :
    Shared b path store fhs wt' content' held where
  file := hfile
  handle := h.handle
  held_open := h.held_open

/-- One handle is replaced, or a new one opened. -/
theorem setHandle (h : Shared b path store fhs wt content held) {fh : Nat} {s : FhState}
    {W : Set (FileWrite UInt8)} (hs : s.OnFile b path → s.writeBuf.Holds W ∧ s.Based store)
    (hW : ∀ w ∈ W, s.OnFile b path) :
    Shared b path store (fhs.insert fh s) wt content (Function.update held fh W) where
  file := h.file
  handle := by
    intro k s' hk hon
    rw [ExtTreeMap.getElem?_insert] at hk
    by_cases hkf : fh = k
    · subst hkf
      rw [if_pos (by simp)] at hk
      cases hk
      rw [Function.update_self]
      exact hs hon
    · rw [if_neg (by simpa using hkf)] at hk
      rw [Function.update_of_ne (Ne.symm hkf)]
      exact h.handle k s' hk hon
  held_open := by
    intro k w hw
    rcases Ledger.mem_update.1 hw with ⟨rfl, hin⟩ | ⟨hne, hin⟩
    · exact ⟨s, by simp, hW w hin⟩
    · obtain ⟨s', hs', hon⟩ := h.held_open k w hin
      refine ⟨s', ?_, hon⟩
      rw [ExtTreeMap.getElem?_insert, if_neg (by simpa using hne.symm)]
      exact hs'

/-- Replacing a handle by one that holds the same. -/
theorem setHandle_same (h : Shared b path store fhs wt content held) {fh : Nat} {s s' : FhState}
    (hs : fhs[fh]? = some s) (hon : s'.OnFile b path ↔ s.OnFile b path)
    (hs' : s'.OnFile b path → s'.writeBuf.Holds (held fh) ∧ s'.Based store) :
    Shared b path store (fhs.insert fh s') wt content held := by
  have hins : Shared b path store (fhs.insert fh s') wt content
      (Function.update held fh (held fh)) := h.setHandle hs' fun w hw => by
    obtain ⟨s₀, hs₀, hon₀⟩ := h.held_open fh w hw
    obtain rfl : s = s₀ := Option.some.inj (hs.symm.trans hs₀)
    exact hon.2 hon₀
  rwa [Function.update_eq_self] at hins

theorem erase (h : Shared b path store fhs wt content held) (fh : Nat) :
    Shared b path store (fhs.erase fh) wt content (Function.update held fh ∅) where
  file := h.file
  handle := by
    intro k s hk hon
    rw [ExtTreeMap.getElem?_erase] at hk
    by_cases hkf : fh = k
    · subst hkf
      simp at hk
    · rw [if_neg (by simpa using hkf)] at hk
      rw [Function.update_of_ne (Ne.symm hkf)]
      exact h.handle k s hk hon
  held_open := by
    intro k w hw
    rcases Ledger.mem_update.1 hw with ⟨-, hw⟩ | ⟨hne, hw⟩
    · exact absurd hw (Set.notMem_empty _)
    · obtain ⟨s, hs, hon⟩ := h.held_open k w hw
      refine ⟨s, ?_, hon⟩
      rw [ExtTreeMap.getElem?_erase, if_neg (by simpa using hne.symm)]
      exact hs

/-- The base of a handle is loaded. -/
theorem loaded (h : Shared b path store fhs wt content held) {fh : Nat} {s : FhState}
    (hs : fhs[fh]? = some s) :
    Shared b path store (fhs.insert fh (s.ensureBaseCache store)) wt content held := by
  obtain ⟨hpath, hbranch, hstale, hbuf, -⟩ := s.ensureBaseCache_spec store
  have hon : (s.ensureBaseCache store).OnFile b path ↔ s.OnFile b path := by
    unfold FhState.OnFile
    rw [hpath, hbranch, hstale]
  refine h.setHandle_same hs hon fun hon' => ?_
  obtain ⟨hholds, hbased⟩ := h.handle fh s hs (hon.1 hon')
  rw [hbuf]
  exact ⟨hholds, hbased.ensureBaseCache store⟩

/-- A write goes to the buffer of its handle. -/
theorem written (h : Shared b path store fhs wt content held) {fh offset : Nat} {data : Bytes}
    {s : FhState} (hs : fhs[fh]? = some s) (hon : s.OnFile b path)
    (hapart : ∀ w ∈ held fh, w.Apart (offset, data)) (hend : offset + data.length < 2 ^ 63) :
    Shared b path store (fhs.insert fh { s with writeBuf := s.writeBuf.write offset data }) wt
      content (Function.update held fh (insert (offset, data) (held fh))) := by
  obtain ⟨hholds, hbased⟩ := h.handle fh s hs hon
  exact h.setHandle (fun _ => ⟨hholds.write hapart hend, hbased.setWriteBuf _⟩) fun _ _ => hon

end Shared

section Flushing

variable [Blake3]

/-- What is known of a file some of whose writes are still in the buffers of its handles. -/
structure Progress (b : Nat) (path : FsPath) (initial : Bytes) (issued : List (FileWrite UInt8))
    (store : ObjectStore) (fhs : FhTable) (wt : WorkingTree) (content : Bytes)
    (held : Nat → Set (FileWrite UInt8)) (landed : Set (FileWrite UInt8)) : Prop where
  shared : Shared b path store fhs wt content held
  ledger : Ledger issued landed held
  overlaid : Overlaid landed initial content

/-- The same without the bookkeeping. -/
def Collecting (b : Nat) (path : FsPath) (initial : Bytes) (issued : List (FileWrite UInt8))
    (store : ObjectStore) (fhs : FhTable) (wt : WorkingTree) : Prop :=
  ∃ content held landed, Progress b path initial issued store fhs wt content held landed

variable {b : Nat} {path : FsPath} {initial : Bytes} {issued : List (FileWrite UInt8)}
  {store : ObjectStore} {fhs : FhTable} {wt : WorkingTree} {content : Bytes}
  {held : Nat → Set (FileWrite UInt8)} {landed : Set (FileWrite UInt8)}

omit [Blake3] in
theorem length_flushData_lt {s : FhState} {W : Set (FileWrite UInt8)} (h : s.writeBuf.Holds W)
    (hbased : s.Based store) : (s.flushData store).length < 2 ^ 64 := by
  have hlen := (s.writeBuf.materialize_spec (s.base store)).1
  have hlt : s.writeBuf.effectiveSize (s.base store).length < word :=
    h.wellFormed.effectiveSize_lt hbased.size
  show (s.writeBuf.materialize (s.base store)).length < 2 ^ 64
  rw [hlen]
  exact hlt

/-- A content that could not be written leaves the handle with its base loaded. -/
theorem Progress.unwritten
    (h : Progress b path initial issued store fhs wt content held landed) {fh : Nat} {s : FhState}
    (hs : fhs[fh]? = some s) (tag : ObjectTag) (body : Bytes) :
    Progress b path initial issued (store.writeObject tag body).1
      (fhs.insert fh (s.ensureBaseCache store)) wt content held landed :=
  ⟨(h.shared.loaded hs).mono (extends_writeObject store tag body), h.ledger, h.overlaid⟩

/-- A flush of a handle that agrees with the file puts its writes into the file. -/
theorem Progress.flushed
    (h : Progress b path initial issued store fhs wt content held landed) {fh : Nat} {s : FhState}
    (hs : fhs[fh]? = some s) (hneeds : s.needsFlush b = true)
    (hz : (store.writeBlob (s.flushData store)).2 ≠ zeroHash)
    (hc : (store.writeBlob (s.flushData store)).1.collided = false)
    (hagrees : s.OnFile b path → s.Agrees store content) :
    ∃ content' held' landed',
      Progress b path initial issued (store.writeBlob (s.flushData store)).1
        (fhs.insert fh (s.flushed (store.writeBlob (s.flushData store)).2 (s.flushData store)))
        (insertFlushed wt s.path (store.writeBlob (s.flushData store)).2) content' held' landed' ∧
      (content' = content ∨
        s.OnFile b path ∧ ∃ W, s.writeBuf.Holds W ∧ Overlaid W content content') := by
  obtain ⟨hbranch, hstale, -⟩ := FhState.needsFlush_iff.1 hneeds
  have he : Extends store (store.writeBlob (s.flushData store)).1 :=
    extends_writeObject store .blob _
  have hshared := h.shared.mono he
  by_cases hpath : s.path = path
  · have hon : s.OnFile b path := ⟨hbranch, hpath, hstale⟩
    obtain ⟨hholds, hbased⟩ := h.shared.handle fh s hs hon
    have hlen := length_flushData_lt hholds hbased
    have hover := (FhState.overlaid_flushData_iff hholds).2 (hagrees hon)
    have hfile : fileContent (store.writeBlob (s.flushData store)).1
        (insertFlushed wt s.path (store.writeBlob (s.flushData store)).2) path =
        some (s.flushData store) := by
      unfold insertFlushed
      rw [hpath, fileContent_insert, blobContent, if_neg hz, readBlob_writeBlob hlen hz hc]
    refine ⟨s.flushData store, Function.update held fh ∅, landed ∪ held fh, ⟨?_, h.ledger.settle fh,
      h.overlaid.union hover fun w hw w' hw' => h.ledger.landed_apart w hw fh w' hw'⟩,
      Or.inr ⟨hon, held fh, hholds, hover⟩⟩
    refine (hshared.of_file hfile).setHandle (fun _ => ⟨WriteBuffer.holds_empty rfl rfl rfl, ?_⟩)
      fun w hw => absurd hw (Set.notMem_empty _)
    refine ⟨Or.inl rfl, ?_⟩
    rw [FhState.base_of_loaded rfl]
    exact hlen
  · have hfile : fileContent (store.writeBlob (s.flushData store)).1
        (insertFlushed wt s.path (store.writeBlob (s.flushData store)).2) path = some content := by
      unfold insertFlushed
      rw [fileContent_insert_of_ne _ _ hpath]
      exact hshared.file
    refine ⟨content, held, landed, ⟨?_, h.ledger, h.overlaid⟩, Or.inl rfl⟩
    have hoff : ∀ s' : FhState, s'.path = s.path → ¬ s'.OnFile b path := fun s' heq hon =>
      hpath (heq ▸ hon.2.1)
    exact (hshared.of_file hfile).setHandle_same hs
      ⟨fun hon => absurd hon (hoff _ rfl), fun hon => absurd hon (hoff _ rfl)⟩
      fun hon => absurd hon (hoff _ rfl)

/-! ## The flush of a checkpoint -/

/-- What is asked of the dirty handles of a file that are flushed one after the other. -/
structure SweepAgrees (b : Nat) (path : FsPath) (store : ObjectStore) (fhs : FhTable)
    (content : Bytes) (order : List Nat) : Prop where
  agrees : ∀ fh ∈ order, ∀ s, fhs[fh]? = some s → s.OnFile b path →
    s.writeBuf.isDirty = true → s.Agrees store content
  yields : order.Pairwise fun fh fh' => fh ≠ fh' → ∀ s s', fhs[fh]? = some s →
    fhs[fh']? = some s' → s.OnFile b path → s'.OnFile b path → s.writeBuf.isDirty = true →
    s'.writeBuf.isDirty = true → s.Yields s' store

omit [Blake3] in
theorem SweepAgrees.tail {fh : Nat} {order : List Nat}
    (h : SweepAgrees b path store fhs content (fh :: order)) :
    SweepAgrees b path store fhs content order :=
  ⟨fun k hk => h.agrees k (List.mem_cons_of_mem _ hk), (List.pairwise_cons.1 h.yields).2⟩

omit [Blake3] in
/-- The other handles still agree after one was flushed. -/
theorem SweepAgrees.flushed {fh : Nat} {s : FhState} {order : List Nat}
    (h : SweepAgrees b path store fhs content (fh :: order))
    (hshared : Shared b path store fhs wt content held) (hs : fhs[fh]? = some s)
    (hneeds : s.needsFlush b = true) {store' : ObjectStore} (he : Extends store store')
    {newBlob : Hash} {data content' : Bytes}
    (hcontent : content' = content ∨
      s.OnFile b path ∧ ∃ W, s.writeBuf.Holds W ∧ Overlaid W content content') :
    SweepAgrees b path store' (fhs.insert fh (s.flushed newBlob data)) content' order := by
  -- a handle that is still dirty is another one
  have hother : ∀ (k : Nat) s', (fhs.insert fh (s.flushed newBlob data))[k]? = some s' →
      s'.writeBuf.isDirty = true → fh ≠ k ∧ fhs[k]? = some s' := by
    intro k s' hk hdirty
    rw [ExtTreeMap.getElem?_insert] at hk
    split at hk
    · cases hk
      rw [FhState.flushed, WriteBuffer.isDirty_clear] at hdirty
      cases hdirty
    · rename_i hne
      exact ⟨fun heq => hne (by simp [heq]), hk⟩
  have hbase : ∀ (k : Nat) s', fhs[k]? = some s' → s'.OnFile b path →
      s'.base store' = s'.base store := fun k s' hk hon => (hshared.handle k s' hk hon).2.base_eq he
  refine ⟨fun k hk s' hs' hon hdirty => ?_, ?_⟩
  · obtain ⟨hne, hs'⟩ := hother k s' hs' hdirty
    have hold := h.agrees k (List.mem_cons_of_mem _ hk) s' hs' hon hdirty
    have hnew : s'.Agrees store content' := by
      rcases hcontent with rfl | ⟨hons, W, hW, hover⟩
      · exact hold
      · have hyields := (List.pairwise_cons.1 h.yields).1 k hk hne s s' hs hs' hons hon
          (FhState.needsFlush_iff.1 hneeds).2.2 hdirty
        exact hold.after hW (hshared.handle k s' hs' hon).1 hyields hover
    refine ⟨?_, fun pos hpos => ?_⟩
    · rw [hbase k s' hs' hon]
      exact hnew.size
    · rw [hbase k s' hs' hon]
      exact hnew.bytes pos hpos
  · refine (List.pairwise_cons.1 h.yields).2.imp fun {k k'} hk hne s₁ s₂ hs₁ hs₂ hon₁ hon₂ hd₁ hd₂ => ?_
    obtain ⟨-, hs₁⟩ := hother k s₁ hs₁ hd₁
    obtain ⟨-, hs₂⟩ := hother k' s₂ hs₂ hd₂
    have hyields := hk hne s₁ s₂ hs₁ hs₂ hon₁ hon₂ hd₁ hd₂
    unfold FhState.Yields at *
    rw [hbase k' s₂ hs₂ hon₂]
    exact hyields

theorem Progress.swept (order : List Nat)
    (h : Progress b path initial issued store fhs wt content held landed)
    (hsweep : SweepAgrees b path store fhs content order)
    (hc : (flushFhs b order (store, fhs, wt)).2.1.collided = false) :
    Collecting b path initial issued (flushFhs b order (store, fhs, wt)).2.1
      (flushFhs b order (store, fhs, wt)).2.2.1 (flushFhs b order (store, fhs, wt)).2.2.2 := by
  induction order generalizing store fhs wt content held landed with
  | nil => exact ⟨content, held, landed, h⟩
  | cons fh order ih =>
      cases hs : fhs[fh]? with
      | none =>
          simp only [flushFhs, hs] at hc ⊢
          exact ih h hsweep.tail hc
      | some s =>
          cases hneeds : s.needsFlush b with
          | false =>
              simp only [flushFhs, hs, hneeds, Bool.false_eq_true, if_false] at hc ⊢
              exact ih h hsweep.tail hc
          | true =>
              by_cases hz : (store.writeBlob (s.flushData store)).2 = zeroHash
              · simp only [flushFhs, hs, hneeds, hz, if_true]
                exact ⟨content, held, landed, h.unwritten hs _ _⟩
              · simp only [flushFhs, hs, hneeds, hz, if_true, if_false] at hc ⊢
                have hc₁ := (Daemon.extends_flushFhs b order _ _ _).collided_eq hc
                obtain ⟨content', held', landed', h', hcontent⟩ := h.flushed hs hneeds hz hc₁
                  fun hon => hsweep.agrees fh List.mem_cons_self s hs hon
                    (FhState.needsFlush_iff.1 hneeds).2.2
                exact ih h' (hsweep.flushed h.shared hs hneeds (extends_writeObject store .blob _)
                  hcontent) hc

/-! ## The requests -/

namespace Daemon

variable {d : Daemon} {fh : Nat} {s : FhState}

/-- The content of the regular file at a path of a branch. -/
def fileContent (d : Daemon) (b : Nat) (path : FsPath) : Option Bytes :=
  (d.tree b).bind fun wt => ContextFS.fileContent d.store wt path

/-- The file exists, and collects what is written through its handles, as far as no two contents
share a hash. -/
structure Collects (d : Daemon) (b : Nat) (path : FsPath) (initial : Bytes)
    (issued : List (FileWrite UInt8)) : Prop where
  bounded : FhBounded d
  live : d.tree b ≠ none
  collecting : d.store.collided = false → ∀ wt, d.tree b = some wt →
    Collecting b path initial issued d.store d.fhTable wt

omit [Blake3] in
theorem Collects.of_tree (hbounded : FhBounded d) (htree : d.tree b = some wt)
    (h : d.store.collided = false →
      Collecting b path initial issued d.store d.fhTable wt) :
    d.Collects b path initial issued where
  bounded := hbounded
  live := by
    rw [htree]
    exact Option.some_ne_none _
  collecting := by
    intro hc wt' hwt'
    obtain rfl := Option.some.inj (htree.symm.trans hwt')
    exact h hc

omit [Blake3] in
theorem Collects.branch (h : d.Collects b path initial issued) : ∃ br, d.branch b = some br := by
  cases hbr : d.branch b with
  | none => exact absurd (by rw [tree, hbr]; rfl) h.live
  | some br => exact ⟨br, rfl⟩

/-- The condition under which a flush of a handle keeps what other handles have put into the
file. -/
def FlushAgrees (d : Daemon) (b : Nat) (path : FsPath) (fh : Nat) : Prop :=
  ∀ s content, d.getFh fh = some s → s.writeBuf.isDirty = true →
    d.fileContent b path = some content → s.Agrees d.store content

omit [Blake3] in
theorem length_lt_of_readBlob {store : ObjectStore} {h : Hash} {data : Bytes}
    (hr : store.readBlob h = some data) : data.length < 2 ^ 64 := by
  unfold ObjectStore.readBlob at hr
  split at hr
  · cases hr
  rename_i body _
  split at hr
  · cases hr
  rename_i hlen
  split at hr
  · cases hr
  rename_i hsize
  cases hr
  have hlt := decodeLe_lt (slice body 0 8)
  rw [length_slice (by omega)] at hlt
  rw [List.length_drop]
  omega

/-- An open handle holds nothing yet. -/
theorem Collects.openFile (h : d.Collects b path initial issued) :
    Collects ((d.casOpen b path false).run d).2 b path initial issued := by
  have hbounded := ((FuseOp.openFile b path false).fhKept d).2 h.bounded
  change FhBounded ((d.casOpen b path false).run d).2 at hbounded
  have hstarted := (FuseOp.openFile b path false).started d
  change Started d _ (d.casOpen b path false) at hstarted
  generalize d.casOpen b path false = c at hbounded hstarted ⊢
  cases hstarted with
  | refused op e => exact h
  | @opened _ _ br e size hbr he hk hsize =>
      refine ⟨hbounded, h.live, fun hc wt hwt => ?_⟩
      obtain ⟨content, held, landed, hp⟩ := h.collecting hc wt hwt
      -- nobody holds anything under the new number
      have hheld : ∀ w ∈ held d.nextFhId, w.2 = [] := by
        intro w hw
        obtain ⟨s, hs, -⟩ := hp.shared.held_open _ w hw
        exact absurd (h.bounded d.nextFhId s hs) (Nat.lt_irrefl _)
      have hbased : (d.newFh b br path e.hash size false).Based d.store := by
        unfold entrySize at hsize
        by_cases hz : e.hash = zeroHash
        · refine ⟨Or.inr (Or.inl hz), ?_⟩
          simp [FhState.base, FhState.ensureBaseCache, newFh, hz]
        · rw [if_neg hz] at hsize
          cases hr : d.store.readBlob e.hash with
          | none =>
              rw [hr] at hsize
              cases hsize
          | some data =>
              refine ⟨Or.inr (Or.inr ⟨data, hr⟩), ?_⟩
              have hlen := length_lt_of_readBlob hr
              simpa [FhState.base, FhState.ensureBaseCache, newFh, hz, hr] using hlen
      exact ⟨content, _, landed, hp.shared.setHandle
        (fun _ => ⟨WriteBuffer.holds_empty rfl rfl rfl, hbased⟩)
        fun w hw => absurd hw (Set.notMem_empty _), hp.ledger.close hheld, hp.overlaid⟩

/-- A write is held by its handle. -/
theorem Collects.write (h : d.Collects b path initial issued) (hs : d.getFh fh = some s)
    (hon : s.OnFile b path) {offset : Nat} {data : Bytes}
    (hend : offset + data.length < 2 ^ 63) (hapart : ∀ w ∈ issued, w.Apart (offset, data)) :
    Collects ((d.casWrite fh offset data).run d).2 b path initial
      (issued ++ [(offset, data)]) := by
  obtain ⟨hbranch, -, hstale⟩ := id hon
  have hbounded := ((FuseOp.write fh offset data).fhKept d).2 h.bounded
  change FhBounded ((d.casWrite fh offset data).run d).2 at hbounded
  obtain ⟨br, hbr⟩ := h.branch
  have hrun : ((d.casWrite fh offset data).run d).2 =
      { d with
        fhTable := d.fhTable.insert fh { s with writeBuf := s.writeBuf.write offset data } } := by
    have hget : d.fhTable[fh]? = some s := hs
    simp [casWrite, withFh, hs, withBranch, hbranch, hbr, hstale, Critical.run, modifyFh, hget]
  rw [hrun] at hbounded ⊢
  refine ⟨hbounded, h.live, fun hc wt hwt => ?_⟩
  obtain ⟨content, held, landed, hp⟩ := h.collecting hc wt hwt
  exact ⟨content, _, landed, hp.shared.written hs hon
    (fun w hw => hapart w (hp.ledger.held_issued fh w hw)) hend, hp.ledger.issue hapart, hp.overlaid⟩

/-- What a flush of a usable handle leaves. -/
theorem casFlush_cases (hs : d.getFh fh = some s) {br : BranchContext}
    (hbr : d.branch s.branchId = some br) (hstale : s.stale = false) :
    (s.writeBuf.isDirty = false ∧ ((d.casFlush fh).run d).2 = d) ∨
      s.writeBuf.isDirty = true ∧
        ((d.store.writeBlob (s.flushData d.store)).2 = zeroHash ∧
            ((d.casFlush fh).run d).2 = {
              d with
              store := (d.store.writeBlob (s.flushData d.store)).1
              fhTable := d.fhTable.insert fh (s.ensureBaseCache d.store) } ∨
          (d.store.writeBlob (s.flushData d.store)).2 ≠ zeroHash ∧
            ((d.casFlush fh).run d).2 = {
              d with
              store := (d.store.writeBlob (s.flushData d.store)).1
              branches := d.branches.insert s.branchId { br with
                wt := insertFlushed br.wt s.path (d.store.writeBlob (s.flushData d.store)).2 }
              fhTable := d.fhTable.insert fh (s.flushed
                (d.store.writeBlob (s.flushData d.store)).2 (s.flushData d.store)) }) := by
  have hget : d.fhTable[fh]? = some s := hs
  have hbranch : d.branches[s.branchId]? = some br := hbr
  have hstart : d.casFlush fh = if !s.writeBuf.isDirty then .reply (.ok .ok) d
      else .write (s.flushData d.store) (putFlushed fh s d.store) := by
    simp [casFlush, withFh, hs, withBranch, hbr, hstale]
  rw [hstart]
  cases hdirty : s.writeBuf.isDirty with
  | false => exact Or.inl ⟨rfl, rfl⟩
  | true =>
      refine Or.inr ⟨rfl, ?_⟩
      by_cases hz : (d.store.writeBlob (s.flushData d.store)).2 = zeroHash
      · refine Or.inl ⟨hz, ?_⟩
        simp [Critical.run, putFlushed, hz, modifyFh, hget]
      · refine Or.inr ⟨hz, ?_⟩
        simp [Critical.run, putFlushed, hz, modifyFh, modifyTree, hget, hbranch]

/-- A flush of a handle that agrees with the file. -/
theorem Collects.flush (h : d.Collects b path initial issued) (hs : d.getFh fh = some s)
    (hon : s.OnFile b path) (hagrees : d.FlushAgrees b path fh) :
    Collects ((d.casFlush fh).run d).2 b path initial issued := by
  have hbounded := ((FuseOp.flush fh).fhKept d).2 h.bounded
  change FhBounded ((d.casFlush fh).run d).2 at hbounded
  obtain ⟨hbranch, hpath, hstale⟩ := hon
  obtain ⟨br, hbr⟩ := h.branch
  have htree : d.tree b = some br.wt := tree_of_branch hbr
  have hext : Extends d.store (d.store.writeBlob (s.flushData d.store)).1 :=
    extends_writeObject d.store .blob _
  rcases casFlush_cases hs (hbranch ▸ hbr) hstale with
    ⟨-, hrun⟩ | ⟨hdirty, ⟨hz, hrun⟩ | ⟨hz, hrun⟩⟩
  · rw [hrun]
    exact h
  · rw [hrun] at hbounded ⊢
    refine ⟨hbounded, h.live, fun hc wt hwt => ?_⟩
    obtain ⟨content, held, landed, hp⟩ := h.collecting (hext.collided_eq hc) wt hwt
    exact ⟨content, held, landed, hp.unwritten hs .blob _⟩
  · rw [hrun] at hbounded ⊢
    rw [hbranch] at hbounded ⊢
    refine .of_tree hbounded ((tree_of_branches_insert rfl b).trans (if_pos rfl)) fun hc => ?_
    obtain ⟨content, held, landed, hp⟩ := h.collecting (hext.collided_eq hc) br.wt htree
    have hcontent : d.fileContent b path = some content := by
      rw [fileContent, htree]
      exact hp.shared.file
    obtain ⟨content', held', landed', hp', -⟩ := hp.flushed hs
      (FhState.needsFlush_iff.2 ⟨hbranch, hstale, hdirty⟩) hz hc
      fun _ => hagrees s content hs hdirty hcontent
    exact ⟨content', held', landed', hp'⟩

omit [Blake3] in
/-- A handle without dirty bytes can go. -/
theorem Collects.close (h : d.Collects b path initial issued)
    (hclean : ∀ s, d.getFh fh = some s → s.OnFile b path → s.writeBuf.isDirty = false) :
    Collects (d.releaseFh fh) b path initial issued := by
  refine ⟨fun k s hk => ?_, h.live, fun hc wt hwt => ?_⟩
  · rw [getFh_releaseFh] at hk
    split at hk
    · cases hk
    · exact h.bounded k s hk
  · obtain ⟨content, held, landed, hp⟩ := h.collecting hc wt hwt
    refine ⟨content, _, landed, hp.shared.erase fh, hp.ledger.close fun w hw => ?_, hp.overlaid⟩
    obtain ⟨s, hs, hon⟩ := hp.shared.held_open fh w hw
    exact (hp.shared.handle fh s hs hon).1.eq_nil_of_clean (hclean s hs hon) w hw

theorem Collects.release (h : d.Collects b path initial issued) (hs : d.getFh fh = some s)
    (hon : s.OnFile b path) (hagrees : d.FlushAgrees b path fh)
    (hwritten : s.writeBuf.isDirty = true →
      (d.store.writeBlob (s.flushData d.store)).2 ≠ zeroHash) :
    Collects (d.casRelease fh).2 b path initial issued := by
  refine (h.flush hs hon hagrees).close fun s' hs' _ => ?_
  obtain ⟨hbranch, -, hstale⟩ := hon
  obtain ⟨br, hbr⟩ := h.branch
  rcases casFlush_cases hs (hbranch ▸ hbr) hstale with
    ⟨hclean, hrun⟩ | ⟨hdirty, ⟨hz, -⟩ | ⟨-, hrun⟩⟩
  · rw [hrun] at hs'
    obtain rfl := Option.some.inj (hs.symm.trans hs')
    exact hclean
  · exact absurd hz (hwritten hdirty)
  · rw [hrun] at hs'
    have hget : (d.fhTable.insert fh (s.flushed (d.store.writeBlob (s.flushData d.store)).2
        (s.flushData d.store)))[fh]? = some s' := hs'
    rw [ExtTreeMap.getElem?_insert_self] at hget
    cases hget
    exact s.writeBuf.isDirty_clear

theorem Collects.checkpoint (h : d.Collects b path initial issued) (label : Bytes)
    (order : List Nat) (timestampNs : UInt64)
    (hsweep : ∀ content, d.fileContent b path = some content →
      SweepAgrees b path d.store d.fhTable content order) :
    Collects (d.checkpointBranch b label order timestampNs).2 b path initial issued := by
  have hbounded := (fhQuiet_checkpointBranch d b label order timestampNs).bounded h.bounded
  obtain ⟨br, hbr⟩ := h.branch
  have htree : d.tree b = some br.wt := tree_of_branch hbr
  rw [checkpointBranch_eq hbr] at hbounded ⊢
  have hstore := checkpointLocked_store (d.commitMeta label timestampNs)
    (flushFhs b order (d.store, d.fhTable, br.wt)).1
    (flushFhs b order (d.store, d.fhTable, br.wt)).2.2.2 br.name
    (flushFhs b order (d.store, d.fhTable, br.wt)).2.1 d.refs
  generalize hr : checkpointLocked _ _ _ _ _ _ = r at hbounded hstore ⊢
  have hext : Extends (flushFhs b order (d.store, d.fhTable, br.wt)).2.1 r.2.1 := by
    rw [hstore]
    split
    · exact (grows_publishCommit _ _ _ _).extends_
    · exact .refl _
  refine .of_tree hbounded ((tree_of_branches_insert rfl b).trans (if_pos rfl)) fun hc => ?_
  have hc₁ := hext.collided_eq hc
  obtain ⟨content, held, landed, hp⟩ := h.collecting
    ((extends_flushFhs b order _ _ _).collided_eq hc₁) br.wt htree
  have hcontent : d.fileContent b path = some content := by
    rw [fileContent, htree]
    exact hp.shared.file
  obtain ⟨content', held', landed', hp'⟩ := hp.swept order (hsweep content hcontent) hc₁
  exact ⟨content', held', landed', hp'.shared.mono hext, hp'.ledger, hp'.overlaid⟩

end Daemon

/-! ## Runs on one file -/

/-- What is done to the handles of one file. -/
inductive FileEvent
  | openFile
  | write (fh offset : Nat) (data : Bytes)
  | flush (fh : Nat)
  | release (fh : Nat)
  | checkpoint (label : Bytes) (order : List Nat) (timestampNs : UInt64)

/-- A daemon, and the writes that were issued on the file so far, the first one first. -/
structure FileRun where
  daemon : Daemon
  issued : List (FileWrite UInt8)

namespace FileRun

/-- The file is there, and nothing was written through the handles on it that are open. -/
structure Start (b : Nat) (path : FsPath) (initial : Bytes) (r : FileRun) : Prop where
  bounded : FhBounded r.daemon
  file : r.daemon.fileContent b path = some initial
  unused : ∀ fh s, r.daemon.getFh fh = some s → s.OnFile b path →
    s.writeBuf = { baseSize := s.writeBuf.baseSize } ∧ s.Based r.daemon.store
  issued : r.issued = []

/-- What an event does. -/
def apply (b : Nat) (path : FsPath) (r : FileRun) : FileEvent → FileRun
  | .openFile => { r with daemon := ((r.daemon.casOpen b path false).run r.daemon).2 }
  | .write fh offset data =>
      { daemon := ((r.daemon.casWrite fh offset data).run r.daemon).2
        issued := r.issued ++ [(offset, data)] }
  | .flush fh => { r with daemon := ((r.daemon.casFlush fh).run r.daemon).2 }
  | .release fh => { r with daemon := (r.daemon.casRelease fh).2 }
  | .checkpoint label order timestampNs =>
      { r with daemon := (r.daemon.checkpointBranch b label order timestampNs).2 }

/-- The requests go to handles of the file.  A write ends where an offset of the kernel can, and
meets no earlier one. -/
def Allowed (b : Nat) (path : FsPath) (r : FileRun) : FileEvent → Prop
  | .openFile | .checkpoint .. => True
  | .write fh offset data => (∃ s, r.daemon.getFh fh = some s ∧ s.OnFile b path) ∧
      offset + data.length < 2 ^ 63 ∧ ∀ w ∈ r.issued, w.Apart (offset, data)
  | .flush fh | .release fh => ∃ s, r.daemon.getFh fh = some s ∧ s.OnFile b path

def Step (b : Nat) (path : FsPath) (r : FileRun) (ev : FileEvent) (r' : FileRun) : Prop :=
  r.Allowed b path ev ∧ r' = r.apply b path ev

/-- No flush meets a file that another handle has changed where this one has not written, and no
content that is released is lost. -/
def StaysCurrent (b : Nat) (path : FsPath) (r : FileRun) (ev : FileEvent) (_ : FileRun) : Prop :=
  match ev with
  | .openFile | .write .. => True
  | .flush fh => r.daemon.FlushAgrees b path fh
  | .release fh => r.daemon.FlushAgrees b path fh ∧ ∀ s, r.daemon.getFh fh = some s →
      s.writeBuf.isDirty = true → (r.daemon.store.writeBlob (s.flushData r.daemon.store)).2 ≠ zeroHash
  | .checkpoint _ order _ => ∀ content, r.daemon.fileContent b path = some content →
      SweepAgrees b path r.daemon.store r.daemon.fhTable content order

/-- All that was written through handles of the file was flushed. -/
def AllFlushed (b : Nat) (path : FsPath) (r : FileRun) : Prop :=
  ∀ fh s, r.daemon.getFh fh = some s → s.OnFile b path → s.writeBuf.isDirty = false

variable {r r' : FileRun}

omit [Blake3] in
theorem Start.collects (h : Start b path initial r) :
    r.daemon.Collects b path initial r.issued := by
  have hfile := h.file
  unfold Daemon.fileContent at hfile
  refine ⟨h.bounded, fun hnone => ?_, fun _ wt hwt => ?_⟩
  · rw [hnone] at hfile
    cases hfile
  · rw [hwt] at hfile
    rw [h.issued]
    refine ⟨initial, fun _ => ∅, ∅, ⟨hfile, fun fh s hs hon => ?_,
      fun _ _ hw => absurd hw (Set.notMem_empty _)⟩, Ledger.start, Overlaid.empty initial⟩
    obtain ⟨hbuf, hbased⟩ := h.unused fh s hs hon
    rw [hbuf]
    exact ⟨WriteBuffer.holds_empty rfl rfl rfl, hbased⟩

theorem collects_step {ev : FileEvent} (h : r.daemon.Collects b path initial r.issued)
    (hs : Step b path r ev r') (hcur : StaysCurrent b path r ev r') :
    r'.daemon.Collects b path initial r'.issued := by
  obtain ⟨hallowed, rfl⟩ := hs
  cases ev with
  | openFile => exact h.openFile
  | write fh offset data =>
      obtain ⟨⟨s, hs, hon⟩, hend, hapart⟩ := hallowed
      exact h.write hs hon hend hapart
  | flush fh =>
      obtain ⟨s, hs, hon⟩ := hallowed
      exact h.flush hs hon hcur
  | release fh =>
      obtain ⟨s, hs, hon⟩ := hallowed
      exact h.release hs hon hcur.1 (hcur.2 s hs)
  | checkpoint label order timestampNs => exact h.checkpoint label order timestampNs hcur

/-- In a run in which every flush meets the file as its handle knows it, no write is lost. -/
theorem fileContent_of_reaches
    (h : Reaches (Start b path initial) (Restrict (Step b path) (StaysCurrent b path)) r)
    (hc : r.daemon.store.collided = false) (hflushed : r.AllFlushed b path) :
    r.daemon.fileContent b path =
      some (fileAfter (r.issued.map fun w => .write w.1 w.2) initial) := by
  have hcollects : r.daemon.Collects b path initial r.issued :=
    h.invariant (I := fun r => r.daemon.Collects b path initial r.issued)
      (fun _ hstart => hstart.collects)
      fun _ _ _ hinv hstep => collects_step hinv hstep.1 hstep.2
  obtain ⟨br, hbr⟩ := hcollects.branch
  have htree := Daemon.tree_of_branch hbr
  obtain ⟨content, held, landed, hp⟩ := hcollects.collecting hc br.wt htree
  have hcontent := hp.ledger.fileAfter_of_done hp.overlaid fun fh w hw => by
    obtain ⟨s, hs, hon⟩ := hp.shared.held_open fh w hw
    exact (hp.shared.handle fh s hs hon).1.eq_nil_of_clean (hflushed fh s hs hon) w hw
  rw [Daemon.fileContent, htree, ← hcontent]
  exact hp.shared.file

end FileRun

/-- After the file was created anew, by the first of its handles, it is empty. -/
theorem FileRun.start_of_create {d : Daemon} {b : Nat} {path : FsPath} {mode : UInt32}
    (hbounded : FhBounded d) (hnone : ∀ fh s, d.getFh fh = some s → ¬ s.OnFile b path)
    (hok : ((d.casCreate b path mode).run d).1 = .ok (.handle d.nextFhId))
    (hc : ((d.casCreate b path mode).run d).2.store.collided = false) :
    FileRun.Start b path [] ⟨((d.casCreate b path mode).run d).2, []⟩ := by
  have hbounded' := ((FuseOp.create b path mode).fhKept d).2 hbounded
  change FhBounded ((d.casCreate b path mode).run d).2 at hbounded'
  have hstarted := (FuseOp.create b path mode).started d
  change Started d _ (d.casCreate b path mode) at hstarted
  generalize d.casCreate b path mode = c at hbounded' hstarted hok hc ⊢
  cases hstarted with
  | refused op e => cases hok
  | @create _ _ _ br _ hbr =>
      have hstore : (d.store.writeBlob []).1.collided = false := by
        simpa [Critical.run, Daemon.openEmpty, Daemon.allocateFh] using hc
      have htree : ((Critical.write [] (Daemon.openEmpty b br path
          ((mode &&& modePerm) ||| 0o100000))).run d).2.tree b = some (br.wt.insert path
            ⟨.blob, (d.store.writeBlob []).2, (mode &&& modePerm) ||| 0o100000⟩) := by
        have hmod := Daemon.tree_modifyTree (d := { d with store := (d.store.writeBlob []).1 }) b b
          fun wt => wt.insert path
            ⟨.blob, (d.store.writeBlob []).2, (mode &&& modePerm) ||| 0o100000⟩
        have hsame : ({ d with store := (d.store.writeBlob []).1 } : Daemon).tree b = d.tree b :=
          Daemon.tree_congr rfl b
        rw [if_pos rfl, hsame, Daemon.tree_of_branch hbr] at hmod
        exact hmod
      refine ⟨hbounded', ?_, fun fh s hs hon => ?_, rfl⟩
      · show Option.bind _ _ = _
        rw [htree]
        show ContextFS.fileContent _ (br.wt.insert path _) path = some []
        rw [fileContent_insert, blobContent]
        split
        · rfl
        · rename_i hz
          have hread : (d.store.writeBlob []).1.readBlob (d.store.writeBlob []).2 = some [] :=
            readBlob_writeBlob (by decide) hz hstore
          simpa [Critical.run, Daemon.openEmpty, Daemon.allocateFh] using hread
      · change ((Daemon.openEmpty b br path ((mode &&& modePerm) ||| 0o100000)
          (d.store.writeBlob []).2 { d with store := (d.store.writeBlob []).1 }).2).getFh fh =
          some s at hs
        rw [Daemon.openEmpty, Daemon.getFh_allocateFh] at hs
        split at hs
        · cases hs
          refine ⟨rfl, Or.inl rfl, ?_⟩
          rw [FhState.base_of_loaded rfl]
          exact Nat.two_pow_pos 64
        · rw [Daemon.getFh_modifyTree] at hs
          exact absurd hon (hnone fh s hs)

end Flushing

/-! ## Two handles with two bytes each -/

section TwoHandles

local instance sharedDigest : Blake3 := foldDigest

/-- A branch with one file of two bytes. -/
def twoBytes : FileRun where
  daemon :=
    let w := ({} : ObjectStore).writeBlob [1, 2]
    { store := w.1
      branches := (∅ : ExtTreeMap Nat BranchContext).insert 0
        ⟨Refs.mainName, ({} : WorkingTree).insert [[97]] ⟨.blob, w.2, 0o100644⟩⟩ }
  issued := []

/-- Each handle writes its byte before the other one has flushed. -/
def overlapping : List FileEvent :=
  [.openFile, .openFile, .write 1 0 [9], .write 2 1 [8], .flush 1, .flush 2]

/-- The second handle is opened when the first one has flushed. -/
def inTurn : List FileEvent :=
  [.openFile, .write 1 0 [9], .flush 1, .openFile, .write 2 1 [8], .flush 2]

def runTwoBytes (evs : List FileEvent) : FileRun := evs.foldl (FileRun.apply 0 [[97]]) twoBytes

theorem start_twoBytes : FileRun.Start 0 [[97]] [1, 2] twoBytes where
  bounded := fun fh s hs => by
    have hnone : (∅ : FhTable)[fh]? = some s := hs
    simp at hnone
  file := by decide +kernel
  unused := fun fh s hs => by
    have hnone : (∅ : FhTable)[fh]? = some s := hs
    simp at hnone
  issued := rfl

theorem reaches_runTwoBytes {S : FileRun → FileEvent → FileRun → Prop} {evs : List FileEvent}
    (ev : FileEvent) (h : Reaches (FileRun.Start 0 [[97]] [1, 2]) S (runTwoBytes evs))
    (hs : S (runTwoBytes evs) ev ((runTwoBytes evs).apply 0 [[97]] ev)) :
    Reaches (FileRun.Start 0 [[97]] [1, 2]) S (runTwoBytes (evs ++ [ev])) := by
  unfold runTwoBytes
  rw [List.foldl_append]
  exact .step h hs

theorem exists_onFile {r : FileRun} {fh : Nat}
    (h : (r.daemon.getFh fh).any (fun s => decide (s.OnFile 0 [[97]])) = true) :
    ∃ s, r.daemon.getFh fh = some s ∧ s.OnFile 0 [[97]] := by
  obtain ⟨s, hs, hon⟩ := (Option.any_eq_true _ _).1 h
  exact ⟨s, hs, of_decide_eq_true hon⟩

theorem allFlushed_of_all {r : FileRun}
    (h : r.daemon.fhTable.toList.all (fun e => !e.2.writeBuf.isDirty) = true) :
    r.AllFlushed 0 [[97]] := by
  intro fh s hs _
  have hmem : (fh, s) ∈ r.daemon.fhTable.toList := ExtTreeMap.mem_toList_iff_getElem?_eq_some.2 hs
  simpa using List.all_eq_true.1 h (fh, s) hmem

theorem flushAgrees_of_base {d : Daemon} {fh : Nat}
    (h : (d.getFh fh).all (fun s => d.fileContent 0 [[97]] == some (s.base d.store)) = true) :
    d.FlushAgrees 0 [[97]] fh := by
  intro s content hs _ hcontent
  rw [hs, Option.all_some, hcontent, beq_iff_eq] at h
  obtain rfl := Option.some.inj h
  exact ⟨rfl, fun _ _ => rfl⟩

theorem apart_twoBytes : ∀ w : FileWrite UInt8, w ∈ [(0, [9])] → w.Apart (1, [8]) := by
  intro w hw pos hpos hpos'
  rw [List.mem_singleton.1 hw] at hpos
  have hlt : pos < 0 + 1 := hpos.2
  have hle : 1 ≤ pos := hpos'.1
  omega

/-- One handle after the other: both bytes are there. -/
theorem fileContent_of_reaches_inTurn :
    (runTwoBytes inTurn).daemon.fileContent 0 [[97]] = some [9, 8] := by
  have hreach : Reaches (FileRun.Start 0 [[97]] [1, 2])
      (Restrict (FileRun.Step 0 [[97]]) (FileRun.StaysCurrent 0 [[97]])) (runTwoBytes inTurn) := by
    have h₀ : Reaches (FileRun.Start 0 [[97]] [1, 2])
        (Restrict (FileRun.Step 0 [[97]]) (FileRun.StaysCurrent 0 [[97]])) (runTwoBytes []) :=
      .start start_twoBytes
    have h₁ := reaches_runTwoBytes .openFile h₀ ⟨⟨trivial, rfl⟩, trivial⟩
    have h₂ := reaches_runTwoBytes (.write 1 0 [9]) h₁
      ⟨⟨⟨exists_onFile (by decide +kernel), by decide, fun _ hw => absurd hw List.not_mem_nil⟩, rfl⟩,
        trivial⟩
    have h₃ := reaches_runTwoBytes (.flush 1) h₂
      ⟨⟨exists_onFile (by decide +kernel), rfl⟩, flushAgrees_of_base (by decide +kernel)⟩
    have h₄ := reaches_runTwoBytes .openFile h₃ ⟨⟨trivial, rfl⟩, trivial⟩
    have h₅ := reaches_runTwoBytes (.write 2 1 [8]) h₄
      ⟨⟨⟨exists_onFile (by decide +kernel), by decide, apart_twoBytes⟩, rfl⟩, trivial⟩
    exact reaches_runTwoBytes (.flush 2) h₅
      ⟨⟨exists_onFile (by decide +kernel), rfl⟩, flushAgrees_of_base (by decide +kernel)⟩
  exact FileRun.fileContent_of_reaches hreach (by decide +kernel)
    (allFlushed_of_all (by decide +kernel))

/-- The second flush lays its byte over the content the handle was opened on. -/
theorem lost_update : ¬ ∀ (b : Nat) (path : FsPath) (initial : Bytes) (r : FileRun),
    Reaches (FileRun.Start b path initial) (FileRun.Step b path) r →
    r.daemon.store.collided = false → r.AllFlushed b path →
    r.daemon.fileContent b path =
      some (fileAfter (r.issued.map fun w => .write w.1 w.2) initial) := by
  intro hall
  have hreach : Reaches (FileRun.Start 0 [[97]] [1, 2]) (FileRun.Step 0 [[97]])
      (runTwoBytes overlapping) := by
    have h₀ : Reaches (FileRun.Start 0 [[97]] [1, 2]) (FileRun.Step 0 [[97]]) (runTwoBytes []) :=
      .start start_twoBytes
    have h₁ := reaches_runTwoBytes .openFile h₀ ⟨trivial, rfl⟩
    have h₂ := reaches_runTwoBytes .openFile h₁ ⟨trivial, rfl⟩
    have h₃ := reaches_runTwoBytes (.write 1 0 [9]) h₂
      ⟨⟨exists_onFile (by decide +kernel), by decide, fun _ hw => absurd hw List.not_mem_nil⟩, rfl⟩
    have h₄ := reaches_runTwoBytes (.write 2 1 [8]) h₃
      ⟨⟨exists_onFile (by decide +kernel), by decide, apart_twoBytes⟩, rfl⟩
    have h₅ := reaches_runTwoBytes (.flush 1) h₄ ⟨exists_onFile (by decide +kernel), rfl⟩
    exact reaches_runTwoBytes (.flush 2) h₅ ⟨exists_onFile (by decide +kernel), rfl⟩
  have hcontent := hall 0 [[97]] [1, 2] _ hreach (by decide +kernel)
    (allFlushed_of_all (by decide +kernel))
  exact absurd hcontent (by decide +kernel)

end TwoHandles
end ContextFS
