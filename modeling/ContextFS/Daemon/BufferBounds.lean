import ContextFS.Lib.CheckedWord
import ContextFS.Daemon.BufferedFile

/-!
# The machine arithmetic of the write buffer

`write`, `truncate`, `read` and `materialize` once more, with every sum and difference as the
words of the machine compute it and every `memcpy` with its source and target range.  A checked
operation has no result when a sum or difference wraps or a copy leaves one of its buffers.  As
long as writes end below 2^63, every checked operation of every run has a result, the one of the
plain operation.
-/

namespace ContextFS

open Lib

/-- `memcpy(dst + pos, src + srcPos, len)`, if both ranges lie in their buffers. -/
def memcpy (dst : Bytes) (pos : Nat) (src : Bytes) (srcPos len : Nat) : Option Bytes :=
  if pos + len ≤ dst.length ∧ srcPos + len ≤ src.length then
    some (copyInto dst pos ((src.drop srcPos).take len))
  else none

theorem memcpy_whole {dst src : Bytes} {pos : Nat} (h : pos + src.length ≤ dst.length) :
    memcpy dst pos src 0 src.length = some (copyInto dst pos src) := by
  rw [memcpy, if_pos ⟨h, Nat.le_of_eq (Nat.zero_add _)⟩, List.drop_zero, List.take_length]

namespace WriteBuffer

/-! ## The checked operations -/

/-- The search of `write`, with the end of the predecessor. -/
def splitAtChecked (overlay : List Extent) (offset : Nat) :
    Option (List Extent × List Extent) :=
  let before := overlay.takeWhile fun e => e.1 ≤ offset
  let behind := overlay.dropWhile fun e => e.1 ≤ offset
  match before.getLast? with
  | none => some (before, behind)
  | some prev => do
      let prevEnd ← addWord prev.1 prev.2.length
      if prevEnd < offset then some (before, behind)
      else some (before.dropLast, prev :: behind)

/-- The loop of `write` over the touched extents, with the dirty bytes it adds up. -/
def collectChecked (mergeEnd oldDirty : Nat) :
    List Extent → Option (List Extent × List Extent × Nat × Nat)
  | [] => some ([], [], mergeEnd, oldDirty)
  | e :: rest => do
      let eEnd ← addWord e.1 e.2.length
      if mergeEnd < e.1 then some ([], e :: rest, mergeEnd, oldDirty)
      else
        let oldDirty' ← addWord oldDirty e.2.length
        let r ← collectChecked (max mergeEnd eEnd) oldDirty' rest
        some (e :: r.1, r.2)

/-- One touched extent into the merged buffer. -/
def mergeCopy (start : Nat) (buf : Bytes) (e : Extent) : Option Bytes := do
  let pos ← subWord e.1 start
  memcpy buf pos e.2 0 e.2.length

/-- `effective_size`. -/
def effectiveSizeChecked (b : WriteBuffer) (baseSize : Nat) : Option Nat :=
  match b.sizeOverride with
  | some n => some n
  | none =>
      match b.overlay.getLast? with
      | none => some baseSize
      | some last => do
          let lastEnd ← addWord last.1 last.2.length
          some (max baseSize lastEnd)

/-- `write`. -/
def writeChecked (b : WriteBuffer) (offset : Nat) (data : Bytes) : Option WriteBuffer :=
  if data.length = 0 then some b
  else do
    let newEnd ← addWord offset data.length
    let split ← splitAtChecked b.overlay offset
    let start := mergeStart offset split.2
    let r ← collectChecked newEnd 0 split.2
    let room ← subWord r.2.2.1 start
    let merged ← r.1.foldlM (mergeCopy start) (List.replicate room 0)
    let pos ← subWord offset start
    let merged ← memcpy merged pos data 0 data.length
    let left ← subWord b.dirtyBytes r.2.2.2
    let dirty ← addWord left merged.length
    let b' := { b with overlay := split.1 ++ (start, merged) :: r.2.1, dirtyBytes := dirty }
    let eff ← effectiveSizeChecked b' b.baseSize
    some (if eff < newEnd then { b' with sizeOverride := some newEnd } else b')

/-- `truncate`. -/
def truncateChecked (b : WriteBuffer) (newSize : Nat) : Option WriteBuffer := do
  let kept := b.overlay.takeWhile fun e => e.1 < newSize
  let erased := b.overlay.dropWhile fun e => e.1 < newSize
  let dirty ← erased.foldlM (fun n e => subWord n e.2.length) b.dirtyBytes
  match kept.getLast? with
  | some last =>
      let lastEnd ← addWord last.1 last.2.length
      if newSize < lastEnd then
        let left ← subWord dirty last.2.length
        let room ← subWord newSize last.1
        let trimmed := resize last.2 room
        let dirty' ← addWord left trimmed.length
        some { b with
          overlay := kept.dropLast ++ [(last.1, trimmed)]
          sizeOverride := some newSize
          dirtyBytes := dirty' }
      else some { b with overlay := kept, sizeOverride := some newSize, dirtyBytes := dirty }
  | none => some { b with overlay := kept, sizeOverride := some newSize, dirtyBytes := dirty }

/-- One byte of the base, or zero behind it. -/
def baseByte (base : Bytes) (offset i : Nat) : Option UInt8 := do
  let pos ← addWord offset i
  some (if pos < base.length then byteAt base pos else 0)

/-- One extent into the buffer of `read`. -/
def readCopy (offset avail : Nat) (buf : Bytes) (e : Extent) : Option Bytes := do
  let ovEnd ← addWord e.1 e.2.length
  let reqEnd ← addWord offset avail
  if ovEnd ≤ offset ∨ reqEnd ≤ e.1 then some buf
  else
    let copyStart := max e.1 offset
    let copyEnd := min ovEnd reqEnd
    let pos ← subWord copyStart offset
    let srcPos ← subWord copyStart e.1
    let len ← subWord copyEnd copyStart
    memcpy buf pos e.2 srcPos len

/-- `read`. -/
def readChecked (b : WriteBuffer) (offset len : Nat) (base : Bytes) : Option Bytes := do
  let eff ← b.effectiveSizeChecked base.length
  if eff ≤ offset then some []
  else
    let left ← subWord eff offset
    let avail := min len left
    let buf ← (List.range avail).mapM (baseByte base offset)
    b.overlay.foldlM (readCopy offset avail) buf

/-- One extent into the result of `materialize`. -/
def materializeCopy (eff : Nat) (result : Bytes) (e : Extent) : Option Bytes := do
  let left ← subWord eff e.1
  memcpy result e.1 e.2 0 (min e.2.length left)

/-- `materialize`. -/
def materializeChecked (b : WriteBuffer) (base : Bytes) : Option Bytes := do
  let eff ← b.effectiveSizeChecked base.length
  let result ←
    if 0 < eff then memcpy (List.replicate eff 0) 0 base 0 (min eff base.length)
    else some (List.replicate eff 0)
  b.overlay.foldlM (materializeCopy eff) result

/-! ## What the representation guarantees -/

/-- The extents are spaced and end at the explicit size, the dirty bytes are their bytes, and all
ends and the size fit a word. -/
structure WellFormed (b : WriteBuffer) : Prop where
  sound : b.Sound
  dirty : b.dirtyBytes = extentBytes b.overlay
  ends : ∀ e ∈ b.overlay, extentEnd e < 2 ^ 63
  size : ∀ n, b.sizeOverride = some n → n < word

variable {b : WriteBuffer}

theorem lt_word {n : Nat} (h : n < 2 ^ 63) : n < word := by
  unfold word UInt64.size
  omega

theorem extentBytes_append (es es' : List Extent) :
    extentBytes (es ++ es') = extentBytes es + extentBytes es' := by
  simp [extentBytes]

theorem extentBytes_cons (e : Extent) (es : List Extent) :
    extentBytes (e :: es) = e.2.length + extentBytes es := by
  simp [extentBytes]

/-- Spaced extents between two positions have room there. -/
theorem extentBytes_le {es : List Extent} (h : Spaced es) {low high : Nat} (hle : low ≤ high)
    (hin : ∀ e ∈ es, low ≤ e.1 ∧ extentEnd e ≤ high) : low + extentBytes es ≤ high := by
  induction es generalizing low with
  | nil => exact hle
  | cons e es ih =>
      obtain ⟨hlow, hhigh⟩ := hin e List.mem_cons_self
      have hgap := (List.pairwise_cons.1 h.1).1
      have htail : Spaced es :=
        ⟨(List.pairwise_cons.1 h.1).2, fun e' he' => h.2 e' (List.mem_cons_of_mem _ he')⟩
      have hrest := ih htail hhigh fun e' he' =>
        ⟨(hgap e' he').le, (hin e' (List.mem_cons_of_mem _ he')).2⟩
      change e.1 + e.2.length + extentBytes es ≤ high at hrest
      rw [extentBytes_cons]
      omega

theorem WellFormed.extentBytes_lt (h : b.WellFormed) : extentBytes b.overlay < 2 ^ 63 := by
  have hle := extentBytes_le h.sound.spaced (Nat.zero_le (2 ^ 63 - 1)) fun e he =>
    ⟨Nat.zero_le _, by have hend := h.ends e he; omega⟩
  omega

theorem effectiveSizeChecked_eq {b : WriteBuffer} (h : ∀ e ∈ b.overlay, extentEnd e < word)
    (baseSize : Nat) : b.effectiveSizeChecked baseSize = some (b.effectiveSize baseSize) := by
  unfold effectiveSizeChecked effectiveSize overlaySize
  cases b.sizeOverride with
  | some n => rfl
  | none =>
      cases hlast : b.overlay.getLast? with
      | none => rfl
      | some last =>
          have hend := h last (List.mem_of_getLast? hlast)
          simp only [addWord_of_lt (show last.1 + last.2.length < word from hend)]
          rfl

theorem WellFormed.effectiveSize_lt (h : b.WellFormed) {baseSize : Nat} (hbase : baseSize < word) :
    b.effectiveSize baseSize < word := by
  unfold effectiveSize
  cases hs : b.sizeOverride with
  | some n => exact h.size n hs
  | none =>
      have hle := (overlaySize_le h.sound.spaced baseSize (word - 1)).2
        ⟨by omega, fun e he => by have hlt := lt_word (h.ends e he); omega⟩
      show overlaySize b.overlay baseSize < word
      omega

/-! ## A checked write -/

theorem splitAtChecked_eq {es : List Extent} (h : ∀ e ∈ es, extentEnd e < word) (offset : Nat) :
    splitAtChecked es offset = some (splitAt es offset) := by
  unfold splitAtChecked splitAt
  simp only
  cases hlast : (es.takeWhile fun e => decide (e.1 ≤ offset)).getLast? with
  | none => rfl
  | some prev =>
      have hmem := (List.takeWhile_sublist _).subset (List.mem_of_getLast? hlast)
      have hend : prev.1 + prev.2.length < word := h prev hmem
      simp only [addWord_of_lt hend]
      show (if _ then some _ else some _) = some (if _ then _ else _)
      split <;> rfl

theorem collectChecked_eq {es : List Extent} (h : ∀ e ∈ es, extentEnd e < word)
    (mergeEnd oldDirty : Nat) (hsum : oldDirty + extentBytes es < word) :
    collectChecked mergeEnd oldDirty es =
      some ((collectTouching mergeEnd es).1, (collectTouching mergeEnd es).2.1,
        (collectTouching mergeEnd es).2.2, oldDirty + extentBytes (collectTouching mergeEnd es).1) := by
  induction es generalizing mergeEnd oldDirty with
  | nil => rfl
  | cons e es ih =>
      rw [extentBytes_cons] at hsum
      have hend : e.1 + e.2.length < word := h e List.mem_cons_self
      unfold collectChecked collectTouching
      simp only [addWord_of_lt hend, Option.bind_eq_bind, Option.bind_some]
      split
      · rfl
      · rw [addWord_of_lt (by omega), Option.bind_some,
          ih (fun e' he' => h e' (List.mem_cons_of_mem _ he')) _ _ (by omega), Option.bind_some,
          extentBytes_cons, ← Nat.add_assoc]

/-- The touched extents fit the merged buffer. -/
theorem mergeCopies_eq {es before touched rest : List Extent} {offset newEnd start mergeEnd : Nat}
    (h : TouchSplit es offset newEnd before touched rest start mergeEnd) :
    touched.foldlM (mergeCopy start) (List.replicate (mergeEnd - start) 0) =
      some (touched.foldl (fun buf e => copyInto buf (e.1 - start) e.2)
        (List.replicate (mergeEnd - start) 0)) := by
  refine (foldlM_eq_some (P := fun buf => buf.length = mergeEnd - start) ?_
    (List.length_replicate ..)).1
  intro e he buf hbuf
  obtain ⟨hlow, hhigh⟩ := h.touched_in e he
  have hroom : e.1 - start + e.2.length ≤ buf.length := by
    change e.1 + e.2.length ≤ mergeEnd at hhigh
    omega
  refine ⟨?_, (length_copyInto hroom).trans hbuf⟩
  rw [mergeCopy, subWord_of_le hlow]
  exact memcpy_whole hroom

/-- A write that ends below 2^63 keeps the buffer well formed, and nothing in it wraps or leaves
a buffer. -/
theorem write_wellFormed (h : b.WellFormed) {offset : Nat} {data : Bytes}
    (hend : offset + data.length < 2 ^ 63) :
    b.writeChecked offset data = some (b.write offset data) ∧ (b.write offset data).WellFormed := by
  have hsound := (write_spec h.sound offset data).1
  unfold writeChecked
  unfold write at hsound ⊢
  split
  · exact ⟨rfl, h⟩
  rename_i hlen
  rw [if_neg hlen] at hsound
  simp only at hsound ⊢
  have hword : ∀ e ∈ b.overlay, extentEnd e < word := fun e he => lt_word (h.ends e he)
  have hbytes := h.extentBytes_lt
  have hsplit := touchSplit_of_spaced h.sound.spaced
    (show offset < offset + data.length by omega) rfl rfl
  -- the extents behind the search are some of the buffer's
  have hbehind : ∀ e ∈ (splitAt b.overlay offset).2, e ∈ b.overlay := fun e he => by
    rw [(splitAt_spec h.sound.spaced offset).1]
    exact List.mem_append_right _ he
  have hbehindBytes : 0 + extentBytes (splitAt b.overlay offset).2 < word := by
    have heq := congrArg extentBytes (splitAt_spec h.sound.spaced offset).1
    rw [extentBytes_append] at heq
    exact lt_word (by omega)
  rw [addWord_of_lt (lt_word hend), splitAtChecked_eq hword]
  simp only [Option.bind_eq_bind, Option.bind_some]
  rw [collectChecked_eq (fun e he => hword e (hbehind e he)) _ _ hbehindBytes]
  simp only [Option.bind_some]
  generalize collectTouching (offset + data.length) (splitAt b.overlay offset).2 = r at *
  generalize mergeStart offset (splitAt b.overlay offset).2 = start at *
  generalize (splitAt b.overlay offset).1 = before at *
  obtain ⟨touched, rest, mergeEnd⟩ := r
  simp only at hsplit hsound ⊢
  have hstart := hsplit.start_le
  have hmerge := hsplit.end_le
  have hmergedLen := (mergedExtent_spec hsplit).1
  have hends := (ends_merged hsplit (2 ^ 63 - 1)).2
    ⟨by omega, fun e he => by have hlt := h.ends e he; omega⟩
  have hspaced := spaced_merged h.sound.spaced (by omega) hsplit
  have hcopied : (touched.foldl (fun buf e => copyInto buf (e.1 - start) e.2)
      (List.replicate (mergeEnd - start) 0)).length = mergeEnd - start := by
    have hlen := (copyExtents_spec start touched (List.replicate (mergeEnd - start) 0)
      fun e he => by
        have hin := hsplit.touched_in e he
        rw [List.length_replicate]
        exact ⟨hin.1, by omega⟩).1
    rw [hlen, List.length_replicate]
  -- the data fit into the merged extent
  have hroom : offset - start + data.length ≤ (touched.foldl
      (fun buf e => copyInto buf (e.1 - start) e.2) (List.replicate (mergeEnd - start) 0)).length := by
    omega
  rw [subWord_of_le (by omega), Option.bind_some, mergeCopies_eq hsplit, Option.bind_some,
    subWord_of_le hstart, Option.bind_some, memcpy_whole hroom, Option.bind_some]
  have hfold : copyInto (touched.foldl (fun buf e => copyInto buf (e.1 - start) e.2)
      (List.replicate (mergeEnd - start) 0)) (offset - start) data =
      mergedExtent offset data start mergeEnd touched := rfl
  rw [hfold]
  generalize mergedExtent offset data start mergeEnd touched = merged at *
  -- the dirty bytes of the new overlay
  have hsum : b.dirtyBytes - extentBytes touched + merged.length =
      extentBytes (before ++ (start, merged) :: rest) ∧ extentBytes touched ≤ b.dirtyBytes := by
    rw [h.dirty, hsplit.overlay]
    simp only [extentBytes_append, extentBytes_cons]
    omega
  have hnew : extentBytes (before ++ (start, merged) :: rest) < word := by
    have hle := extentBytes_le hspaced (Nat.zero_le (2 ^ 63 - 1)) fun e he =>
      ⟨Nat.zero_le _, hends e he⟩
    exact lt_word (by omega)
  rw [Nat.zero_add, subWord_of_le hsum.2, Option.bind_some, addWord_of_lt (by omega),
    Option.bind_some, effectiveSizeChecked_eq fun e he =>
      lt_word (n := extentEnd e) (by have hlt := hends e he; omega), Option.bind_some]
  -- all checks passed, so both computations agree
  refine ⟨by split <;> rfl, hsound, ?_, ?_, ?_⟩
  · split
    · exact hsum.1
    · exact hsum.1
  · intro e he
    have hmem : e ∈ before ++ (start, merged) :: rest := by
      split at he
      · exact he
      · exact he
    have hlt := hends e hmem
    omega
  · intro n hn
    split at hn
    · obtain rfl : offset + data.length = n := Option.some.inj hn
      exact lt_word hend
    · exact h.size n hn

/-! ## A checked truncate -/

theorem subBytes_eq {es : List Extent} {n : Nat} (h : extentBytes es ≤ n) :
    es.foldlM (fun n e => subWord n e.2.length) n = some (n - extentBytes es) := by
  induction es generalizing n with
  | nil => rfl
  | cons e es ih =>
      rw [extentBytes_cons] at h
      rw [List.foldlM_cons, subWord_of_le (by omega), extentBytes_cons]
      show List.foldlM _ (n - e.2.length) es = _
      rw [ih (by omega), Nat.sub_sub]

theorem resize_eq_take {data : Bytes} {n : Nat} (h : n ≤ data.length) :
    resize data n = data.take n := by
  rw [resize, Nat.sub_eq_zero_of_le h, List.replicate_zero, List.append_nil]

/-- A truncate keeps the buffer well formed, and nothing in it wraps. -/
theorem truncate_wellFormed (h : b.WellFormed) {newSize : Nat} (hnew : newSize < word) :
    b.truncateChecked newSize = some (b.truncate newSize) ∧ (b.truncate newSize).WellFormed := by
  have hsound := (truncate_spec h.sound newSize).1
  have hbytes := h.extentBytes_lt
  have hsplit := List.takeWhile_append_dropWhile (p := fun e : Extent => decide (e.1 < newSize))
    (l := b.overlay)
  have hkept : ∀ e ∈ b.overlay.takeWhile fun e => decide (e.1 < newSize),
      e.1 < newSize ∧ extentEnd e < 2 ^ 63 := by
    intro e he
    exact ⟨by simpa using List.mem_takeWhile_imp he,
      h.ends e ((List.takeWhile_sublist _).subset he)⟩
  have hsize : ∀ n, some newSize = some n → n < word := fun n hn => Option.some.inj hn ▸ hnew
  have hsum := h.dirty
  rw [← hsplit, extentBytes_append] at hsum
  have hword : extentBytes b.overlay < word := lt_word hbytes
  rw [← h.dirty] at hword
  unfold truncateChecked
  unfold truncate at hsound ⊢
  simp only [Option.bind_eq_bind] at hsound ⊢
  generalize b.overlay.takeWhile (fun e => decide (e.1 < newSize)) = kept at *
  generalize b.overlay.dropWhile (fun e => decide (e.1 < newSize)) = erased at *
  rw [subBytes_eq (by omega), Option.bind_some]
  -- only the last kept extent may reach past the new size
  rcases List.eq_nil_or_concat kept with rfl | ⟨init, last, rfl⟩
  · refine ⟨rfl, hsound, ?_, fun e he => (hkept e he).2, hsize⟩
    show b.dirtyBytes - extentBytes erased = extentBytes []
    omega
  rw [List.concat_eq_append] at *
  obtain ⟨hlow, hhigh⟩ := hkept last (by simp)
  rw [extentBytes_append, extentBytes_cons, show extentBytes [] = 0 from rfl] at hsum
  simp only [List.getLast?_append, List.getLast?_singleton, Option.some_or,
    List.dropLast_concat] at hsound ⊢
  rw [addWord_of_lt (lt_word (n := extentEnd last) hhigh), Option.bind_some]
  split
  · rename_i hcut
    rw [if_pos hcut] at hsound
    change newSize < last.1 + last.2.length at hcut
    have hroom : newSize - last.1 ≤ last.2.length := by omega
    have hlen : (last.2.take (newSize - last.1)).length = newSize - last.1 := by
      rw [List.length_take, Nat.min_eq_left hroom]
    rw [subWord_of_le (by omega), Option.bind_some, subWord_of_le hlow.le, Option.bind_some,
      resize_eq_take hroom, addWord_of_lt (by omega), Option.bind_some]
    -- the dirty bytes lose the erased extents and the part cut off
    refine ⟨rfl, hsound, ?_, fun e he => ?_, hsize⟩
    · show b.dirtyBytes - extentBytes erased - last.2.length +
        (last.2.take (newSize - last.1)).length =
          extentBytes (init ++ [(last.1, last.2.take (newSize - last.1))])
      rw [extentBytes_append, extentBytes_cons, show extentBytes [] = 0 from rfl]
      dsimp only
      omega
    · rcases List.mem_append.1 he with he | he
      · exact (hkept e (by simp [he])).2
      · rw [List.mem_singleton.1 he, extentEnd, hlen]
        change last.1 + last.2.length < 2 ^ 63 at hhigh
        omega
  · rename_i hfits
    rw [if_neg hfits] at hsound
    refine ⟨rfl, hsound, ?_, fun e he => (hkept e he).2, hsize⟩
    show b.dirtyBytes - extentBytes erased = extentBytes (init ++ [last])
    rw [extentBytes_append, extentBytes_cons, show extentBytes [] = 0 from rfl]
    omega

/-! ## The checked readers -/

theorem byteAt_slice {data : Bytes} {from_ len i : Nat} (h : i < len) :
    byteAt ((data.drop from_).take len) i = byteAt data (from_ + i) := by
  rw [byteAt_take, if_pos h, byteAt_drop]

/-- What one extent changes in the buffer of a read. -/
theorem readCopy_spec {offset avail : Nat} {e : Extent} {buf : Bytes} (hbuf : buf.length = avail)
    (hend : extentEnd e < word) (hreq : offset + avail < word) :
    ∃ buf', readCopy offset avail buf e = some buf' ∧ buf'.length = avail ∧
      ∀ i < avail, byteAt buf' i =
        if e.1 ≤ offset + i ∧ offset + i < extentEnd e then byteAt e.2 (offset + i - e.1)
        else byteAt buf i := by
  change e.1 + e.2.length < word at hend
  unfold readCopy
  simp only [addWord_of_lt hend, addWord_of_lt hreq, Option.bind_eq_bind, Option.bind_some]
  by_cases hout : e.1 + e.2.length ≤ offset ∨ offset + avail ≤ e.1
  · rw [if_pos hout]
    refine ⟨buf, rfl, hbuf, fun i hi => ?_⟩
    rw [if_neg]
    intro hin
    change e.1 ≤ offset + i ∧ offset + i < e.1 + e.2.length at hin
    omega
  · rw [if_neg hout, subWord_of_le (by omega), subWord_of_le (by omega), subWord_of_le (by omega)]
    simp only [Option.bind_some]
    have hslice : max e.1 offset - e.1 + (min (e.1 + e.2.length) (offset + avail) -
        max e.1 offset) ≤ e.2.length := by omega
    have hroom : max e.1 offset - offset + (min (e.1 + e.2.length) (offset + avail) -
        max e.1 offset) ≤ buf.length := by omega
    rw [memcpy, if_pos ⟨hroom, hslice⟩]
    have hlen : ((e.2.drop (max e.1 offset - e.1)).take
        (min (e.1 + e.2.length) (offset + avail) - max e.1 offset)).length =
        min (e.1 + e.2.length) (offset + avail) - max e.1 offset := by
      rw [List.length_take, List.length_drop]
      omega
    refine ⟨_, rfl, (length_copyInto (by omega)).trans hbuf, fun i hi => ?_⟩
    rw [byteAt_copyInto (by omega), hlen]
    by_cases hin : e.1 ≤ offset + i ∧ offset + i < e.1 + e.2.length
    · rw [if_pos (by omega), if_pos hin, byteAt_slice (by omega)]
      congr 1
      omega
    · rw [if_neg (by omega), if_neg hin]

/-- The extents laid over the buffer of a read. -/
theorem readCopies_spec {offset avail : Nat} (hreq : offset + avail < word) (es : List Extent)
    (hends : ∀ e ∈ es, extentEnd e < word) (buf : Bytes) (hbuf : buf.length = avail) :
    ∃ buf', es.foldlM (readCopy offset avail) buf = some buf' ∧ buf'.length = avail ∧
      ∀ i < avail, byteAt buf' i = (overlayAt es (offset + i)).getD (byteAt buf i) := by
  induction es generalizing buf with
  | nil => exact ⟨buf, rfl, hbuf, fun i hi => rfl⟩
  | cons e es ih =>
      obtain ⟨mid, hcopy, hmid, hmidByte⟩ := readCopy_spec hbuf (hends e List.mem_cons_self) hreq
      obtain ⟨buf', hcopies, hlen, hbyte⟩ :=
        ih (fun e' he' => hends e' (List.mem_cons_of_mem _ he')) mid hmid
      rw [List.foldlM_cons, hcopy]
      refine ⟨buf', hcopies, hlen, fun i hi => ?_⟩
      rw [hbyte i hi, hmidByte i hi, overlayAt]
      cases overlayAt es (offset + i) with
      | some v => rfl
      | none =>
          rw [Option.none_or]
          split <;> rfl

/-- No read of a well-formed buffer wraps or leaves a buffer. -/
theorem readChecked_eq (h : b.WellFormed) {base : Bytes}
    (hsize : b.effectiveSize base.length < word) (offset len : Nat) :
    b.readChecked offset len base = some (b.read offset len base) := by
  have hends : ∀ e ∈ b.overlay, extentEnd e < word := fun e he => lt_word (h.ends e he)
  obtain ⟨hlen, hbyte⟩ := read_spec b base offset len
  unfold readChecked
  rw [effectiveSizeChecked_eq hends]
  simp only [Option.bind_eq_bind, Option.bind_some]
  generalize b.effectiveSize base.length = eff at *
  split
  · rename_i hle
    rw [Nat.sub_eq_zero_of_le hle, Nat.min_zero] at hlen
    rw [List.length_eq_zero_iff.1 hlen]
  · rename_i hlt
    rw [subWord_of_le (by omega), Option.bind_some]
    have hbase : (List.range (min len (eff - offset))).mapM (baseByte base offset) =
        some ((List.range (min len (eff - offset))).map fun i => byteAt base (offset + i)) := by
      refine mapM_eq_some fun i hi => ?_
      have hi := List.mem_range.1 hi
      rw [baseByte, addWord_of_lt (by omega)]
      show some (if _ then _ else _) = _
      split
      · rfl
      · rename_i hge
        rw [byteAt_of_le (by omega)]
    rw [hbase, Option.bind_some]
    have hreq : offset + min len (eff - offset) < word := by omega
    obtain ⟨buf', hcopies, hlen', hbyte'⟩ := readCopies_spec hreq b.overlay hends
      ((List.range (min len (eff - offset))).map fun i => byteAt base (offset + i)) (by simp)
    rw [hcopies]
    congr 1
    refine ext_byteAt (hlen'.trans hlen.symm) fun i hi => ?_
    rw [hlen'] at hi
    rw [hbyte' i hi, hbyte i hi, readByte_eq, byteAt_of_lt (by simpa using hi)]
    simp

/-- No materialisation of a well-formed buffer wraps or leaves a buffer. -/
theorem materializeChecked_eq (h : b.WellFormed) (base : Bytes) :
    b.materializeChecked base = some (b.materialize base) := by
  have hend := h.sound.end_le base.length
  unfold materializeChecked materialize
  rw [effectiveSizeChecked_eq fun e he => lt_word (h.ends e he)]
  simp only [Option.bind_eq_bind, Option.bind_some]
  generalize b.effectiveSize base.length = eff at *
  have hcopies : b.overlay.foldlM (materializeCopy eff)
      (base.take eff ++ List.replicate (eff - base.length) 0) =
      some (b.overlay.foldl (fun result e => copyInto result e.1 (e.2.take (eff - e.1)))
        (base.take eff ++ List.replicate (eff - base.length) 0)) := by
    refine (foldlM_eq_some (P := fun buf => buf.length = eff) ?_ (length_resize base eff)).1
    intro e he buf hbuf
    have hle := hend e he
    change e.1 + e.2.length ≤ eff at hle
    have hmin : min e.2.length (eff - e.1) = e.2.length := by omega
    have hroom : e.1 + e.2.length ≤ buf.length := by omega
    rw [materializeCopy, subWord_of_le (by omega), List.take_of_length_le (by omega)]
    show memcpy buf e.1 e.2 0 (min e.2.length (eff - e.1)) = _ ∧ _
    rw [hmin]
    exact ⟨memcpy_whole hroom, (length_copyInto hroom).trans hbuf⟩
  split
  · have hbase : memcpy (List.replicate eff 0) 0 base 0 (min eff base.length) =
        some (base.take eff ++ List.replicate (eff - base.length) 0) := by
      rw [memcpy, if_pos ⟨by rw [List.length_replicate]; omega, by omega⟩]
      have htake : base.take (min eff base.length) = base.take eff :=
        List.take_eq_take_iff.2 (by omega)
      have hrest : eff - (0 + (base.take eff).length) = eff - base.length := by
        rw [List.length_take]
        omega
      rw [List.drop_zero, htake, copyInto, List.take_zero, List.nil_append, List.drop_replicate,
        hrest]
    rw [hbase, Option.bind_some]
    exact hcopies
  · rename_i hzero
    obtain rfl : eff = 0 := by omega
    rw [List.take_zero, Nat.zero_sub] at hcopies ⊢
    exact hcopies

/-! ## Runs -/

/-- A call on a write buffer. -/
inductive BufferOp where
  | write (offset : Nat) (data : Bytes)
  | truncate (newSize : Nat)
  | clear

namespace BufferOp

/-- A write ends below 2^63, a size is a word. -/
def InRange : BufferOp → Prop
  | .write offset data => offset + data.length < 2 ^ 63
  | .truncate newSize => newSize < word
  | .clear => True

def apply (b : WriteBuffer) : BufferOp → WriteBuffer
  | .write offset data => b.write offset data
  | .truncate newSize => b.truncate newSize
  | .clear => b.clear

def applyChecked (b : WriteBuffer) : BufferOp → Option WriteBuffer
  | .write offset data => b.writeChecked offset data
  | .truncate newSize => b.truncateChecked newSize
  | .clear => some b.clear

theorem apply_wellFormed {op : BufferOp} (hop : op.InRange) (h : b.WellFormed) :
    op.applyChecked b = some (op.apply b) ∧ (op.apply b).WellFormed := by
  cases op with
  | write offset data => exact write_wellFormed h hop
  | truncate newSize => exact truncate_wellFormed h hop
  | clear =>
      exact ⟨rfl, ⟨⟨List.Pairwise.nil, fun _ he => (by cases he)⟩, fun _ _ _ he => (by cases he)⟩,
        rfl, fun _ he => (by cases he), fun _ hn => (by cases hn)⟩

theorem run_wellFormed {ops : List BufferOp} (hops : ∀ op ∈ ops, op.InRange) (h : b.WellFormed) :
    ops.foldlM applyChecked b = some (ops.foldl apply b) ∧ (ops.foldl apply b).WellFormed :=
  foldlM_eq_some (fun _ hop _ hb => apply_wellFormed (hops _ hop) hb) h

end BufferOp

/-- After every run whose writes end below 2^63 the extents are not empty, in order and with a gap
behind each; they end at the effective size for any base; the dirty bytes are their bytes; no
arithmetic of the run wraps, and no later `read` or `materialize` wraps or leaves a buffer. -/
theorem run_bounds (baseSize : Nat) (ops : List BufferOp) (hops : ∀ op ∈ ops, op.InRange) :
    ∃ b, ops.foldlM BufferOp.applyChecked { baseSize := baseSize } = some b ∧
      b = ops.foldl BufferOp.apply { baseSize := baseSize } ∧
      (∀ e ∈ b.overlay, e.2 ≠ []) ∧
      b.overlay.Pairwise (fun e e' => extentEnd e < e'.1) ∧
      (∀ size, ∀ e ∈ b.overlay, extentEnd e ≤ b.effectiveSize size) ∧
      b.dirtyBytes = extentBytes b.overlay ∧
      ∀ base : Bytes, base.length < word →
        (∀ offset len, b.readChecked offset len base = some (b.read offset len base)) ∧
          b.materializeChecked base = some (b.materialize base) := by
  have hinit : WellFormed { baseSize := baseSize } :=
    ⟨⟨⟨List.Pairwise.nil, fun _ he => (by cases he)⟩, fun _ hn => (by cases hn)⟩, rfl,
      fun _ he => (by cases he), fun _ hn => (by cases hn)⟩
  obtain ⟨hrun, hwf⟩ := BufferOp.run_wellFormed hops hinit
  refine ⟨_, hrun, rfl, hwf.sound.spaced.2, hwf.sound.spaced.1, hwf.sound.end_le, hwf.dirty,
    fun base hbase => ⟨fun offset len => ?_, ?_⟩⟩
  · exact readChecked_eq hwf (hwf.effectiveSize_lt hbase) offset len
  · exact materializeChecked_eq hwf base

/-- Two writes that touch, cut in the middle of the second one. -/
theorem run_bounds_cut : ∃ b, [BufferOp.write 3 [1, 2], .write 5 [3, 4], .truncate 6].foldlM
    BufferOp.applyChecked { baseSize := 2 } = some b ∧ b.dirtyBytes = extentBytes b.overlay := by
  obtain ⟨b, hrun, -, -, -, -, hdirty, -⟩ := run_bounds 2
    [.write 3 [1, 2], .write 5 [3, 4], .truncate 6] (by
      intro op hop
      simp only [List.mem_cons, List.not_mem_nil, or_false] at hop
      rcases hop with rfl | rfl | rfl
      · norm_num [BufferOp.InRange]
      · norm_num [BufferOp.InRange]
      · norm_num [BufferOp.InRange, word, UInt64.size])
  exact ⟨b, hrun, hdirty⟩

end WriteBuffer
end ContextFS
