import ContextFS.Lib.LittleEndian

/-!
# The write buffer of a file handle

Writes are kept as an overlay over the handle's base content: extents in increasing order of
their offsets, merged with every extent they overlap or touch.  `materialize` lays the overlay
over the base; an explicit size, set by `truncate` or by a write behind it, overrides the one
that base and overlay give.
-/

namespace ContextFS

open Lib

/-- A run of written bytes and the offset it starts at. -/
abbrev Extent := Nat × Bytes

/-- The first offset behind an extent. -/
abbrev extentEnd (e : Extent) : Nat := e.1 + e.2.length

structure WriteBuffer where
  baseSize : Nat
  overlay : List Extent := []
  sizeOverride : Option Nat := none
  dirtyBytes : Nat := 0
deriving DecidableEq

/-- `memcpy` of `data` to position `pos` of a buffer that has room for it. -/
def copyInto (buf : Bytes) (pos : Nat) (data : Bytes) : Bytes :=
  buf.take pos ++ data ++ buf.drop (pos + data.length)

namespace WriteBuffer

/-- Dirty bytes of some extents. -/
def extentBytes (es : List Extent) : Nat := (es.map fun e => e.2.length).sum

/-- The size without the override: the end of the last extent, or the base when it is longer. -/
def overlaySize (overlay : List Extent) (baseSize : Nat) : Nat :=
  match overlay.getLast? with
  | none => baseSize
  | some e => max baseSize (extentEnd e)

/-- `effective_size`. -/
def effectiveSize (b : WriteBuffer) (baseSize : Nat) : Nat :=
  b.sizeOverride.getD (overlaySize b.overlay baseSize)

/-- `is_dirty`. -/
def isDirty (b : WriteBuffer) : Bool := 0 < b.dirtyBytes || b.sizeOverride.isSome

/-- The extents from where the search of `write` starts: behind `upper_bound`, with the
predecessor when that one reaches the offset. -/
def splitAt (overlay : List Extent) (offset : Nat) : List Extent × List Extent :=
  let before := overlay.takeWhile fun e => e.1 ≤ offset
  let behind := overlay.dropWhile fun e => e.1 ≤ offset
  match before.getLast? with
  | none => (before, behind)
  | some prev => if extentEnd prev < offset then (before, behind) else (before.dropLast, prev :: behind)

/-- The extents that overlap or touch the merged range, what is left, and the range's end. -/
def collectTouching (mergeEnd : Nat) : List Extent → List Extent × List Extent × Nat
  | [] => ([], [], mergeEnd)
  | e :: rest =>
      if mergeEnd < e.1 then ([], e :: rest, mergeEnd)
      else
        let r := collectTouching (max mergeEnd (extentEnd e)) rest
        (e :: r.1, r.2.1, r.2.2)

/-- Where the merged range starts. -/
def mergeStart (offset : Nat) : List Extent → Nat
  | [] => offset
  | e :: _ => min offset e.1

/-- The merged buffer: the touched extents, then the new data on top. -/
def mergedExtent (offset : Nat) (data : Bytes) (start mergeEnd : Nat) (touched : List Extent) :
    Bytes :=
  copyInto
    (touched.foldl (fun buf e => copyInto buf (e.1 - start) e.2)
      (List.replicate (mergeEnd - start) 0))
    (offset - start) data

/-- `write`. -/
def write (b : WriteBuffer) (offset : Nat) (data : Bytes) : WriteBuffer :=
  if data.length = 0 then b
  else
    let newEnd := offset + data.length
    let split := splitAt b.overlay offset
    let start := mergeStart offset split.2
    let r := collectTouching newEnd split.2
    let merged := mergedExtent offset data start r.2.2 r.1
    let b' := { b with
      overlay := split.1 ++ (start, merged) :: r.2.1
      dirtyBytes := b.dirtyBytes - extentBytes r.1 + merged.length }
    if b'.effectiveSize b.baseSize < newEnd then { b' with sizeOverride := some newEnd } else b'

/-- `truncate`. -/
def truncate (b : WriteBuffer) (newSize : Nat) : WriteBuffer :=
  let kept := b.overlay.takeWhile fun e => e.1 < newSize
  let erased := b.overlay.dropWhile fun e => e.1 < newSize
  let dirty := b.dirtyBytes - extentBytes erased
  match kept.getLast? with
  | some last =>
      if newSize < extentEnd last then
        let trimmed := last.2.take (newSize - last.1)
        { b with
          overlay := kept.dropLast ++ [(last.1, trimmed)]
          sizeOverride := some newSize
          dirtyBytes := dirty - last.2.length + trimmed.length }
      else { b with overlay := kept, sizeOverride := some newSize, dirtyBytes := dirty }
  | none => { b with overlay := kept, sizeOverride := some newSize, dirtyBytes := dirty }

/-- `materialize`. -/
def materialize (b : WriteBuffer) (base : Bytes) : Bytes :=
  let eff := b.effectiveSize base.length
  b.overlay.foldl (fun result e => copyInto result e.1 (e.2.take (eff - e.1)))
    (base.take eff ++ List.replicate (eff - base.length) 0)

/-- One byte of `read`: the last extent that covers it, else the base, else zero. -/
def readByte (b : WriteBuffer) (base : Bytes) (pos : Nat) : UInt8 :=
  b.overlay.foldl
    (fun byte e => if e.1 ≤ pos ∧ pos < extentEnd e then e.2.getD (pos - e.1) 0 else byte)
    (base.getD pos 0)

/-- `read`. -/
def read (b : WriteBuffer) (offset len : Nat) (base : Bytes) : Bytes :=
  let eff := b.effectiveSize base.length
  if eff ≤ offset then []
  else (List.range (min len (eff - offset))).map fun i => b.readByte base (offset + i)

/-- `clear`. -/
def clear (b : WriteBuffer) : WriteBuffer :=
  { b with overlay := [], sizeOverride := none, dirtyBytes := 0 }

end WriteBuffer
end ContextFS
