import Mathlib.Data.List.GetD

/-!
# A file as an array

A file is the list of its elements.  A write behind its end fills the gap with zeros, a truncate
discards what is behind the new size for good and fills a growth with zeros.  Outside its length a
file reads as zero, so that two files are equal when their lengths and all reads are.
-/

namespace ContextFS
namespace Lib

variable {α : Type*} [Zero α]

/-- The element at a position, zero outside the file. -/
def byteAt (f : List α) (pos : Nat) : α := f.getD pos 0

/-- `ftruncate`. -/
def resize (f : List α) (size : Nat) : List α := f.take size ++ List.replicate (size - f.length) 0

/-- `pwrite`. -/
def writeAt (f : List α) (offset : Nat) (data : List α) : List α :=
  if data.length = 0 then f
  else
    let f' := resize f (max f.length (offset + data.length))
    f'.take offset ++ data ++ f'.drop (offset + data.length)

/-- `pread`. -/
def readAt (f : List α) (offset size : Nat) : List α := (f.drop offset).take size

theorem byteAt_of_lt {f : List α} {pos : Nat} (h : pos < f.length) : byteAt f pos = f[pos] := by
  simp [byteAt, h]

theorem byteAt_of_le {f : List α} {pos : Nat} (h : f.length ≤ pos) : byteAt f pos = 0 := by
  simp [byteAt, h]

theorem ext_byteAt {f f' : List α} (hlen : f.length = f'.length)
    (h : ∀ pos < f.length, byteAt f pos = byteAt f' pos) : f = f' := by
  refine List.ext_getElem hlen fun pos hpos hpos' => ?_
  rw [← byteAt_of_lt hpos, ← byteAt_of_lt hpos', h pos hpos]

theorem byteAt_append (f g : List α) (pos : Nat) :
    byteAt (f ++ g) pos = if pos < f.length then byteAt f pos else byteAt g (pos - f.length) := by
  unfold byteAt
  split
  · rename_i h
    exact List.getD_append f g 0 pos h
  · rename_i h
    exact List.getD_append_right f g 0 pos (by omega)

theorem byteAt_take (f : List α) (n pos : Nat) :
    byteAt (f.take n) pos = if pos < n then byteAt f pos else 0 := by
  simp only [byteAt, List.getD_eq_getElem?_getD, List.getElem?_take]
  split <;> rfl

theorem byteAt_drop (f : List α) (n pos : Nat) : byteAt (f.drop n) pos = byteAt f (n + pos) := by
  simp [byteAt]

theorem byteAt_replicate (n pos : Nat) : byteAt (List.replicate n (0 : α)) pos = 0 := by
  by_cases h : pos < n
  · rw [byteAt_of_lt (by simpa using h), List.getElem_replicate]
  · exact byteAt_of_le (by simpa using h)

@[simp] theorem length_resize (f : List α) (size : Nat) : (resize f size).length = size := by
  simp only [resize, List.length_append, List.length_take, List.length_replicate]
  omega

theorem byteAt_resize (f : List α) (size pos : Nat) :
    byteAt (resize f size) pos = if pos < size then byteAt f pos else 0 := by
  rw [resize, byteAt_append, byteAt_replicate, byteAt_take, List.length_take]
  by_cases hsize : pos < size
  · by_cases hlen : pos < f.length
    · rw [if_pos (by omega)]
    · rw [if_neg (by omega), if_pos hsize, byteAt_of_le (by omega)]
  · rw [if_neg (by omega), if_neg hsize]

theorem length_writeAt (f : List α) (offset : Nat) (data : List α) :
    (writeAt f offset data).length =
      if data.length = 0 then f.length else max f.length (offset + data.length) := by
  unfold writeAt
  split
  · rfl
  · simp only [List.length_append, List.length_take, List.length_drop, length_resize]
    omega

theorem byteAt_writeAt (f : List α) (offset : Nat) (data : List α) (pos : Nat) :
    byteAt (writeAt f offset data) pos =
      if offset ≤ pos ∧ pos < offset + data.length then byteAt data (pos - offset)
      else byteAt f pos := by
  unfold writeAt
  split
  · rw [if_neg (by omega)]
  · simp only [byteAt_append, byteAt_take, byteAt_drop, byteAt_resize, List.length_append,
      List.length_take, length_resize]
    have hlen : min offset (max f.length (offset + data.length)) = offset := by omega
    rw [hlen]
    by_cases hbefore : pos < offset
    · rw [if_pos (by omega), if_pos hbefore, if_pos hbefore, if_pos (by omega), if_neg (by omega)]
    · by_cases hin : pos < offset + data.length
      · rw [if_pos hin, if_neg hbefore, if_pos ⟨by omega, hin⟩]
      · have hpos : offset + data.length + (pos - (offset + data.length)) = pos := by omega
        rw [if_neg hin, hpos, if_neg (by omega : ¬(offset ≤ pos ∧ pos < offset + data.length))]
        split
        · rfl
        · exact (byteAt_of_le (by omega)).symm

omit [Zero α] in
theorem length_readAt (f : List α) (offset size : Nat) :
    (readAt f offset size).length = min size (f.length - offset) := by
  simp [readAt]

theorem byteAt_readAt (f : List α) (offset size pos : Nat) :
    byteAt (readAt f offset size) pos = if pos < size then byteAt f (offset + pos) else 0 := by
  rw [readAt, byteAt_take, byteAt_drop]

/-- What is done to a file. -/
inductive FileOp (α : Type*)
  | write (offset : Nat) (data : List α)
  | truncate (size : Nat)

/-- An operation on the array. -/
def FileOp.onFile (f : List α) : FileOp α → List α
  | .write offset data => writeAt f offset data
  | .truncate size => resize f size

/-- The array after some operations. -/
def fileAfter (ops : List (FileOp α)) (f : List α) : List α := ops.foldl FileOp.onFile f

/-- Whether a truncate was the last operation that reached the position. -/
def FileOp.cuts (pos : Nat) (cut : Bool) : FileOp α → Bool
  | .write offset data => cut && !decide (offset ≤ pos ∧ pos < offset + data.length)
  | .truncate size => cut || decide (size ≤ pos)

omit [Zero α] in
theorem FileOp.cuts_write {pos offset : Nat} {data : List α} {cut : Bool} :
    (FileOp.write offset data).cuts pos cut = true ↔
      cut = true ∧ ¬(offset ≤ pos ∧ pos < offset + data.length) := by
  simp only [FileOp.cuts, Bool.and_eq_true, Bool.not_eq_true', decide_eq_false_iff_not]

omit [Zero α] in
theorem FileOp.cuts_truncate {pos size : Nat} {cut : Bool} :
    (FileOp.truncate size : FileOp α).cuts pos cut = true ↔ cut = true ∨ size ≤ pos := by
  simp only [FileOp.cuts, Bool.or_eq_true, decide_eq_true_iff]

/-- The same over a sequence of operations. -/
def cutAt (ops : List (FileOp α)) (pos : Nat) : Bool := ops.foldl (FileOp.cuts pos) false

end Lib
end ContextFS
