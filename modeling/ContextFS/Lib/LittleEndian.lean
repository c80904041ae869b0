import Mathlib

/-!
# Byte strings, little-endian words and slices

Fixed-width unsigned words are written low byte first.  `encodeLe` keeps the low
`width` base-256 digits, so a value that does not fit is truncated exactly as a
narrowing assignment truncates it.  `slice` is the memory block a copy of `n` bytes
at offset `pos` reads; it is short when the block leaves the string.
-/

namespace ContextFS

/-- A string of bytes. -/
abbrev Bytes := List UInt8

namespace Lib

/-- The `width` low base-256 digits of `value`, low byte first. -/
def encodeLe : Nat → Nat → Bytes
  | 0, _ => []
  | width + 1, value => UInt8.ofNat value :: encodeLe width (value / 256)

/-- The number whose base-256 digits, low byte first, are the given bytes. -/
def decodeLe : Bytes → Nat
  | [] => 0
  | b :: bs => b.toNat + 256 * decodeLe bs

@[simp] theorem length_encodeLe (width value : Nat) : (encodeLe width value).length = width := by
  induction width generalizing value with
  | zero => rfl
  | succ width ih => simp [encodeLe, ih]

/-- Decoding keeps the value modulo the width of the word. -/
theorem decodeLe_encodeLe (width value : Nat) :
    decodeLe (encodeLe width value) = value % 256 ^ width := by
  induction width generalizing value with
  | zero => simp [encodeLe, decodeLe, Nat.mod_one]
  | succ width ih =>
      have hdigit : (UInt8.ofNat value).toNat = value % 256 := by
        simp [UInt8.toNat_ofNat']
      have hsplit : value % (256 * 256 ^ width) = value % 256 + 256 * (value / 256 % 256 ^ width) :=
        Nat.mod_mul
      simp only [encodeLe, decodeLe, ih, hdigit]
      rw [Nat.pow_succ, Nat.mul_comm (256 ^ width) 256, hsplit]

theorem decodeLe_encodeLe_of_lt {width value : Nat} (h : value < 256 ^ width) :
    decodeLe (encodeLe width value) = value := by
  rw [decodeLe_encodeLe, Nat.mod_eq_of_lt h]

/-- A word of `bs.length` bytes. -/
theorem decodeLe_lt (bs : Bytes) : decodeLe bs < 256 ^ bs.length := by
  induction bs with
  | nil => exact Nat.one_pos
  | cons b bs ih =>
      have hb := b.toNat_lt
      rw [decodeLe, List.length_cons, Nat.pow_succ]
      omega

/-- A block is written back as it was read. -/
theorem encodeLe_decodeLe (bs : Bytes) : encodeLe bs.length (decodeLe bs) = bs := by
  induction bs with
  | nil => rfl
  | cons b bs ih =>
      have hb := b.toNat_lt
      have hhead : UInt8.ofNat (b.toNat + 256 * decodeLe bs) = b := by
        apply UInt8.toNat_inj.1
        rw [UInt8.toNat_ofNat']
        omega
      have htail : (b.toNat + 256 * decodeLe bs) / 256 = decodeLe bs := by
        omega
      rw [List.length_cons, decodeLe, encodeLe, hhead, htail, ih]

/-- The `n` bytes at offset `pos`. -/
def slice (body : Bytes) (pos n : Nat) : Bytes :=
  (body.drop pos).take n

theorem length_slice {body : Bytes} {pos n : Nat} (h : pos + n ≤ body.length) :
    (slice body pos n).length = n := by
  simp [slice]
  omega

/-! ## Reading forward

`At body pos rest` says that `rest` is what is left of `body` from `pos` on.  A reader that
consumes a known block moves from one `At` to the next. -/

/-- `pos` is inside `body` and `rest` is the remainder from there. -/
def At (body : Bytes) (pos : Nat) (rest : Bytes) : Prop :=
  pos ≤ body.length ∧ body.drop pos = rest

theorem at_zero (body : Bytes) : At body 0 body := ⟨Nat.zero_le _, rfl⟩

theorem At.next {body mid rest : Bytes} {pos n : Nat} (h : At body pos (mid ++ rest))
    (hn : mid.length = n) : At body (pos + n) rest := by
  obtain ⟨hpos, hdrop⟩ := h
  have hlen : body.length - pos = mid.length + rest.length := by
    rw [← List.length_drop, hdrop, List.length_append]
  refine ⟨by omega, ?_⟩
  rw [← List.drop_drop, hdrop, ← hn, List.drop_left]

theorem At.add_length_le {body mid rest : Bytes} {pos : Nat} (h : At body pos (mid ++ rest)) :
    pos + mid.length ≤ body.length := by
  obtain ⟨hpos, hdrop⟩ := h
  have hlen : body.length - pos = mid.length + rest.length := by
    rw [← List.length_drop, hdrop, List.length_append]
  omega

theorem At.length_eq {body rest : Bytes} {pos : Nat} (h : At body pos rest) :
    body.length = pos + rest.length := by
  obtain ⟨hpos, hdrop⟩ := h
  have hlen : body.length - pos = rest.length := by
    rw [← List.length_drop, hdrop]
  omega

theorem At.slice_eq {body mid rest : Bytes} {pos n : Nat} (h : At body pos (mid ++ rest))
    (hn : mid.length = n) : slice body pos n = mid := by
  rw [slice, h.2, ← hn, List.take_left]

end Lib
end ContextFS
