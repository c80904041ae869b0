import ContextFS.Lib.LittleEndian

/-!
# Object hashes

A `Hash` is a string of exactly 32 bytes.  The hash function itself is vendored code
whose values nothing here depends on; it is the one field of the class `Blake3`.
-/

namespace ContextFS

open Std Lib

/-- `std::array<uint8_t, 32>`. -/
structure Hash where
  bytes : Bytes
  length_eq : bytes.length = 32
deriving DecidableEq

/-- BLAKE3 with the default 32 bytes of output. -/
class Blake3 where
  digest : Bytes → Hash

export Blake3 (digest)

namespace Hash

instance : Ord Hash := ⟨fun a b => compare a.bytes b.bytes⟩

@[ext] theorem ext {a b : Hash} (h : a.bytes = b.bytes) : a = b := by
  cases a
  cases b
  simpa using h

theorem compare_def (a b : Hash) : compare a b = compare a.bytes b.bytes := rfl

instance : TransOrd Hash where
  eq_swap := by
    intro a b
    rw [compare_def, compare_def]
    exact OrientedCmp.eq_swap
  isLE_trans := by
    intro a b c hab hbc
    rw [compare_def] at *
    exact TransCmp.isLE_trans hab hbc

instance : LawfulEqOrd Hash where
  compare_self := by
    intro a
    rw [compare_def]
    exact ReflCmp.compare_self
  eq_of_compare := by
    intro a b h
    rw [compare_def] at h
    exact ext (LawfulEqCmp.eq_of_compare h)

/-- The bytes copied into a hash; only blocks of 32 bytes are ever copied. -/
def ofBytes (b : Bytes) : Hash :=
  if h : b.length = 32 then ⟨b, h⟩ else ⟨List.replicate 32 0, by simp⟩

@[simp] theorem ofBytes_bytes (h : Hash) : ofBytes h.bytes = h := by
  simp [ofBytes, h.length_eq]

end Hash

/-- `ZERO_HASH`: no object, or a failed write. -/
def zeroHash : Hash := ⟨List.replicate 32 0, by simp⟩

/-- A digest to run examples on: the message in base 257, cut to 32 bytes. -/
abbrev foldDigest : Blake3 where
  digest message := Hash.ofBytes (encodeLe 32 (message.foldl (fun n b => n * 257 + b.toNat + 1) 0))

/-! ## Hexadecimal text -/

/-- One digit as `"%02x"` prints it. -/
def hexDigit (n : Nat) : UInt8 :=
  if n < 10 then UInt8.ofNat (48 + n) else UInt8.ofNat (87 + n)

/-- The value of a hexadecimal digit in either case. -/
def hexVal (c : UInt8) : Option Nat :=
  if 48 ≤ c ∧ c ≤ 57 then some (c.toNat - 48)
  else if 97 ≤ c ∧ c ≤ 102 then some (c.toNat - 87)
  else if 65 ≤ c ∧ c ≤ 70 then some (c.toNat - 55)
  else none

/-- `hash_to_hex` on the bytes of a hash. -/
def bytesToHex : Bytes → Bytes
  | [] => []
  | b :: bs => hexDigit (b.toNat / 16) :: hexDigit (b.toNat % 16) :: bytesToHex bs

def hashToHex (h : Hash) : Bytes := bytesToHex h.bytes

/-- `is_hex_hash`. -/
def isHexHash (hex : Bytes) : Bool :=
  hex.length == 64 && hex.all fun c => (hexVal c).isSome

/-- The bytes `isspace` accepts in the C locale. -/
def isSpace (c : UInt8) : Bool := c == 32 || (9 ≤ c && c ≤ 13)

/-- `sscanf(s, "%2x", &val)` on the NUL-terminated text `s`, with the value narrowed to a
byte: white space is skipped, at most two characters are read, a sign is one of them and
a lone `0x` reads as zero. -/
def scanHex2 (s : Bytes) : Option UInt8 :=
  match s.dropWhile isSpace with
  | [] => none
  | c :: rest =>
      if c = 43 ∨ c = 45 then
        match rest.head?.bind hexVal with
        | some v => some (if c = 45 then UInt8.ofNat (256 - v) else UInt8.ofNat v)
        | none => none
      else
        match hexVal c with
        | none => none
        | some hi =>
            match rest.head?.bind hexVal with
            | some lo => some (UInt8.ofNat (16 * hi + lo))
            | none => some (UInt8.ofNat hi)

/-- The loop of `hex_to_hash`: byte `i` is scanned from offset `2 * i`. -/
def scanHexBytes : Nat → Bytes → Option Bytes
  | 0, _ => some []
  | n + 1, s =>
      match scanHex2 s with
      | none => none
      | some b => (scanHexBytes n (s.drop 2)).map (b :: ·)

/-- `hex_to_hash` on the C string at the front of `hex`. -/
def hexToHash (hex : Bytes) : Option Hash :=
  let cstr := hex.takeWhile (· != 0)
  if cstr.length < 64 then none
  else (scanHexBytes 32 cstr).map Hash.ofBytes

/-- `hex_to_hash_strict`. -/
def hexToHashStrict (hex : Bytes) : Option Hash :=
  if isHexHash hex then hexToHash hex else none

/-- What the text functions need to know about the sixteen digits. -/
theorem hexDigit_spec : ∀ n < 16,
    hexVal (hexDigit n) = some n ∧ isSpace (hexDigit n) = false ∧
      ¬ (hexDigit n = 43 ∨ hexDigit n = 45) ∧ hexDigit n ≠ 0 := by
  decide

theorem div_lt_sixteen (b : UInt8) : b.toNat / 16 < 16 := by
  have := b.toNat_lt
  omega

theorem mod_lt_sixteen (b : UInt8) : b.toNat % 16 < 16 :=
  Nat.mod_lt _ (by decide)

/-- Both digits of a byte scan back to it, whatever follows. -/
theorem scanHex2_hexDigits (b : UInt8) (rest : Bytes) :
    scanHex2 (hexDigit (b.toNat / 16) :: hexDigit (b.toNat % 16) :: rest) = some b := by
  obtain ⟨hhi, hspace, hsign, -⟩ := hexDigit_spec _ (div_lt_sixteen b)
  obtain ⟨hlo, -⟩ := hexDigit_spec _ (mod_lt_sixteen b)
  have hval : 16 * (b.toNat / 16) + b.toNat % 16 = b.toNat := Nat.div_add_mod _ _
  simp [scanHex2, hspace, hsign, hhi, hlo, hval]

@[simp] theorem length_bytesToHex (bs : Bytes) : (bytesToHex bs).length = 2 * bs.length := by
  induction bs with
  | nil => rfl
  | cons b bs ih => simp [bytesToHex, ih]; omega

theorem scanHexBytes_bytesToHex (bs rest : Bytes) :
    scanHexBytes bs.length (bytesToHex bs ++ rest) = some bs := by
  induction bs with
  | nil => rfl
  | cons b bs ih => simp [bytesToHex, scanHexBytes, scanHex2_hexDigits, ih]

theorem all_hexVal_bytesToHex (bs : Bytes) :
    (bytesToHex bs).all (fun c => (hexVal c).isSome) = true := by
  induction bs with
  | nil => rfl
  | cons b bs ih =>
      obtain ⟨hhi, -⟩ := hexDigit_spec _ (div_lt_sixteen b)
      obtain ⟨hlo, -⟩ := hexDigit_spec _ (mod_lt_sixteen b)
      simp only [bytesToHex, List.all_cons, hhi, hlo, ih, Option.isSome_some, Bool.and_self]

theorem takeWhile_bytesToHex (bs : Bytes) :
    (bytesToHex bs).takeWhile (· != 0) = bytesToHex bs := by
  induction bs with
  | nil => rfl
  | cons b bs ih =>
      obtain ⟨-, -, -, hhi⟩ := hexDigit_spec _ (div_lt_sixteen b)
      obtain ⟨-, -, -, hlo⟩ := hexDigit_spec _ (mod_lt_sixteen b)
      simp [bytesToHex, hhi, hlo, ih]

@[simp] theorem isHexHash_hashToHex (h : Hash) : isHexHash (hashToHex h) = true := by
  have hall := all_hexVal_bytesToHex h.bytes
  have hlen := length_bytesToHex h.bytes
  rw [h.length_eq] at hlen
  simp [isHexHash, hashToHex, hlen, hall]

@[simp] theorem hexToHash_hashToHex (h : Hash) : hexToHash (hashToHex h) = some h := by
  have hscan := scanHexBytes_bytesToHex h.bytes []
  rw [List.append_nil, h.length_eq] at hscan
  simp [hexToHash, hashToHex, takeWhile_bytesToHex, h.length_eq, hscan]

/-- Printing a hash and reading it back strictly gives the hash. -/
@[simp] theorem hexToHashStrict_hashToHex (h : Hash) : hexToHashStrict (hashToHex h) = some h := by
  simp [hexToHashStrict]

theorem hashToHex_inj {a b : Hash} (h : hashToHex a = hashToHex b) : a = b := by
  have hab := congrArg hexToHashStrict h
  rwa [hexToHashStrict_hashToHex, hexToHashStrict_hashToHex, Option.some.injEq] at hab

/-- Two digits are scanned, whatever follows. -/
theorem scanHex2_isSome {c d : UInt8} (hc : (hexVal c).isSome = true) (hd : (hexVal d).isSome = true)
    (rest : Bytes) : (scanHex2 (c :: d :: rest)).isSome = true := by
  obtain ⟨hi, hhi⟩ := Option.isSome_iff_exists.1 hc
  obtain ⟨lo, hlo⟩ := Option.isSome_iff_exists.1 hd
  have hspace : isSpace c = false := by
    by_contra hs
    simp only [isSpace, Bool.not_eq_false, Bool.or_eq_true, beq_iff_eq, Bool.and_eq_true,
      decide_eq_true_eq, UInt8.le_iff_toNat_le] at hs
    simp only [hexVal, UInt8.le_iff_toNat_le] at hhi
    rcases hs with rfl | ⟨h9, h13⟩
    · cases hhi
    · have h13' : c.toNat ≤ 13 := h13
      rw [if_neg, if_neg, if_neg] at hhi
      · cases hhi
      · exact fun h => absurd (show (65 : Nat) ≤ c.toNat from h.1) (by omega)
      · exact fun h => absurd (show (97 : Nat) ≤ c.toNat from h.1) (by omega)
      · exact fun h => absurd (show (48 : Nat) ≤ c.toNat from h.1) (by omega)
  have hsign : ¬(c = 43 ∨ c = 45) := by
    rintro (rfl | rfl) <;> cases hhi
  simp [scanHex2, hspace, hsign, hhi, hlo]

theorem scanHexBytes_isSome {n : Nat} {text : Bytes} (hlen : 2 * n ≤ text.length)
    (hall : ∀ c ∈ text, (hexVal c).isSome = true) : (scanHexBytes n text).isSome = true := by
  induction n generalizing text with
  | zero => rfl
  | succ n ih =>
      obtain _ | ⟨c, _ | ⟨d, rest⟩⟩ := text
      · simp only [List.length_nil] at hlen
        omega
      · simp only [List.length_cons, List.length_nil] at hlen
        omega
      · have hscan := scanHex2_isSome (hall c (by simp)) (hall d (by simp)) rest
        obtain ⟨b, hb⟩ := Option.isSome_iff_exists.1 hscan
        have hrest : (scanHexBytes n rest).isSome = true := by
          refine ih ?_ fun e he => hall e (by simp [he])
          simp only [List.length_cons] at hlen
          omega
        simp [scanHexBytes, hb, hrest]

/-- A text of 64 digits is a hash for the strict reader. -/
theorem exists_hexToHashStrict {hex : Bytes} (h : isHexHash hex = true) :
    ∃ k, hexToHashStrict hex = some k := by
  have hparts := h
  rw [isHexHash, Bool.and_eq_true, beq_iff_eq] at hparts
  obtain ⟨hlen, hall⟩ := hparts
  have hdigits := List.all_eq_true.1 hall
  have hzero : hex.takeWhile (· != 0) = hex := by
    refine List.takeWhile_eq_self_iff.2 fun c hc => ?_
    rw [bne_iff_ne]
    rintro rfl
    exact absurd (hdigits 0 hc) (by decide)
  have hscan := scanHexBytes_isSome (n := 32) (by omega) hdigits
  obtain ⟨bytes, hbytes⟩ := Option.isSome_iff_exists.1 hscan
  refine ⟨Hash.ofBytes bytes, ?_⟩
  simp [hexToHashStrict, hexToHash, h, hzero, hlen, hbytes]

end ContextFS
