import ContextFS.State.TextRecord

/-!
# Writing line records

The writer's side of a text record: lines `key=value`, percent-encoded text and decimal numbers.
What is written line by line is read back line by line: `Reads` says what a piece of a body does
to the record that its reader has so far, whatever follows the piece.
-/

namespace ContextFS

/-- One line of a record. -/
def fieldLine (key : String) (value : Bytes) : Bytes := ascii key ++ 61 :: (value ++ [10])

/-- `std::to_string`. -/
def decimal (n : Nat) : Bytes := (Nat.toDigits 10 n).map fun c => UInt8.ofNat c.toNat

/-- A key has no `=` and, like a value, no line break. -/
def GoodKey (key : String) : Prop := 61 ∉ ascii key ∧ 10 ∉ ascii key

instance (key : String) : Decidable (GoodKey key) := inferInstanceAs (Decidable (_ ∧ _))

/-! ## Keys -/

theorem byteArray_toList (b : ByteArray) : b.toList = b.data.toList := by
  have hloop : ∀ (k i : Nat) (r : List UInt8), b.size - i = k →
      ByteArray.toList.loop b i r = r.reverse ++ b.data.toList.drop i := by
    intro k
    induction k with
    | zero =>
        intro i r hk
        have hlen : b.data.toList.length ≤ i := by
          simp only [Array.length_toList, ByteArray.size_data]
          omega
        rw [ByteArray.toList.loop, if_neg (by omega), List.drop_eq_nil_of_le hlen,
          List.append_nil]
    | succ k ih =>
        intro i r hk
        have hlt : i < b.data.toList.length := by
          simp only [Array.length_toList, ByteArray.size_data]
          omega
        have hget : b.get! i = b.data.toList[i] := by
          rw [Array.getElem_toList]
          exact getElem!_pos b.data i (by simpa using hlt)
        rw [ByteArray.toList.loop, if_pos (by omega), ih (i + 1) _ (by omega),
          List.drop_eq_getElem_cons hlt, hget]
        simp
  rw [ByteArray.toList, hloop b.size 0 [] (by omega)]
  rfl

@[simp] theorem ascii_inj {s t : String} : ascii s = ascii t ↔ s = t := by
  unfold ascii
  rw [byteArray_toList, byteArray_toList, Array.toList_inj]
  simp only [String.toUTF8_eq_toByteArray]
  rw [← String.toByteArray_inj]
  exact ⟨fun h => ByteArray.ext h, fun h => h ▸ rfl⟩

/-! ## Percent encoding -/

/-- What one byte is encoded as. -/
def percentByte (c : UInt8) : Bytes :=
  if c = 37 then ascii "%25"
  else if c = 10 then ascii "%0A"
  else if c = 13 then ascii "%0D"
  else if c = 61 then ascii "%3D"
  else if c = 124 then ascii "%7C"
  else if c = 32 then ascii "%20"
  else [c]

theorem percentEncode_cons (c : UInt8) (text : Bytes) :
    percentEncode (c :: text) = percentByte c ++ percentEncode text := rfl

/-- A byte is encoded as itself or as an escape that reads back as it. -/
theorem percentByte_cases (c : UInt8) :
    (c ≠ 37 ∧ c ≠ 10 ∧ percentByte c = [c]) ∨
      ∃ hi lo h l, percentByte c = [37, hi, lo] ∧ hexVal hi = some h ∧ hexVal lo = some l ∧
        UInt8.ofNat (16 * h + l) = c ∧ hi ≠ 10 ∧ lo ≠ 10 := by
  unfold percentByte
  split
  · exact Or.inr ⟨50, 53, 2, 5, by decide +kernel, by decide, by decide, by simp_all, by decide, by decide⟩
  split
  · exact Or.inr ⟨48, 65, 0, 10, by decide +kernel, by decide, by decide, by simp_all, by decide, by decide⟩
  split
  · exact Or.inr ⟨48, 68, 0, 13, by decide +kernel, by decide, by decide, by simp_all, by decide, by decide⟩
  split
  · exact Or.inr ⟨51, 68, 3, 13, by decide +kernel, by decide, by decide, by simp_all, by decide, by decide⟩
  split
  · exact Or.inr ⟨55, 67, 7, 12, by decide +kernel, by decide, by decide, by simp_all, by decide, by decide⟩
  split
  · exact Or.inr ⟨50, 48, 2, 0, by decide +kernel, by decide, by decide, by simp_all, by decide, by decide⟩
  · exact Or.inl ⟨‹_›, ‹_›, rfl⟩

/-- Decoding undoes encoding. -/
theorem percentDecode_percentEncode (text : Bytes) :
    percentDecode (percentEncode text) = .ok text := by
  induction text with
  | nil => rfl
  | cons c text ih =>
      rw [percentEncode_cons]
      rcases percentByte_cases c with ⟨hne, -, heq⟩ | ⟨hi, lo, h, l, heq, hh, hl, hc, -⟩
      · rw [heq, List.singleton_append, percentDecode.eq_def]
        simp only [if_neg hne, ih]
        rfl
      · rw [heq]
        simp only [List.cons_append, List.nil_append, percentDecode, if_true, hh, hl, ih]
        rw [← hc]
        rfl

theorem not_mem_percentEncode {b : UInt8} (h : ∀ c, b ∉ percentByte c) (text : Bytes) :
    b ∉ percentEncode text := by
  induction text with
  | nil => simp [percentEncode]
  | cons c text ih =>
      rw [percentEncode_cons, List.mem_append]
      rintro (hin | hin)
      · exact h c hin
      · exact ih hin

theorem newline_not_mem_percentEncode (text : Bytes) : 10 ∉ percentEncode text := by
  refine not_mem_percentEncode (fun c hin => ?_) text
  rcases percentByte_cases c with ⟨-, hne, heq⟩ | ⟨hi, lo, h, l, heq, -, -, -, hhi, hlo⟩
  · rw [heq, List.mem_singleton] at hin
    exact hne hin.symm
  · rw [heq] at hin
    simp only [List.mem_cons, List.not_mem_nil, or_false] at hin
    rcases hin with hin | hin | hin
    · exact absurd hin (by decide)
    · exact hhi hin.symm
    · exact hlo hin.symm

/-! ## Numbers -/

theorem toNat_of_isDigit {c : Char} (hc : c.isDigit = true) : 48 ≤ c.toNat ∧ c.toNat ≤ 57 := by
  simp only [Char.isDigit, Bool.and_eq_true, decide_eq_true_eq] at hc
  exact ⟨hc.1, hc.2⟩

theorem toNat_decimal_byte {n : Nat} {c : Char} (hc : c ∈ Nat.toDigits 10 n) :
    (UInt8.ofNat c.toNat).toNat = c.toNat ∧ 48 ≤ c.toNat ∧ c.toNat ≤ 57 := by
  have hdigit := toNat_of_isDigit (Nat.isDigit_of_mem_toDigits (by decide) (by decide) hc)
  refine ⟨UInt8.toNat_ofNat_of_lt' ?_, hdigit⟩
  simp only [UInt8.size]
  omega

theorem digitsValue_decimal (n : Nat) : digitsValue (decimal n) = n := by
  have hfold : ∀ (cs : List Char) (m : Nat), (∀ c ∈ cs, c ∈ Nat.toDigits 10 n) →
      (cs.map fun c => UInt8.ofNat c.toNat).foldl (fun n c => 10 * n + (c.toNat - 48)) m =
        Nat.ofDigitChars 10 cs m := by
    intro cs
    induction cs with
    | nil => exact fun m _ => Nat.ofDigitChars_nil.symm
    | cons c cs ih =>
        intro m hcs
        rw [List.map_cons, List.foldl_cons, Nat.ofDigitChars_cons,
          (toNat_decimal_byte (hcs c List.mem_cons_self)).1]
        exact ih _ fun d hd => hcs d (List.mem_cons_of_mem c hd)
  rw [digitsValue, decimal, hfold _ 0 fun _ hc => hc]
  exact Nat.ofDigitChars_toDigits (by decide) (by decide)

theorem mem_decimal {n : Nat} {b : UInt8} (hb : b ∈ decimal n) : 48 ≤ b.toNat ∧ b.toNat ≤ 57 := by
  obtain ⟨c, hc, rfl⟩ := List.mem_map.1 hb
  obtain ⟨heq, hdigit⟩ := toNat_decimal_byte hc
  rw [heq]
  exact hdigit

theorem newline_not_mem_decimal (n : Nat) : 10 ∉ decimal n := fun hin => by
  have h48 := (mem_decimal hin).1
  exact absurd h48 (by decide)

theorem parseU64_decimal (v : UInt64) : parseU64 (decimal v.toNat) = .ok v := by
  have hne : decimal v.toNat ≠ [] := by simp [decimal, Nat.toDigits_ne_nil]
  have hdigits : (decimal v.toNat).all isDigit = true := by
    refine List.all_eq_true.2 fun b hb => ?_
    have hrange := mem_decimal hb
    simp only [isDigit, Bool.and_eq_true, decide_eq_true_eq, UInt8.le_iff_toNat_le]
    exact hrange
  have hlt := v.toNat_lt
  unfold parseU64
  rw [if_neg hne, digitsValue_decimal, hdigits]
  simp only [Bool.not_true, Bool.false_eq_true, if_false]
  rw [if_neg (by omega)]
  simp

theorem parseU32_decimal (v : UInt32) : parseU32 (decimal v.toNat) = .ok v := by
  have hlt := v.toNat_lt
  have hwide : (UInt64.ofNat v.toNat).toNat = v.toNat :=
    UInt64.toNat_ofNat_of_lt' (by simp only [UInt64.size]; omega)
  have hparse := parseU64_decimal (UInt64.ofNat v.toNat)
  rw [hwide] at hparse
  unfold parseU32
  rw [hparse]
  simp only [hwide]
  rw [if_neg (by omega)]
  simp

theorem newline_not_mem_hashToHex (h : Hash) : 10 ∉ hashToHex h := by
  intro hin
  have hall := all_hexVal_bytesToHex h.bytes
  have hdigit := List.all_eq_true.1 hall 10 hin
  exact absurd hdigit (by decide)

/-! ## Lines -/

variable {R : Type} {assign : R → Bytes → Bytes → Except String R}

/-- Reading a piece of a body turns one record into another and goes on behind the piece. -/
def Reads (assign : R → Bytes → Bytes → Except String R) (text : Bytes) (record record' : R) :
    Prop :=
  ∀ rest, (splitLines (text ++ rest)).foldlM (readLine assign) record =
    (splitLines rest).foldlM (readLine assign) record'

theorem Reads.nil (record : R) : Reads assign [] record record := fun _ => rfl

theorem Reads.append {text text' : Bytes} {record record' record'' : R}
    (h : Reads assign text record record') (h' : Reads assign text' record' record'') :
    Reads assign (text ++ text') record record'' := by
  intro rest
  rw [List.append_assoc, h, h']

theorem splitLines_append {line : Bytes} (hline : 10 ∉ line) (rest : Bytes) :
    splitLines (line ++ 10 :: rest) = line :: splitLines rest := by
  induction line with
  | nil => simp [splitLines]
  | cons c line ih =>
      have hc : c ≠ 10 := fun hc => hline (hc ▸ List.mem_cons_self)
      rw [List.cons_append, splitLines, if_neg hc,
        ih fun hin => hline (List.mem_cons_of_mem c hin)]

/-- The parts around the first separator. -/
theorem split_at_separator {sep : UInt8} {front : Bytes} (hfront : sep ∉ front) (back : Bytes) :
    (front ++ sep :: back).contains sep = true ∧
      (front ++ sep :: back).takeWhile (· != sep) = front ∧
      ((front ++ sep :: back).dropWhile (· != sep)).drop 1 = back := by
  have hne : ∀ c ∈ front, (c != sep) = true := fun c hc => by
    simp only [bne_iff_ne]
    rintro rfl
    exact hfront hc
  refine ⟨by simp, ?_, ?_⟩
  · rw [List.takeWhile_append_of_pos hne]
    simp
  · rw [List.dropWhile_append_of_pos hne]
    simp

theorem splitKeyValue_append {key : Bytes} (hkey : 61 ∉ key) (value : Bytes) :
    splitKeyValue (key ++ 61 :: value) = some (key, value) := by
  obtain ⟨hin, hfront, hback⟩ := split_at_separator hkey value
  unfold splitKeyValue
  rw [if_pos hin, hfront, hback]

/-- A line is read as its field. -/
theorem reads_fieldLine {key : String} {value : Bytes} {record record' : R} (hkey : GoodKey key)
    (hvalue : 10 ∉ value) (ha : assign record (ascii key) value = .ok record') :
    Reads assign (fieldLine key value) record record' := by
  intro rest
  have hline : fieldLine key value ++ rest = (ascii key ++ 61 :: value) ++ 10 :: rest := by
    simp [fieldLine]
  have hnone : 10 ∉ ascii key ++ 61 :: value := by
    simp only [List.mem_append, List.mem_cons, not_or]
    exact ⟨hkey.2, by decide, hvalue⟩
  have hread : readLine assign record (ascii key ++ 61 :: value) = .ok record' := by
    unfold readLine
    rw [if_neg (by simp), splitKeyValue_append hkey.1]
    exact ha
  rw [hline, splitLines_append hnone, List.foldlM_cons, hread]
  rfl

/-- A list of lines with the same key. -/
theorem reads_flatMap {α : Type} {line : α → Bytes} (after : R → List α → R) {xs : List α}
    (hnil : ∀ record, after record [] = record)
    (hcons : ∀ record x xs, after (after record [x]) xs = after record (x :: xs))
    (hline : ∀ x ∈ xs, ∀ record, Reads assign (line x) record (after record [x])) (record : R) :
    Reads assign (xs.flatMap line) record (after record xs) := by
  induction xs generalizing record with
  | nil =>
      rw [hnil]
      exact Reads.nil record
  | cons x xs ih =>
      rw [List.flatMap_cons, ← hcons record x xs]
      exact (hline x List.mem_cons_self record).append
        (ih (fun y hy => hline y (List.mem_cons_of_mem x hy)) _)

/-- A body that was written line by line is read. -/
theorem readTextRecord_of_reads {what : String} {header text : Bytes} {empty record : R}
    (hheader : header ≠ []) (h : Reads assign text empty record) :
    readTextRecord what header assign empty (header ++ text) = .ok record := by
  have hread := h []
  rw [List.append_nil] at hread
  unfold readTextRecord
  rw [if_neg (by simp [hheader]), if_neg (by simp), List.take_left, if_neg (by simp),
    List.drop_left, hread]
  rfl

end ContextFS
