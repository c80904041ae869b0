import ContextFS.State.TextWriter

/-!
# `strtol`

The number at the front of a text: white space, a sign and digits.  What does not fit a `long` is
cut to its nearest value, and the caller may look whether that happened.
-/

namespace ContextFS

/-- Some sign in front of a text. -/
def signed (text : Bytes) : Bool := text.head? == some 45 || text.head? == some 43

/-- The number that the text starts with, in base 10. -/
def strtolValue (text : Bytes) : Option Int :=
  let text := text.dropWhile isSpace
  let digits := (if signed text then text.tail else text).takeWhile isDigit
  if digits = [] then none
  else if text.head? = some 45 then some (-(digitsValue digits : Int))
  else some (digitsValue digits)

def longMin : Int := -9223372036854775808
def longMax : Int := 9223372036854775807

/-- What fits a `long`. -/
def InLong (v : Int) : Prop := longMin ≤ v ∧ v ≤ longMax

instance (v : Int) : Decidable (InLong v) := inferInstanceAs (Decidable (_ ∧ _))

/-- `strtol`; without digits the end pointer stays at the text. -/
def strtol (text : Bytes) : Option Int :=
  (strtolValue text).map fun v => max longMin (min v longMax)

def isBlank (c : UInt8) : Bool := c == 32 || c == 9

/-- The text without the blanks and tabs in front. -/
def skipBlanks (text : Bytes) : Bytes := text.dropWhile isBlank

/-- A `long` as a stream writes it. -/
def decimalInt (n : Int) : Bytes := if n < 0 then 45 :: decimal n.natAbs else decimal n.natAbs

theorem decimalInt_natCast (n : Nat) : decimalInt (n : Int) = decimal n := by
  have hn : ¬ (n : Int) < 0 := by omega
  rw [decimalInt, if_neg hn, Int.natAbs_natCast]

/-- A number of 32 bits has ten digits at most. -/
theorem length_decimal {n : Nat} (h : n < 2 ^ 32) : (decimal n).length ≤ 10 := by
  rw [decimal, List.length_map]
  exact Nat.toDigits_length 10 _ 10 (by decide) (by omega)

theorem takeDigits_append {ds rest : Bytes} (hds : ∀ c ∈ ds, isDigit c = true)
    (hrest : ∀ c, rest.head? = some c → isDigit c = false) :
    (ds ++ rest).takeWhile isDigit = ds := by
  rw [List.takeWhile_append_of_pos hds]
  cases rest with
  | nil => simp
  | cons c rest => rw [List.takeWhile_cons_of_neg (by simp [hrest c rfl]), List.append_nil]

theorem decimal_digits (n : Nat) : ∀ c ∈ decimal n, isDigit c = true := by
  intro c hc
  obtain ⟨hlow, hhigh⟩ := mem_decimal hc
  simp only [isDigit, Bool.and_eq_true, decide_eq_true_eq, UInt8.le_iff_toNat_le]
  exact ⟨hlow, hhigh⟩

theorem decimal_ne_nil (n : Nat) : decimal n ≠ [] := by
  unfold decimal
  rw [ne_eq, List.map_eq_nil_iff]
  exact Nat.toDigits_ne_nil

/-- The first byte of a decimal is no space and no sign. -/
theorem decimal_head (n : Nat) : ∃ c rest, decimal n = c :: rest ∧ isSpace c = false ∧
    c ≠ 45 ∧ c ≠ 43 := by
  cases hd : decimal n with
  | nil => exact absurd hd (decimal_ne_nil n)
  | cons c rest =>
      obtain ⟨hlow, hhigh⟩ := mem_decimal (n := n) (b := c) (by rw [hd]; exact List.mem_cons_self)
      have hne : ∀ b : UInt8, b.toNat < 48 → c ≠ b := by
        rintro b hb rfl
        omega
      refine ⟨c, rest, rfl, ?_, hne 45 (by decide), hne 43 (by decide)⟩
      have hle : ¬ c ≤ 13 := fun h => by
        have hnat : c.toNat ≤ 13 := h
        omega
      simp [isSpace, hne 32 (by decide), hle]

/-- What a stream wrote is read back, up to the first byte that is no digit. -/
theorem strtolValue_decimalInt (n : Int) {rest : Bytes}
    (hrest : ∀ c, rest.head? = some c → isDigit c = false) :
    strtolValue (decimalInt n ++ rest) = some n := by
  obtain ⟨c, more, hdec, hspace, hminus, hplus⟩ := decimal_head n.natAbs
  have htake := takeDigits_append (decimal_digits n.natAbs) hrest
  have hvalue := digitsValue_decimal n.natAbs
  unfold decimalInt
  by_cases hn : n < 0
  · have hneg : ∀ text : Bytes, strtolValue (45 :: text) =
        if text.takeWhile isDigit = [] then none
        else some (-(digitsValue (text.takeWhile isDigit) : Int)) := fun text => rfl
    rw [if_pos hn, List.cons_append, hneg, htake, if_neg (decimal_ne_nil n.natAbs), hvalue]
    congr 1
    omega
  · have hskip : (decimal n.natAbs ++ rest).dropWhile isSpace = decimal n.natAbs ++ rest := by
      rw [hdec]
      exact List.dropWhile_cons_of_neg (by simp [hspace])
    have hsigned : signed (decimal n.natAbs ++ rest) = false := by
      rw [hdec]
      simp [signed, hminus, hplus]
    have hhead : (decimal n.natAbs ++ rest).head? ≠ some 45 := by
      rw [hdec]
      exact fun h => hminus (Option.some.inj h)
    unfold strtolValue
    simp only [if_neg hn, hskip, hsigned, Bool.false_eq_true, if_false, htake,
      if_neg (decimal_ne_nil n.natAbs), if_neg hhead, hvalue]
    congr 1
    omega

/-! ## What `strtol` reads -/

/-- An integer in front of a text: white space, perhaps a sign, and all the digits there are. -/
def StartsWithInt (text : Bytes) (n : Int) : Prop :=
  ∃ w sign ds rest, text = w ++ (sign ++ (ds ++ rest)) ∧ (∀ c ∈ w, isSpace c = true) ∧
    (sign = [] ∨ sign = [43] ∨ sign = [45]) ∧ ds ≠ [] ∧ (∀ c ∈ ds, isDigit c = true) ∧
    (∀ c, rest.head? = some c → isDigit c = false) ∧
    n = if sign = [45] then -(digitsValue ds : Int) else digitsValue ds

theorem dropSpaces_append {w rest : Bytes} (hw : ∀ c ∈ w, isSpace c = true)
    (hrest : ∀ c, rest.head? = some c → isSpace c = false) :
    (w ++ rest).dropWhile isSpace = rest := by
  rw [List.dropWhile_append_of_pos hw]
  cases rest with
  | nil => rfl
  | cons c rest => exact List.dropWhile_cons_of_neg (by simp [hrest c rfl])

theorem isDigit_range {c : UInt8} (h : isDigit c = true) : 48 ≤ c.toNat ∧ c.toNat ≤ 57 := by
  simp only [isDigit, Bool.and_eq_true, decide_eq_true_eq, UInt8.le_iff_toNat_le] at h
  exact h

theorem not_isSpace_of_isDigit {c : UInt8} (h : isDigit c = true) : isSpace c = false := by
  obtain ⟨hlow, -⟩ := isDigit_range h
  have hne : c ≠ 32 := by
    rintro rfl
    exact absurd hlow (by decide)
  have hle : ¬ c ≤ 13 := fun hc => by
    have hnat : c.toNat ≤ 13 := hc
    omega
  simp [isSpace, hne, hle]

theorem strtolValue_iff {text : Bytes} {n : Int} :
    strtolValue text = some n ↔ StartsWithInt text n := by
  constructor
  · intro h
    unfold strtolValue at h
    simp only at h
    -- the text is cut where `strtol` stops: white space, a sign, digits
    have hsplit := List.takeWhile_append_dropWhile (p := isSpace) (l := text)
    have hspaces : ∀ c ∈ text.takeWhile isSpace, isSpace c = true :=
      fun c hc => List.mem_takeWhile_imp hc
    generalize text.takeWhile isSpace = w at hsplit hspaces
    generalize text.dropWhile isSpace = body at h hsplit
    have hdigits := List.takeWhile_append_dropWhile (p := isDigit)
      (l := if signed body then body.tail else body)
    have hall : ∀ c ∈ (if signed body then body.tail else body).takeWhile isDigit,
        isDigit c = true := fun c hc => List.mem_takeWhile_imp hc
    have hrest : ∀ c, ((if signed body then body.tail else body).dropWhile isDigit).head? = some c →
        isDigit c = false := by
      intro c hc
      have hnot := List.head?_dropWhile_not isDigit (if signed body then body.tail else body)
      rw [hc] at hnot
      simpa using hnot
    generalize (if signed body then body.tail else body).takeWhile isDigit = ds at *
    generalize (if signed body then body.tail else body).dropWhile isDigit = rest at *
    split at h
    · cases h
    rename_i hne
    -- one case for each sign
    by_cases hminus : body.head? = some 45
    · rw [if_pos hminus] at h
      cases body with
      | nil => cases hminus
      | cons c body =>
          obtain rfl : c = 45 := Option.some.inj hminus
          have hsigned : signed (45 :: body) = true := rfl
          rw [hsigned, if_pos rfl, List.tail_cons] at hdigits
          refine ⟨w, [45], ds, rest, ?_, hspaces, Or.inr (Or.inr rfl), hne, hall, hrest, ?_⟩
          · rw [← hsplit, ← hdigits]
            rfl
          · rw [if_pos rfl]
            exact (Option.some.inj h).symm
    · rw [if_neg hminus] at h
      by_cases hplus : body.head? = some 43
      · cases body with
        | nil => cases hplus
        | cons c body =>
            obtain rfl : c = 43 := Option.some.inj hplus
            have hsigned : signed (43 :: body) = true := rfl
            rw [hsigned, if_pos rfl, List.tail_cons] at hdigits
            refine ⟨w, [43], ds, rest, ?_, hspaces, Or.inr (Or.inl rfl), hne, hall, hrest, ?_⟩
            · rw [← hsplit, ← hdigits]
              rfl
            · rw [if_neg (by decide)]
              exact (Option.some.inj h).symm
      · have hsigned : signed body = false := by simp [signed, hminus, hplus]
        rw [hsigned, if_neg Bool.false_ne_true] at hdigits
        refine ⟨w, [], ds, rest, ?_, hspaces, Or.inl rfl, hne, hall, hrest, ?_⟩
        · rw [← hsplit, ← hdigits]
          rfl
        · rw [if_neg (by decide)]
          exact (Option.some.inj h).symm
  · rintro ⟨w, sign, ds, rest, rfl, hw, hsign, hne, hds, hrest, rfl⟩
    have htake := takeDigits_append hds hrest
    unfold strtolValue
    -- the first digit is neither white space nor a sign
    obtain ⟨d, more, rfl⟩ := List.exists_cons_of_ne_nil hne
    have hd := hds d List.mem_cons_self
    rcases hsign with rfl | rfl | rfl
    · have hdrop : (w ++ ([] ++ (d :: more ++ rest))).dropWhile isSpace = d :: more ++ rest :=
        dropSpaces_append hw fun c hc => by
          obtain rfl : d = c := Option.some.inj hc
          exact not_isSpace_of_isDigit hd
      have hminus : d ≠ 45 := by
        rintro rfl
        exact absurd hd (by decide)
      have hplus : d ≠ 43 := by
        rintro rfl
        exact absurd hd (by decide)
      have hsigned : signed (d :: more ++ rest) = false := by simp [signed, hminus, hplus]
      have hhead : (d :: more ++ rest).head? ≠ some 45 := fun h => hminus (Option.some.inj h)
      simp only [hdrop, hsigned, Bool.false_eq_true, if_false, htake, if_neg hne, if_neg hhead]
      rfl
    · have hdrop : (w ++ ([43] ++ (d :: more ++ rest))).dropWhile isSpace =
          43 :: (d :: more ++ rest) := dropSpaces_append hw fun c hc => by
        obtain rfl : 43 = c := Option.some.inj hc
        decide
      have hsigned : signed (43 :: (d :: more ++ rest)) = true := rfl
      have hhead : (43 :: (d :: more ++ rest)).head? ≠ some 45 := by simp
      simp only [hdrop, hsigned, if_true, List.tail_cons, htake, if_neg hne, if_neg hhead]
      rfl
    · have hdrop : (w ++ ([45] ++ (d :: more ++ rest))).dropWhile isSpace =
          45 :: (d :: more ++ rest) := dropSpaces_append hw fun c hc => by
        obtain rfl : 45 = c := Option.some.inj hc
        decide
      have hsigned : signed (45 :: (d :: more ++ rest)) = true := rfl
      simp only [hdrop, hsigned, if_true, List.tail_cons, htake, if_neg hne, List.head?_cons]

/-- Blanks and tabs are white space of `strtol` anyway. -/
theorem strtolValue_skipBlanks (text : Bytes) : strtolValue (skipBlanks text) = strtolValue text := by
  have hdrop : (skipBlanks text).dropWhile isSpace = text.dropWhile isSpace := by
    unfold skipBlanks
    induction text with
    | nil => rfl
    | cons c text ih =>
        by_cases hc : isBlank c = true
        · have hspace : isSpace c = true := by
            simp only [isBlank, Bool.or_eq_true, beq_iff_eq] at hc
            rcases hc with rfl | rfl
            · decide
            · decide
          rw [List.dropWhile_cons_of_pos hc, ih, List.dropWhile_cons_of_pos hspace]
        · rw [List.dropWhile_cons_of_neg hc]
  unfold strtolValue
  rw [hdrop]

end ContextFS
