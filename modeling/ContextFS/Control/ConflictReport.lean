import ContextFS.Lib.Search
import ContextFS.Control.JsonText

/-!
# Conflict reports

The daemon writes the conflicting paths as an array of JSON strings; the client of `ctl` reads
the array with its own, shorter table of escapes.  A control byte that the daemon writes as
`\u00XX` is not in that table: the client takes the letter `u` for the byte and the digits for
four more.
-/

namespace ContextFS

open Lib

namespace ControlProtocol

/-- One path of a report. -/
def quoted (path : Bytes) : Bytes := 34 :: (jsonEscape path ++ [34])

/-- The loop of `json_conflict_response`. -/
def conflictItems : List Bytes → Bytes
  | [] => []
  | path :: paths => quoted path ++ paths.flatMap fun path => 44 :: quoted path

/-- `json_conflict_response`; 123 and 125 are the braces. -/
def jsonConflictResponse (conflicts : List Bytes) : Bytes :=
  123 :: (ascii "\"ok\":false,\"error\":\"merge conflicts\",\"conflicts\":[" ++
    (conflictItems conflicts ++ [93, 125]))

end ControlProtocol

namespace Ctl

/-- What follows a backslash. -/
def unescape (escaped : UInt8) : UInt8 :=
  if escaped = 110 then 10
  else if escaped = 114 then 13
  else if escaped = 116 then 9
  else escaped

/-- The inner loop of `extract_string_array`: a value up to its closing quote. -/
def readItem (value : Bytes) : Bytes → Option (Bytes × Bytes)
  | [] => none
  | c :: rest =>
      if c = 92 then
        match rest with
        | [] => none
        | escaped :: rest => readItem (value ++ [unescape escaped]) rest
      else if c = 34 then some (value, rest)
      else readItem (value ++ [c]) rest

def isSeparator (c : UInt8) : Bool := c == 32 || c == 9 || c == 10 || c == 13 || c == 44

/-- The outer loop of `extract_string_array`; every round takes a byte. -/
def extractItems : Nat → Bytes → List Bytes
  | 0, _ => []
  | fuel + 1, json =>
      match json.dropWhile isSeparator with
      | [] => []
      | c :: rest =>
          if c = 93 then []
          else if c ≠ 34 then []
          else
            match readItem [] rest with
            | none => []
            | some (value, rest) => value :: extractItems fuel rest

/-- `extract_string_array`. -/
def extractStringArray (json key : Bytes) : List Bytes :=
  match find (34 :: (key ++ [34])) json with
  | none => []
  | some p =>
      match find [91] p with
      | none => []
      | some p => extractItems p.length p.tail

/-! ## What the client shows -/

open ControlProtocol

/-- A byte that the escapes of the client cover. -/
def Shown (c : UInt8) : Prop := ¬ c < 32 ∨ c = 9 ∨ c = 10 ∨ c = 13

instance (c : UInt8) : Decidable (Shown c) := inferInstanceAs (Decidable (_ ∨ _))

/-- What the client makes of one byte of a path. -/
def shownByte (c : UInt8) : Bytes :=
  if Shown c then [c]
  else [117, 48, 48, hexDigit (c.toNat / 16), hexDigit (c.toNat % 16)]

/-- No digit of an escape ends the string or starts another escape. -/
theorem hexDigit_plain : ∀ n < 16, hexDigit n ≠ 92 ∧ hexDigit n ≠ 34 := by decide

theorem readItem_escape (escaped : UInt8) (value rest : Bytes) :
    readItem value (92 :: escaped :: rest) = readItem (value ++ [unescape escaped]) rest := by
  rw [readItem.eq_def]
  exact if_pos rfl

theorem readItem_quote (value rest : Bytes) : readItem value (34 :: rest) = some (value, rest) := by
  rw [readItem.eq_def]
  exact (if_neg (by decide)).trans (if_pos rfl)

theorem readItem_plain {c : UInt8} (hslash : c ≠ 92) (hquote : c ≠ 34) (value rest : Bytes) :
    readItem value (c :: rest) = readItem (value ++ [c]) rest := by
  rw [readItem.eq_def]
  exact (if_neg hslash).trans (if_neg hquote)

theorem readItem_escapeByte (c : UInt8) (value rest : Bytes) :
    readItem value (escapeByte c ++ rest) = readItem (value ++ shownByte c) rest := by
  unfold escapeByte
  split_ifs with hquote hslash hnewline hreturn htab hlow
  · subst hquote
    exact readItem_escape ..
  · subst hslash
    exact readItem_escape ..
  · subst hnewline
    exact readItem_escape ..
  · subst hreturn
    exact readItem_escape ..
  · subst htab
    exact readItem_escape ..
  · have hlt : c.toNat < 32 := hlow
    have hhigh := hexDigit_plain (c.toNat / 16) (by omega)
    have hlast := hexDigit_plain (c.toNat % 16) (by omega)
    have hshown : ¬ Shown c := by
      rintro (h | h | h | h)
      · exact h hlow
      · exact htab h
      · exact hnewline h
      · exact hreturn h
    rw [shownByte, if_neg hshown]
    show readItem value (92 :: 117 :: 48 :: 48 :: hexDigit (c.toNat / 16) ::
      hexDigit (c.toNat % 16) :: rest) = _
    have hletter : unescape 117 = 117 := by decide
    rw [readItem_escape, hletter, readItem_plain (by decide) (by decide),
      readItem_plain (by decide) (by decide), readItem_plain hhigh.1 hhigh.2,
      readItem_plain hlast.1 hlast.2]
    simp
  · have hshown : Shown c := Or.inl hlow
    rw [shownByte, if_pos hshown]
    exact readItem_plain hslash hquote value rest

/-- A path as the client shows it. -/
def shown (path : Bytes) : Bytes := path.flatMap shownByte

theorem readItem_jsonEscape (path value rest : Bytes) :
    readItem value (jsonEscape path ++ 34 :: rest) = some (value ++ shown path, rest) := by
  induction path generalizing value with
  | nil =>
      rw [shown, List.flatMap_nil, List.append_nil]
      exact readItem_quote value rest
  | cons c path ih =>
      have hesc : jsonEscape (c :: path) = escapeByte c ++ jsonEscape path := rfl
      have hshown : shown (c :: path) = shownByte c ++ shown path := rfl
      rw [hesc, List.append_assoc, readItem_escapeByte, ih, hshown, List.append_assoc]

/-- One round, with or without a comma in front. -/
theorem extractItems_quoted (fuel : Nat) (path rest : Bytes) :
    extractItems (fuel + 1) (quoted path ++ rest) = shown path :: extractItems fuel rest ∧
      extractItems (fuel + 1) (44 :: quoted path ++ rest) = shown path :: extractItems fuel rest := by
  have hread := readItem_jsonEscape path [] rest
  have hdrop : (quoted path ++ rest).dropWhile isSeparator = 34 :: (jsonEscape path ++ 34 :: rest) ∧
      (44 :: quoted path ++ rest).dropWhile isSeparator =
        34 :: (jsonEscape path ++ 34 :: rest) := by
    have htext : quoted path ++ rest = 34 :: (jsonEscape path ++ 34 :: rest) := by simp [quoted]
    rw [List.cons_append, htext]
    exact ⟨rfl, rfl⟩
  have hround : ∀ text, text.dropWhile isSeparator = 34 :: (jsonEscape path ++ 34 :: rest) →
      extractItems (fuel + 1) text = shown path :: extractItems fuel rest := by
    intro text htext
    rw [extractItems, htext]
    simp only [hread]
    rfl
  exact ⟨hround _ hdrop.1, hround _ hdrop.2⟩

theorem extractItems_conflictItems (conflicts : List Bytes) {fuel : Nat}
    (hfuel : conflicts.length < fuel) :
    extractItems fuel (conflictItems conflicts ++ [93, 125]) = conflicts.map shown := by
  have hbehind : ∀ (paths : List Bytes) (fuel : Nat), paths.length < fuel →
      extractItems fuel ((paths.flatMap fun path => 44 :: quoted path) ++ [93, 125]) =
        paths.map shown := by
    intro paths
    induction paths with
    | nil =>
        intro fuel hfuel
        cases fuel with
        | zero => cases hfuel
        | succ fuel => rfl
    | cons path paths ih =>
        intro fuel hfuel
        cases fuel with
        | zero => cases hfuel
        | succ fuel =>
            rw [List.flatMap_cons, List.append_assoc, (extractItems_quoted ..).2,
              ih fuel (Nat.lt_of_succ_lt_succ hfuel)]
            rfl
  cases conflicts with
  | nil => exact hbehind [] fuel hfuel
  | cons path paths =>
      cases fuel with
      | zero => cases hfuel
      | succ fuel =>
          rw [conflictItems, List.append_assoc, (extractItems_quoted ..).1,
            hbehind paths fuel (Nat.lt_of_succ_lt_succ hfuel)]
          rfl

/-- The array behind the key is the one of the conflicts. -/
theorem extractStringArray_report (conflicts : List Bytes) :
    extractStringArray (jsonConflictResponse conflicts) (ascii "conflicts") =
      conflicts.map shown := by
  have hkey : find (34 :: (ascii "conflicts" ++ [34]))
      (123 :: ascii "\"ok\":false,\"error\":\"merge conflicts\",\"conflicts\":[") =
        some (ascii "\"conflicts\":[") := by
    decide +kernel
  have hopen : find [91] (ascii "\"conflicts\":[") = some [91] := by decide +kernel
  have hlen : conflicts.length < ([91] ++ (conflictItems conflicts ++ [93, 125])).length := by
    have hle : conflicts.length ≤ (conflictItems conflicts).length := by
      cases conflicts with
      | nil => exact Nat.zero_le _
      | cons path paths =>
          have hpaths : ∀ ps : List Bytes,
              ps.length ≤ (ps.flatMap fun path => 44 :: quoted path).length := by
            intro ps
            induction ps with
            | nil => exact Nat.le_refl _
            | cons p ps ih =>
                simp only [List.flatMap_cons, List.length_append, List.length_cons]
                omega
          have htail := hpaths paths
          have hquoted : 1 ≤ (quoted path).length := Nat.succ_le_succ (Nat.zero_le _)
          rw [conflictItems, List.length_append, List.length_cons]
          omega
    simp only [List.length_append, List.length_cons]
    omega
  unfold extractStringArray jsonConflictResponse
  have hsplit : 123 :: (ascii "\"ok\":false,\"error\":\"merge conflicts\",\"conflicts\":[" ++
      (conflictItems conflicts ++ [93, 125])) =
      (123 :: ascii "\"ok\":false,\"error\":\"merge conflicts\",\"conflicts\":[") ++
        (conflictItems conflicts ++ [93, 125]) := rfl
  rw [hsplit, find_append hkey]
  simp only [find_append hopen]
  exact extractItems_conflictItems conflicts hlen

/-- A path comes back as it was only if the client's escapes cover it. -/
theorem shown_eq_iff (path : Bytes) : shown path = path ↔ ∀ c ∈ path, Shown c := by
  have hlen : ∀ path : Bytes, path.length ≤ (shown path).length ∧
      ((∃ c ∈ path, ¬ Shown c) → path.length < (shown path).length) := by
    intro path
    induction path with
    | nil => exact ⟨Nat.le_refl _, fun ⟨c, hc, _⟩ => (by cases hc)⟩
    | cons c path ih =>
        have hshown : (shown (c :: path)).length = (shownByte c).length + (shown path).length := by
          rw [← List.length_append]
          rfl
        rw [hshown, List.length_cons]
        by_cases hc : Shown c
        · have hone : (shownByte c).length = 1 := by
            rw [shownByte, if_pos hc]
            rfl
          refine ⟨by omega, ?_⟩
          rintro ⟨d, hd, hbad⟩
          rcases List.mem_cons.1 hd with rfl | hd
          · exact absurd hc hbad
          · have hlt := ih.2 ⟨d, hd, hbad⟩
            omega
        · have hfive : (shownByte c).length = 5 := by
            rw [shownByte, if_neg hc]
            rfl
          have hle := ih.1
          exact ⟨by omega, fun _ => by omega⟩
  constructor
  · intro h c hc
    by_contra hbad
    have hlt := (hlen path).2 ⟨c, hc, hbad⟩
    rw [h] at hlt
    exact absurd hlt (Nat.lt_irrefl _)
  · intro h
    induction path with
    | nil => rfl
    | cons c path ih =>
        show shownByte c ++ shown path = c :: path
        rw [ih fun d hd => h d (List.mem_cons_of_mem _ hd), shownByte,
          if_pos (h c List.mem_cons_self)]
        rfl

/-- The client reads the conflicts that were reported exactly when every control byte in their
paths is a tab, a line feed or a carriage return. -/
theorem conflictReport_intact_iff (conflicts : List Bytes) :
    extractStringArray (jsonConflictResponse conflicts) (ascii "conflicts") = conflicts ↔
      ∀ path ∈ conflicts, ∀ c ∈ path, ¬ c < 32 ∨ c = 9 ∨ c = 10 ∨ c = 13 := by
  rw [extractStringArray_report]
  constructor
  · intro h path hpath
    have hid : conflicts.map shown = conflicts.map id := h.trans (List.map_id conflicts).symm
    exact (shown_eq_iff path).1 (List.map_inj_left.1 hid path hpath)
  · intro h
    refine (List.map_congr_left fun path hpath => ?_).trans (List.map_id conflicts)
    exact (shown_eq_iff path).2 (h path hpath)

/-- A conflict in a file whose name is the byte 1 is shown as one in a file `u0001`. -/
theorem conflictReport_not_intact : ¬ ∀ conflicts : List Bytes,
    (∀ path ∈ conflicts, (0 : UInt8) ∉ path) →
      extractStringArray (jsonConflictResponse conflicts) (ascii "conflicts") = conflicts := by
  intro h
  exact absurd (h [[1]] (by decide)) (by decide +kernel)

end Ctl
end ContextFS
