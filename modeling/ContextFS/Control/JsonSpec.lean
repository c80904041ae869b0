import ContextFS.Control.JsonText

/-!
# What the JSON readers accept

Every reader takes a text of the grammar off the front of what it is given, and takes every such
text off.  A number has no end mark, so a number is taken off as a whole only where nothing
follows that could continue it.
-/

namespace ContextFS
namespace ControlProtocol

open Lib Lib.Json

/-! ## Code points -/

theorem or_eq_add (x : Nat) (hx : x < 64) : 0x80 ||| x = x + 0x80 ∧ 0xc0 ||| x = x + 0xc0 := by
  revert x
  decide

theorem or_eq_add_of_lt (x : Nat) (hx : x < 16) :
    0xe0 ||| x = x + 0xe0 ∧ (x < 8 → 0xf0 ||| x = x + 0xf0) := by
  revert x
  decide

/-- `append_utf8` appends the encoding of a code point that is no surrogate. -/
theorem appendUtf8_eq {v : Nat} (hv : v < 0xd800 ∨ 0xdfff < v) (hmax : v ≤ 0x10ffff)
    (out : Bytes) : appendUtf8 v out = some (out ++ utf8 v) := by
  have hval : (Char.ofNat v).val.toNat = v := by
    have hvalid : v.isValidChar := by
      unfold Nat.isValidChar
      omega
    have hnat := Char.toNat_ofNat v
    rwa [if_pos hvalid] at hnat
  have hlow : ∀ x : Nat, x &&& 0x3f = x % 64 := fun x => Nat.and_two_pow_sub_one_eq_mod x 6
  have hshift₆ : v >>> 6 = v / 64 := Nat.shiftRight_eq_div_pow v 6
  have hshift₁₂ : v >>> 12 = v / 4096 := Nat.shiftRight_eq_div_pow v 12
  have hshift₁₈ : v >>> 18 = v / 262144 := Nat.shiftRight_eq_div_pow v 18
  have htail : ∀ x : Nat, 0x80 ||| x % 64 = x % 64 + 0x80 :=
    fun x => (or_eq_add _ (Nat.mod_lt _ (by decide))).1
  unfold appendUtf8 utf8 String.utf8EncodeChar
  simp only [hval, hlow, hshift₆, hshift₁₂, hshift₁₈, htail]
  rw [if_neg (by omega), if_neg (by omega)]
  split
  · rfl
  split
  · rw [(or_eq_add (v / 64) (by omega)).2, Nat.mod_eq_of_lt (a := v / 64) (b := 32) (by omega)]
  split
  · rw [(or_eq_add_of_lt (v / 4096) (by omega)).1,
      Nat.mod_eq_of_lt (a := v / 4096) (b := 16) (by omega)]
  · rw [(or_eq_add_of_lt (v / 262144) (by omega)).2 (by omega),
      Nat.mod_eq_of_lt (a := v / 262144) (b := 8) (by omega)]

/-! ## Escapes -/

theorem hexVal_lt {c : UInt8} {d : Nat} (h : hexVal c = some d) : d < 16 := by
  unfold hexVal at h
  simp only [UInt8.le_iff_toNat_le] at h
  split at h
  · cases h
    rename_i hc
    have hhigh : c.toNat ≤ 57 := hc.2
    omega
  split at h
  · cases h
    rename_i hc
    have hhigh : c.toNat ≤ 102 := hc.2
    omega
  split at h
  · cases h
    rename_i hc
    have hhigh : c.toNat ≤ 70 := hc.2
    omega
  · cases h

theorem shift_or {value d : Nat} (hd : d < 16) : value <<< 4 ||| d = value * 16 + d := by
  rw [← Nat.shiftLeft_add_eq_or_of_lt (i := 4) hd, Nat.shiftLeft_eq]

theorem parseJsonHex4_of_hex4 {hex : Bytes} {v : Nat} (h : Hex4 hex v) (rest : Bytes) :
    parseJsonHex4 (hex ++ rest) = some (v, rest) := by
  obtain ⟨c₁, c₂, c₃, c₄, d₁, d₂, d₃, d₄, rfl, h₁, h₂, h₃, h₄, rfl⟩ := h
  change hexVal c₁ = some d₁ at h₁
  change hexVal c₂ = some d₂ at h₂
  change hexVal c₃ = some d₃ at h₃
  change hexVal c₄ = some d₄ at h₄
  have hlen : ¬ ([c₁, c₂, c₃, c₄] ++ rest).length < 4 := by
    simp only [List.length_append, List.length_cons, List.length_nil]
    omega
  rw [parseJsonHex4, if_neg hlen]
  simp only [List.cons_append, List.nil_append, List.take_succ_cons, List.take_zero,
    List.drop_succ_cons, List.drop_zero, List.foldlM_cons, List.foldlM_nil, h₁, h₂, h₃, h₄,
    Option.map_some, Option.bind_eq_bind, Option.bind_some, shift_or (hexVal_lt h₁),
    shift_or (hexVal_lt h₂), shift_or (hexVal_lt h₃), shift_or (hexVal_lt h₄)]
  simp

theorem hex4_of_parseJsonHex4 {json rest : Bytes} {v : Nat}
    (h : parseJsonHex4 json = some (v, rest)) : ∃ hex, Hex4 hex v ∧ json = hex ++ rest := by
  unfold parseJsonHex4 at h
  split at h
  · cases h
  rename_i hlen
  obtain ⟨value, hfold, heq⟩ := Option.map_eq_some_iff.1 h
  obtain ⟨rfl, rfl⟩ := Prod.mk.inj heq
  refine ⟨json.take 4, ?_, (List.take_append_drop 4 json).symm⟩
  have htake : (json.take 4).length = 4 := by
    rw [List.length_take]
    omega
  generalize json.take 4 = digits at hfold htake
  obtain ⟨c₁, c₂, c₃, c₄, rfl⟩ : ∃ c₁ c₂ c₃ c₄, digits = [c₁, c₂, c₃, c₄] := by
    rcases digits with _ | ⟨c₁, _ | ⟨c₂, _ | ⟨c₃, _ | ⟨c₄, _ | ⟨c₅, more⟩⟩⟩⟩⟩ <;> simp_all
  simp only [List.foldlM_cons, List.foldlM_nil, Option.bind_eq_bind, Option.bind_eq_some_iff,
    Option.map_eq_some_iff] at hfold
  obtain ⟨v₁, ⟨d₁, h₁, rfl⟩, v₂, ⟨d₂, h₂, rfl⟩, v₃, ⟨d₃, h₃, rfl⟩, v₄, ⟨d₄, h₄, rfl⟩, hv⟩ := hfold
  refine ⟨c₁, c₂, c₃, c₄, d₁, d₂, d₃, d₄, rfl, h₁, h₂, h₃, h₄, ?_⟩
  rw [shift_or (hexVal_lt h₁), shift_or (hexVal_lt h₂), shift_or (hexVal_lt h₃),
    shift_or (hexVal_lt h₄)] at hv
  have hv' : (((0 * 16 + d₁) * 16 + d₂) * 16 + d₃) * 16 + d₄ = value := Option.some.inj hv
  omega

theorem hex4_lt {hex : Bytes} {v : Nat} (h : Hex4 hex v) : v < 0x10000 := by
  obtain ⟨c₁, c₂, c₃, c₄, d₁, d₂, d₃, d₄, -, h₁, h₂, h₃, h₄, rfl⟩ := h
  have hd₁ := hexVal_lt (show hexVal c₁ = some d₁ from h₁)
  have hd₂ := hexVal_lt (show hexVal c₂ = some d₂ from h₂)
  have hd₃ := hexVal_lt (show hexVal c₃ = some d₃ from h₃)
  have hd₄ := hexVal_lt (show hexVal c₄ = some d₄ from h₄)
  omega

/-- The code point of a pair. -/
theorem pair_value {high low : Nat} (hlow : 0xdc00 ≤ low ∧ low ≤ 0xdfff) :
    0x10000 + ((high - 0xd800) <<< 10 ||| (low - 0xdc00)) =
      0x10000 + ((high - 0xd800) * 0x400 + (low - 0xdc00)) := by
  have hlt : low - 0xdc00 < 2 ^ 10 := by omega
  rw [← Nat.shiftLeft_add_eq_or_of_lt hlt, Nat.shiftLeft_eq]

theorem parseUnicode_complete {hex : Bytes} {v : Nat} (hhex : Hex4 hex v)
    (hv : v < 0xd800 ∨ 0xdfff < v) (out rest : Bytes) :
    parseUnicode out (hex ++ rest) = some (out ++ utf8 v, rest) := by
  have hmax := hex4_lt hhex
  simp only [parseUnicode, parseJsonHex4_of_hex4 hhex, Option.bind_eq_bind, Option.bind_some]
  rw [if_neg (by omega), if_neg (by omega), appendUtf8_eq hv (by omega)]
  rfl

theorem parseUnicode_pair {hex hex' : Bytes} {high low : Nat} (hhex : Hex4 hex high)
    (hhigh : 0xd800 ≤ high ∧ high ≤ 0xdbff) (hhex' : Hex4 hex' low)
    (hlow : 0xdc00 ≤ low ∧ low ≤ 0xdfff) (out rest : Bytes) :
    parseUnicode out (hex ++ (92 :: 117 :: (hex' ++ rest))) =
      some (out ++ utf8 (0x10000 + ((high - 0xd800) * 0x400 + (low - 0xdc00))), rest) := by
  simp only [parseUnicode, parseJsonHex4_of_hex4 hhex, Option.bind_eq_bind, Option.bind_some]
  rw [if_pos hhigh, if_pos (by rfl)]
  simp only [List.drop_succ_cons, List.drop_zero, parseJsonHex4_of_hex4 hhex', Option.bind_some]
  rw [if_neg (by omega), pair_value hlow, appendUtf8_eq (by omega) (by omega)]
  rfl

theorem parseUnicode_sound {out json out' rest : Bytes}
    (h : parseUnicode out json = some (out', rest)) :
    ∃ piece bytes, EscapeText (117 :: piece) bytes ∧ json = piece ++ rest ∧
      out' = out ++ bytes := by
  simp only [parseUnicode, Option.bind_eq_bind, Option.bind_eq_some_iff, Prod.exists] at h
  obtain ⟨v, rest₁, hparse, h⟩ := h
  obtain ⟨hex, hhex, rfl⟩ := hex4_of_parseJsonHex4 hparse
  have hmax := hex4_lt hhex
  split at h
  · rename_i hhigh
    split at h
    · rename_i hmark
      simp only [Option.bind_eq_some_iff, Prod.exists] at h
      obtain ⟨low, rest₂, hparse', h⟩ := h
      obtain ⟨hex', hhex', hdrop⟩ := hex4_of_parseJsonHex4 hparse'
      split at h
      · cases h
      rename_i hlow
      rw [pair_value (by omega), appendUtf8_eq (by omega) (by omega)] at h
      cases h
      refine ⟨_, _, .pair hhex hhigh hhex' (by omega), ?_, rfl⟩
      rw [← List.take_append_drop 2 rest₁, hmark, hdrop]
      simp
    · cases h
  · rename_i hhigh
    split at h
    · cases h
    rename_i hlow
    have hv : v < 0xd800 ∨ 0xdfff < v := by omega
    rw [appendUtf8_eq hv (by omega)] at h
    cases h
    exact ⟨hex, utf8 v, .unicode hhex hv, rfl, rfl⟩

/-- An escape of one character, in either order of the two. -/
theorem parseEscape_cons (out : Bytes) (esc : UInt8) (rest : Bytes) :
    parseEscape out (esc :: rest) =
      (simpleEscape esc).elim (if esc = 117 then parseUnicode out rest else none)
        fun b => some (out ++ [b], rest) := by
  rw [parseEscape, simpleEscape]
  split_ifs <;> simp only [Option.elim]

theorem parseEscape_complete {piece bytes : Bytes} (h : EscapeText piece bytes)
    (out rest : Bytes) : parseEscape out (piece ++ rest) = some (out ++ bytes, rest) := by
  have hmark : simpleEscape 117 = none := by decide
  cases h with
  | simple hc =>
      rw [List.cons_append, parseEscape_cons, hc]
      rfl
  | unicode hhex hv =>
      rw [List.cons_append, parseEscape_cons, hmark]
      exact parseUnicode_complete hhex hv out rest
  | pair hhex hhigh hhex' hlow =>
      rw [List.cons_append, parseEscape_cons, hmark]
      simp only [List.append_assoc, List.cons_append, if_true]
      exact parseUnicode_pair hhex hhigh hhex' hlow out rest

theorem parseEscape_sound {out json out' rest : Bytes}
    (h : parseEscape out json = some (out', rest)) :
    ∃ piece bytes, EscapeText piece bytes ∧ json = piece ++ rest ∧ out' = out ++ bytes := by
  cases json with
  | nil => cases h
  | cons esc json =>
      rw [parseEscape_cons] at h
      cases hc : simpleEscape esc with
      | some b =>
          simp only [hc, Option.elim_some, Option.some.injEq, Prod.mk.injEq] at h
          obtain ⟨rfl, rfl⟩ := h
          exact ⟨[esc], [b], .simple hc, rfl, rfl⟩
      | none =>
          simp only [hc, Option.elim_none] at h
          split at h
          · rename_i hmark
            obtain ⟨piece, bytes, hescape, rfl, rfl⟩ := parseUnicode_sound h
            exact ⟨esc :: piece, bytes, hmark ▸ hescape, rfl, rfl⟩
          · cases h

/-! ## Strings -/

theorem parseStringLoop_complete {body decoded : Bytes} (h : StringBody body decoded)
    (rest : Bytes) {fuel : Nat} (hfuel : body.length < fuel) (out : Bytes) :
    parseStringLoop fuel out (body ++ 34 :: rest) = some (out ++ decoded, rest) := by
  induction h generalizing fuel out with
  | nil =>
      cases fuel with
      | zero => cases hfuel
      | succ fuel => simp [parseStringLoop]
  | @plain c text decoded hquote hslash hlow h ih =>
      cases fuel with
      | zero => cases hfuel
      | succ fuel =>
          rw [List.cons_append, parseStringLoop, if_neg hquote, if_neg hslash, if_neg hlow,
            ih (Nat.lt_of_succ_lt_succ hfuel)]
          simp
  | @escape piece bytes text decoded hpiece h ih =>
      cases fuel with
      | zero => cases hfuel
      | succ fuel =>
          simp only [List.length_cons, List.length_append] at hfuel
          rw [List.cons_append, List.append_assoc, parseStringLoop, if_neg (by decide), if_pos rfl,
            parseEscape_complete hpiece]
          show parseStringLoop fuel (out ++ bytes) (text ++ 34 :: rest) = _
          rw [ih (by omega), List.append_assoc]

theorem parseStringLoop_sound {fuel : Nat} {out json out' rest : Bytes}
    (h : parseStringLoop fuel out json = some (out', rest)) :
    ∃ body decoded, StringBody body decoded ∧ json = body ++ 34 :: rest ∧
      out' = out ++ decoded := by
  induction fuel generalizing out json with
  | zero => cases h
  | succ fuel ih =>
      cases json with
      | nil => cases h
      | cons c json =>
          rw [parseStringLoop] at h
          split at h
          · rename_i hquote
            cases h
            exact ⟨[], [], .nil, by rw [hquote]; rfl, (List.append_nil _).symm⟩
          rename_i hquote
          split at h
          · rename_i hslash
            simp only [Option.bind_eq_bind, Option.bind_eq_some_iff, Prod.exists] at h
            obtain ⟨out₁, rest₁, hescape, h⟩ := h
            obtain ⟨piece, bytes, hpiece, rfl, rfl⟩ := parseEscape_sound hescape
            obtain ⟨body, decoded, hbody, rfl, rfl⟩ := ih h
            refine ⟨_, _, .escape hpiece hbody, ?_, List.append_assoc ..⟩
            rw [hslash]
            simp
          rename_i hslash
          split at h
          · cases h
          rename_i hlow
          obtain ⟨body, decoded, hbody, rfl, rfl⟩ := ih h
          exact ⟨c :: body, c :: decoded, .plain hquote hslash hlow hbody, rfl, by simp⟩

/-- `parse_json_string` takes a string of the grammar off the text, and only that. -/
theorem parseJsonString_iff {json out rest : Bytes} :
    parseJsonString json = some (out, rest) ↔
      ∃ text, StringText text out ∧ json = text ++ rest := by
  constructor
  · intro h
    cases json with
    | nil => cases h
    | cons c json =>
        rw [parseJsonString] at h
        split at h
        · rename_i hquote
          obtain ⟨body, decoded, hbody, rfl, rfl⟩ := parseStringLoop_sound h
          exact ⟨34 :: (body ++ [34]), ⟨body, rfl, hbody⟩, by rw [hquote]; simp⟩
        · cases h
  · rintro ⟨text, ⟨body, rfl, hbody⟩, rfl⟩
    rw [List.cons_append, List.append_assoc, parseJsonString, if_pos rfl]
    exact parseStringLoop_complete hbody rest (by simp) []

theorem parseJsonString_of_ne_quote {json : Bytes} (h : json.head? ≠ some 34) :
    parseJsonString json = none := by
  cases json with
  | nil => rfl
  | cons c json => exact if_neg fun hc => h (by rw [hc]; rfl)

/-! ## White space -/

/-- The white space in front of a text that does not start with any. -/
theorem skipJsonWs_append {w rest : Bytes} (hw : Ws w)
    (hrest : ∀ c, rest.head? = some c → isWs c = false) : skipJsonWs (w ++ rest) = rest := by
  unfold skipJsonWs
  rw [List.dropWhile_append_of_pos (p := isJsonWs) hw]
  cases rest with
  | nil => rfl
  | cons c rest =>
      have hc : isJsonWs c = false := hrest c rfl
      exact List.dropWhile_cons_of_neg (by simp [hc])

theorem skipJsonWs_of_ws {w : Bytes} (hw : Ws w) : skipJsonWs w = [] := by
  have hskip := skipJsonWs_append hw (show ∀ c, ([] : Bytes).head? = some c → isWs c = false from
    fun c hc => (by cases hc))
  rwa [List.append_nil] at hskip

theorem skipJsonWs_split (json : Bytes) : ∃ w, Ws w ∧ json = w ++ skipJsonWs json ∧
    ∀ c, (skipJsonWs json).head? = some c → isWs c = false := by
  refine ⟨json.takeWhile isJsonWs, fun c hc => List.mem_takeWhile_imp hc,
    (List.takeWhile_append_dropWhile ..).symm, fun c hc => ?_⟩
  have hhead := List.head?_dropWhile_not isJsonWs json
  change (json.dropWhile isJsonWs).head? = some c at hc
  rw [hc] at hhead
  simp only at hhead
  exact hhead

/-! ## Numbers -/

/-- No digit in front. -/
def NoDigit (text : Bytes) : Prop := ∀ c, text.head? = some c → isDigit c = false

theorem dropDigits_append {ds rest : Bytes} (hds : ∀ c ∈ ds, isDigit c = true)
    (hrest : NoDigit rest) : (ds ++ rest).dropWhile isDigit = rest := by
  rw [List.dropWhile_append_of_pos hds]
  cases rest with
  | nil => rfl
  | cons c rest => exact List.dropWhile_cons_of_neg (by simpa using hrest c rfl)

theorem skipSomeDigits_complete {ds rest : Bytes} (hds : Digits ds) (hrest : NoDigit rest) :
    skipSomeDigits (ds ++ rest) = some rest := by
  have hpos := List.length_pos_iff.2 hds.1
  unfold skipSomeDigits
  simp only [dropDigits_append hds.2 hrest]
  exact if_neg (by rw [List.length_append]; omega)

theorem skipSomeDigits_sound {json rest : Bytes} (h : skipSomeDigits json = some rest) :
    ∃ ds, Digits ds ∧ json = ds ++ rest := by
  unfold skipSomeDigits at h
  simp only at h
  split at h
  · cases h
  rename_i hlen
  cases h
  refine ⟨json.takeWhile isDigit, ⟨?_, fun c hc => List.mem_takeWhile_imp hc⟩,
    (List.takeWhile_append_dropWhile ..).symm⟩
  intro hnil
  have hsplit := congrArg List.length (List.takeWhile_append_dropWhile (p := isDigit) (l := json))
  rw [hnil] at hsplit
  exact hlen (by simpa using hsplit)

theorem skipIntPart_complete {int rest : Bytes} (hint : IntPart int) (hrest : NoDigit rest) :
    skipIntPart (int ++ rest) = some rest := by
  rcases hint with rfl | ⟨⟨hne, hds⟩, hzero⟩
  · rfl
  · cases int with
    | nil => exact absurd rfl hne
    | cons c ds =>
        have hc : isDigit c = true := hds c List.mem_cons_self
        rw [List.cons_append, skipIntPart, if_neg (by simp [hc]),
          if_neg fun h : c = 48 => hzero (by rw [h]; rfl)]
        have hdrop : ((c :: ds) ++ rest).dropWhile isDigit = rest := dropDigits_append hds hrest
        exact congrArg some hdrop

theorem skipIntPart_sound {json rest : Bytes} (h : skipIntPart json = some rest) :
    ∃ int, IntPart int ∧ json = int ++ rest := by
  cases json with
  | nil => cases h
  | cons c json =>
      rw [skipIntPart] at h
      split at h
      · cases h
      rename_i hc
      have hc : isDigit c = true := by simpa using hc
      split at h
      · rename_i hzero
        cases h
        exact ⟨[48], Or.inl rfl, by rw [hzero]; rfl⟩
      · rename_i hzero
        cases h
        have htake : (c :: json).takeWhile isDigit = c :: json.takeWhile isDigit :=
          List.takeWhile_cons_of_pos hc
        refine ⟨(c :: json).takeWhile isDigit,
          Or.inr ⟨⟨?_, fun b hb => List.mem_takeWhile_imp hb⟩, ?_⟩,
          (List.takeWhile_append_dropWhile ..).symm⟩
        · rw [htake]
          exact List.cons_ne_nil _ _
        · rw [htake]
          intro hhead
          exact hzero (Option.some.inj hhead)

theorem skipFracPart_complete {frac rest : Bytes} (hfrac : FracPart frac) (hrest : NoDigit rest)
    (hpoint : rest.head? ≠ some 46) : skipFracPart (frac ++ rest) = some rest := by
  rcases hfrac with rfl | ⟨ds, rfl, hds⟩
  · cases rest with
    | nil => rfl
    | cons c rest => exact if_neg fun h : c = 46 => hpoint (by rw [h]; rfl)
  · rw [List.cons_append, skipFracPart, if_pos rfl]
    exact skipSomeDigits_complete hds hrest

theorem skipFracPart_sound {json rest : Bytes} (h : skipFracPart json = some rest) :
    ∃ frac, FracPart frac ∧ json = frac ++ rest := by
  cases json with
  | nil =>
      cases h
      exact ⟨[], Or.inl rfl, rfl⟩
  | cons c json =>
      rw [skipFracPart] at h
      split at h
      · rename_i hpoint
        obtain ⟨ds, hds, rfl⟩ := skipSomeDigits_sound h
        exact ⟨46 :: ds, Or.inr ⟨ds, rfl, hds⟩, by rw [hpoint]; rfl⟩
      · cases h
        exact ⟨[], Or.inl rfl, rfl⟩

theorem skipExpPart_complete {exp rest : Bytes} (hexp : ExpPart exp) (hrest : NoDigit rest)
    (hmark : rest.head? ≠ some 101 ∧ rest.head? ≠ some 69) :
    skipExpPart (exp ++ rest) = some rest := by
  rcases hexp with rfl | ⟨mark, sign, ds, rfl, hmk, hsign, hds⟩
  · cases rest with
    | nil => rfl
    | cons c rest =>
        refine if_neg ?_
        rintro (rfl | rfl)
        · exact hmark.1 rfl
        · exact hmark.2 rfl
  · have hsome := skipSomeDigits_complete hds hrest
    rw [List.cons_append, List.append_assoc, skipExpPart, if_pos hmk]
    rcases hsign with rfl | rfl | rfl
    · -- no sign: the first digit is none
      rw [if_neg]
      · exact hsome
      · cases ds with
        | nil => exact absurd rfl hds.1
        | cons c ds =>
            have hc := hds.2 c List.mem_cons_self
            simp only [List.nil_append, List.cons_append, List.head?_cons, Option.some.injEq]
            rintro (rfl | rfl)
            · exact absurd hc (by decide)
            · exact absurd hc (by decide)
    · rw [if_pos (Or.inl (by rfl))]
      exact hsome
    · rw [if_pos (Or.inr (by rfl))]
      exact hsome

theorem skipExpPart_sound {json rest : Bytes} (h : skipExpPart json = some rest) :
    ∃ exp, ExpPart exp ∧ json = exp ++ rest := by
  cases json with
  | nil =>
      cases h
      exact ⟨[], Or.inl rfl, rfl⟩
  | cons c json =>
      rw [skipExpPart] at h
      split at h
      · rename_i hmark
        split at h
        · rename_i hsign
          cases json with
          | nil => simp at hsign
          | cons b json =>
              obtain ⟨ds, hds, htail⟩ := skipSomeDigits_sound h
              have hb : OptSign [b] := by
                rcases hsign with hsign | hsign
                · exact Or.inr (Or.inl (by rw [Option.some.inj hsign]))
                · exact Or.inr (Or.inr (by rw [Option.some.inj hsign]))
              refine ⟨c :: ([b] ++ ds), Or.inr ⟨c, [b], ds, rfl, hmark, hb, hds⟩, ?_⟩
              rw [List.tail_cons] at htail
              rw [htail]
              rfl
        · obtain ⟨ds, hds, rfl⟩ := skipSomeDigits_sound h
          exact ⟨c :: ([] ++ ds), Or.inr ⟨c, [], ds, rfl, hmark, Or.inl rfl, hds⟩, rfl⟩
      · cases h
        exact ⟨[], Or.inl rfl, rfl⟩

/-- Nothing in front that could continue a number. -/
def NumberEnds (text : Bytes) : Prop :=
  ∀ c, text.head? = some c → isDigit c = false ∧ c ≠ 46 ∧ c ≠ 101 ∧ c ≠ 69

theorem intPart_head {int : Bytes} (h : IntPart int) : ∃ c ds, int = c :: ds ∧ isDigit c = true := by
  rcases h with rfl | ⟨⟨hne, hds⟩, -⟩
  · exact ⟨48, [], rfl, by decide⟩
  · cases int with
    | nil => exact absurd rfl hne
    | cons c ds => exact ⟨c, ds, rfl, hds c List.mem_cons_self⟩

theorem head?_append_eq {a b : Bytes} {c : UInt8} (h : (a ++ b).head? = some c) :
    a.head? = some c ∨ (a = [] ∧ b.head? = some c) := by
  cases a with
  | nil => exact Or.inr ⟨rfl, h⟩
  | cons x a => exact Or.inl h

/-- A number starts with a minus or a digit. -/
theorem number_head {text : Bytes} (h : Number text) :
    ∃ c rest, text = c :: rest ∧ (c = 45 ∨ isDigit c = true) := by
  obtain ⟨minus, int, frac, exp, rfl, hminus, hint, -, -⟩ := h
  rcases hminus with rfl | rfl
  · obtain ⟨c, ds, rfl, hc⟩ := intPart_head hint
    exact ⟨c, _, rfl, Or.inr hc⟩
  · exact ⟨45, _, rfl, Or.inl rfl⟩

/-- No number starts like this. -/
theorem ne_of_number_head {c b : UInt8} (h : c = 45 ∨ isDigit c = true) (hminus : b ≠ 45)
    (hdigit : isDigit b = false) : c ≠ b := by
  rintro rfl
  rcases h with rfl | hc
  · exact hminus rfl
  · rw [hdigit] at hc
    cases hc

theorem expPart_head {exp : Bytes} {c : UInt8} (h : ExpPart exp) (hc : exp.head? = some c) :
    c = 101 ∨ c = 69 := by
  rcases h with rfl | ⟨mark, sign, ds, rfl, hmark, -, -⟩
  · cases hc
  · obtain rfl : mark = c := Option.some.inj hc
    exact hmark

theorem fracPart_head {frac : Bytes} {c : UInt8} (h : FracPart frac)
    (hc : frac.head? = some c) : c = 46 := by
  rcases h with rfl | ⟨ds, rfl, -⟩
  · cases hc
  · exact (Option.some.inj hc).symm

theorem skipJsonNumber_complete {text rest : Bytes} (h : Number text) (hrest : NumberEnds rest) :
    skipJsonNumber (text ++ rest) = some rest := by
  obtain ⟨minus, int, frac, exp, rfl, hminus, hint, hfrac, hexp⟩ := h
  have hnoExp : NoDigit (exp ++ rest) := by
    intro c hc
    rcases head?_append_eq hc with hc | ⟨-, hc⟩
    · rcases expPart_head hexp hc with rfl | rfl
      · decide
      · decide
    · exact (hrest c hc).1
  have hnoPoint : (exp ++ rest).head? ≠ some 46 := by
    intro hc
    rcases head?_append_eq hc with hc | ⟨-, hc⟩
    · exact absurd (expPart_head hexp hc) (by decide)
    · exact (hrest 46 hc).2.1 rfl
  have hnoFrac : NoDigit (frac ++ (exp ++ rest)) := by
    intro c hc
    rcases head?_append_eq hc with hc | ⟨-, hc⟩
    · rw [fracPart_head hfrac hc]
      decide
    · exact hnoExp c hc
  have hnoMinus : (int ++ (frac ++ (exp ++ rest))).head? ≠ some 45 := by
    obtain ⟨c, ds, rfl, hc⟩ := intPart_head hint
    rintro ⟨⟩
    exact absurd hc (by decide)
  have hstart : (if (minus ++ (int ++ (frac ++ exp)) ++ rest).head? = some 45
      then (minus ++ (int ++ (frac ++ exp)) ++ rest).tail
      else minus ++ (int ++ (frac ++ exp)) ++ rest) = int ++ (frac ++ (exp ++ rest)) := by
    rcases hminus with rfl | rfl
    · simp only [List.nil_append, List.append_assoc]
      exact if_neg hnoMinus
    · simp
  rw [skipJsonNumber, hstart]
  simp only [Option.bind_eq_bind, skipIntPart_complete hint hnoFrac, Option.bind_some,
    skipFracPart_complete hfrac hnoExp hnoPoint]
  exact skipExpPart_complete hexp (fun c hc => (hrest c hc).1)
    ⟨fun hc => (hrest _ hc).2.2.1 rfl, fun hc => (hrest _ hc).2.2.2 rfl⟩

theorem skipJsonNumber_sound {json rest : Bytes} (h : skipJsonNumber json = some rest) :
    ∃ text, Number text ∧ json = text ++ rest := by
  simp only [skipJsonNumber, Option.bind_eq_bind, Option.bind_eq_some_iff] at h
  obtain ⟨rest₁, hskip₁, rest₂, hskip₂, hskip₃⟩ := h
  obtain ⟨int, hint, hjson⟩ := skipIntPart_sound hskip₁
  obtain ⟨frac, hfrac, rfl⟩ := skipFracPart_sound hskip₂
  obtain ⟨exp, hexp, rfl⟩ := skipExpPart_sound hskip₃
  split at hjson
  · rename_i hminus
    cases json with
    | nil => cases hminus
    | cons c json =>
        obtain rfl : c = 45 := Option.some.inj hminus
        rw [List.tail_cons] at hjson
        refine ⟨[45] ++ (int ++ (frac ++ exp)),
          ⟨[45], int, frac, exp, rfl, Or.inr rfl, hint, hfrac, hexp⟩, ?_⟩
        rw [hjson]
        simp
  · refine ⟨[] ++ (int ++ (frac ++ exp)),
      ⟨[], int, frac, exp, rfl, Or.inl rfl, hint, hfrac, hexp⟩, ?_⟩
    rw [hjson]
    simp

/-! ## Values -/

theorem ascii_literals : ascii "true" = litTrue ∧ ascii "false" = litFalse ∧
    ascii "null" = litNull := by
  decide +kernel

theorem consumeJsonLiteral_append (literal rest : Bytes) :
    consumeJsonLiteral (literal ++ rest) literal = some rest := by
  rw [consumeJsonLiteral, if_pos (List.take_left ..), List.drop_left]

theorem consumeJsonLiteral_sound {json literal rest : Bytes}
    (h : consumeJsonLiteral json literal = some rest) : json = literal ++ rest := by
  unfold consumeJsonLiteral at h
  split at h
  · rename_i htake
    cases h
    rw [← List.take_append_drop literal.length json, htake]
    simp
  · cases h

theorem consumeJsonLiteral_of_head {json literal : Bytes} {c : UInt8}
    (hc : literal.head? = some c) (hne : json.head? ≠ some c) :
    consumeJsonLiteral json literal = none := by
  refine if_neg fun htake => hne ?_
  rw [← htake] at hc
  cases json with
  | nil => simp at hc
  | cons b json =>
      cases literal with
      | nil => simp at hc
      | cons d literal => simpa using hc

/-- What a value starts with. -/
theorem valueText_head {text : Bytes} {v : Value} (h : ValueText text v) :
    ∃ c rest, text = c :: rest ∧ isWs c = false ∧
      (c = 34 ∨ c = 45 ∨ isDigit c = true ∨ c = 116 ∨ c = 102 ∨ c = 110) := by
  cases h with
  | str h =>
      obtain ⟨body, rfl, -⟩ := h
      exact ⟨34, _, rfl, by decide, Or.inl rfl⟩
  | num h =>
      obtain ⟨c, rest, rfl, hc⟩ := number_head h
      refine ⟨c, rest, rfl, ?_, by tauto⟩
      have hne : ∀ b : UInt8, b ≠ 45 → isDigit b = false → (c == b) = false := fun b hb hd =>
        beq_eq_false_iff_ne.2 (ne_of_number_head hc hb hd)
      simp only [isWs, hne 32 (by decide) (by decide), hne 9 (by decide) (by decide),
        hne 10 (by decide) (by decide), hne 13 (by decide) (by decide), Bool.or_self]
  | yes => exact ⟨116, _, rfl, by decide, by simp⟩
  | no => exact ⟨102, _, rfl, by decide, by simp⟩
  | null => exact ⟨110, _, rfl, by decide, by simp⟩

/-- What is not a string is a literal or a number. -/
theorem skipFlatJsonValue_of_ne_quote {json tail : Bytes} (hskip : skipJsonWs json = tail)
    (hc : tail.head? ≠ some 34) (hne : tail ≠ []) :
    skipFlatJsonValue json = (consumeJsonLiteral tail litTrue).or
      ((consumeJsonLiteral tail litFalse).or
        ((consumeJsonLiteral tail litNull).or (skipJsonNumber tail))) := by
  unfold skipFlatJsonValue
  rw [hskip, ascii_literals.1, ascii_literals.2.1, ascii_literals.2.2]
  cases tail with
  | nil => exact absurd rfl hne
  | cons c tail => exact if_neg fun h => hc (by rw [h]; rfl)

/-- `skip_flat_json_value` takes a value of the grammar off the text. -/
theorem skipFlatJsonValue_complete {w text rest : Bytes} {v : Value} (hw : Ws w)
    (h : ValueText text v) (hrest : NumberEnds rest) :
    skipFlatJsonValue (w ++ (text ++ rest)) = some rest := by
  obtain ⟨c, more, htext, hc, -⟩ := valueText_head h
  have hskip : skipJsonWs (w ++ (text ++ rest)) = text ++ rest :=
    skipJsonWs_append hw fun b hb => by
      rw [htext] at hb
      obtain rfl : c = b := Option.some.inj hb
      exact hc
  cases h with
  | @str text out h =>
      have hparse := parseJsonString_iff.2 ⟨text, h, (rfl : text ++ rest = _)⟩
      obtain ⟨body, rfl, -⟩ := h
      unfold skipFlatJsonValue
      rw [hskip]
      exact (if_pos rfl).trans (congrArg (Option.map Prod.snd) hparse)
  | @num text h =>
      have hnumber := skipJsonNumber_complete h hrest
      obtain ⟨b, more', hb, hstart⟩ := number_head h
      rw [hb, List.cons_append] at hskip hnumber
      rw [hb, List.cons_append]
      have hfails : ∀ literal d, literal.head? = some d → b ≠ d →
          consumeJsonLiteral (b :: (more' ++ rest)) literal = none := fun literal d hd hne =>
        consumeJsonLiteral_of_head hd fun h => hne (Option.some.inj h)
      have hquote : (b :: (more' ++ rest)).head? ≠ some 34 := fun h =>
        ne_of_number_head hstart (by decide) (by decide) (Option.some.inj h)
      rw [skipFlatJsonValue_of_ne_quote hskip hquote (List.cons_ne_nil _ _),
        hfails litTrue 116 rfl (ne_of_number_head hstart (by decide) (by decide)),
        hfails litFalse 102 rfl (ne_of_number_head hstart (by decide) (by decide)),
        hfails litNull 110 rfl (ne_of_number_head hstart (by decide) (by decide)),
        Option.none_or, Option.none_or, Option.none_or]
      exact hnumber
  | yes =>
      rw [skipFlatJsonValue_of_ne_quote hskip (by simp [litTrue]) (by simp [litTrue]),
        consumeJsonLiteral_append, Option.some_or]
  | no =>
      have hfail : consumeJsonLiteral (litFalse ++ rest) litTrue = none :=
        consumeJsonLiteral_of_head (by rfl) (by simp [litFalse])
      rw [skipFlatJsonValue_of_ne_quote hskip (by simp [litFalse]) (by simp [litFalse]), hfail,
        consumeJsonLiteral_append, Option.none_or, Option.some_or]
  | null =>
      have hfail : consumeJsonLiteral (litNull ++ rest) litTrue = none :=
        consumeJsonLiteral_of_head (by rfl) (by simp [litNull])
      have hfail' : consumeJsonLiteral (litNull ++ rest) litFalse = none :=
        consumeJsonLiteral_of_head (by rfl) (by simp [litNull])
      rw [skipFlatJsonValue_of_ne_quote hskip (by simp [litNull]) (by simp [litNull]), hfail,
        hfail', consumeJsonLiteral_append, Option.none_or, Option.none_or, Option.some_or]

theorem skipFlatJsonValue_sound {json rest : Bytes} (h : skipFlatJsonValue json = some rest) :
    ∃ w text v, Ws w ∧ ValueText text v ∧ json = w ++ (text ++ rest) := by
  obtain ⟨w, hw, hjson, -⟩ := skipJsonWs_split json
  unfold skipFlatJsonValue at h
  rw [ascii_literals.1, ascii_literals.2.1, ascii_literals.2.2] at h
  generalize skipJsonWs json = tail at h hjson
  subst hjson
  cases tail with
  | nil => cases h
  | cons c tail =>
      simp only at h
      split at h
      · obtain ⟨⟨out, rest'⟩, hparse, rfl⟩ := Option.map_eq_some_iff.1 h
        obtain ⟨text, htext, hsplit⟩ := parseJsonString_iff.1 hparse
        exact ⟨w, text, .str out, hw, .str htext, by rw [hsplit]⟩
      simp only [Option.or_eq_some_iff] at h
      rcases h with h | ⟨-, h | ⟨-, h | ⟨-, h⟩⟩⟩
      · exact ⟨w, _, _, hw, .yes, by rw [consumeJsonLiteral_sound h]⟩
      · exact ⟨w, _, _, hw, .no, by rw [consumeJsonLiteral_sound h]⟩
      · exact ⟨w, _, _, hw, .null, by rw [consumeJsonLiteral_sound h]⟩
      · obtain ⟨text, htext, hsplit⟩ := skipJsonNumber_sound h
        exact ⟨w, text, .num text, hw, .num htext, by rw [hsplit]⟩

theorem numberEnds_append {w rest : Bytes} (hw : Ws w) (hrest : NumberEnds rest) :
    NumberEnds (w ++ rest) := by
  intro c hc
  rcases head?_append_eq hc with hc | ⟨-, hc⟩
  · have hws := hw c (List.mem_of_mem_head? hc)
    simp only [isWs, Bool.or_eq_true, beq_iff_eq] at hws
    rcases hws with ((rfl | rfl) | rfl) | rfl <;> decide
  · exact hrest c hc

theorem numberEnds_comma (rest : Bytes) : NumberEnds (44 :: rest) := by
  intro c hc
  obtain rfl : 44 = c := Option.some.inj hc
  decide

theorem numberEnds_brace (rest : Bytes) : NumberEnds (125 :: rest) := by
  intro c hc
  obtain rfl : 125 = c := Option.some.inj hc
  decide

end ControlProtocol
end ContextFS
