import ContextFS.Lib.JsonPlaces
import ContextFS.Control.Lookup

/-!
# A text of members that is cut at a brace

A text that starts at a quoted name and goes up to the next closing brace shows the members that
stand in it whole.  The brace may stand in a string: then that string has no end, no quote behind
its start opens another, and a lookup finds the members that are shown and nothing else.
-/

namespace ContextFS
namespace ControlProtocol

open Lib Lib.Json

/-- Members up to a brace: all of them, or up to a name or a value that has the brace. -/
inductive CutText : Bytes → List Member → Prop
  | whole {text : Bytes} {ms : List Member} (h : MembersText text ms) : CutText text ms
  | name {front body more out : Bytes} {ms : List Member} (hfront : FrontText front ms)
      (hbody : StringBody (body ++ 125 :: more) out) : CutText (front ++ 34 :: body) ms
  | value {front name decoded w w' body more out : Bytes} {ms : List Member}
      (hfront : FrontText front ms) (hname : StringText name decoded) (hw : Ws w) (hw' : Ws w')
      (hbody : StringBody (body ++ 125 :: more) out) :
      CutText (front ++ (name ++ (w ++ 58 :: (w' ++ 34 :: body)))) ms

/-- What a text shows that starts at the quoted key.  The key may be a name, or the end of one, and
is then shown with its value; or it is a value, or the end of one, and what follows is shown. -/
inductive Shows (key : Bytes) : Bytes → List Member → Prop
  | name {text : Bytes} {seen : List Member} (h : CutText text seen) : Shows key text seen
  | value {w w' text : Bytes} {seen : List Member} (hw : Ws w) (hw' : Ws w')
      (h : CutText text seen) : Shows key (34 :: (key ++ [34]) ++ (w ++ 44 :: (w' ++ text))) seen
  | last {w : Bytes} (hw : Ws w) : Shows key (34 :: (key ++ [34]) ++ w) []

/-! ## Quotes in strings -/

/-- No quote of the text stands by itself; `escaped` says that a backslash stands in front. -/
def Unquoted : Bool → Bytes → Prop
  | _, [] => True
  | true, _ :: text => Unquoted false text
  | false, c :: text => c ≠ 34 ∧ Unquoted (c == 92) text

theorem unquoted_of_append {escaped : Bool} {text more : Bytes}
    (h : Unquoted escaped (text ++ more)) : Unquoted escaped text := by
  induction text generalizing escaped with
  | nil =>
      cases escaped with
      | true => exact True.intro
      | false => exact True.intro
  | cons c text ih =>
      cases escaped with
      | true => exact ih h
      | false => exact ⟨h.1, ih h.2⟩

/-- What follows an escaped quote starts anew. -/
theorem unquoted_behind_quote {escaped : Bool} {front text : Bytes}
    (h : Unquoted escaped (front ++ 34 :: text)) : Unquoted false text := by
  induction front generalizing escaped with
  | nil =>
      cases escaped with
      | true => exact h
      | false => exact absurd rfl h.1
  | cons c front ih =>
      cases escaped with
      | true => exact ih h
      | false => exact ih h.2

theorem hex4_plain {hex : Bytes} {v : Nat} (h : Hex4 hex v) : 34 ∉ hex ∧ 92 ∉ hex := by
  obtain ⟨c₁, c₂, c₃, c₄, d₁, d₂, d₃, d₄, rfl, h₁, h₂, h₃, h₄, -⟩ := h
  have hne : ∀ {c : UInt8} {d : Nat}, hexValue c = some d → 34 ≠ c ∧ 92 ≠ c := by
    rintro c d hd
    constructor
    · rintro rfl
      exact absurd hd (by simp [hexValue])
    · rintro rfl
      exact absurd hd (by simp [hexValue])
  simp only [List.mem_cons, List.not_mem_nil, or_false, not_or]
  exact ⟨⟨(hne h₁).1, (hne h₂).1, (hne h₃).1, (hne h₄).1⟩,
    (hne h₁).2, (hne h₂).2, (hne h₃).2, (hne h₄).2⟩

/-- Only the escape of a quote has one. -/
theorem quote_of_escapeText {piece bytes : Bytes} (h : EscapeText piece bytes) :
    piece = [34] ∨ 34 ∉ piece := by
  cases h with
  | @simple c b hc =>
      by_cases hquote : c = 34
      · exact Or.inl (by rw [hquote])
      · exact Or.inr fun hin => hquote (List.mem_singleton.1 hin).symm
  | @unicode hex v hhex hv =>
      have hin := (hex4_plain hhex).1
      exact Or.inr (by simp [hin])
  | @pair hex hex' high low hhex hhigh hhex' hlow =>
      have hin := (hex4_plain hhex).1
      have hin' := (hex4_plain hhex').1
      exact Or.inr (by simp [hin, hin'])

theorem unquoted_plain {front text : Bytes} (hquote : 34 ∉ front) (hslash : 92 ∉ front) :
    Unquoted false (front ++ text) ↔ Unquoted false text := by
  induction front with
  | nil => exact Iff.rfl
  | cons c front ih =>
      simp only [List.mem_cons, not_or] at hquote hslash
      have hmark : (c == 92) = false := beq_eq_false_iff_ne.2 (Ne.symm hslash.1)
      rw [List.cons_append, Unquoted, hmark, ih hquote.2 hslash.2]
      exact and_iff_right (Ne.symm hquote.1)

/-- An escape ends where the next character starts. -/
theorem unquoted_escape {piece bytes : Bytes} (h : EscapeText piece bytes) (text : Bytes) :
    Unquoted true (piece ++ text) ↔ Unquoted false text := by
  cases h with
  | simple hc => exact Iff.rfl
  | unicode hhex hv =>
      rw [List.cons_append, Unquoted]
      exact unquoted_plain (hex4_plain hhex).1 (hex4_plain hhex).2
  | @pair hex hex' high low hhex hhigh hhex' hlow =>
      have hsplit : 117 :: (hex ++ 92 :: 117 :: hex') ++ text =
          117 :: (hex ++ 92 :: 117 :: (hex' ++ text)) := by simp
      rw [hsplit, Unquoted, unquoted_plain (hex4_plain hhex).1 (hex4_plain hhex).2, Unquoted,
        ← unquoted_plain (hex4_plain hhex').1 (hex4_plain hhex').2]
      exact and_iff_right (by decide)

/-- The characters of a string leave nothing escaped. -/
theorem unquoted_body {body out : Bytes} (h : StringBody body out) (text : Bytes) :
    Unquoted false (body ++ text) ↔ Unquoted false text := by
  induction h with
  | nil => exact Iff.rfl
  | @plain c more out hquote hslash hlow h ih =>
      have hmark : (c == 92) = false := beq_eq_false_iff_ne.2 hslash
      rw [List.cons_append, Unquoted, hmark, ih]
      exact and_iff_right hquote
  | @escape piece bytes more out hpiece h ih =>
      rw [List.cons_append, List.append_assoc, Unquoted]
      exact (and_iff_right (by decide)).trans ((unquoted_escape hpiece _).trans ih)

/-- The end of a string behind an escaped quote is made of characters too. -/
theorem stringBody_behind_quote {front text out : Bytes} (h : StringBody (front ++ 34 :: text) out) :
    ∃ out', StringBody text out' := by
  generalize hall : front ++ 34 :: text = all at h
  induction h generalizing front with
  | nil => exact absurd hall (by simp)
  | @plain c more out hquote hslash hlow h ih =>
      cases front with
      | nil => exact absurd (List.cons.inj hall).1.symm hquote
      | cons d front => exact ih (List.cons.inj hall).2
  | @escape piece bytes more out hpiece h ih =>
      cases front with
      | nil => exact absurd (List.cons.inj hall).1 (by decide)
      | cons d front =>
          rcases split_byte (List.cons.inj hall).2.symm with ⟨b, hpart, rfl⟩ | ⟨a, -, hpart⟩
          · rcases quote_of_escapeText hpiece with rfl | hno
            · cases front with
              | nil =>
                  obtain ⟨-, rfl⟩ := List.cons.inj hpart
                  exact ⟨out, h⟩
              | cons e front => exact absurd (List.cons.inj hpart).2 (by simp)
            · rw [hpart] at hno
              exact absurd (List.mem_append_right _ List.mem_cons_self) hno
          · exact ih hpart.symm

/-- Characters without a backslash stand for themselves. -/
theorem stringBody_plain_front {front text out : Bytes} (h : StringBody (front ++ text) out)
    (hslash : 92 ∉ front) : ∃ out', out = front ++ out' ∧ StringBody text out' := by
  induction front generalizing out with
  | nil => exact ⟨out, rfl, h⟩
  | cons c front ih =>
      simp only [List.mem_cons, not_or] at hslash
      rw [List.cons_append] at h
      generalize hall : c :: (front ++ text) = all at h
      cases h with
      | nil => exact absurd hall (by simp)
      | plain hquote _ hlow h =>
          obtain ⟨rfl, rfl⟩ := List.cons.inj hall
          obtain ⟨out', rfl, htext⟩ := ih h hslash.2
          exact ⟨out', rfl, htext⟩
      | escape hpiece h => exact absurd (List.cons.inj hall).1.symm hslash.1

/-! ## A string without an end -/

/-- No quote of the text opens a string. -/
def Unclosed (text : Bytes) : Prop :=
  ∀ front more, text = front ++ 34 :: more → parseJsonString (34 :: more) = none

/-- The end of such a text is one too. -/
theorem unclosed_of_split {text rest : Bytes} (h : Unclosed text) (front : Bytes)
    (hsplit : text = front ++ rest) : Unclosed rest := by
  intro front' more hrest
  exact h (front ++ front') more (by rw [hsplit, hrest, List.append_assoc])

/-- A string that is cut at a brace. -/
theorem unclosed_cut {body more out : Bytes} (h : StringBody (body ++ 125 :: more) out) :
    Unclosed (34 :: body) := by
  have hbody : Unquoted false body := by
    have hall := (unquoted_body h []).2 True.intro
    rw [List.append_nil] at hall
    exact unquoted_of_append hall
  intro front rest hsplit
  have hrest : Unquoted false rest := by
    cases front with
    | nil =>
        obtain ⟨-, rfl⟩ := List.cons.inj hsplit
        exact hbody
    | cons c front =>
        rw [(List.cons.inj hsplit).2] at hbody
        exact unquoted_behind_quote hbody
  rw [Option.eq_none_iff_forall_ne_some]
  rintro ⟨decoded, behind⟩ hparse
  obtain ⟨text, ⟨inner, rfl, hinner⟩, htext⟩ := parseJsonString_iff.1 hparse
  have hsplit : rest = inner ++ 34 :: behind := by simpa using htext
  rw [hsplit, unquoted_body hinner] at hrest
  exact hrest.1 rfl

/-- Nothing is found there. -/
theorem extractStrChecked_unclosed {text : Bytes} (h : Unclosed text) (key : Bytes) :
    extractStrChecked text key = .missing := by
  induction text with
  | nil => rfl
  | cons c text ih =>
      have hrest := ih (unclosed_of_split h [c] rfl)
      rw [extractStrChecked, List.length_cons, extractStrLoop]
      split
      · exact hrest
      · rename_i hquote
        obtain rfl : c = 34 := not_not.1 hquote
        rw [h [] text rfl]
        exact hrest

/-! ## Lookups in a cut text -/

/-- A lookup goes over whole members, and then looks at the rest. -/
theorem extractStrChecked_front {front : Bytes} {ms : List Member} (h : FrontText front ms)
    (rest key : Bytes) :
    extractStrChecked (front ++ rest) key =
      (firstMember ms key).elim (extractStrChecked rest key) fun v => lookupOf (some v) := by
  induction h with
  | nil => rfl
  | @cons text w w' more m ms hm hw hw' hmore ih =>
      have hsplit : text ++ (w ++ 44 :: (w' ++ more)) ++ rest =
          text ++ (w ++ 44 :: (w' ++ (more ++ rest))) := by simp
      have hgap : 34 ∉ w ++ 44 :: w' := by
        simp only [List.mem_append, List.mem_cons, not_or]
        exact ⟨quote_not_mem_ws hw, by decide, quote_not_mem_ws hw'⟩
      have hskip := extractStrChecked_skip hgap (more ++ rest) key
      rw [List.append_assoc, List.cons_append] at hskip
      rw [hsplit, extractStrChecked_member hm (numberEnds_append hw (numberEnds_comma _)), hskip, ih]
      unfold firstMember
      rw [List.find?_cons]
      by_cases hkey : m.1 = key
      · rw [if_pos hkey, beq_iff_eq.2 hkey]
        rfl
      · rw [if_neg hkey, beq_eq_false_iff_ne.2 hkey]

section Rounds

variable {more decoded behind key : Bytes} (hparse : parseJsonString (34 :: more) = some (decoded, behind))
include hparse

/-- A string that no colon follows is no name. -/
theorem extractStrChecked_no_name (hcolon : (skipJsonWs behind).head? ≠ some 58) :
    extractStrChecked (34 :: more) key = extractStrChecked (skipJsonWs behind) key := by
  have hlen := length_parseJsonString hparse
  have hws := length_skipJsonWs behind
  rw [List.length_cons] at hlen
  rw [extractStrChecked, List.length_cons, extractStrLoop, if_neg (not_not.2 rfl), hparse]
  simp only [if_pos hcolon]
  exact extractStrLoop_fuel key (by omega) (Nat.le_refl _)

/-- The name that is looked for, without a string behind it. -/
theorem extractStrChecked_malformed (hcolon : (skipJsonWs behind).head? = some 58)
    (hkey : decoded = key) (hvalue : parseJsonString (skipJsonWs (skipJsonWs behind).tail) = none) :
    extractStrChecked (34 :: more) key = .malformed := by
  rw [extractStrChecked, List.length_cons, extractStrLoop, if_neg (not_not.2 rfl), hparse]
  simp only [if_neg (not_not.2 hcolon), if_pos hkey, hvalue]

/-- Another name without a value: the lookup goes on behind its quote. -/
theorem extractStrChecked_no_value (hcolon : (skipJsonWs behind).head? = some 58)
    (hkey : decoded ≠ key) (hvalue : skipFlatJsonValue (skipJsonWs (skipJsonWs behind).tail) = none) :
    extractStrChecked (34 :: more) key = extractStrChecked more key := by
  rw [extractStrChecked, List.length_cons, extractStrLoop, if_neg (not_not.2 rfl), hparse]
  simp only [if_neg (not_not.2 hcolon), if_neg hkey, hvalue]
  rfl

/-- Another name with a value: the lookup goes on behind the value. -/
theorem extractStrChecked_other {after : Bytes} (hcolon : (skipJsonWs behind).head? = some 58)
    (hkey : decoded ≠ key)
    (hvalue : skipFlatJsonValue (skipJsonWs (skipJsonWs behind).tail) = some after) :
    extractStrChecked (34 :: more) key = extractStrChecked after key := by
  have hlen := length_parseJsonString hparse
  have hws := length_skipJsonWs behind
  have htail := (List.tail_sublist (skipJsonWs behind)).length_le
  have hskip := length_skipJsonWs (skipJsonWs behind).tail
  have hafter := length_skipFlatJsonValue hvalue
  rw [List.length_cons] at hlen
  rw [extractStrChecked, List.length_cons, extractStrLoop, if_neg (not_not.2 rfl), hparse]
  simp only [if_neg (not_not.2 hcolon), if_neg hkey, hvalue]
  exact extractStrLoop_fuel key (by omega) (Nat.le_refl _)

end Rounds

theorem extractStr_of_lookup {json key : Bytes} {v : Option Value}
    (h : extractStrChecked json key = lookupOf v) : extractStr json key = stringOf v := by
  rw [extractStr, h]
  cases v with
  | none => rfl
  | some v =>
      cases v with
      | str s => rfl
      | num text => rfl
      | bool b => rfl
      | null => rfl

theorem extractStr_missing {json key : Bytes} (h : extractStrChecked json key = .missing) :
    extractStr json key = [] := by
  rw [extractStr, h]

theorem extractStr_congr {json json' key : Bytes}
    (h : extractStrChecked json key = extractStrChecked json' key) :
    extractStr json key = extractStr json' key := by
  rw [extractStr, extractStr, h]

theorem skipJsonWs_suffix (json : Bytes) : ∃ w, json = w ++ skipJsonWs json := by
  obtain ⟨w, -, hjson, -⟩ := skipJsonWs_split json
  exact ⟨w, hjson⟩

/-- Whatever is read behind a name, what is left opens no string. -/
theorem unclosed_after_value {behind after : Bytes} (h : Unclosed behind)
    (hvalue : skipFlatJsonValue (skipJsonWs (skipJsonWs behind).tail) = some after) :
    Unclosed after := by
  obtain ⟨w, hbehind⟩ := skipJsonWs_suffix behind
  have hskip := unclosed_of_split h w hbehind
  have htail : Unclosed (skipJsonWs behind).tail := by
    cases hcase : skipJsonWs behind with
    | nil => exact fun front more hsplit => absurd hsplit (by simp)
    | cons c rest =>
        rw [hcase] at hskip
        exact unclosed_of_split hskip [c] rfl
  obtain ⟨w', htail'⟩ := skipJsonWs_suffix (skipJsonWs behind).tail
  obtain ⟨w₁, text, v, -, -, hsplit⟩ := skipFlatJsonValue_sound hvalue
  refine unclosed_of_split (unclosed_of_split htail w' htail') (w₁ ++ text) ?_
  rw [hsplit, List.append_assoc]

section CutValue

/-! A name whose value is a string that is cut; `key` is a name without a colon. -/

variable {w w' body key : Bytes} (hw : Ws w) (hw' : Ws w') (hcut : Unclosed (34 :: body))
  (hkey : 58 ∉ key)
include hw hw' hcut

theorem extractStr_gap : extractStr (w ++ 58 :: (w' ++ 34 :: body)) key = [] := by
  have hgap : 34 ∉ w ++ 58 :: w' := by
    simp only [List.mem_append, List.mem_cons, not_or]
    exact ⟨quote_not_mem_ws hw, by decide, quote_not_mem_ws hw'⟩
  have hskip := extractStrChecked_skip hgap (34 :: body) key
  rw [List.append_assoc, List.cons_append] at hskip
  rw [extractStr_congr hskip]
  exact extractStr_missing (extractStrChecked_unclosed hcut key)

/-- A string in front of the colon and the cut value. -/
theorem extractStr_string {text decoded : Bytes} (h : StringBody text decoded)
    (hrest : extractStr (text ++ 34 :: (w ++ 58 :: (w' ++ 34 :: body))) key = []) :
    extractStr (34 :: (text ++ 34 :: (w ++ 58 :: (w' ++ 34 :: body)))) key = [] := by
  have hparse : parseJsonString (34 :: (text ++ 34 :: (w ++ 58 :: (w' ++ 34 :: body)))) =
      some (decoded, w ++ 58 :: (w' ++ 34 :: body)) :=
    parseJsonString_iff.2 ⟨_, ⟨text, rfl, h⟩, by simp⟩
  have hskip : skipJsonWs (w ++ 58 :: (w' ++ 34 :: body)) = 58 :: (w' ++ 34 :: body) :=
    skipJsonWs_append hw fun c hc => by
      obtain rfl : 58 = c := Option.some.inj hc
      decide
  have hskip' : skipJsonWs (skipJsonWs (w ++ 58 :: (w' ++ 34 :: body))).tail = 34 :: body := by
    rw [hskip, List.tail_cons]
    exact skipJsonWs_append hw' fun c hc => by
      obtain rfl : 34 = c := Option.some.inj hc
      decide
  have hstring : parseJsonString (34 :: body) = none := hcut [] body rfl
  have hcolon : (skipJsonWs (w ++ 58 :: (w' ++ 34 :: body))).head? = some 58 := by rw [hskip]; rfl
  by_cases hname : decoded = key
  · have hround := extractStrChecked_malformed hparse hcolon hname (by rw [hskip', hstring])
    rw [extractStr, hround]
  · have hvalue : skipFlatJsonValue (34 :: body) = none := by
      unfold skipFlatJsonValue
      rw [show skipJsonWs (34 :: body) = 34 :: body from skipJsonWs_append ws_nil fun c hc => by
        obtain rfl : 34 = c := Option.some.inj hc
        decide]
      simp only [if_pos, hstring, Option.map_none]
    rw [extractStr_congr (extractStrChecked_no_value hparse hcolon hname (by rw [hskip', hvalue])),
      hrest]

include hkey

/-- The end quote of the name opens a string up to the value, and that is no name `key`. -/
theorem extractStr_end_quote : extractStr (34 :: (w ++ 58 :: (w' ++ 34 :: body))) key = [] := by
  have hgap : extractStr (w ++ 58 :: (w' ++ 34 :: body)) key = [] := extractStr_gap hw hw' hcut
  cases hparse : parseJsonString (34 :: (w ++ 58 :: (w' ++ 34 :: body))) with
  | none =>
      have hround : extractStrChecked (34 :: (w ++ 58 :: (w' ++ 34 :: body))) key =
          extractStrChecked (w ++ 58 :: (w' ++ 34 :: body)) key := by
        rw [extractStrChecked, List.length_cons, extractStrLoop, if_neg (not_not.2 rfl), hparse]
        rfl
      rw [extractStr_congr hround, hgap]
  | some r =>
      obtain ⟨decoded, behind⟩ := r
      obtain ⟨text, ⟨inner, rfl, hinner⟩, htext⟩ := parseJsonString_iff.1 hparse
      have hsplit : (w ++ 58 :: w') ++ 34 :: body = inner ++ 34 :: behind := by simpa using htext
      have hquote : 34 ∉ w ++ 58 :: w' := by
        simp only [List.mem_append, List.mem_cons, not_or]
        exact ⟨quote_not_mem_ws hw, by decide, quote_not_mem_ws hw'⟩
      have hslash : 92 ∉ w ++ 58 :: w' := by
        simp only [List.mem_append, List.mem_cons, not_or]
        exact ⟨fun h => absurd (hw 92 h) (by decide), by decide, fun h => absurd (hw' 92 h) (by decide)⟩
      obtain ⟨a, rfl, hbody⟩ := split_byte_right hquote hsplit
      have hbehind : Unclosed behind :=
        unclosed_of_split hcut (a ++ [34]) (by rw [hbody]; simp)
      obtain ⟨rest, hdecoded, -⟩ := stringBody_plain_front hinner hslash
      have hne : decoded ≠ key := fun h => hkey (by rw [← h, hdecoded]; simp)
      by_cases hcolon : (skipJsonWs behind).head? = some 58
      · cases hvalue : skipFlatJsonValue (skipJsonWs (skipJsonWs behind).tail) with
        | none => rw [extractStr_congr (extractStrChecked_no_value hparse hcolon hne hvalue), hgap]
        | some after =>
            rw [extractStr_congr (extractStrChecked_other hparse hcolon hne hvalue)]
            exact extractStr_missing
              (extractStrChecked_unclosed (unclosed_after_value hbehind hvalue) key)
      · obtain ⟨w₁, hsuffix⟩ := skipJsonWs_suffix behind
        rw [extractStr_congr (extractStrChecked_no_name hparse hcolon)]
        exact extractStr_missing (extractStrChecked_unclosed (unclosed_of_split hbehind w₁ hsuffix) key)

/-- The characters of the name: only an escaped quote opens a string. -/
theorem extractStr_name {text decoded : Bytes} (h : StringBody text decoded) :
    extractStr (text ++ 34 :: (w ++ 58 :: (w' ++ 34 :: body))) key = [] := by
  have hskip : ∀ front rest : Bytes, 34 ∉ front →
      extractStr (front ++ rest) key = extractStr rest key := fun front rest hfront =>
    extractStr_congr (extractStrChecked_skip hfront rest key)
  induction h with
  | nil => exact extractStr_end_quote hw hw' hcut hkey
  | @plain c more out hquote hslash hlow h ih =>
      have hround := hskip [c] (more ++ 34 :: (w ++ 58 :: (w' ++ 34 :: body)))
        fun hin => hquote (List.mem_singleton.1 hin).symm
      exact hround.trans ih
  | @escape piece bytes more out hpiece h ih =>
      rcases quote_of_escapeText hpiece with rfl | hno
      · have hround := hskip [92] (34 :: (more ++ 34 :: (w ++ 58 :: (w' ++ 34 :: body))))
          (by decide)
        exact hround.trans (extractStr_string hw hw' hcut h ih)
      · have hfront : 34 ∉ 92 :: piece := by
          simp only [List.mem_cons, not_or]
          exact ⟨by decide, hno⟩
        have hround := hskip _ (more ++ 34 :: (w ++ 58 :: (w' ++ 34 :: body))) hfront
        rw [← hround.trans ih]
        simp

end CutValue

/-- A lookup in a cut text finds the members that are shown. -/
theorem extractStr_cutText {text key : Bytes} {ms : List Member} (h : CutText text ms)
    (hkey : 58 ∉ key) : extractStr text key = stringOf (firstMember ms key) := by
  have hcut : ∀ {front rest : Bytes}, FrontText front ms → extractStr rest key = [] →
      extractStr (front ++ rest) key = stringOf (firstMember ms key) := by
    intro front rest hfront hrest
    have hlookup := extractStrChecked_front hfront rest key
    cases hfirst : firstMember ms key with
    | none =>
        rw [hfirst] at hlookup
        rw [extractStr_congr hlookup, hrest]
        rfl
    | some v =>
        rw [hfirst] at hlookup
        exact extractStr_of_lookup hlookup
  cases h with
  | whole hms =>
      have hends : NumberEnds [] := fun c hc => (by cases hc)
      have hlookup := extractStrChecked_members hms List.not_mem_nil hends key
      rw [List.append_nil] at hlookup
      exact extractStr_of_lookup hlookup
  | name hfront hbody =>
      exact hcut hfront (extractStr_missing (extractStrChecked_unclosed (unclosed_cut hbody) key))
  | @value front name decoded w w' body more out _ hfront hname hw hw' hbody =>
      obtain ⟨inner, rfl, hinner⟩ := hname
      refine hcut hfront ?_
      have hstring := extractStr_string hw hw' (unclosed_cut hbody) hinner
        (extractStr_name hw hw' (unclosed_cut hbody) hkey hinner)
      simpa using hstring

/-- And so does a lookup in a text that starts at the quoted key `start`. -/
theorem extractStr_shows {start text key : Bytes} {seen : List Member} (h : Shows start text seen)
    (hstart : StringBody start start) (hkey : 58 ∉ key) :
    extractStr text key = stringOf (firstMember seen key) := by
  have hparse : ∀ rest, parseJsonString (34 :: (start ++ 34 :: rest)) = some (start, rest) :=
    fun rest => parseJsonString_iff.2 ⟨_, ⟨start, rfl, hstart⟩, by simp⟩
  cases h with
  | name hcut => exact extractStr_cutText hcut hkey
  | @value w w' rest _ hw hw' hcut =>
      have hsplit : 34 :: (start ++ [34]) ++ (w ++ 44 :: (w' ++ rest)) =
          34 :: (start ++ 34 :: (w ++ 44 :: (w' ++ rest))) := by simp
      have hskip : skipJsonWs (w ++ 44 :: (w' ++ rest)) = 44 :: (w' ++ rest) :=
        skipJsonWs_append hw fun c hc => by
          obtain rfl : 44 = c := Option.some.inj hc
          decide
      have hround : _ = extractStrChecked _ key :=
        extractStrChecked_no_name (hparse (w ++ 44 :: (w' ++ rest))) (by rw [hskip]; simp)
      have hgap : 34 ∉ 44 :: w' := by
        simp only [List.mem_cons, not_or]
        exact ⟨by decide, quote_not_mem_ws hw'⟩
      rw [hskip] at hround
      rw [hsplit, extractStr_congr (hround.trans (extractStrChecked_skip hgap rest key))]
      exact extractStr_cutText hcut hkey
  | @last w hw =>
      have hsplit : 34 :: (start ++ [34]) ++ w = 34 :: (start ++ 34 :: w) := by simp
      have hround : _ = extractStrChecked _ key :=
        extractStrChecked_no_name (hparse w) (by rw [skipJsonWs_of_ws hw]; simp)
      rw [skipJsonWs_of_ws hw] at hround
      rw [hsplit]
      exact extractStr_missing hround

/-! ## Every text up to a brace shows something -/

/-- A letter or an underscore. -/
def isNameByte (c : UInt8) : Bool := (97 ≤ c && c ≤ 122) || c == 95

/-- A name that is written as it is. -/
def PlainName (key : Bytes) : Prop := key ≠ [] ∧ ∀ c ∈ key, isNameByte c = true

theorem PlainName.not_mem {key : Bytes} (h : PlainName key) {c : UInt8} (hc : isNameByte c = false) :
    c ∉ key := fun hin => by
  rw [h.2 c hin] at hc
  cases hc

theorem PlainName.stringBody {key : Bytes} (h : PlainName key) : StringBody key key := by
  have hbody : ∀ {name : Bytes}, (∀ c ∈ name, isNameByte c = true) → StringBody name name := by
    intro name hname
    induction name with
    | nil => exact .nil
    | cons c name ih =>
        have hc := hname c List.mem_cons_self
        refine .plain ?_ ?_ (fun hlow => ?_) (ih fun d hd => hname d (List.mem_cons_of_mem _ hd))
        · rintro rfl
          exact absurd hc (by decide)
        · rintro rfl
          exact absurd hc (by decide)
        · have hnat : c.toNat < 32 := hlow
          simp only [isNameByte, Bool.or_eq_true, Bool.and_eq_true, decide_eq_true_eq, beq_iff_eq,
            UInt8.le_iff_toNat_le] at hc
          rcases hc with ⟨hhigh, -⟩ | rfl
          · have h97 : 97 ≤ c.toNat := hhigh
            omega
          · exact absurd hlow (by decide)
  exact hbody h.2

/-- Where the quoted key stands at a quote of a string, the string ends with the key. -/
theorem key_of_string {key s a b out follow rest : Bytes} (hkey : PlainName key)
    (hs : StringText s out) (hsplit : s = a ++ 34 :: b) (htext : b ++ follow = key ++ 34 :: rest)
    (hfollow : ∀ c, follow.head? = some c → isNameByte c = false) : b = key ++ [34] := by
  have hend : ∀ {body out' : Bytes}, StringBody body out' → b = body ++ [34] → b = key ++ [34] := by
    intro body out' hbody hb
    have hjoin : key ++ 34 :: rest = body ++ 34 :: follow := by rw [← htext, hb]; simp
    obtain ⟨inner, rfl, hinner⟩ := split_byte_right (hkey.not_mem (by decide)) hjoin
    cases inner with
    | nil => rw [hb, List.append_nil]
    | cons c inner =>
        obtain ⟨rfl, -⟩ := List.cons.inj hinner
        obtain ⟨out'', -, hquote⟩ := stringBody_plain_front hbody (hkey.not_mem (by decide))
        exact absurd ((unquoted_body hquote []).2 True.intro) fun h => h.1 rfl
  rcases byte_of_string hs hsplit with ⟨-, -, body, hb, hbody⟩ | ⟨body, body', -, hb, hbody⟩ |
    ⟨body, -, -, rfl, -⟩
  · exact hend hbody hb
  · obtain ⟨out', hbody'⟩ := stringBody_behind_quote hbody
    exact hend hbody' hb
  · -- the closing quote: the key would start behind the string
    obtain ⟨hne, hall⟩ := hkey
    cases key with
    | nil => exact absurd rfl hne
    | cons c key =>
        have hhead := hfollow c (by rw [List.nil_append] at htext; rw [htext]; rfl)
        rw [hall c List.mem_cons_self] at hhead
        cases hhead

/-- The text up to the first brace. -/
theorem eq_of_first_brace {text rest obj back : Bytes} (htext : 125 ∉ text) (hobj : 125 ∉ obj)
    (h : text ++ 125 :: rest = obj ++ 125 :: back) : obj = text := by
  obtain ⟨a, rfl, htail⟩ := split_byte_right htext h
  cases a with
  | nil => exact List.append_nil _
  | cons c a =>
      obtain ⟨rfl, -⟩ := List.cons.inj htail
      exact absurd (List.mem_append_right _ List.mem_cons_self) hobj

/-- Members up to the first brace are a cut text. -/
theorem exists_cutText {text rest obj back : Bytes} {ms : List Member} (htext : MembersText text ms)
    (hobj : 125 ∉ obj) (h : text ++ 125 :: rest = obj ++ 125 :: back) :
    ∃ seen, CutText obj seen := by
  by_cases hbrace : 125 ∈ text
  · obtain ⟨obj', tail, htail, hobj'⟩ := List.eq_append_cons_of_mem hbrace
    have hsplit : obj' ++ 125 :: (tail ++ 125 :: rest) = obj ++ 125 :: back := by
      rw [← h, htail]
      simp
    obtain rfl := eq_of_first_brace hobj' hobj hsplit
    obtain ⟨front, member, back', before, m, after, a, b, hin, rfl, hmember, -⟩ :=
      byte_in_member htext htail (by decide) (by decide)
    obtain ⟨name, w, w', value, -, hname, hw, hw', hv, hplace⟩ :=
      byte_of_member hin.member hmember (by decide)
    rcases hplace with ⟨hc, -, -⟩ | ⟨b', hstring, -⟩ | ⟨a', rfl, hstring⟩
    · exact absurd hc (by decide)
    · rcases byte_of_string hname hstring with ⟨-, hc, -⟩ | ⟨body, body', rfl, -, hbody⟩ |
        ⟨body, -, hc, -⟩
      · exact absurd hc (by decide)
      · exact ⟨before, .name hin.front hbody⟩
      · exact absurd hc (by decide)
    · have hmem : 125 ∈ value := by
        rw [hstring]
        exact List.mem_append_right _ List.mem_cons_self
      obtain ⟨out, -, hvalue⟩ := string_of_byte hv (by decide) hmem
      rcases byte_of_string hvalue hstring with ⟨-, hc, -⟩ | ⟨body, body', rfl, -, hbody⟩ |
        ⟨body, -, hc, -⟩
      · exact absurd hc (by decide)
      · exact ⟨before, .value hin.front hname hw hw' hbody⟩
      · exact absurd hc (by decide)
  · rw [eq_of_first_brace hbrace hobj h]
    exact ⟨ms, .whole htext⟩

theorem not_isNameByte_of_isWs {c : UInt8} (h : isWs c = true) : isNameByte c = false := by
  simp only [isWs, Bool.or_eq_true, beq_iff_eq] at h
  rcases h with ((rfl | rfl) | rfl) | rfl
  · decide
  · decide
  · decide
  · decide

/-- White space and a mark behind it start no name. -/
theorem no_name_head {w rest : Bytes} {mark : UInt8} (hw : Ws w) (hmark : isNameByte mark = false) :
    ∀ c, (w ++ mark :: rest).head? = some c → isNameByte c = false := by
  intro c hc
  cases w with
  | nil =>
      obtain rfl : mark = c := Option.some.inj hc
      exact hmark
  | cons d w =>
      obtain rfl : d = c := Option.some.inj hc
      exact not_isNameByte_of_isWs (hw d List.mem_cons_self)

/-- In an object, the text from a quoted key up to the next brace shows some of its members. -/
theorem exists_shows {object front obj back key : Bytes} {ms : List Member}
    (h : ObjectText object ms) (hkey : PlainName key) (hobject : object = front ++ (obj ++ 125 :: back))
    (hpre : 34 :: (key ++ [34]) <+: obj ++ 125 :: back) (hobj : 125 ∉ obj) :
    ∃ seen, Shows key obj seen := by
  obtain ⟨rest, hrest⟩ := hpre
  have hstart : obj ++ 125 :: back = 34 :: (key ++ 34 :: rest) := by rw [← hrest]; simp
  have hdoc : DocumentText object ms := ⟨[], object, [], by simp, ws_nil, h, ws_nil⟩
  rw [hstart] at hobject
  -- the quote before the key lies in a member, and there in its name or its value
  obtain ⟨w, w', w'', members, a₁, b₁, -, -, -, -, hms, hmembers, -, hb₁⟩ :=
    byte_in_document hdoc hobject (by decide) (by decide) (by decide)
  obtain ⟨front', text, back', before, m, after, a₂, b₂, hin, -, htext, rfl⟩ :=
    byte_in_member hms hmembers (by decide) (by decide)
  obtain ⟨name, w₁, w₂, value, -, hname, hw₁, hw₂, hv, hplace⟩ :=
    byte_of_member hin.member htext (by decide)
  rcases hplace with ⟨hc, -, -⟩ | ⟨b₃, hstring, rfl⟩ | ⟨a₃, -, hstring⟩
  · exact absurd hc (by decide)
  · -- the key is the end of a name
    have hfollow : b₃ ++ (w₁ ++ 58 :: (w₂ ++ value ++ back' ++ 125 :: w'')) = key ++ 34 :: rest := by
      rw [hb₁]
      simp
    have hb := key_of_string hkey hname hstring hfollow (no_name_head hw₁ (by decide))
    have hmember : MemberText (34 :: (key ++ [34]) ++ (w₁ ++ 58 :: (w₂ ++ value))) (key, m.2) :=
      .mk ⟨key, rfl, hkey.stringBody⟩ hw₁ hw₂ hv
    have hall : 34 :: (key ++ [34]) ++ (w₁ ++ 58 :: (w₂ ++ value)) ++ back' ++ 125 :: w'' =
        obj ++ 125 :: back := by
      rw [hstart, hb₁, hb]
      simp
    obtain ⟨seen, hseen⟩ := exists_cutText (membersText_of_back hmember hin.back) hobj hall
    exact ⟨seen, .name hseen⟩
  · -- the key is the end of a value
    have hmem : 34 ∈ value := by
      rw [hstring]
      exact List.mem_append_right _ List.mem_cons_self
    obtain ⟨out, -, hvalue⟩ := string_of_byte hv (by decide) hmem
    have hfollow : b₂ ++ (back' ++ 125 :: w'') = key ++ 34 :: rest := by
      rw [hb₁]
      simp
    have hquoted : 125 ∉ 34 :: (key ++ [34]) := by
      simp only [List.mem_cons, List.mem_append, List.not_mem_nil, or_false, not_or]
      exact ⟨by decide, hkey.not_mem (by decide), by decide⟩
    have hbrace : ∀ {blanks : Bytes}, Ws blanks → 125 ∉ blanks := fun hblanks hin =>
      absurd (hblanks 125 hin) (by decide)
    have hback := hin.back
    cases hback with
    | last hlast =>
        have hb := key_of_string hkey hvalue hstring hfollow (no_name_head hlast (by decide))
        have hall : 34 :: (key ++ [34]) ++ back' ++ 125 :: w'' = obj ++ 125 :: back := by
          rw [hstart, hb₁, hb]
          simp
        rw [eq_of_first_brace (fun hmem => (List.mem_append.1 hmem).elim hquoted (hbrace hlast))
          hobj hall]
        exact ⟨[], .last hlast⟩
    -- the members after it are cut at the first brace
    | @more w₃ w₄ more _ hw₃ hw₄ hmore =>
        have hhead : ∀ c, (w₃ ++ 44 :: (w₄ ++ more) ++ 125 :: w'').head? = some c →
            isNameByte c = false := by
          rw [List.append_assoc, List.cons_append]
          exact no_name_head hw₃ (by decide)
        have hb := key_of_string hkey hvalue hstring hfollow hhead
        have hgap : 125 ∉ 34 :: (key ++ [34]) ++ (w₃ ++ 44 :: w₄) := by
          simp only [List.mem_append, List.mem_cons, not_or] at hquoted ⊢
          exact ⟨hquoted, hbrace hw₃, by decide, hbrace hw₄⟩
        have hall : (34 :: (key ++ [34]) ++ (w₃ ++ 44 :: w₄)) ++ (more ++ 125 :: w'') =
            obj ++ 125 :: back := by
          rw [hstart, hb₁, hb]
          simp
        obtain ⟨obj', rfl, hcut⟩ := split_byte_right hgap hall
        obtain ⟨seen, hseen⟩ := exists_cutText hmore
          (fun hmem => hobj (List.mem_append_right _ hmem)) hcut
        have hshows : Shows key (34 :: (key ++ [34]) ++ (w₃ ++ 44 :: (w₄ ++ obj'))) seen :=
          .value hw₃ hw₄ hseen
        exact ⟨seen, by simpa using hshows⟩

end ControlProtocol
end ContextFS
