import ContextFS.Control.JsonSpec

/-!
# Looking up a string in a request

`extract_str_checked` looks for a member by its decoded name.  It starts a member at every quote
and, where what it read is no member, goes on behind the quote.  On a flat object it never has to:
it goes from member to member, whatever their names and strings contain.
-/

namespace ContextFS
namespace ControlProtocol

open Lib Lib.Json

/-- `JsonStringLookup`, with the string that was found. -/
inductive JsonStringLookup where
  | missing
  | found (out : Bytes)
  | malformed
deriving DecidableEq

/-- The loop of `extract_str_checked`; every round takes a byte, so the length is fuel enough. -/
def extractStrLoop (key : Bytes) : Nat → Bytes → JsonStringLookup
  | 0, _ => .missing
  | _ + 1, [] => .missing
  | fuel + 1, c :: rest =>
      -- not at a key: one byte further
      if c ≠ 34 then extractStrLoop key fuel rest
      else
        match parseJsonString (c :: rest) with
        -- a string that does not end: look behind its quote
        | none => extractStrLoop key fuel rest
        | some (parsedKey, behind) =>
            if (skipJsonWs behind).head? ≠ some 58 then extractStrLoop key fuel (skipJsonWs behind)
            else if parsedKey = key then
              match parseJsonString (skipJsonWs (skipJsonWs behind).tail) with
              | none => .malformed
              | some (out, _) => .found out
            else
              match skipFlatJsonValue (skipJsonWs (skipJsonWs behind).tail) with
              | none => extractStrLoop key fuel rest
              | some behind => extractStrLoop key fuel behind

/-- `extract_str_checked`. -/
def extractStrChecked (json key : Bytes) : JsonStringLookup := extractStrLoop key json.length json

/-- `extract_str`. -/
def extractStr (json key : Bytes) : Bytes :=
  match extractStrChecked json key with
  | .found out => out
  | _ => []

/-! ## Escaping -/

theorem utf8_of_lt : ∀ n < 32, utf8 n = [UInt8.ofNat n] := by decide

/-- One escaped byte is that byte of a string. -/
theorem stringBody_escapeByte (c : UInt8) {text out : Bytes} (h : StringBody text out) :
    StringBody (escapeByte c ++ text) (c :: out) := by
  unfold escapeByte
  split_ifs with hquote hslash hnewline hreturn htab hlow
  · subst hquote
    exact .escape (.simple (by decide)) h
  · subst hslash
    exact .escape (.simple (by decide)) h
  · subst hnewline
    exact .escape (.simple (by decide)) h
  · subst hreturn
    exact .escape (.simple (by decide)) h
  · subst htab
    exact .escape (.simple (by decide)) h
  · have hlt : c.toNat < 32 := hlow
    have hhigh := (hexDigit_spec (c.toNat / 16) (by omega)).1
    have hlast := (hexDigit_spec (c.toNat % 16) (by omega)).1
    have hhex : Hex4 [48, 48, ContextFS.hexDigit (c.toNat / 16), ContextFS.hexDigit (c.toNat % 16)]
        c.toNat := by
      refine ⟨_, _, _, _, 0, 0, _, _, rfl, by decide, by decide, hhigh, hlast, ?_⟩
      omega
    have hbytes : utf8 c.toNat = [c] := by
      rw [utf8_of_lt _ hlt, UInt8.ofNat_toNat]
    have hpiece := EscapeText.unicode hhex (Or.inl (by omega))
    rw [hbytes] at hpiece
    exact .escape hpiece h
  · exact .plain hquote hslash hlow h

theorem stringBody_jsonEscape (s : Bytes) : StringBody (jsonEscape s) s := by
  induction s with
  | nil => exact .nil
  | cons c s ih => exact stringBody_escapeByte c ih

/-! ## Writing an object -/

def printValue : Value → Bytes
  | .str s => 34 :: (jsonEscape s ++ [34])
  | .num text => text
  | .bool true => litTrue
  | .bool false => litFalse
  | .null => litNull

def printMember (m : Member) : Bytes := 34 :: (jsonEscape m.1 ++ [34]) ++ 58 :: printValue m.2

def printMembers : List Member → Bytes
  | [] => []
  | m :: ms => printMember m ++ ms.flatMap fun m => 44 :: printMember m

/-- Some text of an object. -/
def printObject (ms : List Member) : Bytes := 123 :: (printMembers ms ++ [125])

theorem stringText_jsonEscape (s : Bytes) : StringText (34 :: (jsonEscape s ++ [34])) s :=
  ⟨jsonEscape s, rfl, stringBody_jsonEscape s⟩

theorem ws_nil : Ws [] := fun _ h => (by cases h)

theorem memberText_print {m : Member} (h : ∀ text, m.2 = .num text → Number text) :
    MemberText (printMember m) m := by
  obtain ⟨name, v⟩ := m
  have hv : ValueText (printValue v) v := by
    cases v with
    | str s => exact .str (stringText_jsonEscape s)
    | num text => exact .num (h text rfl)
    | bool b =>
        cases b with
        | true => exact .yes
        | false => exact .no
    | null => exact .null
  exact .mk (stringText_jsonEscape name) ws_nil ws_nil hv

theorem membersText_print {m : Member} {ms : List Member}
    (h : ∀ m' ∈ m :: ms, ∀ text, m'.2 = .num text → Number text) :
    MembersText (printMembers (m :: ms)) (m :: ms) := by
  induction ms generalizing m with
  | nil => exact .last (memberText_print (h m List.mem_cons_self)) ws_nil
  | cons next ms ih =>
      have hsplit : printMembers (m :: next :: ms) =
          printMember m ++ ([] ++ 44 :: ([] ++ printMembers (next :: ms))) := by
        simp [printMembers]
      rw [hsplit]
      exact .cons (memberText_print (h m List.mem_cons_self)) ws_nil ws_nil
        (ih fun m' hm' => h m' (List.mem_cons_of_mem _ hm'))

/-- An object is written as a text of the grammar. -/
theorem documentText_print {ms : List Member}
    (h : ∀ m ∈ ms, ∀ text, m.2 = .num text → Number text) :
    DocumentText (printObject ms) ms := by
  refine ⟨[], printObject ms, [], (List.append_nil _).symm, ws_nil, ?_, ws_nil⟩
  cases ms with
  | nil => exact .empty ws_nil
  | cons m ms => exact .members ws_nil (membersText_print h)

/-! ## The rounds of the loop -/

theorem length_parseJsonString {json out rest : Bytes}
    (h : parseJsonString json = some (out, rest)) : rest.length < json.length := by
  obtain ⟨text, ⟨body, rfl, -⟩, rfl⟩ := parseJsonString_iff.1 h
  simp only [List.length_append, List.length_cons]
  omega

theorem length_skipJsonWs (json : Bytes) : (skipJsonWs json).length ≤ json.length :=
  (List.dropWhile_sublist _).length_le

theorem length_skipFlatJsonValue {json rest : Bytes} (h : skipFlatJsonValue json = some rest) :
    rest.length ≤ json.length := by
  obtain ⟨w, text, v, -, -, rfl⟩ := skipFlatJsonValue_sound h
  simp only [List.length_append]
  omega

/-- Any fuel of at least the length gives the same. -/
theorem extractStrLoop_fuel (key : Bytes) {fuel fuel' : Nat} {json : Bytes}
    (h : json.length ≤ fuel) (h' : json.length ≤ fuel') :
    extractStrLoop key fuel json = extractStrLoop key fuel' json := by
  induction fuel generalizing fuel' json with
  | zero =>
      obtain rfl := List.length_eq_zero_iff.1 (Nat.le_zero.1 h)
      cases fuel' with
      | zero => rfl
      | succ fuel' => rfl
  | succ fuel ih =>
      cases json with
      | nil =>
          cases fuel' with
          | zero => rfl
          | succ fuel' => rfl
      | cons c rest =>
          cases fuel' with
          | zero => cases h'
          | succ fuel' =>
              have hle : rest.length ≤ fuel := Nat.le_of_succ_le_succ h
              have hle' : rest.length ≤ fuel' := Nat.le_of_succ_le_succ h'
              unfold extractStrLoop
              split_ifs with hquote
              · exact ih hle hle'
              · cases hparse : parseJsonString (c :: rest) with
                | none => exact ih hle hle'
                | some r =>
                    obtain ⟨parsedKey, behind⟩ := r
                    have hbehind := length_parseJsonString hparse
                    rw [List.length_cons] at hbehind
                    have hws := length_skipJsonWs behind
                    simp only
                    split_ifs with hcolon hkey
                    · exact ih (by omega) (by omega)
                    · rfl
                    · have htail := (List.tail_sublist (skipJsonWs behind)).length_le
                      have hvalue := length_skipJsonWs (skipJsonWs behind).tail
                      cases hskip : skipFlatJsonValue (skipJsonWs (skipJsonWs behind).tail) with
                      | none => exact ih hle hle'
                      | some after =>
                          have hafter := length_skipFlatJsonValue hskip
                          exact ih (by omega) (by omega)

theorem extractStrChecked_skip {front : Bytes} (hfront : 34 ∉ front) (rest key : Bytes) :
    extractStrChecked (front ++ rest) key = extractStrChecked rest key := by
  induction front with
  | nil => rfl
  | cons c front ih =>
      have hc : c ≠ 34 := fun h => hfront (by rw [h]; exact List.mem_cons_self)
      rw [← ih fun h => hfront (List.mem_cons_of_mem _ h)]
      show extractStrLoop key ((front ++ rest).length + 1) (c :: (front ++ rest)) = _
      rw [extractStrLoop, if_pos hc]
      rfl

/-- What a lookup says about the value of a member. -/
def lookupOf : Option Value → JsonStringLookup
  | none => .missing
  | some (.str s) => .found s
  | some _ => .malformed

theorem quote_not_mem_ws {w : Bytes} (hw : Ws w) : 34 ∉ w :=
  fun h => absurd (hw 34 h) (by decide)

/-- At a member the lookup ends, or goes on behind it. -/
theorem extractStrChecked_member {text rest : Bytes} {m : Member} (h : MemberText text m)
    (hrest : NumberEnds rest) (key : Bytes) :
    extractStrChecked (text ++ rest) key =
      if m.1 = key then lookupOf (some m.2) else extractStrChecked rest key := by
  obtain @⟨name, decoded, w, w', value, v, hname, hw, hw', hv⟩ := h
  have hparse := parseJsonString_iff.2 ⟨name, hname, (rfl : name ++ (w ++ 58 :: (w' ++
    (value ++ rest))) = _)⟩
  have hcolon : skipJsonWs (w ++ 58 :: (w' ++ (value ++ rest))) = 58 :: (w' ++ (value ++ rest)) :=
    skipJsonWs_append hw fun c hc => by
      obtain rfl : 58 = c := Option.some.inj hc
      decide
  obtain ⟨c, more, hvalue, hc, -⟩ := valueText_head hv
  have hstart : skipJsonWs (w' ++ (value ++ rest)) = value ++ rest :=
    skipJsonWs_append hw' fun b hb => by
      rw [hvalue] at hb
      obtain rfl : c = b := Option.some.inj hb
      exact hc
  obtain ⟨body, rfl, -⟩ := hname
  have hsplit : 34 :: (body ++ [34]) ++ (w ++ 58 :: (w' ++ value)) ++ rest =
      34 :: (body ++ 34 :: (w ++ 58 :: (w' ++ (value ++ rest)))) := by simp
  have hparse : parseJsonString (34 :: (body ++ 34 :: (w ++ 58 :: (w' ++ (value ++ rest))))) =
      some (decoded, w ++ 58 :: (w' ++ (value ++ rest))) := by simpa using hparse
  rw [extractStrChecked, hsplit, List.length_cons, extractStrLoop, if_neg (not_not.2 rfl), hparse]
  simp only [hcolon, List.head?_cons, ne_eq, not_true_eq_false, if_false, List.tail_cons, hstart]
  by_cases hkey : decoded = key
  · rw [if_pos hkey, if_pos hkey]
    cases hv with
    | str htext =>
        rw [parseJsonString_iff.2 ⟨value, htext, rfl⟩]
        rfl
    | num htext =>
        obtain ⟨b, more', rfl, hb⟩ := number_head htext
        have hquote : (b :: more' ++ rest).head? ≠ some 34 := fun h =>
          ne_of_number_head hb (by decide) (by decide) (Option.some.inj h)
        rw [parseJsonString_of_ne_quote hquote]
        rfl
    | yes => rfl
    | no => rfl
    | null => rfl
  · rw [if_neg hkey, if_neg hkey]
    have hskip := skipFlatJsonValue_complete (show Ws [] from fun _ h => (by cases h)) hv hrest
    rw [List.nil_append] at hskip
    rw [hskip]
    refine extractStrLoop_fuel key ?_ (Nat.le_refl _)
    simp only [List.length_append, List.length_cons]
    omega

theorem extractStrChecked_members {text : Bytes} {ms : List Member} (h : MembersText text ms)
    {rest : Bytes} (hrest : 34 ∉ rest) (hends : NumberEnds rest) (key : Bytes) :
    extractStrChecked (text ++ rest) key = lookupOf (firstMember ms key) := by
  have hfirst : ∀ (m : Member) (ms : List Member), lookupOf (firstMember (m :: ms) key) =
      if m.1 = key then lookupOf (some m.2) else lookupOf (firstMember ms key) := by
    intro m ms
    unfold firstMember
    rw [List.find?_cons]
    by_cases hkey : m.1 = key
    · rw [if_pos hkey, beq_iff_eq.2 hkey]
      rfl
    · rw [if_neg hkey, beq_eq_false_iff_ne.2 hkey]
  induction h with
  | @last text w m hm hw =>
      have hend : extractStrChecked (w ++ rest) key = .missing := by
        rw [extractStrChecked_skip (quote_not_mem_ws hw)]
        have hskip := extractStrChecked_skip hrest [] key
        rw [List.append_nil] at hskip
        rw [hskip]
        rfl
      rw [List.append_assoc, extractStrChecked_member hm (numberEnds_append hw hends), hend, hfirst]
      rfl
  | @cons text w w' more m ms hm hw hw' hms ih =>
      have hsplit : text ++ (w ++ 44 :: (w' ++ more)) ++ rest =
          text ++ (w ++ 44 :: (w' ++ (more ++ rest))) := by simp
      have hgap : 34 ∉ w ++ 44 :: w' := by
        intro hin
        rcases List.mem_append.1 hin with hin | hin
        · exact quote_not_mem_ws hw hin
        rcases List.mem_cons.1 hin with hin | hin
        · exact absurd hin (by decide)
        · exact quote_not_mem_ws hw' hin
      have hskip := extractStrChecked_skip hgap (more ++ rest) key
      rw [List.append_assoc, List.cons_append] at hskip
      rw [hsplit, extractStrChecked_member hm (numberEnds_append hw (numberEnds_comma _)), hskip,
        ih, hfirst]

/-- On a flat object the lookup finds the first member of the name and nothing else. -/
theorem extractStrChecked_object {text : Bytes} {ms : List Member} (h : ObjectText text ms)
    {w : Bytes} (hw : Ws w) (key : Bytes) :
    extractStrChecked (text ++ w) key = lookupOf (firstMember ms key) := by
  have hbrace : 34 ∉ 125 :: w := fun hin => by
    rcases List.mem_cons.1 hin with hin | hin
    · exact absurd hin (by decide)
    · exact quote_not_mem_ws hw hin
  cases h with
  | @empty w' hw' =>
      have hnone : 34 ∉ 123 :: (w' ++ [125]) ++ w := by
        simp only [List.cons_append, List.append_assoc, List.nil_append, List.mem_cons,
          List.mem_append, not_or]
        exact ⟨by decide, quote_not_mem_ws hw', by decide, quote_not_mem_ws hw⟩
      have hskip := extractStrChecked_skip hnone [] key
      rw [List.append_nil] at hskip
      rw [hskip]
      rfl
  | @members w' body _ hw' hms =>
      have hopen : 34 ∉ 123 :: w' := fun hin => by
        rcases List.mem_cons.1 hin with hin | hin
        · exact absurd hin (by decide)
        · exact quote_not_mem_ws hw' hin
      have hsplit : 123 :: (w' ++ (body ++ [125])) ++ w = (123 :: w') ++ (body ++ 125 :: w) := by simp
      rw [hsplit, extractStrChecked_skip hopen,
        extractStrChecked_members hms hbrace (numberEnds_brace w)]

/-- An escaped string reads back, whatever follows; and on a flat object, perhaps between white
space, a lookup finds the string of the first member of the name, is malformed when the value is
no string, and misses when there is no such member. -/
theorem jsonText_lookup :
    (∀ s rest, parseJsonString (34 :: (jsonEscape s ++ 34 :: rest)) = some (s, rest)) ∧
      ∀ json ms key, DocumentText json ms →
        extractStrChecked json key = lookupOf (firstMember ms key) := by
  constructor
  · intro s rest
    refine parseJsonString_iff.2 ⟨_, ⟨jsonEscape s, rfl, stringBody_jsonEscape s⟩, ?_⟩
    simp
  · rintro json ms key ⟨w, object, w', rfl, hw, hobject, hw'⟩
    rw [extractStrChecked_skip (quote_not_mem_ws hw)]
    exact extractStrChecked_object hobject hw' key

/-- A name that stands in the string of another member first. -/
theorem jsonText_lookup_second :
    extractStrChecked (printObject [(ascii "agent_id", .str (ascii "\"branch\":\"x\"")),
      (ascii "branch", .str (ascii "main"))]) (ascii "branch") = .found (ascii "main") := by
  refine (jsonText_lookup.2 _ [(ascii "agent_id", .str (ascii "\"branch\":\"x\"")),
    (ascii "branch", .str (ascii "main"))] (ascii "branch") (documentText_print ?_)).trans ?_
  · intro m hm text htext
    simp only [List.mem_cons, List.not_mem_nil, or_false] at hm
    rcases hm with rfl | rfl
    · cases htext
    · cases htext
  · decide +kernel

end ControlProtocol
end ContextFS
