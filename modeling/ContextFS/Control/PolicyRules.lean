import ContextFS.Control.CutMembers
import ContextFS.Lib.Search
import ContextFS.Telemetry.Event

/-!
# Policy rules

`parse_policy_rules` does not read the array: it looks for the text `"path_pattern"`, takes what
follows up to the next closing brace for a rule, and goes on behind the brace.  So a brace in a
pattern cuts its rule, a member before the pattern is not seen, and a text that ends like the name
starts a rule of its own.
-/

namespace ContextFS
namespace ControlProtocol

open Lib Lib.Json

/-! ## Operations -/

/-- The operations that can be watched, with their words and their `CAS_OP_*` bits. -/
def watchable : List (OpType × Bytes × UInt8) :=
  [(.read, ascii "read", 0x01), (.write, ascii "write", 0x02), (.exec, ascii "exec", 0x04),
    (.unlink, ascii "unlink", 0x08), (.rename, ascii "rename", 0x10),
    (.truncate, ascii "truncate", 0x20), (.create, ascii "create", 0x40)]

/-- `soft_watch_mask_from_flags`: every word that occurs in the flags sets its bit. -/
def softWatchMaskFromFlags (flags : Bytes) : UInt32 :=
  if flags = ascii "all" then watchable.foldl (fun bits op => bits ||| opBit op.1) 0
  else
    watchable.foldl (fun bits op =>
      if (find op.2.1 flags).isSome then bits ||| opBit op.1 else bits) 0

/-- `bpf_soft_watch_bits`. -/
def bpfSoftWatchBits (mask : UInt32) : UInt8 :=
  watchable.foldl (fun bits op => if mask &&& opBit op.1 ≠ 0 then bits ||| op.2.2 else bits) 0

/-! ## The parser -/

structure ParsedPolicyRule where
  pathPattern : Bytes
  softWatch : UInt32
  bpfBits : UInt8
deriving DecidableEq

/-- `PolicyRule`. -/
structure PolicyRule where
  pathPattern : Bytes
  softWatch : UInt32
deriving DecidableEq

def pathPatternKey : Bytes := ascii "path_pattern"

def softWatchKey : Bytes := ascii "soft_watch"

theorem pathPatternKey_eq :
    pathPatternKey = [112, 97, 116, 104, 95, 112, 97, 116, 116, 101, 114, 110] := by
  decide +kernel

theorem softWatchKey_eq : softWatchKey = [115, 111, 102, 116, 95, 119, 97, 116, 99, 104] := by
  decide +kernel

/-- What `parse_policy_rules` looks for. -/
def pathPatternText : Bytes := 34 :: (pathPatternKey ++ [34])

/-- The rule of a pattern and its flags. -/
def parsedRule (pattern flags : Bytes) : ParsedPolicyRule :=
  let mask := softWatchMaskFromFlags flags
  { pathPattern := pattern, softWatch := mask,
    bpfBits := if flags = ascii "all" then 0xFF else bpfSoftWatchBits mask }

/-- The rule that is read from the text up to a brace. -/
def readRule (obj : Bytes) : ParsedPolicyRule :=
  parsedRule (extractStr obj pathPatternKey) (extractStr obj softWatchKey)

/-- The loop of `parse_policy_rules`; every round takes a byte, so the length is fuel enough. -/
def parsePolicyLoop : Nat → Bytes → Option (List ParsedPolicyRule)
  | 0, _ => some []
  | fuel + 1, rest =>
      match find pathPatternText rest with
      | none => some []
      | some obj =>
          match find [125] obj with
          | none => none
          | some endOfObj =>
              (parsePolicyLoop fuel endOfObj.tail).map
                (readRule (obj.take (obj.length - endOfObj.length)) :: ·)

/-- The rules `parse_policy_rules` reads from a text. -/
def rulesFrom (rest : Bytes) : Option (List ParsedPolicyRule) := parsePolicyLoop rest.length rest

/-- `parse_policy_rules`: every round pushes its rule to both lists. -/
def parsePolicyRules (rest : Bytes) : Option (List ParsedPolicyRule × List PolicyRule) :=
  (rulesFrom rest).map fun parsed =>
    (parsed, parsed.map fun rule => ⟨rule.pathPattern, rule.softWatch⟩)

/-! ## Policies -/

/-- A rule as it is written: the pattern is a string, and so is `soft_watch` where it is given. -/
structure RuleObject where
  text : Bytes
  members : List Member
  wf : ObjectText text members
  pattern : Bytes
  flags : Bytes
  hasPattern : firstMember members pathPatternKey = some (.str pattern)
  hasFlags : firstMember members softWatchKey = some (.str flags) ∨
    firstMember members softWatchKey = none ∧ flags = []

/-- The rule an object stands for. -/
def RuleObject.rule (r : RuleObject) : ParsedPolicyRule := parsedRule r.pattern r.flags

/-- Rules with a comma between each two, and white space behind the last. -/
inductive RulesText : Bytes → List RuleObject → Prop
  | last {w : Bytes} (r : RuleObject) (hw : Ws w) : RulesText (r.text ++ w) [r]
  | cons {w w' rest : Bytes} (r : RuleObject) {rs : List RuleObject} (hw : Ws w) (hw' : Ws w')
      (hrs : RulesText rest rs) : RulesText (r.text ++ (w ++ 44 :: (w' ++ rest))) (r :: rs)

inductive ArrayText : Bytes → List RuleObject → Prop
  | empty {w : Bytes} (hw : Ws w) : ArrayText (91 :: (w ++ [93])) []
  | rules {w text : Bytes} {rs : List RuleObject} (hw : Ws w) (hrs : RulesText text rs) :
      ArrayText (91 :: (w ++ (text ++ [93]))) rs

def rulesName : Bytes := 34 :: (ascii "rules" ++ [34])

/-- A policy: the array by itself, or as the member `rules` of an object. -/
inductive PolicyText : Bytes → List RuleObject → Prop
  | bare {w array w' : Bytes} {rs : List RuleObject} (hw : Ws w) (harray : ArrayText array rs)
      (hw' : Ws w') : PolicyText (w ++ (array ++ w')) rs
  | wrapped {w w₁ w₂ w₃ array w₄ w' : Bytes} {rs : List RuleObject} (hw : Ws w) (hw₁ : Ws w₁)
      (hw₂ : Ws w₂) (hw₃ : Ws w₃) (harray : ArrayText array rs) (hw₄ : Ws w₄) (hw' : Ws w') :
      PolicyText (w ++ 123 :: (w₁ ++ (rulesName ++ (w₂ ++ 58 :: (w₃ ++ (array ++
        (w₄ ++ 125 :: w'))))))) rs

/-- The flags stand for the same mask, and `all` for itself. -/
def SameWatch (flags flags' : Bytes) : Prop :=
  softWatchMaskFromFlags flags = softWatchMaskFromFlags flags' ∧
    (flags = ascii "all" ↔ flags' = ascii "all")

/-- The text of the object from the first `"path_pattern"` to the next brace shows the pattern of
the rule and a `soft_watch` with its mask, and no second `"path_pattern"` stands behind that
brace. -/
def RuleObject.Clean (r : RuleObject) : Prop :=
  ∃ front obj back seen, r.text = front ++ (obj ++ 125 :: back) ∧
    pathPatternText <+: obj ++ 125 :: back ∧ NoneBefore pathPatternText front (obj ++ 125 :: back) ∧
    125 ∉ obj ∧ find pathPatternText back = none ∧ Shows pathPatternKey obj seen ∧
    stringOf (firstMember seen pathPatternKey) = r.pattern ∧
    SameWatch (stringOf (firstMember seen softWatchKey)) r.flags

/-! ## The rounds of the loop -/

theorem length_endOfObj_tail {rest obj endOfObj : Bytes} (hfind : find pathPatternText rest = some obj)
    (hend : find [125] obj = some endOfObj) : endOfObj.tail.length < rest.length := by
  have hobj := length_find_le hfind
  have hle := length_find_le hend
  obtain ⟨-, -, hpre, -⟩ := find_eq_some_iff.1 hend
  have hpos := hpre.length_le
  rw [List.length_tail]
  simp only [List.length_singleton] at hpos
  omega

/-- Any fuel of at least the length gives the same. -/
theorem parsePolicyLoop_fuel {fuel fuel' : Nat} {rest : Bytes} (h : rest.length ≤ fuel)
    (h' : rest.length ≤ fuel') : parsePolicyLoop fuel rest = parsePolicyLoop fuel' rest := by
  have hnil : ∀ n, parsePolicyLoop n [] = some [] := by
    intro n
    cases n with
    | zero => rfl
    | succ n => rfl
  induction fuel generalizing fuel' rest with
  | zero =>
      obtain rfl := List.length_eq_zero_iff.1 (Nat.le_zero.1 h)
      rw [hnil, hnil]
  | succ fuel ih =>
      cases fuel' with
      | zero =>
          obtain rfl := List.length_eq_zero_iff.1 (Nat.le_zero.1 h')
          rw [hnil, hnil]
      | succ fuel' =>
          unfold parsePolicyLoop
          cases hfind : find pathPatternText rest with
          | none => rfl
          | some obj =>
              simp only
              cases hend : find [125] obj with
              | none => rfl
              | some endOfObj =>
                  have hlt := length_endOfObj_tail hfind hend
                  have hrest := @ih fuel' endOfObj.tail (by omega) (by omega)
                  simp only [hrest]

theorem rulesFrom_none {rest : Bytes} (h : find pathPatternText rest = none) :
    rulesFrom rest = some [] := by
  cases rest with
  | nil => rfl
  | cons c rest =>
      rw [rulesFrom, List.length_cons, parsePolicyLoop, h]

theorem rulesFrom_cut {rest obj : Bytes} (h : find pathPatternText rest = some obj)
    (hend : find [125] obj = none) : rulesFrom rest = none := by
  cases rest with
  | nil => cases h
  | cons c rest =>
      rw [rulesFrom, List.length_cons, parsePolicyLoop, h]
      simp only [hend]

theorem rulesFrom_some {rest obj endOfObj : Bytes} (h : find pathPatternText rest = some obj)
    (hend : find [125] obj = some endOfObj) :
    rulesFrom rest = (rulesFrom endOfObj.tail).map
      (readRule (obj.take (obj.length - endOfObj.length)) :: ·) := by
  have hlt := length_endOfObj_tail h hend
  cases rest with
  | nil => cases h
  | cons c rest =>
      rw [List.length_cons] at hlt
      rw [rulesFrom, List.length_cons, parsePolicyLoop, h]
      simp only [hend]
      rw [parsePolicyLoop_fuel (Nat.le_of_lt_succ hlt) (Nat.le_refl _)]
      rfl

theorem find_none_of_rulesFrom {rest : Bytes} (h : rulesFrom rest = some []) :
    find pathPatternText rest = none := by
  cases hfind : find pathPatternText rest with
  | none => rfl
  | some obj =>
      cases hend : find [125] obj with
      | none =>
          rw [rulesFrom_cut hfind hend] at h
          cases h
      | some endOfObj =>
          rw [rulesFrom_some hfind hend] at h
          cases hrest : rulesFrom endOfObj.tail with
          | none =>
              rw [hrest] at h
              cases h
          | some rs =>
              rw [hrest] at h
              cases h

/-- Only what follows the first `"path_pattern"` counts. -/
theorem rulesFrom_congr {a b : Bytes} (h : find pathPatternText a = find pathPatternText b) :
    rulesFrom a = rulesFrom b := by
  cases ha : find pathPatternText a with
  | none => rw [rulesFrom_none ha, rulesFrom_none (h.symm.trans ha)]
  | some obj =>
      have hb := h.symm.trans ha
      cases hend : find [125] obj with
      | none => rw [rulesFrom_cut ha hend, rulesFrom_cut hb hend]
      | some endOfObj => rw [rulesFrom_some ha hend, rulesFrom_some hb hend]

/-- A text without a quote holds no rule. -/
theorem rulesFrom_skip {front : Bytes} (h : 34 ∉ front) (rest : Bytes) :
    rulesFrom (front ++ rest) = rulesFrom rest :=
  rulesFrom_congr (find_skip h rest)

theorem rulesFrom_of_no_quote {text : Bytes} (h : 34 ∉ text) : rulesFrom text = some [] := by
  have hskip := rulesFrom_skip h []
  rw [List.append_nil] at hskip
  exact hskip

/-- One round: the rule up to the brace, and the rules behind it. -/
theorem rulesFrom_piece {rest obj back : Bytes} (h : find pathPatternText rest = some (obj ++ 125 :: back))
    (hobj : 125 ∉ obj) : rulesFrom rest = (rulesFrom back).map (readRule obj :: ·) := by
  have htake : (obj ++ 125 :: back).take ((obj ++ 125 :: back).length - (125 :: back).length) = obj := by
    have hlen : (obj ++ 125 :: back).length - (125 :: back).length = obj.length := by
      rw [List.length_append]
      omega
    rw [hlen, List.take_left]
  have hround := rulesFrom_some h (find_single hobj back)
  rw [htake] at hround
  exact hround

/-! ## A text that ends in a brace -/

theorem brace_not_mem_pathPatternText : (125 : UInt8) ∉ pathPatternText := by
  rw [pathPatternText, pathPatternKey_eq]
  decide

theorem endsIn_of_append {body front back : Bytes} {c : UInt8} (h : body ++ [c] = front ++ back) :
    back = [] ∨ ∃ tail, back = tail ++ [c] := by
  rcases List.eq_nil_or_concat back with hnil | ⟨tail, last, hback⟩
  · exact Or.inl hnil
  · rw [hback, List.concat_eq_append, ← List.append_assoc] at h
    obtain ⟨-, hlast⟩ := List.append_inj' h rfl
    exact Or.inr ⟨tail, by rw [hback, List.concat_eq_append, hlast]⟩

/-- Where the name is found in a text that ends in a brace, a rule is cut at the next brace, and
what is left ends in a brace too, or is empty. -/
theorem find_pathPatternText_brace {body obj : Bytes}
    (h : find pathPatternText (body ++ [125]) = some obj) :
    ∃ front piece back, body ++ [125] = front ++ (piece ++ 125 :: back) ∧ obj = piece ++ 125 :: back ∧
      125 ∉ piece ∧ (back = [] ∨ ∃ tail, back = tail ++ [125]) := by
  obtain ⟨front, htext, hpre, -⟩ := find_eq_some_iff.1 h
  have hbrace : 125 ∈ obj := by
    rcases endsIn_of_append htext with rfl | ⟨tail, rfl⟩
    · cases List.prefix_nil.1 hpre
    · exact List.mem_append_right _ List.mem_cons_self
  obtain ⟨piece, back, rfl, hpiece⟩ := List.eq_append_cons_of_mem hbrace
  refine ⟨front, piece, back, htext, rfl, hpiece, ?_⟩
  have hsplit : body ++ [125] = (front ++ piece ++ [125]) ++ back := by rw [htext]; simp
  exact endsIn_of_append hsplit

/-- Nothing of the text behind a brace is read with what stands before it. -/
theorem rulesFrom_append {text : Bytes} (h : text = [] ∨ ∃ body, text = body ++ [125]) :
    ∃ rs, rulesFrom text = some rs ∧
      ∀ rest, rulesFrom (text ++ rest) = (rulesFrom rest).map (rs ++ ·) := by
  have hempty : ∀ rest, rulesFrom rest = (rulesFrom rest).map ([] ++ ·) := fun rest => by
    cases rulesFrom rest with
    | none => rfl
    | some rs => rfl
  induction hn : text.length using Nat.strong_induction_on generalizing text with
  | _ n ih =>
      subst hn
      rcases h with rfl | ⟨body, rfl⟩
      · exact ⟨[], rfl, hempty⟩
      cases hfind : find pathPatternText (body ++ [125]) with
      | none =>
          refine ⟨[], rulesFrom_none hfind, fun rest => ?_⟩
          have hskip := find_append_of_none brace_not_mem_pathPatternText hfind rest
          rw [List.append_assoc, List.singleton_append, rulesFrom_congr hskip]
          exact hempty rest
      | some obj =>
          obtain ⟨front, piece, back, htext, rfl, hpiece, hback⟩ := find_pathPatternText_brace hfind
          have hlt : back.length < (body ++ [125]).length := by
            rw [htext]
            simp only [List.length_append, List.length_cons]
            omega
          obtain ⟨rs, hrs, hmore⟩ := ih back.length hlt hback rfl
          refine ⟨readRule piece :: rs, by rw [rulesFrom_piece hfind hpiece, hrs]; rfl,
            fun rest => ?_⟩
          have hfind' : find pathPatternText (body ++ [125] ++ rest) =
              some (piece ++ 125 :: (back ++ rest)) :=
            (find_append hfind rest).trans (by rw [List.append_assoc, List.cons_append])
          rw [rulesFrom_piece hfind' hpiece, hmore]
          cases rulesFrom rest with
          | none => rfl
          | some more => rfl

/-! ## One rule object -/

theorem ObjectText.endsIn_brace {text : Bytes} {ms : List Member} (h : ObjectText text ms) :
    ∃ body, text = body ++ [125] := by
  cases h with
  | @empty w hw => exact ⟨123 :: w, rfl⟩
  | @members w members _ hw hms => exact ⟨123 :: (w ++ members), by simp⟩

/-- What is read from the text of an object. -/
def RuleObject.readFrom (r : RuleObject) : List ParsedPolicyRule := (rulesFrom r.text).getD []

theorem RuleObject.rulesFrom_text (r : RuleObject) : rulesFrom r.text = some r.readFrom ∧
    ∀ rest, rulesFrom (r.text ++ rest) = (rulesFrom rest).map (r.readFrom ++ ·) := by
  obtain ⟨rs, hrs, hmore⟩ := rulesFrom_append (Or.inr (ObjectText.endsIn_brace r.wf))
  have hread : r.readFrom = rs := by rw [RuleObject.readFrom, hrs]; rfl
  rw [hread]
  exact ⟨hrs, hmore⟩

theorem plainName_pathPatternKey : PlainName pathPatternKey := by
  rw [pathPatternKey_eq]
  constructor
  · exact List.cons_ne_nil _ _
  · exact List.all_eq_true.1 (by rfl)

theorem colon_not_mem_softWatchKey : 58 ∉ softWatchKey := by
  rw [softWatchKey_eq]
  decide

/-- The high bit is in the mask of `all` only. -/
theorem bpfSoftWatchBits_ne (mask : UInt32) : bpfSoftWatchBits mask ≠ 0xFF := by
  have hlow : ∀ (ops : List (OpType × Bytes × UInt8)) (bits : UInt8),
      (∀ op ∈ ops, op.2.2.toNat < 2 ^ 7) → bits.toNat < 2 ^ 7 →
        (ops.foldl (fun bits op => if mask &&& opBit op.1 ≠ 0 then bits ||| op.2.2 else bits)
          bits).toNat < 2 ^ 7 := by
    intro ops
    induction ops with
    | nil => exact fun bits _ hbits => hbits
    | cons op ops ih =>
        intro bits hops hbits
        refine ih _ (fun op' hop' => hops op' (List.mem_cons_of_mem _ hop')) ?_
        show (if mask &&& opBit op.1 ≠ 0 then bits ||| op.2.2 else bits).toNat < 2 ^ 7
        split
        · rw [UInt8.toNat_or]
          exact Nat.or_lt_two_pow hbits (hops op List.mem_cons_self)
        · exact hbits
  intro hfull
  have hlt := hlow watchable 0 (by simp [watchable]) (by decide)
  change (bpfSoftWatchBits mask).toNat < 2 ^ 7 at hlt
  rw [hfull] at hlt
  exact absurd hlt (by decide)

theorem parsedRule_eq_iff {pattern pattern' flags flags' : Bytes} :
    parsedRule pattern flags = parsedRule pattern' flags' ↔
      pattern = pattern' ∧ SameWatch flags flags' := by
  unfold parsedRule SameWatch
  simp only [ParsedPolicyRule.mk.injEq]
  refine and_congr_right fun _ => and_congr_right fun hmask => ?_
  rw [hmask]
  have hne := bpfSoftWatchBits_ne (softWatchMaskFromFlags flags')
  generalize bpfSoftWatchBits (softWatchMaskFromFlags flags') = bits at hne
  by_cases hall : flags = ascii "all"
  · by_cases hall' : flags' = ascii "all"
    · simp [hall, hall']
    · simp [hall, hall', Ne.symm hne]
  · by_cases hall' : flags' = ascii "all"
    · simp [hall, hall', hne]
    · simp [hall, hall']

/-- The rule that is read is the one that is shown. -/
theorem readRule_eq_iff {obj : Bytes} {seen : List Member} (h : Shows pathPatternKey obj seen)
    (r : RuleObject) :
    readRule obj = r.rule ↔ stringOf (firstMember seen pathPatternKey) = r.pattern ∧
      SameWatch (stringOf (firstMember seen softWatchKey)) r.flags := by
  have hplain := plainName_pathPatternKey
  rw [readRule, extractStr_shows h hplain.stringBody (hplain.not_mem (by decide)),
    extractStr_shows h hplain.stringBody colon_not_mem_softWatchKey]
  exact parsedRule_eq_iff

/-- An object is read as its own rule alone exactly when it is clean. -/
theorem RuleObject.readFrom_iff (r : RuleObject) : r.readFrom = [r.rule] ↔ r.Clean := by
  have hread := r.rulesFrom_text.1
  constructor
  · intro hown
    rw [hown] at hread
    obtain ⟨body, hbody⟩ := ObjectText.endsIn_brace r.wf
    cases hfind : find pathPatternText r.text with
    | none =>
        rw [rulesFrom_none hfind] at hread
        cases hread
    | some obj =>
        obtain ⟨front, htext, hpre, hnone⟩ := find_eq_some_iff.1 hfind
        have hbrace := hfind
        rw [hbody] at hbrace
        obtain ⟨-, piece, back, -, rfl, hpiece, -⟩ := find_pathPatternText_brace hbrace
        rw [rulesFrom_piece hfind hpiece] at hread
        cases hrest : rulesFrom back with
        | none =>
            rw [hrest] at hread
            cases hread
        | some rs =>
            rw [hrest] at hread
            obtain ⟨hrule, rfl⟩ := List.cons.inj (Option.some.inj hread)
            obtain ⟨seen, hseen⟩ := exists_shows r.wf plainName_pathPatternKey htext hpre hpiece
            exact ⟨front, piece, back, seen, htext, hpre, hnone, hpiece,
              find_none_of_rulesFrom hrest, hseen, (readRule_eq_iff hseen r).1 hrule⟩
  · rintro ⟨front, obj, back, seen, htext, hpre, hnone, hobj, hback, hseen, hshown⟩
    have hfind := find_eq_some_iff.2 ⟨front, htext, hpre, hnone⟩
    have hrule := (readRule_eq_iff hseen r).2 hshown
    rw [rulesFrom_piece hfind hobj, rulesFrom_none hback, hrule] at hread
    exact (Option.some.inj hread).symm

/-! ## The whole policy -/

theorem quote_not_mem_comma {w w' : Bytes} (hw : Ws w) (hw' : Ws w') : 34 ∉ w ++ 44 :: w' := by
  intro hin
  rcases List.mem_append.1 hin with hin | hin
  · exact quote_not_mem_ws hw hin
  rcases List.mem_cons.1 hin with hin | hin
  · exact absurd hin (by decide)
  · exact quote_not_mem_ws hw' hin

/-- Every object is read by itself, in order. -/
theorem rulesFrom_rulesText {text : Bytes} {rs : List RuleObject} (h : RulesText text rs)
    {rest : Bytes} (hrest : 34 ∉ rest) :
    rulesFrom (text ++ rest) = some (rs.flatMap RuleObject.readFrom) := by
  induction h with
  | @last w r hw =>
      have hend : 34 ∉ w ++ rest := fun hin =>
        (List.mem_append.1 hin).elim (quote_not_mem_ws hw) hrest
      rw [List.append_assoc, r.rulesFrom_text.2, rulesFrom_of_no_quote hend]
      rfl
  | @cons w w' more r rs hw hw' hrs ih =>
      have hsplit : r.text ++ (w ++ 44 :: (w' ++ more)) ++ rest =
          r.text ++ ((w ++ 44 :: w') ++ (more ++ rest)) := by simp
      rw [hsplit, r.rulesFrom_text.2, rulesFrom_skip (quote_not_mem_comma hw hw'), ih]
      rfl

theorem rulesFrom_arrayText {array : Bytes} {rs : List RuleObject} (h : ArrayText array rs)
    {rest : Bytes} (hrest : 34 ∉ rest) :
    rulesFrom (array ++ rest) = some (rs.flatMap RuleObject.readFrom) := by
  have hclose : 34 ∉ 93 :: rest := fun hin =>
    (List.mem_cons.1 hin).elim (fun h => absurd h (by decide)) hrest
  have hopen : ∀ {w : Bytes}, Ws w → 34 ∉ 91 :: w := fun hw hin =>
    (List.mem_cons.1 hin).elim (fun h => absurd h (by decide)) (quote_not_mem_ws hw)
  cases h with
  | @empty w hw =>
      have hsplit : 91 :: (w ++ [93]) ++ rest = (91 :: w) ++ 93 :: rest := by simp
      rw [hsplit, rulesFrom_skip (hopen hw), rulesFrom_of_no_quote hclose]
      rfl
  | @rules w text _ hw hrs =>
      have hsplit : 91 :: (w ++ (text ++ [93])) ++ rest = (91 :: w) ++ (text ++ 93 :: rest) := by simp
      rw [hsplit, rulesFrom_skip (hopen hw), rulesFrom_rulesText hrs hclose]

/-- A quote that no `p` follows starts no rule. -/
theorem rulesFrom_quote {rest : Bytes} (h : rest.head? ≠ some 112) :
    rulesFrom (34 :: rest) = rulesFrom rest := by
  have hneedle : pathPatternText = 34 :: 112 :: pathPatternText.drop 2 := by
    rw [pathPatternText, pathPatternKey_eq]
    rfl
  have hhead : ¬ pathPatternText.isPrefixOf (34 :: rest) = true := by
    intro hpre
    rw [hneedle] at hpre
    obtain ⟨-, hpre⟩ := List.cons_prefix_cons.1 (List.isPrefixOf_iff_prefix.1 hpre)
    cases rest with
    | nil => cases List.prefix_nil.1 hpre
    | cons c rest =>
        have hc := (List.cons_prefix_cons.1 hpre).1
        exact h (by rw [← hc]; rfl)
  refine rulesFrom_congr ?_
  rw [find, if_neg hhead]

theorem ascii_rules : ascii "rules" = [114, 117, 108, 101, 115] := by decide +kernel

theorem rulesFrom_rulesName {w : Bytes} (hw : Ws w) (rest : Bytes) :
    rulesFrom (rulesName ++ (w ++ 58 :: rest)) = rulesFrom rest := by
  have hsplit : rulesName ++ (w ++ 58 :: rest) =
      34 :: (ascii "rules" ++ 34 :: ((w ++ [58]) ++ rest)) := by
    simp [rulesName]
  have hrules : ascii "rules" = 114 :: (ascii "rules").tail := by rw [ascii_rules]; rfl
  have hname : (ascii "rules" ++ 34 :: ((w ++ [58]) ++ rest)).head? ≠ some 112 := by
    rw [hrules]
    simp
  have hcolon : ((w ++ [58]) ++ rest).head? ≠ some 112 := by
    cases w with
    | nil => simp
    | cons c w =>
        intro hc
        have hws := hw c List.mem_cons_self
        rw [show c = 112 from Option.some.inj hc] at hws
        exact absurd hws (by decide)
  have hquote : 34 ∉ w ++ [58] := fun hin =>
    (List.mem_append.1 hin).elim (quote_not_mem_ws hw) fun h => absurd h (by decide)
  have hword : 34 ∉ ascii "rules" := by rw [ascii_rules]; decide
  rw [hsplit, rulesFrom_quote hname, rulesFrom_skip hword, rulesFrom_quote hcolon,
    rulesFrom_skip hquote]

theorem rulesFrom_policyText {doc : Bytes} {rs : List RuleObject} (h : PolicyText doc rs) :
    rulesFrom doc = some (rs.flatMap RuleObject.readFrom) := by
  cases h with
  | @bare w array w' _ hw harray hw' =>
      rw [rulesFrom_skip (quote_not_mem_ws hw), rulesFrom_arrayText harray (quote_not_mem_ws hw')]
  | @wrapped w w₁ w₂ w₃ array w₄ w' _ hw hw₁ hw₂ hw₃ harray hw₄ hw' =>
      have hsplit : ∀ rest, w ++ 123 :: (w₁ ++ rest) = (w ++ 123 :: w₁) ++ rest := by simp
      have hopen : 34 ∉ w ++ 123 :: w₁ := by
        simp only [List.mem_append, List.mem_cons, not_or]
        exact ⟨quote_not_mem_ws hw, by decide, quote_not_mem_ws hw₁⟩
      have hclose : 34 ∉ w₄ ++ 125 :: w' := by
        simp only [List.mem_append, List.mem_cons, not_or]
        exact ⟨quote_not_mem_ws hw₄, by decide, quote_not_mem_ws hw'⟩
      rw [hsplit, rulesFrom_skip hopen, rulesFrom_rulesName hw₂,
        rulesFrom_skip (quote_not_mem_ws hw₃), rulesFrom_arrayText harray hclose]

/-- The rules of a policy, as both lists have them. -/
def policyOf (rs : List RuleObject) : List ParsedPolicyRule × List PolicyRule :=
  (rs.map RuleObject.rule, rs.map fun r => ⟨r.rule.pathPattern, r.rule.softWatch⟩)

theorem flatMap_readFrom_of_clean {rs : List RuleObject} (h : ∀ r ∈ rs, r.Clean) :
    rs.flatMap RuleObject.readFrom = rs.map RuleObject.rule := by
  induction rs with
  | nil => rfl
  | cons r rs ih =>
      have hr := r.readFrom_iff.2 (h r List.mem_cons_self)
      rw [List.flatMap_cons, hr, ih fun r' hr' => h r' (List.mem_cons_of_mem _ hr')]
      rfl

theorem parsePolicyRules_eq_iff {doc : Bytes} {rs : List RuleObject} (h : PolicyText doc rs) :
    parsePolicyRules doc = some (policyOf rs) ↔
      rs.flatMap RuleObject.readFrom = rs.map RuleObject.rule := by
  rw [parsePolicyRules, rulesFrom_policyText h, Option.map_some, Option.some_inj, policyOf,
    Prod.mk.injEq]
  constructor
  · exact And.left
  · intro heq
    refine ⟨heq, ?_⟩
    rw [heq, List.map_map]
    rfl

/-! ## Clean rules -/

theorem firstMember_append {before after : List Member} {key : Bytes}
    (h : ∀ m ∈ before, m.1 ≠ key) : firstMember (before ++ after) key = firstMember after key := by
  have hnone : before.find? (fun m => m.1 == key) = none :=
    List.find?_eq_none.2 fun m hm => by simpa using h m hm
  rw [firstMember, firstMember, List.find?_append, hnone, Option.none_or]

/-- A rule is clean when nothing in front of its pattern looks like the name or is its
`soft_watch`, the name is written as it is, and no brace stands behind it but the last. -/
theorem RuleObject.clean_of_members {r : RuleObject} {front obj : Bytes}
    {before members : List Member} (htext : r.text = front ++ (obj ++ [125]))
    (hmembers : r.members = before ++ members) (hobj : MembersText obj members)
    (hbefore : ∀ m ∈ before, m.1 ≠ pathPatternKey ∧ m.1 ≠ softWatchKey)
    (hname : pathPatternText <+: obj) (hfront : NoneBefore pathPatternText front (obj ++ [125]))
    (hbrace : 125 ∉ obj) : r.Clean := by
  have hfirst : ∀ key, (∀ m ∈ before, m.1 ≠ key) →
      firstMember members key = firstMember r.members key := fun key hkey => by
    rw [hmembers, firstMember_append hkey]
  have hpattern : stringOf (firstMember members pathPatternKey) = r.pattern := by
    rw [hfirst _ fun m hm => (hbefore m hm).1, r.hasPattern]
    rfl
  have hflags : stringOf (firstMember members softWatchKey) = r.flags := by
    rw [hfirst _ fun m hm => (hbefore m hm).2]
    rcases r.hasFlags with hsome | ⟨hnone, hempty⟩
    · rw [hsome]
      rfl
    · rw [hnone, hempty]
      rfl
  refine ⟨front, obj, [], members, htext, hname.trans (List.prefix_append _ _), hfront, hbrace, rfl,
    .name (.whole hobj), hpattern, ?_⟩
  rw [hflags]
  exact ⟨rfl, Iff.rfl⟩

/-- The members of a rule as a client writes them. -/
def ruleMembers (pattern flags : Bytes) : List Member :=
  [(pathPatternKey, .str pattern), (softWatchKey, .str flags)]

theorem ruleMembers_no_num (pattern flags : Bytes) :
    ∀ m ∈ ruleMembers pattern flags, ∀ text, m.2 = .num text → Number text := by
  intro m hm text htext
  simp only [ruleMembers, List.mem_cons, List.not_mem_nil, or_false] at hm
  rcases hm with rfl | rfl
  · cases htext
  · cases htext

theorem softWatchKey_ne_pathPatternKey : pathPatternKey ≠ softWatchKey := by
  rw [pathPatternKey_eq, softWatchKey_eq]
  decide

def ruleObject (pattern flags : Bytes) : RuleObject where
  text := printObject (ruleMembers pattern flags)
  members := ruleMembers pattern flags
  wf := .members ws_nil (membersText_print (ruleMembers_no_num pattern flags))
  pattern := pattern
  flags := flags
  hasPattern := by simp [firstMember, ruleMembers]
  hasFlags := by simp [firstMember, ruleMembers, softWatchKey_ne_pathPatternKey]

theorem brace_not_mem_jsonEscape {s : Bytes} (h : 125 ∉ s) : 125 ∉ jsonEscape s := by
  have hdigit : ∀ n < 16, (125 : UInt8) ≠ ContextFS.hexDigit n := by decide
  intro hin
  obtain ⟨c, hc, hin⟩ := List.mem_flatMap.1 hin
  have hlt := c.toNat_lt
  have hhigh := hdigit (c.toNat / 16)
  have hlow := hdigit (c.toNat % 16) (by omega)
  have hne : 125 ≠ c := fun heq => h (by rw [heq]; exact hc)
  revert hin
  unfold escapeByte
  split_ifs with h₁ h₂ h₃ h₄ h₅ h₆
  · decide
  · decide
  · decide
  · decide
  · decide
  · have hbound : c.toNat < 32 := h₆
    have hhigh := hhigh (by omega)
    simp [hhigh, hlow]
  · simp [hne]

/-- A rule whose strings have no brace is clean. -/
theorem ruleObject_clean {pattern flags : Bytes} (hpattern : 125 ∉ pattern) (hflags : 125 ∉ flags) :
    (ruleObject pattern flags).Clean := by
  have hobj := membersText_print (ruleMembers_no_num pattern flags)
  have hkeys : jsonEscape pathPatternKey = pathPatternKey := by
    rw [pathPatternKey_eq]
    decide
  have hbrace : 125 ∉ printMembers (ruleMembers pattern flags) := by
    have hname : (125 : UInt8) ∉ jsonEscape pathPatternKey := by
      rw [pathPatternKey_eq]
      decide
    have hname' : (125 : UInt8) ∉ jsonEscape softWatchKey := by
      rw [softWatchKey_eq]
      decide
    simp [printMembers, printMember, printValue, ruleMembers, hname, hname',
      brace_not_mem_jsonEscape hpattern, brace_not_mem_jsonEscape hflags]
  have htext : (ruleObject pattern flags).text =
      [123] ++ (printMembers (ruleMembers pattern flags) ++ [125]) := rfl
  have hmembers : (ruleObject pattern flags).members = [] ++ ruleMembers pattern flags := rfl
  refine RuleObject.clean_of_members htext hmembers hobj (fun m hm => (by cases hm)) ?_ ?_ hbrace
  · simp [printMembers, printMember, ruleMembers, hkeys, pathPatternText]
  · refine NoneBefore.cons ?_ fun a b hab hb => absurd (List.append_eq_nil_iff.1 hab.symm).2 hb
    intro hpre
    exact absurd (List.cons_prefix_cons.1 hpre).1 (by decide)

/-- Some text of a policy. -/
def printPolicy (r : RuleObject) (rs : List RuleObject) : Bytes :=
  91 :: ((r.text ++ rs.flatMap fun r => 44 :: r.text) ++ [93])

theorem rulesText_print (r : RuleObject) (rs : List RuleObject) :
    RulesText (r.text ++ rs.flatMap fun r => 44 :: r.text) (r :: rs) := by
  induction rs generalizing r with
  | nil => exact .last r ws_nil
  | cons next rs ih =>
      have hsplit : r.text ++ (next :: rs).flatMap (fun r => 44 :: r.text) =
          r.text ++ ([] ++ 44 :: ([] ++ (next.text ++ rs.flatMap fun r => 44 :: r.text))) := rfl
      rw [hsplit]
      exact .cons r ws_nil ws_nil (ih next)

theorem policyText_print (r : RuleObject) (rs : List RuleObject) :
    PolicyText (printPolicy r rs) (r :: rs) := by
  have hdoc := PolicyText.bare ws_nil (ArrayText.rules ws_nil (rulesText_print r rs)) ws_nil
  rw [List.append_nil] at hdoc
  exact hdoc

/-- A policy of clean rules is read as its rules; and in a policy whose other rules are clean, the
result is the rules of the policy exactly when the one rule is clean too. -/
theorem policyRules_iff (doc : Bytes) (rules : List RuleObject) (hdoc : PolicyText doc rules) :
    ((∀ r ∈ rules, r.Clean) → parsePolicyRules doc = some (policyOf rules)) ∧
      ∀ before r after, rules = before ++ r :: after → (∀ o ∈ before ++ after, o.Clean) →
        (parsePolicyRules doc = some (policyOf rules) ↔ r.Clean) := by
  constructor
  · intro hclean
    exact (parsePolicyRules_eq_iff hdoc).2 (flatMap_readFrom_of_clean hclean)
  · rintro before r after rfl hclean
    have hbefore := flatMap_readFrom_of_clean fun o ho => hclean o (List.mem_append_left _ ho)
    have hafter := flatMap_readFrom_of_clean fun o ho => hclean o (List.mem_append_right _ ho)
    rw [parsePolicyRules_eq_iff hdoc, ← r.readFrom_iff, List.flatMap_append, List.flatMap_cons,
      List.map_append, List.map_cons, hbefore, hafter, List.append_cancel_left_eq,
      ← List.singleton_append, List.append_cancel_right_eq]

/-- A rule whose pattern has brackets and quotes, and one whose pattern has a brace. -/
theorem policyRules_two :
    parsePolicyRules (printPolicy (ruleObject (ascii "[\"a") (ascii "read")) []) =
        some (policyOf [ruleObject (ascii "[\"a") (ascii "read")]) ∧
      ¬ (ruleObject (ascii "a\x7db") (ascii "all")).Clean := by
  have hclean : (ruleObject (ascii "[\"a") (ascii "read")).Clean :=
    ruleObject_clean (by decide +kernel) (by decide +kernel)
  constructor
  · refine (policyRules_iff _ _ (policyText_print _ _)).1 ?_
    intro r hr
    rw [List.mem_singleton.1 hr]
    exact hclean
  · have hdoc := policyText_print (ruleObject (ascii "[\"a") (ascii "read"))
      [ruleObject (ascii "a\x7db") (ascii "all")]
    rw [← (policyRules_iff _ _ hdoc).2 [_] _ [] rfl fun r hr => ?_]
    · decide +kernel
    · rw [List.append_nil, List.mem_singleton] at hr
      rw [hr]
      exact hclean

/-- The pattern of `a}b` is cut at its brace: the rule comes out empty and watches nothing. -/
theorem policyRules_cut :
    ¬ ∀ doc rs, PolicyText doc rs → parsePolicyRules doc = some (policyOf rs) := by
  intro h
  have hread : parsePolicyRules (printPolicy (ruleObject (ascii "a\x7db") (ascii "read")) []) =
      some ([⟨[], 0, 0⟩], [⟨[], 0⟩]) := by decide +kernel
  have hne : some (policyOf [ruleObject (ascii "a\x7db") (ascii "read")]) ≠
      some ([⟨[], 0, 0⟩], [⟨[], 0⟩]) := by decide +kernel
  exact hne ((h _ _ (policyText_print _ _)).symm.trans hread)

end ControlProtocol
end ContextFS
