import ContextFS.Lib.Search
import ContextFS.Control.MemberPlaces
import ContextFS.Control.Strtol

/-!
# Numbers and booleans of a request

`extract_int` and `extract_bool` do not read members: they search the raw text for the quoted key
and take what stands behind the next colon.  The first place where the quoted key stands may be
the string of another member, or the tail of one; then the value of a later member is read.  Which
value is read depends on the text in front of it only.
-/

namespace ContextFS
namespace ControlProtocol

open Lib Lib.Json

/-- `extract_int`. -/
def extractInt (json key : Bytes) (dflt : Int) : Int :=
  match find (34 :: (key ++ [34])) json with
  | none => dflt
  | some p =>
      match find [58] p with
      | none => dflt
      | some p => (strtol (skipBlanks p.tail)).getD dflt

/-- `extract_bool`. -/
def extractBool (json key : Bytes) (dflt : Bool) : Bool :=
  match find (34 :: (key ++ [34])) json with
  | none => dflt
  | some p =>
      match find [58] p with
      | none => dflt
      | some p =>
          if (skipBlanks p.tail).take 4 = ascii "true" then true
          else if (skipBlanks p.tail).take 5 = ascii "false" then false
          else dflt

/-! ## Where the search leads -/

/-- The text behind the first colon at or behind the first place where the quoted key stands. -/
def Leads (json key behind : Bytes) : Prop :=
  ∃ front gap, json = front ++ (gap ++ 58 :: behind) ∧
    34 :: (key ++ [34]) <+: gap ++ 58 :: behind ∧
    NoneBefore (34 :: (key ++ [34])) front (gap ++ 58 :: behind) ∧ 58 ∉ gap

/-- A boolean in front of a text, behind blanks and tabs only. -/
def StartsWithBool (text : Bytes) (b : Bool) : Prop :=
  ∃ w rest, text = w ++ ((if b then litTrue else litFalse) ++ rest) ∧ ∀ c ∈ w, isBlank c = true

/-- The search of both functions. -/
def landing (json key : Bytes) : Option Bytes :=
  (find (34 :: (key ++ [34])) json).bind fun p => (find [58] p).map List.tail

theorem landing_eq_some_iff {json key behind : Bytes} :
    landing json key = some behind ↔ Leads json key behind := by
  unfold landing
  simp only [Option.bind_eq_some_iff, Option.map_eq_some_iff]
  constructor
  · rintro ⟨p, hfind, q, hcolon, rfl⟩
    obtain ⟨front, rfl, hpre, hnone⟩ := find_eq_some_iff.1 hfind
    obtain ⟨gap, rfl, ⟨rest, rfl⟩, hgap⟩ := find_eq_some_iff.1 hcolon
    refine ⟨front, gap, rfl, hpre, hnone, fun hin => ?_⟩
    obtain ⟨a, b, rfl⟩ := List.append_of_mem hin
    exact hgap a (58 :: b) rfl (List.cons_ne_nil _ _) ⟨b ++ ([58] ++ rest), by simp⟩
  · rintro ⟨front, gap, rfl, hpre, hnone, hgap⟩
    exact ⟨gap ++ 58 :: behind, find_eq_some_iff.2 ⟨front, rfl, hpre, hnone⟩, 58 :: behind,
      find_single hgap behind, rfl⟩

theorem extractInt_eq (json key : Bytes) (dflt : Int) :
    extractInt json key dflt = ((landing json key).bind strtol).getD dflt := by
  unfold extractInt landing
  cases find (34 :: (key ++ [34])) json with
  | none => rfl
  | some p =>
      simp only [Option.bind_some]
      cases find [58] p with
      | none => rfl
      | some q =>
          simp only [Option.map_some, Option.bind_some, strtol, strtolValue_skipBlanks]

/-- The boolean that a text starts with. -/
def boolAt (text : Bytes) : Option Bool :=
  if (skipBlanks text).take 4 = ascii "true" then some true
  else if (skipBlanks text).take 5 = ascii "false" then some false
  else none

theorem extractBool_eq (json key : Bytes) (dflt : Bool) :
    extractBool json key dflt = ((landing json key).bind boolAt).getD dflt := by
  unfold extractBool landing
  cases find (34 :: (key ++ [34])) json with
  | none => rfl
  | some p =>
      simp only [Option.bind_some]
      cases find [58] p with
      | none => rfl
      | some q =>
          simp only [Option.map_some, Option.bind_some, boolAt]
          split_ifs <;> rfl

theorem boolAt_iff {text : Bytes} {b : Bool} : boolAt text = some b ↔ StartsWithBool text b := by
  have hlit : ascii "true" = litTrue ∧ ascii "false" = litFalse :=
    ⟨ascii_literals.1, ascii_literals.2.1⟩
  unfold boolAt
  rw [hlit.1, hlit.2]
  constructor
  · intro h
    have hsplit := List.takeWhile_append_dropWhile (p := isBlank) (l := text)
    have hblank : ∀ c ∈ text.takeWhile isBlank, isBlank c = true :=
      fun c hc => List.mem_takeWhile_imp hc
    split_ifs at h with htrue hfalse
    · cases h
      refine ⟨text.takeWhile isBlank, (skipBlanks text).drop 4, ?_, hblank⟩
      rw [if_pos rfl, ← htrue, List.take_append_drop]
      exact hsplit.symm
    · cases h
      refine ⟨text.takeWhile isBlank, (skipBlanks text).drop 5, ?_, hblank⟩
      rw [if_neg Bool.false_ne_true, ← hfalse, List.take_append_drop]
      exact hsplit.symm
  · rintro ⟨w, rest, rfl, hw⟩
    have hskip : ∀ body : Bytes, (∀ c, body.head? = some c → isBlank c = false) →
        skipBlanks (w ++ body) = body := by
      intro body hbody
      rw [skipBlanks, List.dropWhile_append_of_pos hw]
      cases body with
      | nil => rfl
      | cons c body => exact List.dropWhile_cons_of_neg (by simp [hbody c rfl])
    cases b with
    | true =>
        have hstart : skipBlanks (w ++ (litTrue ++ rest)) = litTrue ++ rest :=
          hskip _ fun c hc => by
            obtain rfl : 116 = c := Option.some.inj hc
            decide
        rw [if_pos rfl, hstart]
        rfl
    | false =>
        have hstart : skipBlanks (w ++ (litFalse ++ rest)) = litFalse ++ rest :=
          hskip _ fun c hc => by
            obtain rfl : 102 = c := Option.some.inj hc
            decide
        rw [if_neg Bool.false_ne_true, hstart]
        rfl

/-! ## What stops a reading -/

theorem dropWhile_stop {p : UInt8 → Bool} {c : UInt8} (hc : p c = false) (x rest : Bytes) :
    (x ++ c :: rest).dropWhile p = x.dropWhile p ++ c :: rest := by
  induction x with
  | nil => exact List.dropWhile_cons_of_neg (by simp [hc])
  | cons d x ih =>
      by_cases hd : p d = true
      · rw [List.cons_append, List.dropWhile_cons_of_pos hd, List.dropWhile_cons_of_pos hd, ih]
      · rw [List.cons_append, List.dropWhile_cons_of_neg hd, List.dropWhile_cons_of_neg hd,
          List.cons_append]

theorem takeWhile_stop {p : UInt8 → Bool} {c : UInt8} (hc : p c = false) (x rest : Bytes) :
    (x ++ c :: rest).takeWhile p = x.takeWhile p := by
  induction x with
  | nil => exact List.takeWhile_cons_of_neg (by simp [hc])
  | cons d x ih =>
      by_cases hd : p d = true
      · rw [List.cons_append, List.takeWhile_cons_of_pos hd, List.takeWhile_cons_of_pos hd, ih]
      · rw [List.cons_append, List.takeWhile_cons_of_neg hd, List.takeWhile_cons_of_neg hd]

theorem take_stop {literal : Bytes} {c : UInt8} (hc : c ∉ literal) (x rest : Bytes) :
    (x ++ c :: rest).take literal.length = literal ↔ x.take literal.length = literal := by
  have hpre : ∀ text : Bytes, text.take literal.length = literal ↔ literal <+: text := fun text =>
    eq_comm.trans List.prefix_iff_eq_take.symm
  rw [hpre, hpre]
  exact ⟨prefix_of_not_mem hc, fun h => h.trans (List.prefix_append _ _)⟩

/-- No number and no literal goes over a colon or a quote. -/
def Stops {α : Type} (read : Bytes → Option α) : Prop :=
  ∀ c : UInt8, c = 58 ∨ c = 34 → ∀ x rest, read (x ++ c :: rest) = read x

theorem stops_strtol : Stops strtol := by
  intro c hc x rest
  have hspace : isSpace c = false := by rcases hc with rfl | rfl <;> decide
  have hdigit : ContextFS.isDigit c = false := by rcases hc with rfl | rfl <;> decide
  have hsign : c ≠ 45 ∧ c ≠ 43 := by rcases hc with rfl | rfl <;> decide
  have hhead : ∀ y : Bytes, signed (y ++ c :: rest) = signed y ∧
      ((y ++ c :: rest).head? = some 45 ↔ y.head? = some 45) := by
    intro y
    cases y with
    | nil => simp [signed, hsign.1, hsign.2]
    | cons d y => exact ⟨rfl, Iff.rfl⟩
  unfold strtol strtolValue
  simp only [dropWhile_stop hspace]
  generalize x.dropWhile isSpace = y
  have hdigits : (if signed y = true then (y ++ c :: rest).tail else y ++ c :: rest).takeWhile
      ContextFS.isDigit = (if signed y = true then y.tail else y).takeWhile ContextFS.isDigit := by
    cases y with
    | nil => exact takeWhile_stop hdigit [] rest
    | cons d y =>
        by_cases hs : signed (d :: y) = true
        · rw [if_pos hs, if_pos hs]
          exact takeWhile_stop hdigit y rest
        · rw [if_neg hs, if_neg hs]
          exact takeWhile_stop hdigit (d :: y) rest
  simp only [(hhead y).1, (hhead y).2, hdigits]

theorem stops_boolAt : Stops boolAt := by
  intro c hc x rest
  have hblank : isBlank c = false := by rcases hc with rfl | rfl <;> decide
  have htrue : c ∉ litTrue := by rcases hc with rfl | rfl <;> decide
  have hfalse : c ∉ litFalse := by rcases hc with rfl | rfl <;> decide
  have hlit₁ := take_stop htrue (skipBlanks x) rest
  have hlit₂ := take_stop hfalse (skipBlanks x) rest
  unfold boolAt
  rw [show skipBlanks (x ++ c :: rest) = skipBlanks x ++ c :: rest from dropWhile_stop hblank x rest,
    ascii_literals.1, ascii_literals.2.1]
  show (if (skipBlanks x ++ c :: rest).take litTrue.length = litTrue then some true
    else if (skipBlanks x ++ c :: rest).take litFalse.length = litFalse then some false
    else none) = _
  simp only [hlit₁, hlit₂]
  rfl

/-! ## A member's own value -/

/-- The integer that a value is: a number without fraction and exponent. -/
def integerOf : Value → Option Int
  | .num text =>
      let ds := if text.head? = some 45 then text.tail else text
      if ds = [] ∨ ¬ ds.all isDigit then none
      else some (if text.head? = some 45 then -(digitsValue ds : Int) else digitsValue ds)
  | _ => none

/-- `extract_int` reads the integer of the first member of the name, whatever the default is, and
the default when there is no member. -/
def ReadsOwnInt (r : FlatObject) (key : Bytes) : Prop :=
  (∀ v n, firstMember r.members key = some v → integerOf v = some n → InLong n →
    ∀ dflt, extractInt r.text key dflt = n) ∧
  (firstMember r.members key = none → ∀ dflt, extractInt r.text key dflt = dflt)

/-- `extract_bool` reads the boolean of the first member of the name, whatever the default is, and
the default when there is no member. -/
def ReadsOwnBool (r : FlatObject) (key : Bytes) : Prop :=
  (∀ b, firstMember r.members key = some (.bool b) → ∀ dflt, extractBool r.text key dflt = b) ∧
  (firstMember r.members key = none → ∀ dflt, extractBool r.text key dflt = dflt)

/-- Whatever integer is written at the place, `extract_int` reads it. -/
def MemberPlace.ReadsInt (q : MemberPlace) (key : Bytes) : Prop :=
  ∀ t v n, ValueText t v → integerOf v = some n → InLong n →
    ∀ dflt, extractInt (q.text t) key dflt = n

/-- Whatever boolean is written at the place, `extract_bool` reads it. -/
def MemberPlace.ReadsBool (q : MemberPlace) (key : Bytes) : Prop :=
  ∀ t b, ValueText t (.bool b) → ∀ dflt, extractBool (q.text t) key dflt = b

/-- The quoted key stands in front of the member's colon, and no other colon stands between its
first place and that one. -/
def MemberPlace.Sought (q : MemberPlace) (key : Bytes) : Prop :=
  58 ∉ key ∧ ∃ a gap, q.front = a ++ gap ∧ 34 :: (key ++ [34]) <+: gap ∧
    NoneBefore (34 :: (key ++ [34])) a gap ∧ 58 ∉ gap

/-- The colon behind the first place of the quoted key is the one of a number, or stands in a string
that goes on with an integer. -/
def MeetsInt (r : FlatObject) (key : Bytes) : Prop :=
  ∃ behind, Leads r.text key behind ∧
    ((∃ blanks text, MemberColon r behind blanks (.num text)) ∨
      ∃ tail m, StringColon r behind tail ∧ StartsWithInt tail m)

/-- The colon behind the first place of the quoted key is the one of a boolean, with blanks and tabs
only in front of it, or stands in a string that goes on with a boolean. -/
def MeetsBool (r : FlatObject) (key : Bytes) : Prop :=
  ∃ behind, Leads r.text key behind ∧
    ((∃ blanks b, MemberColon r behind blanks (.bool b) ∧ ∀ c ∈ blanks, isBlank c = true) ∨
      ∃ tail b, StringColon r behind tail ∧ StartsWithBool tail b)

/-- A value read whatever the default is, is there to be read. -/
theorem getD_eq_iff {α : Type} {o : Option α} {a : α} (h : ∃ b, b ≠ a) :
    (∀ dflt, o.getD dflt = a) ↔ o = some a := by
  constructor
  · intro hall
    cases o with
    | none =>
        obtain ⟨b, hb⟩ := h
        exact absurd (hall b) hb
    | some x => rw [← hall a]; rfl
  · rintro rfl dflt
    rfl

theorem getD_eq_dflt_iff {α : Type} {o : Option α} (h : ∀ a : α, ∃ b, b ≠ a) :
    (∀ dflt, o.getD dflt = dflt) ↔ o = none := by
  constructor
  · intro hall
    cases o with
    | none => rfl
    | some x =>
        obtain ⟨b, hb⟩ := h x
        exact absurd (hall b).symm hb
  · rintro rfl dflt
    rfl

theorem exists_ne_int (a : Int) : ∃ b, b ≠ a := ⟨a + 1, by omega⟩

theorem exists_ne_bool (a : Bool) : ∃ b, b ≠ a := ⟨!a, by cases a <;> decide⟩

theorem extractInt_eq_iff {json key : Bytes} {n : Int} :
    (∀ dflt, extractInt json key dflt = n) ↔ (landing json key).bind strtol = some n := by
  simp only [extractInt_eq, getD_eq_iff (exists_ne_int _)]

theorem extractBool_eq_iff {json key : Bytes} {b : Bool} :
    (∀ dflt, extractBool json key dflt = b) ↔ (landing json key).bind boolAt = some b := by
  simp only [extractBool_eq, getD_eq_iff (exists_ne_bool _)]

/-! ## A place that is sought -/

/-- The search stops at the member's colon. -/
theorem landing_of_sought {q : MemberPlace} {key : Bytes} (h : q.Sought key) (t : Bytes) :
    landing (q.text t) key = some (q.blanks ++ (t ++ q.back)) := by
  obtain ⟨-, a, gap, hfront, hpre, hnone, hgap⟩ := h
  have hfind := find_append (find_eq_some_iff.2 ⟨a, hfront, hpre, hnone⟩)
    (58 :: (q.blanks ++ (t ++ q.back)))
  show (find _ (q.front ++ 58 :: (q.blanks ++ (t ++ q.back)))).bind _ = _
  rw [hfind, Option.bind_some, find_single hgap]
  rfl

/-- The first colon of a needle stops the search inside of the needle. -/
theorem landing_of_colon {key k₁ k₂ : Bytes} (hkey : key = k₁ ++ 58 :: k₂) (hk : 58 ∉ k₁)
    (json : Bytes) :
    landing json key = none ∨ ∃ rest, landing json key = some (k₂ ++ 34 :: rest) := by
  unfold landing
  cases hfind : find (34 :: (key ++ [34])) json with
  | none => exact Or.inl rfl
  | some p =>
      obtain ⟨front, -, ⟨rest, rfl⟩, -⟩ := find_eq_some_iff.1 hfind
      have hsplit : 34 :: (key ++ [34]) ++ rest = (34 :: k₁) ++ 58 :: (k₂ ++ 34 :: rest) := by
        simp [hkey]
      have hquote : (58 : UInt8) ∉ 34 :: k₁ := fun hin => by
        rcases List.mem_cons.1 hin with hin | hin
        · exact absurd hin (by decide)
        · exact hk hin
      refine Or.inr ⟨rest, ?_⟩
      rw [Option.bind_some, hsplit, find_single hquote]
      rfl

/-- Where the member is not sought, what is written there does not matter. -/
theorem reads_constant {α : Type} {read : Bytes → Option α} (hstop : Stops read) {q : MemberPlace}
    {key : Bytes} (h : ¬ q.Sought key) :
    ∃ o : Option α, ∀ t, 34 ∉ t →
      (landing (q.text t) key).bind read = none ∨ (landing (q.text t) key).bind read = o := by
  by_cases hkey : (58 : UInt8) ∈ key
  · obtain ⟨k₁, k₂, hsplit, hk⟩ := List.eq_append_cons_of_mem hkey
    refine ⟨read k₂, fun t _ => ?_⟩
    rcases landing_of_colon hsplit hk (q.text t) with hland | ⟨rest, hland⟩
    · exact Or.inl (by rw [hland]; rfl)
    · exact Or.inr (by rw [hland, Option.bind_some, hstop 34 (Or.inr rfl)])
  cases hfind : find (34 :: (key ++ [34])) q.front with
  | some p =>
      obtain ⟨a, hfront, hpre, hnone⟩ := find_eq_some_iff.1 hfind
      by_cases hcolon : (58 : UInt8) ∈ p
      · -- another colon stands in front of the member's
        obtain ⟨gap, b, hp, hgap⟩ := List.eq_append_cons_of_mem hcolon
        refine ⟨read b, fun t _ => Or.inr ?_⟩
        have hland : landing (q.text t) key = some (b ++ 58 :: (q.blanks ++ (t ++ q.back))) := by
          have happend := find_append hfind (58 :: (q.blanks ++ (t ++ q.back)))
          rw [hp, List.append_assoc, List.cons_append] at happend
          show (find _ (q.front ++ 58 :: (q.blanks ++ (t ++ q.back)))).bind _ = _
          rw [happend, Option.bind_some, find_single hgap]
          rfl
        rw [hland, Option.bind_some, hstop 58 (Or.inl rfl)]
      · exact absurd ⟨hkey, a, p, hfront, hpre, hnone, hcolon⟩ h
  | none =>
      -- the search goes on behind the value
      refine ⟨(landing q.back key).bind read, fun t ht => Or.inr ?_⟩
      have hneedle : (58 : UInt8) ∉ 34 :: (key ++ [34]) := by
        simp only [List.mem_cons, List.mem_append, List.not_mem_nil, or_false, not_or]
        exact ⟨by decide, hkey, by decide⟩
      have hquote : (34 : UInt8) ∉ q.blanks ++ t := fun hin =>
        (List.mem_append.1 hin).elim (quote_not_mem_ws q.ws) ht
      have hskip := find_append_of_none hneedle (find_concat_of_none hneedle hfind)
        (q.blanks ++ (t ++ q.back))
      rw [← List.append_assoc q.blanks t q.back, find_skip hquote] at hskip
      unfold landing
      rw [← hskip, MemberPlace.text, List.append_assoc]

theorem isSpace_of_isWs {c : UInt8} (h : isWs c = true) : isSpace c = true := by
  simp only [isWs, Bool.or_eq_true, beq_iff_eq] at h
  rcases h with ((rfl | rfl) | rfl) | rfl
  · decide
  · decide
  · decide
  · decide

/-- The integer of a member, where its text stands. -/
theorem startsWithInt_of_integerOf {text w rest : Bytes} {v : Value} {n : Int}
    (hv : ValueText text v) (hn : integerOf v = some n) (hw : Ws w) (hrest : NumberEnds rest) :
    StartsWithInt (w ++ (text ++ rest)) n := by
  have hspace : ∀ c ∈ w, isSpace c = true := fun c hc => isSpace_of_isWs (hw c hc)
  have hends : ∀ c, rest.head? = some c → ContextFS.isDigit c = false := fun c hc => (hrest c hc).1
  cases hv with
  | num hnumber =>
      by_cases hminus : text.head? = some 45
      · simp only [integerOf, if_pos hminus] at hn
        split at hn
        · cases hn
        rename_i hds
        simp only [not_or, not_not, List.all_eq_true] at hds
        cases text with
        | nil => cases hminus
        | cons c ds =>
            obtain rfl : c = 45 := Option.some.inj hminus
            exact ⟨w, [45], ds, rest, rfl, hspace, Or.inr (Or.inr rfl), hds.1, hds.2, hends,
              (Option.some.inj hn).symm⟩
      · simp only [integerOf, if_neg hminus] at hn
        split at hn
        · cases hn
        rename_i hds
        simp only [not_or, not_not, List.all_eq_true] at hds
        exact ⟨w, [], text, rest, rfl, hspace, Or.inl rfl, hds.1, hds.2, hends,
          (Option.some.inj hn).symm⟩
  | str h => cases hn
  | yes => cases hn
  | no => cases hn
  | null => cases hn

/-- An integer is read exactly where the member is sought. -/
theorem readsInt_iff (q : MemberPlace) (key : Bytes) : q.ReadsInt key ↔ q.Sought key := by
  constructor
  · intro hreads
    by_contra hsought
    obtain ⟨o, ho⟩ := reads_constant stops_strtol hsought
    have hdigit : ∀ (c : UInt8) (n : Int), Number [c] → 34 ≠ c → integerOf (.num [c]) = some n →
        InLong n → o = some n := by
      intro c n hnumber hquote hinteger hlong
      have hread := extractInt_eq_iff.1 (hreads [c] (.num [c]) n (.num hnumber) hinteger hlong)
      rcases ho [c] (fun hin => hquote (List.mem_singleton.1 hin)) with hnone | hsome
      · rw [hnone] at hread
        cases hread
      · exact hsome.symm.trans hread
    have hone : IntPart [49] :=
      Or.inr ⟨⟨List.cons_ne_nil _ _, fun c hc => by rw [List.mem_singleton.1 hc]; decide⟩, by decide⟩
    have h₀ := hdigit 48 0 ⟨[], [48], [], [], rfl, Or.inl rfl, Or.inl rfl, Or.inl rfl, Or.inl rfl⟩
      (by decide) (by decide) (by decide)
    have h₁ := hdigit 49 1 ⟨[], [49], [], [], rfl, Or.inl rfl, hone, Or.inl rfl, Or.inl rfl⟩
      (by decide) (by decide) (by decide)
    exact absurd (Option.some.inj (h₀.symm.trans h₁)) (by decide)
  · intro hsought t v n hv hn hlong
    rw [extractInt_eq_iff, landing_of_sought hsought, Option.bind_some, strtol,
      strtolValue_iff.2 (startsWithInt_of_integerOf hv hn q.ws q.ends)]
    obtain ⟨hlow, hhigh⟩ := hlong
    show some (max longMin (min n longMax)) = some n
    exact congrArg some (by omega)

/-! ## What stands behind a member's colon -/

theorem boolAt_of_head {text rest : Bytes} {c : UInt8} (h : skipBlanks text = c :: rest)
    (htrue : c ≠ 116) (hfalse : c ≠ 102) : boolAt text = none := by
  have hyes : (c :: rest).take 4 ≠ litTrue := fun heq => htrue (List.cons.inj heq).1
  have hno : (c :: rest).take 5 ≠ litFalse := fun heq => hfalse (List.cons.inj heq).1
  unfold boolAt
  rw [h, ascii_literals.1, ascii_literals.2.1, if_neg hyes, if_neg hno]

/-- White space of JSON that is not only blanks and tabs hides what follows it. -/
theorem boolAt_of_not_blank {blanks rest : Bytes} (hws : Ws blanks)
    (h : ¬ ∀ c ∈ blanks, isBlank c = true) : boolAt (blanks ++ rest) = none := by
  induction blanks with
  | nil => exact absurd (fun c hc => (by cases hc)) h
  | cons c blanks ih =>
      by_cases hc : isBlank c = true
      · have hskip : skipBlanks (c :: blanks ++ rest) = skipBlanks (blanks ++ rest) :=
          List.dropWhile_cons_of_pos hc
        have hblanks : ¬ ∀ d ∈ blanks, isBlank d = true := fun hall => h fun d hd => by
          rcases List.mem_cons.1 hd with rfl | hd
          · exact hc
          · exact hall d hd
        have hnone := ih (fun d hd => hws d (List.mem_cons_of_mem _ hd)) hblanks
        unfold boolAt at hnone ⊢
        rw [hskip]
        exact hnone
      · have hskip : skipBlanks (c :: blanks ++ rest) = c :: (blanks ++ rest) :=
          List.dropWhile_cons_of_neg hc
        have hwhite := hws c List.mem_cons_self
        refine boolAt_of_head hskip ?_ ?_
        · rintro rfl
          exact absurd hwhite (by decide)
        · rintro rfl
          exact absurd hwhite (by decide)

/-- Behind a member's colon a boolean is read when it is the member's. -/
theorem boolAt_value {blanks t back : Bytes} {v : Value} {b : Bool} (hws : Ws blanks)
    (hv : ValueText t v) :
    boolAt (blanks ++ (t ++ back)) = some b ↔ v = .bool b ∧ ∀ c ∈ blanks, isBlank c = true := by
  by_cases hblanks : ∀ c ∈ blanks, isBlank c = true
  · have hlit : ∀ d : Bool, t = (if d = true then litTrue else litFalse) →
        boolAt (blanks ++ (t ++ back)) = some d := fun d ht =>
      boolAt_iff.2 ⟨blanks, back, by rw [ht], hblanks⟩
    have hother : ∀ (c : UInt8) (rest : Bytes), t = c :: rest → isBlank c = false → c ≠ 116 →
        c ≠ 102 → boolAt (blanks ++ (t ++ back)) = none := by
      intro c rest ht hc htrue hfalse
      have hskip : skipBlanks (blanks ++ (t ++ back)) = c :: (rest ++ back) := by
        unfold skipBlanks
        rw [ht, List.dropWhile_append_of_pos hblanks]
        exact List.dropWhile_cons_of_neg (by simp [hc])
      exact boolAt_of_head hskip htrue hfalse
    cases hv with
    | str h =>
        obtain ⟨body, ht, -⟩ := h
        rw [hother 34 _ ht (by decide) (by decide) (by decide)]
        simp
    | num h =>
        obtain ⟨c, rest, ht, hc⟩ := number_head h
        have hne : ∀ d : UInt8, d ≠ 45 → Json.isDigit d = false → c ≠ d := fun d =>
          ne_of_number_head hc
        have hblank : isBlank c = false := by
          simp [isBlank, hne 32 (by decide) (by decide), hne 9 (by decide) (by decide)]
        rw [hother c rest ht hblank (hne 116 (by decide) (by decide))
          (hne 102 (by decide) (by decide))]
        simp
    | yes =>
        rw [hlit true rfl]
        simpa using fun _ => hblanks
    | no =>
        rw [hlit false rfl]
        simpa using fun _ => hblanks
    | null =>
        rw [hother 110 _ rfl (by decide) (by decide) (by decide)]
        simp
  · rw [boolAt_of_not_blank hws hblanks]
    simp only [reduceCtorEq, false_iff, not_and]
    exact fun _ => hblanks

/-- No integer starts with this byte. -/
theorem strtolValue_of_head {w rest : Bytes} {c : UInt8} (hw : ∀ d ∈ w, isSpace d = true)
    (hspace : isSpace c = false) (hdigit : ContextFS.isDigit c = false) (hminus : c ≠ 45)
    (hplus : c ≠ 43) : strtolValue (w ++ c :: rest) = none := by
  have hdrop : (w ++ c :: rest).dropWhile isSpace = c :: rest :=
    dropSpaces_append hw fun d hd => by
      obtain rfl : c = d := Option.some.inj hd
      exact hspace
  have hsigned : signed (c :: rest) = false := by simp [signed, hminus, hplus]
  unfold strtolValue
  simp only [hdrop, hsigned, Bool.false_eq_true, if_false]
  rw [if_pos (List.takeWhile_cons_of_neg (by simp [hdigit]))]

/-- A number starts with an integer. -/
theorem startsWithInt_of_number {w t : Bytes} (hw : ∀ d ∈ w, isSpace d = true) (h : Number t)
    (back : Bytes) : ∃ n, StartsWithInt (w ++ (t ++ back)) n := by
  obtain ⟨minus, int, frac, exp, rfl, hminus, hint, -, -⟩ := h
  obtain ⟨c, ds, rfl, hc⟩ := intPart_head hint
  have hsplit := List.takeWhile_append_dropWhile (p := ContextFS.isDigit)
    (l := c :: ds ++ (frac ++ exp ++ back))
  have hne : (c :: ds ++ (frac ++ exp ++ back)).takeWhile ContextFS.isDigit ≠ [] := by
    rw [List.cons_append, List.takeWhile_cons_of_pos hc]
    exact List.cons_ne_nil _ _
  refine ⟨_, w, minus, (c :: ds ++ (frac ++ exp ++ back)).takeWhile ContextFS.isDigit,
    (c :: ds ++ (frac ++ exp ++ back)).dropWhile ContextFS.isDigit, ?_, hw, ?_, hne,
    fun d hd => List.mem_takeWhile_imp hd, fun d hd => ?_, rfl⟩
  · rw [hsplit]
    simp
  · rcases hminus with rfl | rfl
    · exact Or.inl rfl
    · exact Or.inr (Or.inr rfl)
  · have hnot := List.head?_dropWhile_not ContextFS.isDigit (c :: ds ++ (frac ++ exp ++ back))
    rw [hd] at hnot
    simpa using hnot

/-- Behind a member's colon an integer is read when the value is a number. -/
theorem strtol_value {blanks t back : Bytes} {v : Value} (hws : Ws blanks) (hv : ValueText t v) :
    strtol (blanks ++ (t ++ back)) ≠ none ↔ ∃ text, v = .num text := by
  have hspace : ∀ c ∈ blanks, isSpace c = true := fun c hc => isSpace_of_isWs (hws c hc)
  have hother : ∀ (c : UInt8) (rest : Bytes), t = c :: rest → isSpace c = false →
      ContextFS.isDigit c = false → c ≠ 45 → c ≠ 43 → strtol (blanks ++ (t ++ back)) = none := by
    intro c rest ht hc hdigit hminus hplus
    rw [strtol, ht, List.cons_append, strtolValue_of_head hspace hc hdigit hminus hplus]
    rfl
  cases hv with
  | str h =>
      obtain ⟨body, ht, -⟩ := h
      rw [hother 34 _ ht (by decide) (by decide) (by decide) (by decide)]
      simp
  | num h =>
      obtain ⟨n, hn⟩ := startsWithInt_of_number hspace h back
      rw [strtol, strtolValue_iff.2 hn]
      simp
  | yes =>
      rw [hother 116 _ rfl (by decide) (by decide) (by decide) (by decide)]
      simp
  | no =>
      rw [hother 102 _ rfl (by decide) (by decide) (by decide) (by decide)]
      simp
  | null =>
      rw [hother 110 _ rfl (by decide) (by decide) (by decide) (by decide)]
      simp

/-- A boolean is read exactly where the member is sought and has only blanks and tabs in front. -/
theorem readsBool_iff (q : MemberPlace) (key : Bytes) :
    q.ReadsBool key ↔ q.Sought key ∧ ∀ c ∈ q.blanks, isBlank c = true := by
  constructor
  · intro hreads
    have hread : ∀ {t b}, ValueText t (.bool b) → (landing (q.text t) key).bind boolAt = some b :=
      fun ht => extractBool_eq_iff.1 (hreads _ _ ht)
    have hsought : q.Sought key := by
      by_contra hsought
      obtain ⟨o, ho⟩ := reads_constant stops_boolAt hsought
      have hlit : ∀ {t b}, ValueText t (.bool b) → 34 ∉ t → o = some b := by
        intro t b ht hquote
        rcases ho t hquote with hnone | hsome
        · rw [hread ht] at hnone
          cases hnone
        · exact hsome.symm.trans (hread ht)
      have htrue := hlit .yes (by decide)
      have hfalse := hlit .no (by decide)
      exact absurd (Option.some.inj (htrue.symm.trans hfalse)) (by decide)
    refine ⟨hsought, ?_⟩
    have htrue := hread .yes
    rw [landing_of_sought hsought, Option.bind_some] at htrue
    exact ((boolAt_value q.ws .yes).1 htrue).2
  · rintro ⟨hsought, hblanks⟩ t b ht
    rw [extractBool_eq_iff, landing_of_sought hsought, Option.bind_some]
    exact (boolAt_value q.ws ht).2 ⟨rfl, hblanks⟩

/-! ## A name that no member has -/

/-- The default is returned exactly when the search stops at no colon with something to read. -/
theorem landing_bind_eq_none {α : Type} {read : Bytes → Option α} {json key : Bytes} :
    (landing json key).bind read = none ↔ ¬ ∃ behind, Leads json key behind ∧ read behind ≠ none := by
  simp only [Option.bind_eq_none_iff, landing_eq_some_iff, not_exists, not_and, not_not, ne_eq]

/-- What a colon in a string leads to ends with the string. -/
theorem read_of_stringColon {α : Type} {read : Bytes → Option α} (hstop : Stops read)
    {r : FlatObject} {behind tail : Bytes} (h : StringColon r behind tail) :
    read behind = read tail := by
  obtain ⟨pre, body, out, rest, -, rfl, -⟩ := h
  exact hstop 34 (Or.inr rfl) tail rest

theorem strtol_ne_none_iff {text : Bytes} : strtol text ≠ none ↔ ∃ m, StartsWithInt text m := by
  unfold strtol
  rw [ne_eq, Option.map_eq_none_iff, Option.eq_none_iff_forall_ne_some]
  simp only [ne_eq, not_forall, not_not, strtolValue_iff]

theorem boolAt_ne_none_iff {text : Bytes} : boolAt text ≠ none ↔ ∃ b, StartsWithBool text b := by
  rw [ne_eq, Option.eq_none_iff_forall_ne_some]
  simp only [ne_eq, not_forall, not_not, boolAt_iff]

/-- `extract_int` returns the default exactly when it meets no integer. -/
theorem extractInt_dflt_iff (r : FlatObject) (key : Bytes) :
    (∀ dflt, extractInt r.text key dflt = dflt) ↔ ¬ MeetsInt r key := by
  simp only [extractInt_eq, getD_eq_dflt_iff exists_ne_int, landing_bind_eq_none]
  refine not_congr (exists_congr fun behind => and_congr_right fun hleads => ?_)
  obtain ⟨front, gap, htext, -⟩ := hleads
  rw [← List.append_assoc] at htext
  constructor
  · intro hread
    rcases colon_cases r htext with ⟨blanks, v, hcolon⟩ | ⟨tail, hcolon⟩
    · have hplace := hcolon
      obtain ⟨q, t, hv, -, -, rfl, rfl⟩ := hplace
      obtain ⟨text, rfl⟩ := (strtol_value q.ws hv).1 hread
      exact Or.inl ⟨_, text, hcolon⟩
    · rw [read_of_stringColon stops_strtol hcolon] at hread
      obtain ⟨m, hm⟩ := strtol_ne_none_iff.1 hread
      exact Or.inr ⟨tail, m, hcolon, hm⟩
  · rintro (⟨blanks, text, q, t, hv, -, -, rfl, rfl⟩ | ⟨tail, m, hcolon, hm⟩)
    · exact (strtol_value q.ws hv).2 ⟨text, rfl⟩
    · rw [read_of_stringColon stops_strtol hcolon]
      exact strtol_ne_none_iff.2 ⟨m, hm⟩

/-- `extract_bool` returns the default exactly when it meets no boolean. -/
theorem extractBool_dflt_iff (r : FlatObject) (key : Bytes) :
    (∀ dflt, extractBool r.text key dflt = dflt) ↔ ¬ MeetsBool r key := by
  simp only [extractBool_eq, getD_eq_dflt_iff exists_ne_bool, landing_bind_eq_none]
  refine not_congr (exists_congr fun behind => and_congr_right fun hleads => ?_)
  obtain ⟨front, gap, htext, -⟩ := hleads
  rw [← List.append_assoc] at htext
  constructor
  · intro hread
    rcases colon_cases r htext with ⟨blanks, v, hcolon⟩ | ⟨tail, hcolon⟩
    · have hplace := hcolon
      obtain ⟨q, t, hv, -, -, rfl, rfl⟩ := hplace
      obtain ⟨b, hb⟩ := Option.ne_none_iff_exists'.1 hread
      obtain ⟨rfl, hblanks⟩ := (boolAt_value q.ws hv).1 hb
      exact Or.inl ⟨_, b, hcolon, hblanks⟩
    · rw [read_of_stringColon stops_boolAt hcolon] at hread
      obtain ⟨b, hb⟩ := boolAt_ne_none_iff.1 hread
      exact Or.inr ⟨tail, b, hcolon, hb⟩
  · rintro (⟨blanks, b, ⟨q, t, hv, -, -, rfl, rfl⟩, hblanks⟩ | ⟨tail, b, hcolon, hb⟩)
    · rw [(boolAt_value q.ws hv).2 ⟨rfl, hblanks⟩]
      exact Option.some_ne_none _
    · rw [read_of_stringColon stops_boolAt hcolon]
      exact boolAt_ne_none_iff.2 ⟨b, hb⟩

/-- The first member of a name has a place; whatever is written there is read exactly when the
place is sought, a boolean only over blanks and tabs; and where no member has the name, the default
is returned exactly when the search meets nothing to read. -/
theorem numberFields_iff (key : Bytes) :
    (∀ (r : FlatObject) (v : Value), firstMember r.members key = some v →
      ∃ (q : MemberPlace) (t : Bytes), q.IsFirst key ∧ ValueText t v ∧ r.text = q.text t ∧
        r.members = q.members v) ∧
    (∀ q : MemberPlace, q.IsFirst key →
      (q.ReadsInt key ↔ q.Sought key) ∧
      (q.ReadsBool key ↔ q.Sought key ∧ ∀ c ∈ q.blanks, isBlank c = true)) ∧
    ∀ r : FlatObject, firstMember r.members key = none →
      ((∀ dflt, extractInt r.text key dflt = dflt) ↔ ¬ MeetsInt r key) ∧
      ((∀ dflt, extractBool r.text key dflt = dflt) ↔ ¬ MeetsBool r key) :=
  ⟨fun _ _ => exists_firstPlace, fun q _ => ⟨readsInt_iff q key, readsBool_iff q key⟩,
    fun r _ => ⟨extractInt_dflt_iff r key, extractBool_dflt_iff r key⟩⟩

/-- An append with the payload `x`, but for its `sync`. -/
def syncPlace : MemberPlace where
  name := ascii "sync"
  front := 123 :: (printMember (ascii "payload", .str (ascii "x")) ++
    44 :: 34 :: (jsonEscape (ascii "sync") ++ [34]))
  blanks := [32]
  back := [125]
  before := [(ascii "payload", .str (ascii "x"))]
  after := []
  wf := fun t v hv => by
    have hblank : Ws [32] := fun c hc => by
      rw [List.mem_singleton.1 hc]
      decide
    have hpayload : MemberText _ (ascii "payload", Value.str (ascii "x")) :=
      memberText_print fun text htext => (by cases htext)
    refine ⟨[], _, [], ?_, ws_nil, .members ws_nil (.cons hpayload ws_nil ws_nil
      (.last (.mk (stringText_jsonEscape (ascii "sync")) ws_nil hblank hv) ws_nil)), ws_nil⟩
    simp
  ws := fun c hc => by
    rw [List.mem_singleton.1 hc]
    decide
  ends := numberEnds_brace []

/-- Both booleans of the append are read. -/
theorem numberFields_iff_sync : syncPlace.ReadsBool (ascii "sync") := by
  have hfind : find (34 :: (ascii "sync" ++ [34])) syncPlace.front = some (ascii "\"sync\"") := by
    decide +kernel
  obtain ⟨a, hfront, hpre, hnone⟩ := find_eq_some_iff.1 hfind
  refine (((numberFields_iff (ascii "sync")).2.1 syncPlace ⟨rfl, fun m hm => ?_⟩).2).2
    ⟨⟨by decide +kernel, a, _, hfront, hpre, hnone, by decide +kernel⟩, by decide +kernel⟩
  rw [List.mem_singleton.1 hm]
  decide +kernel

/-- A payload that is the word `sync` makes the next boolean the one of `sync`. -/
theorem numberFields_imitated : ¬ ∀ (r : FlatObject) (key : Bytes),
    ReadsOwnInt r key ∧ ReadsOwnBool r key := by
  intro h
  have hread := (h ⟨_, [(ascii "payload", .str (ascii "sync")), (ascii "boundary", .bool true)],
    documentText_print (fun m hm text htext => by
      simp only [List.mem_cons, List.not_mem_nil, or_false] at hm
      rcases hm with rfl | rfl
      · cases htext
      · cases htext)⟩ (ascii "sync")).2.2 (by decide +kernel) false
  exact absurd hread (by decide +kernel)

end ControlProtocol
end ContextFS
