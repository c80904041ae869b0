import ContextFS.Lib.Search
import ContextFS.Control.JsonText
import ContextFS.Control.Strtol

/-!
# Session and configuration files of a workspace

Both files are JSON objects that `workspace_cli` writes and reads itself.  The reader finds a key
by searching the text for its name in quotes, and takes an occurrence only behind a brace or a
comma and in front of a colon.  No value can imitate one: a quote inside a value is escaped, so
there is a backslash in front of it, and in front of the opening quote of a value is a colon.
But the reader has no case for the escape `\u` that the writer uses for most control bytes.
-/

namespace ContextFS
namespace Workspace

open Lib ControlProtocol

structure SessionState where
  name : Bytes := []
  pid : Int64 := -1
  root : Bytes := []
  source : Bytes := []
  mount : Bytes := []
  store : Bytes := []
  socket : Bytes := []
  log : Bytes := []
  telemetry : Bytes := []
  status : Bytes := []
  createdAt : Bytes := []
deriving DecidableEq

structure WorkspaceConfig where
  mountOverride : Bytes := []
  allowRoot : Bool := false
deriving DecidableEq

/-! ## Writing -/

/-- A string value; `json_escape` of this file is that of the control protocol. -/
def stringValue (text : Bytes) : Bytes := 34 :: (jsonEscape text ++ [34])

/-- One line of an object, without its end. -/
def fieldText (field : Bytes × Bytes) : Bytes := 32 :: 32 :: 34 :: (field.1 ++ 34 :: 58 :: field.2)

/-- The lines of an object, with a comma at the end of each but the last. -/
def fieldsText : List (Bytes × Bytes) → Bytes
  | [] => []
  | field :: fields => fieldText field ++ fields.flatMap fun field => 44 :: 10 :: fieldText field

def objectText (fields : List (Bytes × Bytes)) : Bytes :=
  123 :: 10 :: (fieldsText fields ++ [10, 125, 10])

def sessionFields (state : SessionState) : List (Bytes × Bytes) :=
  [(ascii "name", stringValue state.name),
    (ascii "pid", decimalInt state.pid.toInt),
    (ascii "root", stringValue state.root),
    (ascii "source", stringValue state.source),
    (ascii "mount", stringValue state.mount),
    (ascii "store", stringValue state.store),
    (ascii "socket", stringValue state.socket),
    (ascii "log", stringValue state.log),
    (ascii "telemetry", stringValue state.telemetry),
    (ascii "status", stringValue state.status),
    (ascii "created_at", stringValue state.createdAt)]

/-- `session_to_json`. -/
def sessionToJson (state : SessionState) : Bytes := objectText (sessionFields state)

def configFields (config : WorkspaceConfig) : List (Bytes × Bytes) :=
  [(ascii "mount_override", stringValue config.mountOverride),
    (ascii "allow_root", if config.allowRoot then ascii "true" else ascii "false")]

/-- `workspace_config_to_json`. -/
def workspaceConfigToJson (config : WorkspaceConfig) : Bytes := objectText (configFields config)

/-! ## Reading -/

/-- Whether a key may stand behind this text, which is given back to front: it is empty, or ends
with a brace or a comma and white space. -/
def keyPosition (before : Bytes) : Bool :=
  before.isEmpty ||
    ((skipJsonWs before).head? == some 123 || (skipJsonWs before).head? == some 44)

/-- The text behind a colon, perhaps after white space. -/
def colonBehind (text : Bytes) : Option Bytes :=
  match skipJsonWs text with
  | [] => none
  | c :: rest => if c = 58 then some rest else none

/-- The loop of `json_find_key`: every occurrence of the needle in turn. -/
def findKeyFrom (needle : Bytes) : Bytes → Bytes → Option Bytes
  | _, [] => none
  | before, c :: rest =>
      if needle.isPrefixOf (c :: rest) && keyPosition before &&
          (colonBehind ((c :: rest).drop needle.length)).isSome then
        colonBehind ((c :: rest).drop needle.length)
      else findKeyFrom needle (c :: before) rest

/-- `json_find_key`: the text behind the colon. -/
def jsonFindKey (json key : Bytes) : Option Bytes := findKeyFrom (34 :: (key ++ [34])) [] json

/-- The escapes that `json_get_string` knows. -/
def knownEscape (esc : UInt8) : Option UInt8 :=
  if esc = 34 ∨ esc = 92 then some esc
  else if esc = 110 then some 10
  else if esc = 114 then some 13
  else if esc = 116 then some 9
  else none

/-- The loop of `json_get_string`. -/
def readString (value : Bytes) : Bytes → Option Bytes
  | [] => none
  | c :: rest =>
      if c = 34 then some value
      else if c = 92 then
        match rest with
        | [] => none
        | esc :: rest =>
            match knownEscape esc with
            | none => none
            | some b => readString (value ++ [b]) rest
      else readString (value ++ [c]) rest

/-- `json_get_string`. -/
def jsonGetString (json key : Bytes) : Option Bytes := do
  let p ← jsonFindKey json key
  let p ← find [34] p
  readString [] p.tail

/-- `json_get_long`: a number out of range sets `errno`. -/
def jsonGetLong (json key : Bytes) : Option Int64 := do
  let p ← jsonFindKey json key
  let v ← strtolValue (skipBlanks p)
  if InLong v then some (Int64.ofInt v) else none

/-- `json_get_bool`. -/
def jsonGetBool (json key : Bytes) : Option Bool := do
  let p ← jsonFindKey json key
  if (skipBlanks p).take 4 = ascii "true" then some true
  else if (skipBlanks p).take 5 = ascii "false" then some false
  else none

/-- The fields of `parse_session_json`, all of them required. -/
def sessionOfJson (json : Bytes) : Option SessionState := do
  let name ← jsonGetString json (ascii "name")
  let pid ← jsonGetLong json (ascii "pid")
  let root ← jsonGetString json (ascii "root")
  let source ← jsonGetString json (ascii "source")
  let mount ← jsonGetString json (ascii "mount")
  let store ← jsonGetString json (ascii "store")
  let socket ← jsonGetString json (ascii "socket")
  let log ← jsonGetString json (ascii "log")
  let telemetry ← jsonGetString json (ascii "telemetry")
  let status ← jsonGetString json (ascii "status")
  let createdAt ← jsonGetString json (ascii "created_at")
  some ⟨name, pid, root, source, mount, store, socket, log, telemetry, status, createdAt⟩

/-- `parse_session_json`. -/
def parseSessionJson (json : Bytes) : Except String SessionState :=
  match sessionOfJson json with
  | some state => .ok state
  | none => .error "session.json is missing a required field"

/-- A field that may be missing, but has to parse where it is there. -/
def optionalField {α : Type} (json key : Bytes) (get : Bytes → Bytes → Option α) (default : α)
    (error : String) : Except String α :=
  if (jsonFindKey json key).isSome then
    match get json key with
    | some value => .ok value
    | none => .error error
  else .ok default

/-- `parse_workspace_config_json`. -/
def parseWorkspaceConfigJson (json : Bytes) : Except String WorkspaceConfig :=
  if (skipJsonWs json).head? ≠ some 123 then .error "workspace.json: expected JSON object"
  else if (skipJsonWs json.reverse).head? ≠ some 125 then
    .error "workspace.json: truncated or unterminated object"
  else do
    let mountOverride ← optionalField json (ascii "mount_override") jsonGetString []
      "workspace.json: malformed mount_override value"
    let allowRoot ← optionalField json (ascii "allow_root") jsonGetBool false
      "workspace.json: malformed allow_root value"
    .ok ⟨mountOverride, allowRoot⟩

/-! ## Finding a key -/

/-- A name without quotes that starts with nothing a value may be followed by, and no colon. -/
def GoodName (name : Bytes) : Prop :=
  34 ∉ name ∧ name ≠ [] ∧ name.head? ≠ some 58 ∧ name.head? ≠ some 44 ∧ name.head? ≠ some 10

instance (name : Bytes) : Decidable (GoodName name) := inferInstanceAs (Decidable (_ ∧ _))

/-- A string, or anything without quotes. -/
inductive RawValue : Bytes → Prop
  | string (text : Bytes) : RawValue (stringValue text)
  | scalar {raw : Bytes} (h : 34 ∉ raw) : RawValue raw

section Search

variable {key : Bytes}

theorem findKeyFrom_of_ne {c : UInt8} (hc : c ≠ 34) (before rest : Bytes) :
    findKeyFrom (34 :: (key ++ [34])) before (c :: rest) =
      findKeyFrom (34 :: (key ++ [34])) (c :: before) rest := by
  have hpre : (34 :: (key ++ [34])).isPrefixOf (c :: rest) = false := by
    rw [← Bool.not_eq_true, List.isPrefixOf_iff_prefix, List.cons_prefix_cons]
    exact fun h => hc h.1.symm
  rw [findKeyFrom, hpre]
  rfl

/-- No key starts at a quote in a wrong place. -/
theorem findKeyFrom_of_position {before : Bytes} (h : keyPosition before = false) (c : UInt8)
    (rest : Bytes) : findKeyFrom (34 :: (key ++ [34])) before (c :: rest) =
      findKeyFrom (34 :: (key ++ [34])) (c :: before) rest := by
  rw [findKeyFrom, h, Bool.and_false]
  rfl

/-- No key starts at a quote with the wrong byte behind. -/
theorem findKeyFrom_of_next (hkey : GoodName key) {c d : UInt8} (hd : key.head? ≠ some d)
    (before rest : Bytes) : findKeyFrom (34 :: (key ++ [34])) before (c :: d :: rest) =
      findKeyFrom (34 :: (key ++ [34])) (c :: before) (d :: rest) := by
  have hpre : (34 :: (key ++ [34])).isPrefixOf (c :: d :: rest) = false := by
    rw [← Bool.not_eq_true, List.isPrefixOf_iff_prefix, List.cons_prefix_cons]
    rintro ⟨-, h⟩
    cases key with
    | nil => exact hkey.2.1 rfl
    | cons k key =>
        rw [List.cons_append, List.cons_prefix_cons] at h
        exact hd (by rw [h.1]; rfl)
  rw [findKeyFrom, hpre]
  rfl

theorem findKeyFrom_skip {piece : Bytes} (h : 34 ∉ piece) (before rest : Bytes) :
    findKeyFrom (34 :: (key ++ [34])) before (piece ++ rest) =
      findKeyFrom (34 :: (key ++ [34])) (piece.reverse ++ before) rest := by
  induction piece generalizing before with
  | nil => rfl
  | cons c piece ih =>
      have hc : c ≠ 34 := fun hq => h (by rw [hq]; exact List.mem_cons_self)
      rw [List.cons_append, findKeyFrom_of_ne hc, ih fun hin => h (List.mem_cons_of_mem _ hin)]
      simp

theorem keyPosition_cons {c : UInt8} (hws : isJsonWs c = false) (before : Bytes) :
    keyPosition (c :: before) = (c == 123 || c == 44) := by
  have hskip : skipJsonWs (c :: before) = c :: before :=
    List.dropWhile_cons_of_neg (by simp [hws])
  rw [keyPosition, hskip]
  simp

theorem hexDigit_ne_quote : ∀ n < 16, hexDigit n ≠ 34 := by decide

/-- No key starts inside an escaped string. -/
theorem findKeyFrom_escapeByte (c : UInt8) (before rest : Bytes) :
    findKeyFrom (34 :: (key ++ [34])) before (escapeByte c ++ rest) =
      findKeyFrom (34 :: (key ++ [34])) ((escapeByte c).reverse ++ before) rest := by
  by_cases hquote : c = 34
  · have hesc : escapeByte c = [92, 34] := if_pos hquote
    rw [hesc]
    show findKeyFrom _ before (92 :: 34 :: rest) = _
    rw [findKeyFrom_of_ne (by decide), findKeyFrom_of_position]
    · rfl
    · rw [keyPosition_cons (by decide)]
      decide
  · refine findKeyFrom_skip ?_ before rest
    unfold escapeByte
    rw [if_neg hquote]
    split_ifs with hslash hnewline hreturn htab hlow
    · decide
    · decide
    · decide
    · decide
    · have hlt : c.toNat < 32 := hlow
      have hhigh := hexDigit_ne_quote (c.toNat / 16) (by omega)
      have hlast := hexDigit_ne_quote (c.toNat % 16) (by omega)
      simp [hhigh.symm, hlast.symm]
    · simpa using fun h => hquote h.symm

theorem findKeyFrom_jsonEscape (text before rest : Bytes) :
    findKeyFrom (34 :: (key ++ [34])) before (jsonEscape text ++ rest) =
      findKeyFrom (34 :: (key ++ [34])) ((jsonEscape text).reverse ++ before) rest := by
  induction text generalizing before with
  | nil => rfl
  | cons c text ih =>
      have hesc : jsonEscape (c :: text) = escapeByte c ++ jsonEscape text := rfl
      rw [hesc, List.append_assoc, findKeyFrom_escapeByte, ih]
      simp

/-- What stands behind a value. -/
def EndsValue (rest : Bytes) : Prop := ∃ d more, rest = d :: more ∧ (d = 44 ∨ d = 10)

/-- No key starts inside a value. -/
theorem findKeyFrom_raw (hkey : GoodName key) {raw : Bytes} (h : RawValue raw) {before rest : Bytes}
    (hrest : EndsValue rest) :
    findKeyFrom (34 :: (key ++ [34])) (58 :: before) (raw ++ rest) =
      findKeyFrom (34 :: (key ++ [34])) (raw.reverse ++ 58 :: before) rest := by
  cases h with
  | scalar hraw => exact findKeyFrom_skip hraw _ rest
  | string text =>
      obtain ⟨d, more, rfl, hd⟩ := hrest
      have hnext : key.head? ≠ some d := by
        rcases hd with rfl | rfl
        · exact hkey.2.2.2.1
        · exact hkey.2.2.2.2
      have hopen : keyPosition (58 :: before) = false := by
        rw [keyPosition_cons (by decide)]
        decide
      have hsplit : stringValue text ++ d :: more = 34 :: (jsonEscape text ++ 34 :: d :: more) := by
        simp [stringValue]
      rw [hsplit, findKeyFrom_of_position hopen, findKeyFrom_jsonEscape,
        findKeyFrom_of_next hkey hnext]
      simp [stringValue]

/-- Behind the brace, or behind a comma, at the start of a line. -/
def LineStart (before : Bytes) : Prop := ∃ more, before = 10 :: 44 :: more ∨ before = 10 :: 123 :: more

theorem keyPosition_of_lineStart {before : Bytes} (h : LineStart before) :
    keyPosition (32 :: 32 :: before) = true := by
  obtain ⟨more, rfl | rfl⟩ := h
  · rfl
  · rfl

theorem takeWhile_to_quote {name : Bytes} (h : 34 ∉ name) (rest : Bytes) :
    (name ++ 34 :: rest).takeWhile (· != 34) = name := by
  rw [List.takeWhile_append_of_pos fun c hc => by
    rw [bne_iff_ne]
    rintro rfl
    exact h hc]
  simp

/-- A quoted name is the needle only if it is the key. -/
theorem isPrefixOf_name {name : Bytes} (hkey : 34 ∉ key) (hname : 34 ∉ name) (rest : Bytes) :
    (34 :: (key ++ [34])).isPrefixOf (34 :: (name ++ 34 :: rest)) = true ↔ name = key := by
  rw [List.isPrefixOf_iff_prefix]
  constructor
  · rintro ⟨more, hmore⟩
    rw [List.cons_append, List.append_assoc] at hmore
    have htext := (List.cons.inj hmore).2
    have htake := congrArg (List.takeWhile (· != 34)) htext
    rw [takeWhile_to_quote hname] at htake
    exact htake.symm.trans (takeWhile_to_quote hkey _)
  · rintro rfl
    exact ⟨rest, by simp⟩

/-- A field is found under its name, and passed under any other key. -/
theorem findKeyFrom_field (hkey : GoodName key) {field : Bytes × Bytes} (hname : GoodName field.1)
    (hraw : RawValue field.2) {before rest : Bytes} (hbefore : LineStart before)
    (hrest : EndsValue rest) :
    findKeyFrom (34 :: (key ++ [34])) before (fieldText field ++ rest) =
      if field.1 = key then some (field.2 ++ rest)
      else findKeyFrom (34 :: (key ++ [34])) ((fieldText field).reverse ++ before) rest := by
  obtain ⟨name, raw⟩ := field
  have hsplit : fieldText (name, raw) ++ rest =
      32 :: 32 :: 34 :: (name ++ 34 :: 58 :: (raw ++ rest)) := by simp [fieldText]
  have hposition := keyPosition_of_lineStart hbefore
  rw [hsplit, findKeyFrom_of_ne (by decide), findKeyFrom_of_ne (by decide)]
  split
  · rename_i heq
    change name = key at heq
    subst heq
    have hpre : (34 :: (name ++ [34])).isPrefixOf (34 :: (name ++ 34 :: 58 :: (raw ++ rest))) =
        true := (isPrefixOf_name hkey.1 hname.1 _).2 rfl
    have hdrop : (34 :: (name ++ 34 :: 58 :: (raw ++ rest))).drop (34 :: (name ++ [34])).length =
        58 :: (raw ++ rest) := by
      simp [List.drop_append]
    have hcolon : colonBehind (58 :: (raw ++ rest)) = some (raw ++ rest) := rfl
    rw [findKeyFrom, hpre, hposition, hdrop, hcolon]
    rfl
  · rename_i hne
    change ¬ name = key at hne
    have hpre : (34 :: (key ++ [34])).isPrefixOf (34 :: (name ++ 34 :: 58 :: (raw ++ rest))) =
        false := by
      rw [← Bool.not_eq_true, isPrefixOf_name hkey.1 hname.1]
      exact hne
    rw [findKeyFrom, hpre]
    show findKeyFrom _ (34 :: 32 :: 32 :: before) (name ++ 34 :: 58 :: (raw ++ rest)) = _
    rw [findKeyFrom_skip hname.1, findKeyFrom_of_next hkey hkey.2.2.1,
      findKeyFrom_of_ne (by decide), findKeyFrom_raw hkey hraw hrest]
    simp [fieldText]

/-- The key of an object leads to the value of its first field of that name. -/
theorem jsonFindKey_objectText (hkey : GoodName key) {fields : List (Bytes × Bytes)}
    (hfields : ∀ field ∈ fields, GoodName field.1 ∧ RawValue field.2) {field : Bytes × Bytes}
    (hfield : fields.find? (fun field => field.1 == key) = some field) :
    ∃ rest, EndsValue rest ∧ jsonFindKey (objectText fields) key = some (field.2 ++ rest) := by
  -- after the first field each stands on a line of its own
  have hlines : ∀ (lines : List (Bytes × Bytes)) (before : Bytes),
      (∀ line ∈ lines, GoodName line.1 ∧ RawValue line.2) →
      lines.find? (fun line => line.1 == key) = some field →
      ∃ rest, EndsValue rest ∧ findKeyFrom (34 :: (key ++ [34])) before
        ((lines.flatMap fun line => 44 :: 10 :: fieldText line) ++ [10, 125, 10]) =
          some (field.2 ++ rest) := by
    intro lines
    induction lines with
    | nil =>
        intro before _ hfind
        cases hfind
    | cons line lines ih =>
        intro before hgood hfind
        obtain ⟨hname, hraw⟩ := hgood line List.mem_cons_self
        have hrest : EndsValue ((lines.flatMap fun line => 44 :: 10 :: fieldText line) ++
            [10, 125, 10]) := by
          cases lines with
          | nil => exact ⟨10, _, rfl, Or.inr rfl⟩
          | cons next lines => exact ⟨44, _, rfl, Or.inl rfl⟩
        have hsplit : ((line :: lines).flatMap fun line => 44 :: 10 :: fieldText line) ++
            [10, 125, 10] = 44 :: 10 :: (fieldText line ++
              ((lines.flatMap fun line => 44 :: 10 :: fieldText line) ++ [10, 125, 10])) := by simp
        rw [hsplit, findKeyFrom_of_ne (by decide), findKeyFrom_of_ne (by decide),
          findKeyFrom_field hkey hname hraw ⟨before, Or.inl rfl⟩ hrest]
        rw [List.find?_cons] at hfind
        by_cases hline : line.1 = key
        · rw [beq_iff_eq.2 hline] at hfind
          cases hfind
          rw [if_pos hline]
          exact ⟨_, hrest, rfl⟩
        · rw [beq_eq_false_iff_ne.2 hline] at hfind
          rw [if_neg hline]
          exact ih _ (fun other hother => hgood other (List.mem_cons_of_mem _ hother)) hfind
  cases fields with
  | nil => cases hfield
  | cons first lines =>
      obtain ⟨hname, hraw⟩ := hfields first List.mem_cons_self
      have hrest : EndsValue ((lines.flatMap fun line => 44 :: 10 :: fieldText line) ++
          [10, 125, 10]) := by
        cases lines with
        | nil => exact ⟨10, _, rfl, Or.inr rfl⟩
        | cons next lines => exact ⟨44, _, rfl, Or.inl rfl⟩
      rw [jsonFindKey, objectText, fieldsText, List.append_assoc, findKeyFrom_of_ne (by decide),
        findKeyFrom_of_ne (by decide), findKeyFrom_field hkey hname hraw ⟨[], Or.inr rfl⟩ hrest]
      rw [List.find?_cons] at hfield
      by_cases hfirst : first.1 = key
      · rw [beq_iff_eq.2 hfirst] at hfield
        cases hfield
        rw [if_pos hfirst]
        exact ⟨_, hrest, rfl⟩
      · rw [beq_eq_false_iff_ne.2 hfirst] at hfield
        rw [if_neg hfirst]
        exact hlines lines _ (fun other hother => hfields other (List.mem_cons_of_mem _ hother))
          hfield

end Search

/-! ## Reading a value -/

/-- Text whose control bytes the reader knows. -/
def Covered (text : Bytes) : Prop := ∀ c ∈ text, ¬ c < 32 ∨ c = 9 ∨ c = 10 ∨ c = 13

instance (text : Bytes) : Decidable (Covered text) := inferInstanceAs (Decidable (∀ _ ∈ _, _))

theorem readString_escape {esc b : UInt8} (h : knownEscape esc = some b) (value rest : Bytes) :
    readString value (92 :: esc :: rest) = readString (value ++ [b]) rest := by
  rw [readString.eq_def]
  refine (if_neg (by decide)).trans ((if_pos rfl).trans ?_)
  simp only [h]

theorem readString_unknown {esc : UInt8} (h : knownEscape esc = none) (value rest : Bytes) :
    readString value (92 :: esc :: rest) = none := by
  rw [readString.eq_def]
  refine (if_neg (by decide)).trans ((if_pos rfl).trans ?_)
  simp only [h]

theorem readString_quote (value rest : Bytes) : readString value (34 :: rest) = some value := by
  rw [readString.eq_def]
  exact if_pos rfl

theorem readString_plain {c : UInt8} (hquote : c ≠ 34) (hslash : c ≠ 92) (value rest : Bytes) :
    readString value (c :: rest) = readString (value ++ [c]) rest := by
  rw [readString.eq_def]
  exact (if_neg hquote).trans (if_neg hslash)

theorem readString_covered {c : UInt8} (hc : ¬ c < 32 ∨ c = 9 ∨ c = 10 ∨ c = 13)
    (value rest : Bytes) :
    readString value (escapeByte c ++ rest) = readString (value ++ [c]) rest := by
  unfold escapeByte
  split_ifs with hquote hslash hnewline hreturn htab hlow
  · subst hquote
    exact readString_escape (by decide) value rest
  · subst hslash
    exact readString_escape (by decide) value rest
  · subst hnewline
    exact readString_escape (by decide) value rest
  · subst hreturn
    exact readString_escape (by decide) value rest
  · subst htab
    exact readString_escape (by decide) value rest
  · rcases hc with hc | hc | hc | hc
    · exact absurd hlow hc
    · exact absurd hc htab
    · exact absurd hc hnewline
    · exact absurd hc hreturn
  · exact readString_plain hquote hslash value rest

theorem readString_control {c : UInt8} (hc : ¬ (¬ c < 32 ∨ c = 9 ∨ c = 10 ∨ c = 13))
    (value rest : Bytes) : readString value (escapeByte c ++ rest) = none := by
  simp only [not_or, not_not] at hc
  obtain ⟨hlow, htab, hnewline, hreturn⟩ := hc
  have hquote : c ≠ 34 := by
    rintro rfl
    exact absurd hlow (by decide)
  have hslash : c ≠ 92 := by
    rintro rfl
    exact absurd hlow (by decide)
  unfold escapeByte
  rw [if_neg hquote, if_neg hslash, if_neg hnewline, if_neg hreturn, if_neg htab, if_pos hlow]
  exact readString_unknown (by decide) value _

theorem readString_jsonEscape (text value rest : Bytes) :
    readString value (jsonEscape text ++ 34 :: rest) =
      if Covered text then some (value ++ text) else none := by
  induction text generalizing value with
  | nil =>
      have hnil : Covered [] := fun c hc => (by cases hc)
      rw [if_pos hnil, List.append_nil]
      exact readString_quote value rest
  | cons c text ih =>
      have hesc : jsonEscape (c :: text) = escapeByte c ++ jsonEscape text := rfl
      have hsplit : Covered (c :: text) ↔
          (¬ c < 32 ∨ c = 9 ∨ c = 10 ∨ c = 13) ∧ Covered text := List.forall_mem_cons
      rw [hesc, List.append_assoc]
      by_cases hc : ¬ c < 32 ∨ c = 9 ∨ c = 10 ∨ c = 13
      · rw [readString_covered hc, ih]
        simp only [hsplit, hc, true_and, List.append_assoc, List.cons_append, List.nil_append]
      · rw [readString_control hc, if_neg fun h => hc (hsplit.1 h).1]

section Get

variable {fields : List (Bytes × Bytes)} {key : Bytes}

theorem jsonGetString_objectText (hkey : GoodName key)
    (hfields : ∀ field ∈ fields, GoodName field.1 ∧ RawValue field.2) {text : Bytes}
    (hfield : fields.find? (fun field => field.1 == key) = some (key, stringValue text)) :
    jsonGetString (objectText fields) key = if Covered text then some text else none := by
  obtain ⟨rest, -, hfind⟩ := jsonFindKey_objectText hkey hfields hfield
  have hsplit : stringValue text ++ rest = 34 :: (jsonEscape text ++ 34 :: rest) := by
    simp [stringValue]
  have hopen : find [34] (34 :: (jsonEscape text ++ 34 :: rest)) =
      some (34 :: (jsonEscape text ++ 34 :: rest)) :=
    find_single (show (34 : UInt8) ∉ ([] : Bytes) by simp) _
  rw [jsonGetString, hfind]
  simp only [Option.bind_eq_bind, Option.bind_some]
  rw [hsplit, hopen]
  exact readString_jsonEscape text [] rest

theorem jsonGetLong_objectText (hkey : GoodName key)
    (hfields : ∀ field ∈ fields, GoodName field.1 ∧ RawValue field.2) {n : Int64}
    (hfield : fields.find? (fun field => field.1 == key) = some (key, decimalInt n.toInt)) :
    jsonGetLong (objectText fields) key = some n := by
  obtain ⟨rest, ⟨d, more, rfl, hd⟩, hfind⟩ := jsonFindKey_objectText hkey hfields hfield
  have hends : ∀ c, (d :: more).head? = some c → isDigit c = false := by
    rintro c ⟨⟩
    rcases hd with rfl | rfl
    · decide
    · decide
  have hblank : skipBlanks (decimalInt n.toInt ++ d :: more) = decimalInt n.toInt ++ d :: more := by
    obtain ⟨c, digits, hdec, hspace, -, -⟩ := decimal_head n.toInt.natAbs
    unfold decimalInt
    split
    · rfl
    · rw [hdec]
      refine List.dropWhile_cons_of_neg ?_
      simp only [isSpace, Bool.or_eq_false_iff, beq_eq_false_iff_ne] at hspace
      simp only [isBlank, Bool.or_eq_true, beq_iff_eq, not_or]
      refine ⟨hspace.1, ?_⟩
      rintro rfl
      exact absurd hspace.2 (by decide)
  have hlong : InLong n.toInt := by
    have hlow := n.le_toInt
    have hhigh := n.toInt_lt
    unfold InLong longMin longMax
    omega
  rw [jsonGetLong, hfind]
  simp only [Option.bind_eq_bind, Option.bind_some, hblank, strtolValue_decimalInt n.toInt hends]
  rw [if_pos hlong, Int64.ofInt_toInt]

theorem jsonGetBool_objectText (hkey : GoodName key)
    (hfields : ∀ field ∈ fields, GoodName field.1 ∧ RawValue field.2) {b : Bool}
    (hfield : fields.find? (fun field => field.1 == key) =
      some (key, if b then ascii "true" else ascii "false")) :
    jsonGetBool (objectText fields) key = some b := by
  obtain ⟨rest, -, hfind⟩ := jsonFindKey_objectText hkey hfields hfield
  have htrue : ascii "true" = [116, 114, 117, 101] := by decide +kernel
  have hfalse : ascii "false" = [102, 97, 108, 115, 101] := by decide +kernel
  rw [jsonGetBool, hfind, htrue, hfalse]
  cases b with
  | true => rfl
  | false => rfl

end Get

/-! ## The two files -/

theorem rawValue_decimalInt (n : Int) : RawValue (decimalInt n) := by
  have hdecimal : 34 ∉ decimal n.natAbs := fun h =>
    absurd (decimal_digits n.natAbs 34 h) (by decide)
  refine .scalar ?_
  unfold decimalInt
  split
  · intro h
    rcases List.mem_cons.1 h with h | h
    · exact absurd h (by decide)
    · exact hdecimal h
  · exact hdecimal

/-- The keys of both files. -/
theorem goodName_keys : ∀ key ∈ ["name", "pid", "root", "source", "mount", "store", "socket", "log",
    "telemetry", "status", "created_at", "mount_override", "allow_root"], GoodName (ascii key) := by
  decide +kernel

theorem sessionFields_good (state : SessionState) :
    ∀ field ∈ sessionFields state, GoodName field.1 ∧ RawValue field.2 := by
  intro field hfield
  simp only [sessionFields, List.mem_cons, List.not_mem_nil, or_false] at hfield
  rcases hfield with rfl | rfl | rfl | rfl | rfl | rfl | rfl | rfl | rfl | rfl | rfl
  · exact ⟨goodName_keys "name" (by simp), .string _⟩
  · exact ⟨goodName_keys "pid" (by simp), rawValue_decimalInt _⟩
  · exact ⟨goodName_keys "root" (by simp), .string _⟩
  · exact ⟨goodName_keys "source" (by simp), .string _⟩
  · exact ⟨goodName_keys "mount" (by simp), .string _⟩
  · exact ⟨goodName_keys "store" (by simp), .string _⟩
  · exact ⟨goodName_keys "socket" (by simp), .string _⟩
  · exact ⟨goodName_keys "log" (by simp), .string _⟩
  · exact ⟨goodName_keys "telemetry" (by simp), .string _⟩
  · exact ⟨goodName_keys "status" (by simp), .string _⟩
  · exact ⟨goodName_keys "created_at" (by simp), .string _⟩

/-- The texts of a session. -/
def SessionState.texts (state : SessionState) : List Bytes :=
  [state.name, state.root, state.source, state.mount, state.store, state.socket, state.log,
    state.telemetry, state.status, state.createdAt]

theorem bind_covered {α : Type} (text : Bytes) (f : Bytes → Option α) :
    (if Covered text then some text else none).bind f =
      if Covered text then f text else none := by
  split
  · rfl
  · rfl

/-- A session file is read as the session it was written from, or not at all. -/
theorem sessionOfJson_eq (state : SessionState) :
    sessionOfJson (sessionToJson state) =
      if ∀ text ∈ state.texts, Covered text then some state else none := by
  have hget : ∀ key text, GoodName key → (sessionFields state).find? (fun f => f.1 == key) =
      some (key, stringValue text) →
      jsonGetString (sessionToJson state) key = if Covered text then some text else none :=
    fun key text hkey hfield => jsonGetString_objectText hkey (sessionFields_good state) hfield
  have hpid : jsonGetLong (sessionToJson state) (ascii "pid") = some state.pid :=
    jsonGetLong_objectText (goodName_keys "pid" (by simp)) (sessionFields_good state)
      (by simp [sessionFields])
  rw [sessionOfJson, hpid,
    hget (ascii "name") state.name (goodName_keys "name" (by simp)) (by simp [sessionFields]),
    hget (ascii "root") state.root (goodName_keys "root" (by simp)) (by simp [sessionFields]),
    hget (ascii "source") state.source (goodName_keys "source" (by simp)) (by simp [sessionFields]),
    hget (ascii "mount") state.mount (goodName_keys "mount" (by simp)) (by simp [sessionFields]),
    hget (ascii "store") state.store (goodName_keys "store" (by simp)) (by simp [sessionFields]),
    hget (ascii "socket") state.socket (goodName_keys "socket" (by simp)) (by simp [sessionFields]),
    hget (ascii "log") state.log (goodName_keys "log" (by simp)) (by simp [sessionFields]),
    hget (ascii "telemetry") state.telemetry (goodName_keys "telemetry" (by simp))
      (by simp [sessionFields]),
    hget (ascii "status") state.status (goodName_keys "status" (by simp)) (by simp [sessionFields]),
    hget (ascii "created_at") state.createdAt (goodName_keys "created_at" (by simp))
      (by simp [sessionFields])]
  simp only [SessionState.texts, List.forall_mem_cons, List.not_mem_nil, false_imp_iff,
    implies_true, and_true, Option.bind_eq_bind, Option.bind_some, bind_covered, ite_and]

/-- A configuration file is read as the configuration it was written from, or its mount is
malformed. -/
theorem parseWorkspaceConfigJson_eq (config : WorkspaceConfig) :
    parseWorkspaceConfigJson (workspaceConfigToJson config) =
      if Covered config.mountOverride then .ok config
      else .error "workspace.json: malformed mount_override value" := by
  have hgood : ∀ field ∈ configFields config, GoodName field.1 ∧ RawValue field.2 := by
    intro field hfield
    simp only [configFields, List.mem_cons, List.not_mem_nil, or_false] at hfield
    rcases hfield with rfl | rfl
    · exact ⟨goodName_keys "mount_override" (by simp), .string _⟩
    · refine ⟨goodName_keys "allow_root" (by simp), .scalar ?_⟩
      show (34 : UInt8) ∉ if config.allowRoot then ascii "true" else ascii "false"
      split
      · decide +kernel
      · decide +kernel
  have hmount := goodName_keys "mount_override" (by simp)
  have hallow := goodName_keys "allow_root" (by simp)
  have hmountField : (configFields config).find? (fun f => f.1 == ascii "mount_override") =
      some (ascii "mount_override", stringValue config.mountOverride) := by simp [configFields]
  have hallowField : (configFields config).find? (fun f => f.1 == ascii "allow_root") =
      some (ascii "allow_root", if config.allowRoot then ascii "true" else ascii "false") := by
    simp [configFields]
  obtain ⟨rest, -, hfindMount⟩ := jsonFindKey_objectText hmount hgood hmountField
  obtain ⟨rest', -, hfindAllow⟩ := jsonFindKey_objectText hallow hgood hallowField
  have hgetMount := jsonGetString_objectText hmount hgood hmountField
  have hgetAllow := jsonGetBool_objectText hallow hgood hallowField
  have hopen : (skipJsonWs (objectText (configFields config))).head? = some 123 := rfl
  have hclose : (skipJsonWs (objectText (configFields config)).reverse).head? = some 125 := by
    have hreverse : (objectText (configFields config)).reverse =
        10 :: 125 :: 10 :: (123 :: 10 :: fieldsText (configFields config)).reverse := by
      simp [objectText]
    rw [hreverse]
    rfl
  unfold parseWorkspaceConfigJson workspaceConfigToJson
  rw [if_neg (not_not.2 hopen), if_neg (not_not.2 hclose), optionalField, optionalField,
    hfindMount, hfindAllow, hgetMount, hgetAllow]
  by_cases hcovered : Covered config.mountOverride
  · rw [if_pos hcovered, if_pos hcovered]
    rfl
  · rw [if_neg hcovered, if_neg hcovered]
    rfl

/-- Both files are read as what they were written from exactly when every control byte in the
texts is a tab, a line feed or a carriage return. -/
theorem workspaceFiles_roundTrip_iff (state : SessionState) (config : WorkspaceConfig) :
    (parseSessionJson (sessionToJson state) = .ok state ↔ ∀ text ∈ state.texts, Covered text) ∧
      (parseWorkspaceConfigJson (workspaceConfigToJson config) = .ok config ↔
        Covered config.mountOverride) := by
  constructor
  · rw [parseSessionJson, sessionOfJson_eq]
    split_ifs with h
    · exact iff_of_true rfl h
    · exact iff_of_false (fun h' => (by cases h')) h
  · rw [parseWorkspaceConfigJson_eq]
    split_ifs with h
    · exact iff_of_true rfl h
    · exact iff_of_false (fun h' => (by cases h')) h

/-- A session whose source directory has the byte 1 in its name cannot be read again. -/
theorem workspaceFiles_not_roundTrip :
    ¬ ((∀ state : SessionState, (∀ text ∈ state.texts, (0 : UInt8) ∉ text) →
        parseSessionJson (sessionToJson state) = .ok state) ∧
      ∀ config : WorkspaceConfig, (0 : UInt8) ∉ config.mountOverride →
        parseWorkspaceConfigJson (workspaceConfigToJson config) = .ok config) := by
  rintro ⟨h, -⟩
  have hread := h { source := [47, 1] } (by decide)
  have hfails : sessionOfJson (sessionToJson { source := [47, 1] }) = none := by decide +kernel
  rw [parseSessionJson, hfails] at hread
  cases hread

end Workspace
end ContextFS
