import ContextFS.Control.Documents
import ContextFS.Lib.Lines
import ContextFS.Telemetry.Event

/-!
# The telemetry log

Events are appended to a file, one JSON object and a newline each.  Paths, backend names and the
extra pairs are any bytes.  The writer holds a mutex, so the calls of all threads come one after
the other.  What is written to the stream is taken to arrive in the file.
-/

namespace ContextFS

open Lib ControlProtocol

/-- `optype_to_string`. -/
def optypeToString : OpType → Bytes
  | .read => ascii "read"
  | .write => ascii "write"
  | .open => ascii "open"
  | .close => ascii "close"
  | .unlink => ascii "unlink"
  | .rename => ascii "rename"
  | .truncate => ascii "truncate"
  | .stat => ascii "stat"
  | .exec => ascii "exec"
  | .create => ascii "create"

/-- `verdict_to_string`. -/
def verdictToString : Verdict → Bytes
  | .allow => ascii "allow"
  | .softWatch => ascii "soft_watch"
  | .deny => ascii "deny"

/-- `append_json_key`. -/
def jsonKey (key : String) : Bytes := 34 :: (ascii key ++ [34, 58])

/-- `append_comma_key`. -/
def commaKey (key : String) : Bytes := 44 :: jsonKey key

/-- The pairs of `extra`; `append_json_string` is `quoted`. -/
def extraPairs : List (Bytes × Bytes) → Bytes
  | [] => []
  | pair :: pairs =>
      quoted pair.1 ++ 58 :: quoted pair.2 ++
        pairs.flatMap fun pair => 44 :: (quoted pair.1 ++ 58 :: quoted pair.2)

/-- The member `extra`, which is left out when it is empty. -/
def extraText (extra : List (Bytes × Bytes)) : Bytes :=
  if extra = [] then [] else commaKey "extra" ++ 123 :: (extraPairs extra ++ [125])

/-- `event_to_json`. -/
def eventToJson (ev : TelemetryEvent) : Bytes :=
  123 ::
    (jsonKey "ts" ++ decimal ev.timestampNs.toNat ++
    (commaKey "session_id" ++ decimal ev.sessionId.toNat ++
    (commaKey "branch_id" ++ decimal ev.branchId.toNat ++
    (commaKey "policy_version" ++ decimal ev.policyVersion.toNat ++
    (commaKey "op" ++ quoted (optypeToString ev.op) ++
    (commaKey "verdict" ++ quoted (verdictToString ev.verdict) ++
    (commaKey "dev" ++ decimal ev.dev.toNat ++
    (commaKey "ino" ++ decimal ev.ino.toNat ++
    (commaKey "i_generation" ++ decimal ev.iGeneration.toNat ++
    (commaKey "path" ++ quoted ev.path ++
    (commaKey "pid" ++ decimal ev.pid.toNat ++
    (commaKey "uid" ++ decimal ev.uid.toNat ++
    (commaKey "gid" ++ decimal ev.gid.toNat ++
    (commaKey "bytes" ++ decimal ev.bytes.toNat ++
    (commaKey "latency_ns" ++ decimal ev.latencyNs.toNat ++
    (commaKey "backend" ++ quoted ev.backend ++
    (extraText ev.extra ++ [125])))))))))))))))))

/-! ## One event -/

/-- The object that an event is written as. -/
def TelemetryEvent.members (ev : TelemetryEvent) : List (Bytes × Document) :=
  [(ascii "ts", .number ev.timestampNs.toNat),
    (ascii "session_id", .number ev.sessionId.toNat),
    (ascii "branch_id", .number ev.branchId.toNat),
    (ascii "policy_version", .number ev.policyVersion.toNat),
    (ascii "op", .text (optypeToString ev.op)),
    (ascii "verdict", .text (verdictToString ev.verdict)),
    (ascii "dev", .number ev.dev.toNat),
    (ascii "ino", .number ev.ino.toNat),
    (ascii "i_generation", .number ev.iGeneration.toNat),
    (ascii "path", .text ev.path),
    (ascii "pid", .number ev.pid.toNat),
    (ascii "uid", .number ev.uid.toNat),
    (ascii "gid", .number ev.gid.toNat),
    (ascii "bytes", .number ev.bytes.toNat),
    (ascii "latency_ns", .number ev.latencyNs.toNat),
    (ascii "backend", .text ev.backend)] ++
  if ev.extra = [] then []
  else [(ascii "extra", .object (ev.extra.map fun pair => (pair.1, .text pair.2)))]

theorem quoted_ascii {key : String} (h : jsonEscape (ascii key) = ascii key) :
    quoted (ascii key) ++ [58] = jsonKey key := by
  simp [quoted, jsonKey, h]

open Document in
/-- A number behind other members. -/
theorem printMoreMembers_number {key : String} (h : jsonEscape (ascii key) = ascii key) (n : Nat)
    (ms : List (Bytes × Document)) :
    printMoreMembers ((ascii key, .number n) :: ms) =
      commaKey key ++ decimal n ++ printMoreMembers ms := by
  rw [printMoreMembers, print, decimalInt_natCast, commaKey, ← quoted_ascii h]
  simp

open Document in
/-- A text behind other members. -/
theorem printMoreMembers_text {key : String} (h : jsonEscape (ascii key) = ascii key) (s : Bytes)
    (ms : List (Bytes × Document)) :
    printMoreMembers ((ascii key, .text s) :: ms) =
      commaKey key ++ quoted s ++ printMoreMembers ms := by
  rw [printMoreMembers, print, commaKey, ← quoted_ascii h]
  simp

open Document in
theorem printMembers_extra (extra : List (Bytes × Bytes)) :
    Document.printMembers (extra.map fun pair => (pair.1, .text pair.2)) = extraPairs extra := by
  have hmore (pairs : List (Bytes × Bytes)) :
      printMoreMembers (pairs.map fun pair => (pair.1, .text pair.2)) =
        pairs.flatMap fun pair => 44 :: (quoted pair.1 ++ 58 :: quoted pair.2) := by
    induction pairs with
    | nil => rfl
    | cons pair pairs ih => simp [printMoreMembers, print, ih]
  cases extra with
  | nil => rfl
  | cons pair pairs => simp [Document.printMembers, print, extraPairs, hmore]

open Document in
theorem printMoreMembers_extra (extra : List (Bytes × Bytes)) :
    printMoreMembers (if extra = [] then []
      else [(ascii "extra", .object (extra.map fun pair => (pair.1, .text pair.2)))]) =
      extraText extra := by
  by_cases h : extra = []
  · simp [h, extraText, printMoreMembers]
  · have hkey : quoted (ascii "extra") ++ [58] = jsonKey "extra" := quoted_ascii (by decide +kernel)
    rw [if_neg h, extraText, if_neg h, commaKey, ← hkey, printMoreMembers, print,
      printMembers_extra]
    simp [printMoreMembers]

/-- An event is written as one object. -/
theorem eventToJson_eq (ev : TelemetryEvent) :
    eventToJson ev = (Document.object ev.members).print := by
  have hts : quoted (ascii "ts") ++ [58] = jsonKey "ts" := quoted_ascii (by decide +kernel)
  simp (disch := decide +kernel) only [TelemetryEvent.members, List.cons_append, List.nil_append,
    Document.print, Document.printMembers, printMoreMembers_number, printMoreMembers_text,
    printMoreMembers_extra, decimalInt_natCast]
  rw [eventToJson, ← hts]
  simp

theorem optypeToString_injective : Function.Injective optypeToString := by
  intro op op' h
  cases op <;> cases op' <;> first | rfl | exact absurd h (by decide +kernel)

theorem verdictToString_injective : Function.Injective verdictToString := by
  intro v v' h
  cases v <;> cases v' <;> first | rfl | exact absurd h (by decide +kernel)

/-- The object tells the event. -/
theorem TelemetryEvent.members_injective : Function.Injective TelemetryEvent.members := by
  intro ev ev' h
  obtain ⟨hfixed, hextra⟩ := List.append_inj h rfl
  simp only [List.cons.injEq, Prod.mk.injEq, Document.number.injEq, Document.text.injEq,
    Int.natCast_inj, UInt64.toNat_inj, UInt32.toNat_inj, true_and, and_true] at hfixed
  obtain ⟨hts, hsession, hbranch, hpolicy, hop, hverdict, hdev, hino, hgen, hpath, hpid, huid,
    hgid, hbytes, hlatency, hbackend⟩ := hfixed
  have hpairs : ev.extra = ev'.extra := by
    have hmap : Function.Injective fun pair : Bytes × Bytes => (pair.1, Document.text pair.2) := by
      intro pair pair' hpair
      simp only [Prod.mk.injEq, Document.text.injEq] at hpair
      exact Prod.ext hpair.1 hpair.2
    by_cases hnone : ev.extra = []
    · by_cases hnone' : ev'.extra = []
      · rw [hnone, hnone']
      · rw [if_pos hnone, if_neg hnone'] at hextra
        cases hextra
    · by_cases hnone' : ev'.extra = []
      · rw [if_neg hnone, if_pos hnone'] at hextra
        cases hextra
      · rw [if_neg hnone, if_neg hnone'] at hextra
        simp only [List.cons.injEq, Prod.mk.injEq, Document.object.injEq, true_and,
          and_true] at hextra
        exact List.map_injective_iff.2 hmap hextra
  exact TelemetryEvent.ext hts hsession hbranch hpolicy (optypeToString_injective hop)
    (verdictToString_injective hverdict) hdev hino hgen hpath hpid huid hgid hbytes hlatency
    hbackend hpairs

/-- An event can be read from its text. -/
theorem eventToJson_injective : Function.Injective eventToJson := by
  intro ev ev' h
  rw [eventToJson_eq, eventToJson_eq] at h
  have hobject := Document.print_injective h
  exact TelemetryEvent.members_injective (Document.object.inj hobject)

/-- The text of an event is one line. -/
theorem newline_not_mem_eventToJson (ev : TelemetryEvent) : 10 ∉ eventToJson ev := by
  rw [eventToJson_eq]
  exact fun h => Document.visible_print _ 10 h (by decide)

/-! ## The file -/

/-- `TelemetryDrain`: the stream `out_` is open or null; `written` are the events the file has. -/
structure TelemetryDrain where
  isOpen : Bool := false
  file : Bytes := []
  written : List TelemetryEvent := []

inductive DrainCall
  /-- `start`; `fopen` may fail. -/
  | start (opened : Bool)
  | stop
  | writeEvent (ev : TelemetryEvent)

/-- One call, under the mutex.  Whether `fwrite` and `fputc` succeed is not looked at by the code;
here they do. -/
def TelemetryDrain.call (d : TelemetryDrain) : DrainCall → TelemetryDrain
  | .start opened => if d.isOpen then d else { d with isOpen := opened }
  | .stop => { d with isOpen := false }
  | .writeEvent ev =>
      if d.isOpen then
        { d with file := d.file ++ (eventToJson ev ++ [10]), written := d.written ++ [ev] }
      else d

/-- The drain after calls of any threads. -/
def TelemetryDrain.after (calls : List DrainCall) : TelemetryDrain :=
  calls.foldl TelemetryDrain.call {}

theorem TelemetryDrain.file_after (calls : List DrainCall) :
    (TelemetryDrain.after calls).file =
      joinLines 10 ((TelemetryDrain.after calls).written.map eventToJson) := by
  have hfold (d : TelemetryDrain) (h : d.file = joinLines 10 (d.written.map eventToJson)) :
      (calls.foldl TelemetryDrain.call d).file =
        joinLines 10 ((calls.foldl TelemetryDrain.call d).written.map eventToJson) := by
    induction calls generalizing d with
    | nil => exact h
    | cons c calls ih =>
        refine ih (d.call c) ?_
        cases c with
        | start opened =>
            simp only [TelemetryDrain.call]
            split
            · exact h
            · exact h
        | stop => exact h
        | writeEvent ev =>
            simp only [TelemetryDrain.call]
            split
            · simp [h]
            · exact h
  exact hfold {} rfl

/-- Whatever the threads call in whatever order, and wherever the file is cut off: the complete
lines of what is there are the objects of the first events written, one each, and whatever events
it reads as are those. -/
theorem telemetryLog_decodes (calls : List DrainCall) {front : Bytes}
    (hfront : front <+: (TelemetryDrain.after calls).file) :
    (∀ lines, (∀ l ∈ lines, 10 ∉ l) → joinLines 10 lines <+: front →
      ∃ k, lines = ((TelemetryDrain.after calls).written.take k).map eventToJson) ∧
    ∀ evs : List TelemetryEvent, joinLines 10 (evs.map eventToJson) <+: front →
      evs <+: (TelemetryDrain.after calls).written := by
  have hlines : ∀ lines, (∀ l ∈ lines, 10 ∉ l) → joinLines 10 lines <+: front →
      lines <+: (TelemetryDrain.after calls).written.map eventToJson := by
    intro lines hclean hpre
    have hfile := hpre.trans hfront
    rw [TelemetryDrain.file_after] at hfile
    refine isPrefix_of_joinLines hclean ?_ List.not_mem_nil (by simpa using hfile)
    intro l hl
    obtain ⟨ev, -, rfl⟩ := List.mem_map.1 hl
    exact newline_not_mem_eventToJson ev
  refine ⟨fun lines hclean hpre => ?_, fun evs hpre => ?_⟩
  · refine ⟨lines.length, ?_⟩
    rw [List.map_take]
    exact List.prefix_iff_eq_take.1 (hlines lines hclean hpre)
  · have hmap := hlines (evs.map eventToJson) (fun l hl => ?_) hpre
    · rw [List.prefix_iff_eq_take, List.length_map, ← List.map_take] at hmap
      rw [List.prefix_iff_eq_take]
      exact List.map_injective_iff.2 eventToJson_injective hmap
    · obtain ⟨ev, -, rfl⟩ := List.mem_map.1 hl
      exact newline_not_mem_eventToJson ev

/-- A log of one event, read back. -/
theorem telemetryLog_decodes_one :
    [({ path := [34, 10] } : TelemetryEvent)] <+:
      (TelemetryDrain.after [.start true, .writeEvent { path := [34, 10] }]).written :=
  (telemetryLog_decodes [.start true, .writeEvent { path := [34, 10] }] (List.prefix_refl _)).2
    [{ path := [34, 10] }] (by rw [TelemetryDrain.file_after]; exact List.prefix_refl _)

end ContextFS
