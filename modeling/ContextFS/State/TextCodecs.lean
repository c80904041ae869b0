import ContextFS.State.AgentStateWriter
import ContextFS.State.RuntimeStateWriter

/-!
# The two record codecs

The text of a record is its header and one line for each field, whatever the fields hold: no value
ends its line, and the first `=` of a line is the one behind its key.  A record that
`write_agent_state_record` accepts is one whose text its own reader takes, and so reads back as it
was.
-/

namespace ContextFS

open ObjectStore

/-- A key and the text of its value. -/
abbrev RecordField := Bytes × Bytes

def RecordField.line (f : RecordField) : Bytes := f.1 ++ 61 :: f.2

/-- A key without `=`, and no line break. -/
def RecordField.Clean (f : RecordField) : Prop := 61 ∉ f.1 ∧ 10 ∉ f.1 ∧ 10 ∉ f.2

/-- Fields line by line. -/
def fieldsText (fields : List RecordField) : Bytes := fields.flatMap fun f => f.line ++ [10]

/-- A line is read as its own field. -/
theorem RecordField.Clean.splitKeyValue {f : RecordField} (h : f.Clean) : splitKeyValue f.line = some f :=
  splitKeyValue_append h.1 f.2

/-- The lines of a text are its fields. -/
theorem splitLines_fieldsText {fields : List RecordField} (h : ∀ f ∈ fields, f.Clean) :
    splitLines (fieldsText fields) = fields.map RecordField.line ++ [[]] := by
  induction fields with
  | nil => rfl
  | cons f fields ih =>
      obtain ⟨-, hkey, hvalue⟩ := h f List.mem_cons_self
      have hline : 10 ∉ f.line := by
        simp only [RecordField.line, List.mem_append, List.mem_cons, not_or]
        exact ⟨hkey, by decide, hvalue⟩
      have hsplit : fieldsText (f :: fields) = f.line ++ 10 :: fieldsText fields := by
        simp [fieldsText]
      rw [hsplit, splitLines_append hline, ih fun f' hf' => h f' (List.mem_cons_of_mem f hf')]
      rfl

theorem goodKey_clean {key : String} {value : Bytes} (hkey : GoodKey key) (hvalue : 10 ∉ value) :
    RecordField.Clean (ascii key, value) := ⟨hkey.1, hkey.2, hvalue⟩

/-! ## Agent-state records -/

namespace AgentStateRecord

/-- The fields of a record, in the order they are written. -/
def fields (state : AgentStateRecord) : List RecordField :=
  [(ascii "record_version", decimal state.recordVersion.toNat),
    (ascii "parent_state_id", percentEncode state.parentStateId),
    (ascii "snapshot_base_state_id", percentEncode state.snapshotBaseStateId),
    (ascii "branch", percentEncode state.branch),
    (ascii "fs_commit", hashToHex state.fsCommit),
    (ascii "union_state_id", percentEncode state.unionStateId),
    (ascii "runtime_id", percentEncode state.runtimeId),
    (ascii "agent_id", percentEncode state.agentId),
    (ascii "sequence", decimal state.sequence.toNat),
    (ascii "kind", state.kind.label),
    (ascii "payload_schema", percentEncode state.payloadSchema),
    (ascii "payload_inline", percentEncode state.payloadInline),
    (ascii "payload_ref", percentEncode state.payloadRef)] ++
  (state.dependencyHashes.map (fun h => (ascii "dependency_hash", hashToHex h)) ++
  [(ascii "timestamp_ns", decimal state.timestampNs.toNat),
    (ascii "boundary", if state.boundary then [49] else [48])])

theorem serialize_eq (state : AgentStateRecord) :
    state.serialize = ascii "agentvfs.agent_state.v1\n" ++ fieldsText state.fields := by
  simp [serialize, fields, fieldsText, fieldLine, RecordField.line, List.flatMap_map]

theorem fields_clean (state : AgentStateRecord) : ∀ f ∈ state.fields, f.Clean := by
  have free : ∀ {key : String} {text : Bytes}, GoodKey key →
      RecordField.Clean (ascii key, percentEncode text) :=
    fun hkey => goodKey_clean hkey (newline_not_mem_percentEncode _)
  have number : ∀ {key : String} {n : Nat}, GoodKey key → RecordField.Clean (ascii key, decimal n) :=
    fun hkey => goodKey_clean hkey (newline_not_mem_decimal _)
  have hash : ∀ {key : String} {h : Hash}, GoodKey key → RecordField.Clean (ascii key, hashToHex h) :=
    fun hkey => goodKey_clean hkey (newline_not_mem_hashToHex _)
  have hboundary : (10 : UInt8) ∉ (if state.boundary then [49] else [48] : Bytes) := by
    cases state.boundary <;> decide
  simp only [fields, List.forall_mem_append, List.forall_mem_cons, List.forall_mem_map]
  refine ⟨⟨number (by decide +kernel), free (by decide +kernel), free (by decide +kernel),
    free (by decide +kernel), hash (by decide +kernel), free (by decide +kernel),
    free (by decide +kernel), free (by decide +kernel), number (by decide +kernel),
    goodKey_clean (by decide +kernel) (newline_not_mem_label state.kind), free (by decide +kernel),
    free (by decide +kernel), free (by decide +kernel), fun _ hf => (by cases hf)⟩,
    fun h _ => hash (by decide +kernel), number (by decide +kernel),
    goodKey_clean (by decide +kernel) hboundary, fun _ hf => (by cases hf)⟩

/-- A text that was read had every line read. -/
theorem readLine_of_foldlM {R : Type} {read : R → Bytes → Except String R} {lines : List Bytes}
    {record out : R} (h : lines.foldlM read record = .ok out) {line : Bytes} (hline : line ∈ lines) :
    ∃ before after, read before line = .ok after := by
  induction lines generalizing record with
  | nil => cases hline
  | cons first lines ih =>
      rw [List.foldlM_cons] at h
      cases hread : read record first with
      | error err =>
          rw [hread] at h
          cases h
      | ok next =>
          rw [hread] at h
          rcases List.mem_cons.1 hline with rfl | hline
          · exact ⟨record, next, hread⟩
          · exact ih h hline

/-- Every field of a text that its reader takes was assigned. -/
theorem assignField_of_deserialize {state checked : AgentStateRecord}
    (h : deserializeAgentStateRecord state.serialize = .ok checked) {f : RecordField}
    (hf : f ∈ state.fields) : ∃ before after, assignField before f.1 f.2 = .ok after := by
  have hlines : (splitLines (fieldsText state.fields)).foldlM (readLine assignField) {} =
      .ok checked := by
    rw [serialize_eq, deserializeAgentStateRecord, readTextRecord] at h
    have hheader : ascii "agentvfs.agent_state.v1\n" ≠ [] := by decide +kernel
    rw [if_neg (by simp [hheader]), if_neg (by simp), List.take_left, if_neg (by simp),
      List.drop_left] at h
    exact h
  have hclean := state.fields_clean
  have hline : f.line ∈ splitLines (fieldsText state.fields) := by
    rw [splitLines_fieldsText hclean]
    exact List.mem_append_left _ (List.mem_map_of_mem hf)
  obtain ⟨before, after, hread⟩ := readLine_of_foldlM hlines hline
  have hne : f.line ≠ [] := by simp [RecordField.line]
  rw [readLine, if_neg hne, (hclean f hf).splitKeyValue] at hread
  exact ⟨before, after, hread⟩

/-- A state id that is read is one. -/
theorem isValidStateId_of_stateIdField {id out : Bytes} {name : String}
    (h : stateIdField (percentEncode id) name = .ok out) : isValidStateId id = true := by
  unfold stateIdField at h
  rw [percentDecode_percentEncode] at h
  simp only at h
  split at h
  · assumption
  · cases h

/-- Only valid records are taken by their reader. -/
theorem valid_of_deserialize {state checked : AgentStateRecord}
    (h : deserializeAgentStateRecord state.serialize = .ok checked) : state.Valid := by
  have hid : ∀ {id : Bytes} {name : String} {g : Bytes → AgentStateRecord}
      {after : AgentStateRecord}, (stateIdField (percentEncode id) name).map g = .ok after →
      isValidStateId id = true := by
    intro id name g after hmap
    cases hfield : stateIdField (percentEncode id) name with
    | error err =>
        rw [hfield] at hmap
        cases hmap
    | ok out => exact isValidStateId_of_stateIdField hfield
  refine ⟨?_, ?_, ?_, ?_, fun dependency hin hzero => ?_⟩
  · obtain ⟨before, after, hread⟩ := assignField_of_deserialize h
      (f := (ascii "parent_state_id", percentEncode state.parentStateId)) (by simp [fields])
    simp only [assignField, ascii_inj, reduceIte, String.reduceEq] at hread
    exact hid hread
  · obtain ⟨before, after, hread⟩ := assignField_of_deserialize h
      (f := (ascii "snapshot_base_state_id", percentEncode state.snapshotBaseStateId))
      (by simp [fields])
    simp only [assignField, ascii_inj, reduceIte, String.reduceEq] at hread
    exact hid hread
  · obtain ⟨before, after, hread⟩ := assignField_of_deserialize h
      (f := (ascii "union_state_id", percentEncode state.unionStateId)) (by simp [fields])
    simp only [assignField, ascii_inj, reduceIte, String.reduceEq] at hread
    exact hid hread
  · obtain ⟨before, after, hread⟩ := assignField_of_deserialize h
      (f := (ascii "payload_ref", percentEncode state.payloadRef)) (by simp [fields])
    simp only [assignField, ascii_inj, reduceIte, String.reduceEq] at hread
    exact hid hread
  · have hfield : (ascii "dependency_hash", hashToHex dependency) ∈ state.fields := by
      simp only [fields, List.mem_append, List.mem_map]
      exact Or.inr (Or.inl ⟨dependency, hin, rfl⟩)
    obtain ⟨before, after, hread⟩ := assignField_of_deserialize h hfield
    simp [assignField, appendDependencyHash, hzero] at hread

/-- A record that its reader takes is read back as it was. -/
theorem deserialize_eq {state checked : AgentStateRecord}
    (h : deserializeAgentStateRecord state.serialize = .ok checked) :
    checked = { state with stateId := [] } := by
  have hread := deserialize_serialize (valid_of_deserialize h)
  rw [h] at hread
  exact Except.ok.inj hread

end AgentStateRecord

/-- A record that was written has been read by the check in front of the write. -/
theorem deserialize_of_write [Blake3] {s : ObjectStore} {state : AgentStateRecord}
    {dependencyHashes : List Hash} {sync : Bool} {id : Hash}
    (h : (writeAgentStateRecord s state dependencyHashes sync).1 = .ok id) :
    deserializeAgentStateRecord { state with dependencyHashes := dependencyHashes }.serialize =
      .ok { state with dependencyHashes := dependencyHashes, stateId := [] } := by
  unfold writeAgentStateRecord at h
  split at h
  · cases h
  simp only at h
  split at h
  · cases h
  · rename_i checked hchecked
    rw [hchecked, AgentStateRecord.deserialize_eq hchecked]

/-! ## Union runtime states -/

namespace UnionRuntimeState

/-- The fields of a union state, in the order they are written. -/
def fields (state : UnionRuntimeState) : List RecordField :=
  [(ascii "record_version", decimal state.recordVersion.toNat),
    (ascii "parent_union_state_id", percentEncode state.parentUnionStateId),
    (ascii "branch", percentEncode state.branch),
    (ascii "fs_commit", hashToHex state.fsCommit),
    (ascii "agent_state_id", percentEncode state.agentStateId),
    (ascii "runtime_id", percentEncode state.runtimeId),
    (ascii "runtime_generation", decimal state.runtimeGeneration.toNat),
    (ascii "template_id", percentEncode state.templateId),
    (ascii "template_kind", percentEncode state.templateKind),
    (ascii "boundary_kind", percentEncode state.boundaryKind),
    (ascii "command_ref", percentEncode state.commandRef),
    (ascii "resource_manifest_ref", percentEncode state.resourceManifestRef),
    (ascii "timestamp_ns", decimal state.timestampNs.toNat)] ++
  state.warnings.map fun w => (ascii "warning", warningText w)

theorem serialize_eq (state : UnionRuntimeState) :
    state.serialize = ascii "agentvfs.union_runtime_state.v1\n" ++ fieldsText state.fields := by
  simp [serialize, fields, fieldsText, fieldLine, RecordField.line, List.flatMap_map]

theorem fields_clean (state : UnionRuntimeState) : ∀ f ∈ state.fields, f.Clean := by
  have free : ∀ {key : String} {text : Bytes}, GoodKey key →
      RecordField.Clean (ascii key, percentEncode text) :=
    fun hkey => goodKey_clean hkey (newline_not_mem_percentEncode _)
  have number : ∀ {key : String} {n : Nat}, GoodKey key → RecordField.Clean (ascii key, decimal n) :=
    fun hkey => goodKey_clean hkey (newline_not_mem_decimal _)
  simp only [fields, List.forall_mem_append, List.forall_mem_cons, List.forall_mem_map]
  exact ⟨⟨number (by decide +kernel), free (by decide +kernel), free (by decide +kernel),
    goodKey_clean (by decide +kernel) (newline_not_mem_hashToHex _), free (by decide +kernel),
    free (by decide +kernel), number (by decide +kernel), free (by decide +kernel),
    free (by decide +kernel), free (by decide +kernel), free (by decide +kernel),
    free (by decide +kernel), number (by decide +kernel), fun _ hf => (by cases hf)⟩,
    fun w _ => goodKey_clean (by decide +kernel) (newline_not_mem_warningText w)⟩

end UnionRuntimeState

/-! ## The codecs -/

theorem equals_not_mem_percentEncode (text : Bytes) : 61 ∉ percentEncode text := by
  refine not_mem_percentEncode (fun c => ?_) text
  unfold percentByte
  split
  · decide +kernel
  split
  · decide +kernel
  split
  · decide +kernel
  split
  · decide +kernel
  split
  · decide +kernel
  split
  · decide +kernel
  · rename_i hequals _ _
    rw [List.mem_singleton]
    exact fun h => hequals h.symm

/-- A list of fields stands in a text line by line, and every line splits back into its field. -/
def WrittenAs (header : String) (body : Bytes) (fields : List RecordField) : Prop :=
  splitLines (body.drop (ascii header).length) = fields.map RecordField.line ++ [[]] ∧
    body.take (ascii header).length = ascii header ∧
    ∀ f ∈ fields, splitKeyValue f.line = some f

theorem writtenAs_of_clean {header : String} {fields : List RecordField} (h : ∀ f ∈ fields, f.Clean) :
    WrittenAs header (ascii header ++ fieldsText fields) fields := by
  refine ⟨?_, List.take_left, fun f hf => (h f hf).splitKeyValue⟩
  rw [List.drop_left, splitLines_fieldsText h]

/-- The round trip of both codecs: percent decoding undoes encoding, whose result has no line
break, `=` or bar; the texts of both records are their fields line by line and a warning is read as
itself; and an agent-state record that is written, as any union runtime state, is read back as it
was, but for its id. -/
theorem recordCodecs_roundTrip [Blake3] :
    (∀ text, percentDecode (percentEncode text) = .ok text) ∧
      (∀ text, 10 ∉ percentEncode text ∧ 61 ∉ percentEncode text ∧ 124 ∉ percentEncode text) ∧
      (∀ state : AgentStateRecord,
        WrittenAs "agentvfs.agent_state.v1\n" state.serialize state.fields) ∧
      (∀ state : UnionRuntimeState,
        WrittenAs "agentvfs.union_runtime_state.v1\n" state.serialize state.fields) ∧
      (∀ state w,
        assignWarning state (warningText w) = .ok { state with warnings := state.warnings ++ [w] }) ∧
      (∀ (s : ObjectStore) (state : AgentStateRecord) (dependencyHashes : List Hash) (sync : Bool)
          (id : Hash), (writeAgentStateRecord s state dependencyHashes sync).1 = .ok id →
        deserializeAgentStateRecord { state with dependencyHashes := dependencyHashes }.serialize =
          .ok { state with dependencyHashes := dependencyHashes, stateId := [] }) ∧
      ∀ state : UnionRuntimeState,
        deserializeUnionRuntimeState state.serialize = .ok { state with unionStateId := [] } := by
  refine ⟨percentDecode_percentEncode, fun text => ?_, fun state => ?_, fun state => ?_,
    assignWarning_warningText, fun s state dependencyHashes sync id h => deserialize_of_write h,
    UnionRuntimeState.deserialize_serialize⟩
  · exact ⟨newline_not_mem_percentEncode text, equals_not_mem_percentEncode text,
      bar_not_mem_percentEncode text⟩
  · rw [AgentStateRecord.serialize_eq]
    exact writtenAs_of_clean state.fields_clean
  · rw [UnionRuntimeState.serialize_eq]
    exact writtenAs_of_clean state.fields_clean

section Example

local instance codecDigest : Blake3 := foldDigest

/-- A record whose branch looks like the rest of a record. -/
def forgedBranch : AgentStateRecord := { branch := ascii "main\nkind=session|%2" }

/-- It is written and read back. -/
theorem recordCodecs_forgedBranch :
    deserializeAgentStateRecord { forgedBranch with dependencyHashes := [] }.serialize =
      .ok { forgedBranch with dependencyHashes := [], stateId := [] } := by
  have hwrite : ((writeAgentStateRecord {} forgedBranch [] false).1.toOption).isSome = true := by
    decide +kernel
  cases hid : (writeAgentStateRecord {} forgedBranch [] false).1 with
  | error err =>
      rw [hid] at hwrite
      cases hwrite
  | ok id =>
      obtain ⟨-, -, -, -, -, hrecords, -⟩ := recordCodecs_roundTrip
      exact hrecords {} forgedBranch [] false id hid

end Example

end ContextFS
