import ContextFS.Branch.Checkpoint
import ContextFS.State.AgentState
import ContextFS.State.TextWriter

/-!
# Writing agent-state records

A record whose ids are hashes, or unset, is read back as it was written, but for its own id, which
is the hash of its blob.
-/

namespace ContextFS

open Std ObjectStore

namespace AgentStateRecord

/-- `serialize_agent_state_record`. -/
def serialize (state : AgentStateRecord) : Bytes :=
  ascii "agentvfs.agent_state.v1\n" ++
    (fieldLine "record_version" (decimal state.recordVersion.toNat) ++
    (fieldLine "parent_state_id" (percentEncode state.parentStateId) ++
    (fieldLine "snapshot_base_state_id" (percentEncode state.snapshotBaseStateId) ++
    (fieldLine "branch" (percentEncode state.branch) ++
    (fieldLine "fs_commit" (hashToHex state.fsCommit) ++
    (fieldLine "union_state_id" (percentEncode state.unionStateId) ++
    (fieldLine "runtime_id" (percentEncode state.runtimeId) ++
    (fieldLine "agent_id" (percentEncode state.agentId) ++
    (fieldLine "sequence" (decimal state.sequence.toNat) ++
    (fieldLine "kind" state.kind.label ++
    (fieldLine "payload_schema" (percentEncode state.payloadSchema) ++
    (fieldLine "payload_inline" (percentEncode state.payloadInline) ++
    (fieldLine "payload_ref" (percentEncode state.payloadRef) ++
    (state.dependencyHashes.flatMap (fun h => fieldLine "dependency_hash" (hashToHex h)) ++
    (fieldLine "timestamp_ns" (decimal state.timestampNs.toNat) ++
    fieldLine "boundary" (if state.boundary then [49] else [48]))))))))))))))))

/-- A record that its reader takes: ids are hashes or unset, and no dependency is the zero hash. -/
structure Valid (state : AgentStateRecord) : Prop where
  parent : isValidStateId state.parentStateId = true
  base : isValidStateId state.snapshotBaseStateId = true
  union : isValidStateId state.unionStateId = true
  payload : isValidStateId state.payloadRef = true
  dependencies : ∀ h ∈ state.dependencyHashes, h ≠ zeroHash

end AgentStateRecord

section Write

variable [Blake3]

/-- `write_agent_state_record`: the id of the record, or an error text. -/
def writeAgentStateRecord (s : ObjectStore) (state : AgentStateRecord) (dependencyHashes : List Hash)
    (sync : Bool) : Except String Hash × ObjectStore :=
  if dependencyHashes.contains zeroHash then
    (.error "agent state dependency hash is ZERO_HASH", s)
  else
    let body := { state with dependencyHashes := dependencyHashes }.serialize
    -- what could not be read back is not written
    match deserializeAgentStateRecord body with
    | .error err => (.error ("invalid agent state record: " ++ err), s)
    | .ok _ =>
        let w := s.writeBlob body
        if w.2 = zeroHash then
          (.error (if w.1.lastError = "" then "object store write_blob failed" else w.1.lastError),
            w.1)
        else if sync then
          match w.1.fsyncPending (dependencyHashes ++ [w.2]) with
          | (some err, s) => (.error err, s)
          | (none, s) => (.ok w.2, s)
        else (.ok w.2, w.1)

end Write

/-! ## Reading back -/

theorem stateIdField_percentEncode {id : Bytes} (hid : isValidStateId id = true) (name : String) :
    stateIdField (percentEncode id) name = .ok id := by
  unfold stateIdField
  rw [percentDecode_percentEncode]
  simp only [hid, if_true]

theorem parseAgentStateKind_label (k : AgentStateKind) : parseAgentStateKind k.label = some k := by
  cases k <;> decide +kernel

theorem newline_not_mem_label (k : AgentStateKind) : 10 ∉ k.label := by
  cases k <;> decide +kernel

namespace AgentStateRecord

/-- A record is read back as it was written. -/
theorem deserialize_serialize {r : AgentStateRecord} (h : r.Valid) :
    deserializeAgentStateRecord r.serialize = .ok { r with stateId := [] } := by
  -- a line for each kind of value
  have free : ∀ {key : String} {value : Bytes} {state state' : AgentStateRecord}, GoodKey key →
      state.assignField (ascii key) (percentEncode value) = .ok state' →
      Reads assignField (fieldLine key (percentEncode value)) state state' :=
    fun hkey ha => reads_fieldLine hkey (newline_not_mem_percentEncode _) ha
  have number : ∀ {key : String} {n : Nat} {state state' : AgentStateRecord}, GoodKey key →
      state.assignField (ascii key) (decimal n) = .ok state' →
      Reads assignField (fieldLine key (decimal n)) state state' :=
    fun hkey ha => reads_fieldLine hkey (newline_not_mem_decimal _) ha
  have hash : ∀ {key : String} {h : Hash} {state state' : AgentStateRecord}, GoodKey key →
      state.assignField (ascii key) (hashToHex h) = .ok state' →
      Reads assignField (fieldLine key (hashToHex h)) state state' :=
    fun hkey ha => reads_fieldLine hkey (newline_not_mem_hashToHex _) ha
  have hkind : ∀ state : AgentStateRecord,
      Reads assignField (fieldLine "kind" r.kind.label) state { state with kind := r.kind } := by
    intro state
    refine reads_fieldLine (by decide +kernel) (newline_not_mem_label r.kind) ?_
    simp [assignField, parseAgentStateKind_label]
  have hboundary : ∀ state : AgentStateRecord,
      Reads assignField (fieldLine "boundary" (if r.boundary then [49] else [48])) state
        { state with boundary := r.boundary } := by
    intro state
    cases r.boundary with
    | true => exact reads_fieldLine (by decide +kernel) (by decide) (by simp [assignField])
    | false => exact reads_fieldLine (by decide +kernel) (by decide) (by simp [assignField])
  have hdependencies : ∀ state : AgentStateRecord,
      Reads assignField
        (r.dependencyHashes.flatMap fun h => fieldLine "dependency_hash" (hashToHex h)) state
        { state with dependencyHashes := state.dependencyHashes ++ r.dependencyHashes } := by
    refine reads_flatMap
      (fun (state : AgentStateRecord) ds =>
        { state with dependencyHashes := state.dependencyHashes ++ ds })
      (by simp) (by simp) ?_
    intro d hd state
    refine hash (by decide +kernel) ?_
    simp [assignField, appendDependencyHash, h.dependencies d hd]
  -- the lines in the order they are written
  refine readTextRecord_of_reads (by decide +kernel) ?_
  refine (number (by decide +kernel) (by simp [assignField, parseU32_decimal]; rfl)).append ?_
  refine (free (by decide +kernel)
    (by simp [assignField, stateIdField_percentEncode h.parent]; rfl)).append ?_
  refine (free (by decide +kernel)
    (by simp [assignField, stateIdField_percentEncode h.base]; rfl)).append ?_
  refine (free (by decide +kernel)
    (by simp [assignField, percentDecode_percentEncode]; rfl)).append ?_
  refine (hash (by decide +kernel) (by simp [assignField]; rfl)).append ?_
  refine (free (by decide +kernel)
    (by simp [assignField, stateIdField_percentEncode h.union]; rfl)).append ?_
  refine (free (by decide +kernel)
    (by simp [assignField, percentDecode_percentEncode]; rfl)).append ?_
  refine (free (by decide +kernel)
    (by simp [assignField, percentDecode_percentEncode]; rfl)).append ?_
  refine (number (by decide +kernel) (by simp [assignField, parseU64_decimal]; rfl)).append ?_
  refine (hkind _).append ?_
  refine (free (by decide +kernel)
    (by simp [assignField, percentDecode_percentEncode]; rfl)).append ?_
  refine (free (by decide +kernel)
    (by simp [assignField, percentDecode_percentEncode]; rfl)).append ?_
  refine (free (by decide +kernel)
    (by simp [assignField, stateIdField_percentEncode h.payload]; rfl)).append ?_
  refine (hdependencies _).append ?_
  refine (number (by decide +kernel) (by simp [assignField, parseU64_decimal]; rfl)).append ?_
  exact hboundary _

end AgentStateRecord

/-! ## What a write does to the store -/

section Spec

variable [Blake3]

/-- `fsync_pending` that succeeds has found and made durable every object it was given. -/
theorem fsyncPending_cases (s : ObjectStore) (hashes : List Hash) :
    Grows s (s.fsyncPending hashes).2 ∧ ((s.fsyncPending hashes).1 = none →
      ∀ h ∈ hashes, h ∈ (s.fsyncPending hashes).2.objects ∧
        h ∈ (s.fsyncPending hashes).2.durable) := by
  have hfiles := published_fsyncObjects s hashes
  have hfound : (s.fsyncObjects hashes).1 = true →
      ∀ h ∈ hashes, h ∈ (s.fsyncObjects hashes).2.objects := by
    intro hok h hh
    unfold fsyncObjects at hok ⊢
    split at hok
    · cases hok
    · rename_i s₁ hs₁
      have hall := List.all_eq_true.1 hok h hh
      exact ExtTreeMap.contains_iff_mem.1 hall
  unfold fsyncPending
  generalize s.fsyncObjects hashes = r at hfiles hfound
  obtain ⟨_ | _, s₁⟩ := r
  · exact ⟨.of_published hfiles, fun hok => by cases hok⟩
  · simp only
    obtain ⟨s₂, h₂, heq | heq⟩ := fsyncShardDirs_cases s₁ hashes
    · simp only [heq]
      exact ⟨(Grows.of_published hfiles).trans (.of_published h₂), fun hok => by cases hok⟩
    · simp only [heq]
      refine ⟨((Grows.of_published hfiles).trans (.of_published h₂)).trans
        (.of_objects_eq rfl rfl fun hd => ?_), fun _ h hh => ⟨?_, ?_⟩⟩
      · exact ExtTreeSet.mem_insertMany_list.2 (Or.inl hd)
      · exact h₂.extends_.mem (hfound rfl h hh)
      · exact ExtTreeSet.mem_insertMany_list.2 (Or.inr (List.contains_iff_mem.2 hh))

/-- What a successful write guarantees: the record is stored under its id, and after a synced
write it is durable with its dependencies. -/
structure RecordWritten (s' : ObjectStore) (state : AgentStateRecord) (dependencyHashes : List Hash)
    (sync : Bool) (id : Hash) : Prop where
  ne_zero : id ≠ zeroHash
  stored : id ∈ s'.objects
  dependencies : ∀ h ∈ dependencyHashes, h ≠ zeroHash
  durable : sync = true → ∀ h ∈ dependencyHashes ++ [id], h ∈ s'.objects ∧ h ∈ s'.durable
  read : s'.collided = false → state.serialize.length < 2 ^ 64 → state.Valid →
    readAgentStateRecord s' id = .ok { state with stateId := hashToHex id }

theorem writeAgentStateRecord_cases (s : ObjectStore) (state : AgentStateRecord)
    (dependencyHashes : List Hash) (sync : Bool) :
    Grows s (writeAgentStateRecord s state dependencyHashes sync).2 ∧
      ∀ id, (writeAgentStateRecord s state dependencyHashes sync).1 = .ok id →
        RecordWritten (writeAgentStateRecord s state dependencyHashes sync).2
          { state with dependencyHashes := dependencyHashes } dependencyHashes sync id := by
  have hrefl : Grows s s := .of_published (.refl s)
  unfold writeAgentStateRecord
  split
  · exact ⟨hrefl, fun id hid => by cases hid⟩
  rename_i hzero
  have hdependencies : ∀ h ∈ dependencyHashes, h ≠ zeroHash := by
    rintro h hh rfl
    exact hzero (List.contains_iff_mem.2 hh)
  simp only
  generalize hstate : { state with dependencyHashes := dependencyHashes } = persisted
  split
  · exact ⟨hrefl, fun id hid => by cases hid⟩
  have hwrite : Grows s (s.writeBlob persisted.serialize).1 :=
    .of_published (published_writeObject _ _ _)
  split
  · exact ⟨hwrite, fun id hid => by cases hid⟩
  rename_i hne
  have hstored : (s.writeBlob persisted.serialize).2 ∈ (s.writeBlob persisted.serialize).1.objects :=
    mem_objects_writeObject hne
  have hread : ∀ {s' : ObjectStore}, Extends (s.writeBlob persisted.serialize).1 s' →
      s'.collided = false → persisted.serialize.length < 2 ^ 64 → persisted.Valid →
        readAgentStateRecord s' (s.writeBlob persisted.serialize).2 =
          .ok { persisted with stateId := hashToHex (s.writeBlob persisted.serialize).2 } := by
    intro s' hext hc hlen hvalid
    have hblob := hext.readBlob (readBlob_writeBlob hlen hne (hext.collided_eq hc))
    unfold readAgentStateRecord
    rw [hblob]
    simp only [AgentStateRecord.deserialize_serialize hvalid]
    rfl
  generalize s.writeBlob persisted.serialize = w at hwrite hne hstored hread ⊢
  cases sync with
  | false =>
      refine ⟨hwrite, fun id hid => ?_⟩
      cases hid
      exact ⟨hne, hstored, hdependencies, fun hs => (by cases hs), fun hc => hread (.refl _) hc⟩
  | true =>
      obtain ⟨hgrows, hsynced⟩ := fsyncPending_cases w.1 (dependencyHashes ++ [w.2])
      simp only [if_true]
      generalize w.1.fsyncPending (dependencyHashes ++ [w.2]) = r at hgrows hsynced ⊢
      obtain ⟨_ | err, s'⟩ := r
      · refine ⟨hwrite.trans hgrows, fun id hid => ?_⟩
        cases hid
        exact ⟨hne, hgrows.extends_.mem hstored, hdependencies, fun _ => hsynced rfl,
          fun hc => hread hgrows.extends_ hc⟩
      · exact ⟨hwrite.trans hgrows, fun id hid => by cases hid⟩

end Spec

end ContextFS
