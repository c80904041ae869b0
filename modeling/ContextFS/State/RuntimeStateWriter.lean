import ContextFS.State.RuntimeState
import ContextFS.State.TextWriter

/-!
# Writing union runtime states

The writer checks nothing: every union state is read back as it was written, but for its own id.
-/

namespace ContextFS

open ObjectStore

/-- A warning as it stands in its line. -/
def warningText (w : ResourceWarning) : Bytes :=
  percentEncode w.kind ++ 124 :: ((if w.blocker then [49] else [48]) ++
    124 :: percentEncode w.description)

namespace UnionRuntimeState

/-- `serialize_union_runtime_state`. -/
def serialize (state : UnionRuntimeState) : Bytes :=
  ascii "agentvfs.union_runtime_state.v1\n" ++
    (fieldLine "record_version" (decimal state.recordVersion.toNat) ++
    (fieldLine "parent_union_state_id" (percentEncode state.parentUnionStateId) ++
    (fieldLine "branch" (percentEncode state.branch) ++
    (fieldLine "fs_commit" (hashToHex state.fsCommit) ++
    (fieldLine "agent_state_id" (percentEncode state.agentStateId) ++
    (fieldLine "runtime_id" (percentEncode state.runtimeId) ++
    (fieldLine "runtime_generation" (decimal state.runtimeGeneration.toNat) ++
    (fieldLine "template_id" (percentEncode state.templateId) ++
    (fieldLine "template_kind" (percentEncode state.templateKind) ++
    (fieldLine "boundary_kind" (percentEncode state.boundaryKind) ++
    (fieldLine "command_ref" (percentEncode state.commandRef) ++
    (fieldLine "resource_manifest_ref" (percentEncode state.resourceManifestRef) ++
    (fieldLine "timestamp_ns" (decimal state.timestampNs.toNat) ++
    state.warnings.flatMap fun w => fieldLine "warning" (warningText w))))))))))))))

end UnionRuntimeState

/-- `write_union_runtime_state`: the id of the union state, or an error text. -/
def writeUnionRuntimeState [Blake3] (s : ObjectStore) (state : UnionRuntimeState) :
    Except String Hash × ObjectStore :=
  let w := s.writeBlob state.serialize
  if w.2 = zeroHash then
    (.error (if w.1.lastError = "" then "object store write_blob failed" else w.1.lastError), w.1)
  else (.ok w.2, w.1)

/-! ## Reading back -/

theorem bar_not_mem_percentEncode (text : Bytes) : 124 ∉ percentEncode text := by
  refine not_mem_percentEncode (fun c => ?_) text
  unfold percentByte
  split
  · decide +kernel
  split
  · decide +kernel
  split
  · decide +kernel
  split
  · decide +kernel
  split
  · decide +kernel
  split
  · decide +kernel
  · rename_i hbar _
    rw [List.mem_singleton]
    exact fun h => hbar h.symm

theorem newline_not_mem_warningText (w : ResourceWarning) : 10 ∉ warningText w := by
  unfold warningText
  cases w.blocker <;>
    simp [newline_not_mem_percentEncode]

theorem assignWarning_warningText (state : UnionRuntimeState) (w : ResourceWarning) :
    assignWarning state (warningText w) = .ok { state with warnings := state.warnings ++ [w] } := by
  obtain ⟨kind, description, blocker⟩ := w
  obtain ⟨hin, hkind, hrest⟩ := split_at_separator (bar_not_mem_percentEncode kind)
    ((if blocker then [49] else [48]) ++ 124 :: percentEncode description)
  have hflag : (124 : UInt8) ∉ (if blocker then [49] else [48] : Bytes) := by
    cases blocker <;> decide
  obtain ⟨hin', hflag', hrest'⟩ := split_at_separator hflag (percentEncode description)
  unfold assignWarning warningText
  simp only [hin, hkind, hrest, hin', hflag', hrest', Bool.not_true, Bool.false_eq_true, if_false,
    percentDecode_percentEncode]
  cases blocker <;> rfl

namespace UnionRuntimeState

/-- A union state is read back as it was written. -/
theorem deserialize_serialize (u : UnionRuntimeState) :
    deserializeUnionRuntimeState u.serialize = .ok { u with unionStateId := [] } := by
  have free : ∀ {key : String} {value : Bytes} {state state' : UnionRuntimeState}, GoodKey key →
      state.assignField (ascii key) (percentEncode value) = .ok state' →
      Reads assignField (fieldLine key (percentEncode value)) state state' :=
    fun hkey ha => reads_fieldLine hkey (newline_not_mem_percentEncode _) ha
  have number : ∀ {key : String} {n : Nat} {state state' : UnionRuntimeState}, GoodKey key →
      state.assignField (ascii key) (decimal n) = .ok state' →
      Reads assignField (fieldLine key (decimal n)) state state' :=
    fun hkey ha => reads_fieldLine hkey (newline_not_mem_decimal _) ha
  have hwarnings : ∀ state : UnionRuntimeState,
      Reads assignField (u.warnings.flatMap fun w => fieldLine "warning" (warningText w)) state
        { state with warnings := state.warnings ++ u.warnings } := by
    refine reads_flatMap
      (fun (state : UnionRuntimeState) ws => { state with warnings := state.warnings ++ ws })
      (by simp) (by simp) ?_
    intro w _ state
    refine reads_fieldLine (by decide +kernel) (newline_not_mem_warningText w) ?_
    simp [assignField, assignWarning_warningText]
  -- the lines in the order they are written
  refine readTextRecord_of_reads (by decide +kernel) ?_
  refine (number (by decide +kernel) (by simp [assignField, parseU32_decimal]; rfl)).append ?_
  refine (free (by decide +kernel)
    (by simp [assignField, percentDecode_percentEncode]; rfl)).append ?_
  refine (free (by decide +kernel)
    (by simp [assignField, percentDecode_percentEncode]; rfl)).append ?_
  refine (reads_fieldLine (by decide +kernel) (newline_not_mem_hashToHex u.fsCommit)
    (by simp [assignField]; rfl)).append ?_
  refine (free (by decide +kernel)
    (by simp [assignField, percentDecode_percentEncode]; rfl)).append ?_
  refine (free (by decide +kernel)
    (by simp [assignField, percentDecode_percentEncode]; rfl)).append ?_
  refine (number (by decide +kernel) (by simp [assignField, parseU64_decimal]; rfl)).append ?_
  refine (free (by decide +kernel)
    (by simp [assignField, percentDecode_percentEncode]; rfl)).append ?_
  refine (free (by decide +kernel)
    (by simp [assignField, percentDecode_percentEncode]; rfl)).append ?_
  refine (free (by decide +kernel)
    (by simp [assignField, percentDecode_percentEncode]; rfl)).append ?_
  refine (free (by decide +kernel)
    (by simp [assignField, percentDecode_percentEncode]; rfl)).append ?_
  refine (free (by decide +kernel)
    (by simp [assignField, percentDecode_percentEncode]; rfl)).append ?_
  refine (number (by decide +kernel) (by simp [assignField, parseU64_decimal]; rfl)).append ?_
  exact hwarnings _

end UnionRuntimeState

/-! ## What a write does to the store -/

section Spec

variable [Blake3]

theorem published_writeUnionRuntimeState (s : ObjectStore) (state : UnionRuntimeState) :
    Published s (writeUnionRuntimeState s state).2 := by
  have hwrite : Published s (s.writeBlob state.serialize).1 := published_writeObject _ _ _
  unfold writeUnionRuntimeState
  simp only
  split
  · exact hwrite
  · exact hwrite

theorem readUnionRuntimeState_write {s s' : ObjectStore} {state : UnionRuntimeState} {id : Hash}
    (h : writeUnionRuntimeState s state = (.ok id, s')) (hc : s'.collided = false)
    (hlen : state.serialize.length < 2 ^ 64) :
    readUnionRuntimeState s' id = .ok { state with unionStateId := hashToHex id } := by
  unfold writeUnionRuntimeState at h
  simp only at h
  split at h
  · cases h
  · rename_i hne
    cases h
    unfold readUnionRuntimeState
    rw [readBlob_writeBlob hlen hne hc]
    simp only [UnionRuntimeState.deserialize_serialize]
    rfl

end Spec

end ContextFS
