import ContextFS.State.AgentStateWriter
import ContextFS.State.LatestRefs

/-!
# The agent-state service

`append` checks a request, writes its record and, for a synced request, publishes the latest ref of
its agent and branch.  `latest` follows that ref, and `restoreSession` follows parents from a record
back to its snapshot base or to a root.  The discovery line in `index.log` is not modelled: nothing
reads it.
-/

namespace ContextFS

open ObjectStore

/-- The object store and the directory of the latest refs. -/
structure AgentStateService where
  store : ObjectStore
  disk : LatestDisk

structure AgentStateAppendRequest where
  record : AgentStateRecord
  dependencyHashes : List Hash
  sync : Bool

structure AgentStateAppendResult where
  ok : Bool := false
  stateId : Bytes := []
  durability : String := ""
  error : String := ""

/-- `parse_optional_hash`: an empty text is no hash. -/
def parseOptionalHash (value : Bytes) (fieldName : String) : Except String (Option Hash) :=
  if value = [] then .ok none
  else
    match hexToHashStrict value with
    | none => .error ("invalid " ++ fieldName ++ " hash")
    | some h => .ok (some h)

/-- One dependency more, unless it is there. -/
def addDependency (dependencies : List Hash) (h : Hash) : List Hash :=
  if dependencies.contains h then dependencies else dependencies ++ [h]

/-- The requested dependencies in the order of their first mention, then the payload. -/
def dependencySet (requested : List Hash) (payload : Option Hash) : List Hash :=
  payload.toList.foldl addDependency (requested.foldl addDependency [])

/-- `trim_trailing`. -/
def trimTrailing (s : Bytes) : Bytes :=
  (s.reverse.dropWhile fun c => c == 10 || c == 13 || c == 32 || c == 9).reverse

/-- A name in an error text. -/
def nameText (name : Bytes) : String := String.ofList (name.map fun c => Char.ofNat c.toNat)

namespace AgentStateService

/-- What a synced request must anchor to: an error text, or nothing. -/
def checkAnchors (s : ObjectStore) (parent base payload : Option Hash) : Option String :=
  match parent, base with
  | none, _ => some "sync=true requires a non-empty parent_state_id"
  | some _, none => some "sync=true requires a non-empty snapshot_base_state_id"
  | some parent, some base =>
      match readAgentStateRecord s parent with
      | .error err => some ("parent_state_id does not reference a readable state: " ++ err)
      | .ok _ =>
      match readAgentStateRecord s base with
      | .error err => some ("snapshot_base_state_id does not reference a readable state: " ++ err)
      | .ok _ =>
      if payload.any fun h => (s.readBlob h).isNone then
        some "payload_ref does not reference a readable blob"
      else none

section

variable [Blake3]

/-- The end of `append`: the record is written and, for a synced request, its ref published. -/
def appendRecord (svc : AgentStateService) (req : AgentStateAppendRequest) (payload : Option Hash) :
    AgentStateAppendResult × AgentStateService :=
  match writeAgentStateRecord svc.store req.record (dependencySet req.dependencyHashes payload)
      req.sync with
  | (.error err, store) =>
      ({ error := if err = "" then "write_agent_state_record failed" else err },
        { svc with store := store })
  | (.ok stateHash, store) =>
      let result : AgentStateAppendResult :=
        { stateId := hashToHex stateHash
          durability := if req.sync then "durable" else "logical_only" }
      if req.sync then
        match svc.disk.publishLatestRef req.record.agentId req.record.branch result.stateId with
        | (some err, disk) =>
            ({ result with error := "state published but latest ref failed: " ++ err },
              ⟨store, disk⟩)
        | (none, disk) => ({ result with ok := true }, ⟨store, disk⟩)
      else ({ result with ok := true }, { svc with store := store })

/-- `append`. -/
def append (svc : AgentStateService) (req : AgentStateAppendRequest) :
    AgentStateAppendResult × AgentStateService :=
  if !isValidStateRefComponent req.record.agentId then ({ error := "invalid agent_id" }, svc)
  else if !isValidStateRefComponent req.record.branch then
    ({ error := "invalid branch name" }, svc)
  else
    match parseOptionalHash req.record.parentStateId "parent_state_id" with
    | .error err => ({ error := err }, svc)
    | .ok parent =>
    match parseOptionalHash req.record.snapshotBaseStateId "snapshot_base_state_id" with
    | .error err => ({ error := err }, svc)
    | .ok base =>
    match parseOptionalHash req.record.payloadRef "payload_ref" with
    | .error err => ({ error := err }, svc)
    | .ok payload =>
    match parseOptionalHash req.record.unionStateId "union_state_id" with
    | .error err => ({ error := err }, svc)
    | .ok _ =>
    match if req.sync then checkAnchors svc.store parent base payload else none with
    | some err => ({ error := err }, svc)
    | none => svc.appendRecord req payload

end

/-- `describe`. -/
def describe (svc : AgentStateService) (stateId : Bytes) : Except String AgentStateRecord :=
  match hexToHashStrict stateId with
  | none => .error "invalid state_id"
  | some id => readAgentStateRecord svc.store id

/-- `latest`. -/
def latest (svc : AgentStateService) (agentId branch : Bytes) : Except String AgentStateRecord :=
  if !isValidStateRefComponent agentId then .error "invalid agent_id"
  else if !isValidStateRefComponent branch then .error "invalid branch name"
  else
    match svc.disk.refs.file agentId branch with
    | none =>
        .error ("no latest ref for agent_id='" ++ nameText agentId ++ "' branch='" ++
          nameText branch ++ "'")
    | some body =>
        match hexToHashStrict (trimTrailing body) with
        | none => .error "latest ref contents are not a valid state_id"
        | some id => readAgentStateRecord svc.store id

end AgentStateService

/-- The loop of `restore_session` with `budget` records left to visit; `anchor` is the snapshot base
of the first record, once that is read.  The chain starts at the record asked for. -/
def restoreChain (s : ObjectStore) : Nat → Option Bytes → Hash → Except String (List AgentStateRecord)
  | 0, _, _ =>
      .error "session chain exceeds max_depth before reaching a snapshot base or root"
  | budget + 1, anchor, cur =>
      match readAgentStateRecord s cur with
      | .error err => .error (if err = "" then "parent_state_id not readable" else err)
      | .ok rec =>
          let anchor := anchor.getD rec.snapshotBaseStateId
          if (anchor ≠ [] ∧ rec.stateId = anchor) ∨ rec.parentStateId = [] then .ok [rec]
          else
            match hexToHashStrict rec.parentStateId with
            | none => .error "invalid parent_state_id hash in chain"
            | some next => (restoreChain s budget (some anchor) next).map (rec :: ·)

/-- `restore_session`. -/
def AgentStateService.restoreSession (svc : AgentStateService) (stateId : Bytes) (maxDepth : Nat) :
    Except String (List AgentStateRecord) :=
  match hexToHashStrict stateId with
  | none => .error "invalid state_id"
  | some start => restoreChain svc.store maxDepth none start

/-! ## What a request asks for -/

namespace AgentStateAppendRequest

/-- The payload a request names. -/
def payload (req : AgentStateAppendRequest) : Option Hash := hexToHashStrict req.record.payloadRef

/-- The dependencies of the record that `append` writes. -/
def dependencies (req : AgentStateAppendRequest) : List Hash :=
  dependencySet req.dependencyHashes req.payload

/-- The record that `append` writes. -/
def appended (req : AgentStateAppendRequest) : AgentStateRecord :=
  { req.record with dependencyHashes := req.dependencies }

/-- The parent, the snapshot base and the payload of a request can be read. -/
structure AnchorsReadable (req : AgentStateAppendRequest) (s : ObjectStore) : Prop where
  parent : ∃ h rec, hexToHashStrict req.record.parentStateId = some h ∧
    readAgentStateRecord s h = .ok rec
  base : ∃ h rec, hexToHashStrict req.record.snapshotBaseStateId = some h ∧
    readAgentStateRecord s h = .ok rec
  payload : req.record.payloadRef ≠ [] → ∃ h data, hexToHashStrict req.record.payloadRef = some h ∧
    s.readBlob h = some data

end AgentStateAppendRequest

/-! ## How an append ends -/

theorem parseOptionalHash_ok {value : Bytes} {name : String} {h : Option Hash}
    (hp : parseOptionalHash value name = .ok h) :
    h = hexToHashStrict value ∧ isValidStateId value = true ∧ (value ≠ [] → h.isSome = true) := by
  unfold parseOptionalHash at hp
  by_cases hv : value = []
  · subst hv
    cases hp
    exact ⟨rfl, rfl, fun hne => absurd rfl hne⟩
  · rw [if_neg hv] at hp
    cases hh : hexToHashStrict value with
    | none =>
        rw [hh] at hp
        cases hp
    | some h' =>
        rw [hh] at hp
        cases hp
        refine ⟨rfl, ?_, fun _ => rfl⟩
        have hhex : isHexHash value = true := by
          by_contra hno
          rw [hexToHashStrict, if_neg hno] at hh
          cases hh
        rw [isValidStateId, hhex, Bool.or_true]

theorem checkAnchors_eq_none {s : ObjectStore} {parent base payload : Option Hash}
    (h : AgentStateService.checkAnchors s parent base payload = none) :
    ∃ p b rp rb, parent = some p ∧ base = some b ∧ readAgentStateRecord s p = .ok rp ∧
      readAgentStateRecord s b = .ok rb ∧ ∀ k ∈ payload, ∃ data, s.readBlob k = some data := by
  obtain _ | p := parent
  · cases h
  obtain _ | b := base
  · cases h
  simp only [AgentStateService.checkAnchors] at h
  cases hp : readAgentStateRecord s p with
  | error err =>
      rw [hp] at h
      cases h
  | ok rp =>
      cases hb : readAgentStateRecord s b with
      | error err =>
          rw [hp, hb] at h
          cases h
      | ok rb =>
          rw [hp, hb] at h
          refine ⟨p, b, rp, rb, rfl, rfl, hp, hb, fun k hk => ?_⟩
          by_contra hno
          have hnone : s.readBlob k = none := by
            cases hk' : s.readBlob k with
            | none => rfl
            | some data => exact absurd ⟨data, hk'⟩ hno
          have hany : payload.any (fun h => (s.readBlob h).isNone) = true := by
            rw [Option.mem_def] at hk
            rw [hk, Option.any_some, hnone]
            rfl
          simp only [hany, if_true] at h
          cases h

section Spec

variable [Blake3]

/-- An append that has written its record `id`; `store'` is the store right after. -/
structure Appended (svc : AgentStateService) (req : AgentStateAppendRequest) (store' : ObjectStore)
    (id : Hash) : Prop where
  agent : isValidStateRefComponent req.record.agentId = true
  branch : isValidStateRefComponent req.record.branch = true
  valid : req.appended.Valid
  anchors : req.sync = true → req.AnchorsReadable svc.store
  grows : Grows svc.store store'
  written : RecordWritten store' req.appended req.dependencies req.sync id

/-- How an append ends: before its record is written, or after it without a ref, with the ref
published, or with a publication that failed somewhere. -/
inductive AppendOutcome (svc : AgentStateService) (req : AgentStateAppendRequest) :
    AgentStateAppendResult × AgentStateService → Prop
  | refused {err : String} {store' : ObjectStore} (grows : Grows svc.store store') :
      AppendOutcome svc req ({ error := err }, { svc with store := store' })
  | logicalOnly {store' : ObjectStore} {id : Hash} (unsynced : req.sync = false)
      (appended : Appended svc req store' id) :
      AppendOutcome svc req
        ({ ok := true, stateId := hashToHex id, durability := "logical_only" },
          { svc with store := store' })
  | published {store' : ObjectStore} {disk' : LatestDisk} {id : Hash} (synced : req.sync = true)
      (appended : Appended svc req store' id)
      (publish : svc.disk.publishLatestRef req.record.agentId req.record.branch (hashToHex id) =
        (none, disk')) :
      AppendOutcome svc req
        ({ ok := true, stateId := hashToHex id, durability := "durable" }, ⟨store', disk'⟩)
  | unpublished {store' : ObjectStore} {disk' : LatestDisk} {id : Hash} {err : String}
      (synced : req.sync = true) (appended : Appended svc req store' id)
      (publish : svc.disk.publishLatestRef req.record.agentId req.record.branch (hashToHex id) =
        (some err, disk')) :
      AppendOutcome svc req
        ({ stateId := hashToHex id, durability := "durable"
           error := "state published but latest ref failed: " ++ err }, ⟨store', disk'⟩)

theorem appendRecord_cases {svc : AgentStateService} {req : AgentStateAppendRequest}
    (hagent : isValidStateRefComponent req.record.agentId = true)
    (hbranch : isValidStateRefComponent req.record.branch = true)
    (hvalid : (∀ h ∈ req.dependencies, h ≠ zeroHash) → req.appended.Valid)
    (hanchors : req.sync = true → req.AnchorsReadable svc.store) :
    AppendOutcome svc req (svc.appendRecord req req.payload) := by
  obtain ⟨hgrows, hwritten⟩ :=
    writeAgentStateRecord_cases svc.store req.record req.dependencies req.sync
  unfold AgentStateService.appendRecord
  rw [show dependencySet req.dependencyHashes req.payload = req.dependencies from rfl]
  generalize writeAgentStateRecord svc.store req.record req.dependencies req.sync = w
    at hgrows hwritten ⊢
  obtain ⟨err | id, store'⟩ := w
  · exact .refused hgrows
  have hrec := hwritten id rfl
  have happended : Appended svc req store' id :=
    ⟨hagent, hbranch, hvalid hrec.dependencies, hanchors, hgrows, hrec⟩
  cases hsync : req.sync with
  | false => exact .logicalOnly hsync happended
  | true =>
      simp only [if_true]
      cases hp : svc.disk.publishLatestRef req.record.agentId req.record.branch (hashToHex id) with
      | mk err disk' =>
          obtain _ | err := err
          · exact .published hsync happended hp
          · exact .unpublished hsync happended hp

theorem append_cases (svc : AgentStateService) (req : AgentStateAppendRequest) :
    AppendOutcome svc req (svc.append req) := by
  have refused : ∀ {err : String}, AppendOutcome svc req ({ error := err }, svc) :=
    .refused (.of_published (.refl _))
  unfold AgentStateService.append
  split
  · exact refused
  rename_i hagent
  split
  · exact refused
  rename_i hbranch
  cases hparent : parseOptionalHash req.record.parentStateId "parent_state_id" with
  | error err => exact refused
  | ok parent =>
  cases hbase : parseOptionalHash req.record.snapshotBaseStateId "snapshot_base_state_id" with
  | error err => exact refused
  | ok base =>
  cases hpayload : parseOptionalHash req.record.payloadRef "payload_ref" with
  | error err => exact refused
  | ok payload =>
  cases hunion : parseOptionalHash req.record.unionStateId "union_state_id" with
  | error err => exact refused
  | ok union =>
  simp only
  obtain ⟨hp, hpv, -⟩ := parseOptionalHash_ok hparent
  obtain ⟨hb, hbv, -⟩ := parseOptionalHash_ok hbase
  obtain ⟨hl, hlv, hlne⟩ := parseOptionalHash_ok hpayload
  obtain ⟨-, huv, -⟩ := parseOptionalHash_ok hunion
  split
  · exact refused
  rename_i hcheck
  rw [show payload = req.payload from hl] at hcheck hlne ⊢
  refine appendRecord_cases (by simpa using hagent) (by simpa using hbranch)
    (fun hdeps => ⟨hpv, hbv, huv, hlv, hdeps⟩) fun hsync => ?_
  rw [hsync, if_pos rfl] at hcheck
  obtain ⟨p, b, rp, rb, hps, hbs, hrp, hrb, hreads⟩ := checkAnchors_eq_none hcheck
  refine ⟨⟨p, rp, hp.symm.trans hps, hrp⟩, ⟨b, rb, hb.symm.trans hbs, hrb⟩, fun hne => ?_⟩
  obtain ⟨k, hk⟩ := Option.isSome_iff_exists.1 (hlne hne)
  obtain ⟨data, hdata⟩ := hreads k hk
  exact ⟨k, data, hk, hdata⟩

end Spec

/-! ## What `describe` reads -/

theorem AgentStateService.describe_hashToHex (svc : AgentStateService) (id : Hash) :
    svc.describe (hashToHex id) = readAgentStateRecord svc.store id := by
  unfold AgentStateService.describe
  rw [hexToHashStrict_hashToHex]

/-- Whatever id an append answers with, also where its ref was not published, `describe` finds the
record under it. -/
theorem AgentStateService.describe_append [Blake3] {svc svc' : AgentStateService}
    {req : AgentStateAppendRequest} {result : AgentStateAppendResult}
    (happend : svc.append req = (result, svc')) (hid : result.stateId ≠ [])
    (hcollided : svc'.store.collided = false) (hfits : req.appended.serialize.length < 2 ^ 64) :
    svc'.describe result.stateId = .ok { req.appended with stateId := result.stateId } := by
  have hcases := append_cases svc req
  rw [happend] at hcases
  cases hcases with
  | refused grows => exact absurd rfl hid
  | logicalOnly unsynced appended =>
      rw [describe_hashToHex]
      exact appended.written.read hcollided hfits appended.valid
  | published synced appended publish =>
      rw [describe_hashToHex]
      exact appended.written.read hcollided hfits appended.valid
  | unpublished synced appended publish =>
      rw [describe_hashToHex]
      exact appended.written.read hcollided hfits appended.valid

/-! ## What `latest` reads -/

theorem trimTrailing_hashToHex (h : Hash) : trimTrailing (hashToHex h) = hashToHex h := by
  have hspace : ∀ c : UInt8, (hexVal c).isSome = true →
      (c == 10 || c == 13 || c == 32 || c == 9) = false := by
    intro c hc
    by_contra hno
    simp only [Bool.not_eq_false, Bool.or_eq_true, beq_iff_eq] at hno
    rcases hno with ((rfl | rfl) | rfl) | rfl <;> cases hc
  have hall : ∀ c ∈ hashToHex h, (hexVal c).isSome = true := by
    have hhex := isHexHash_hashToHex h
    rw [isHexHash, Bool.and_eq_true] at hhex
    exact List.all_eq_true.1 hhex.2
  unfold trimTrailing
  rw [List.dropWhile_eq_self_iff.2, List.reverse_reverse]
  intro hlen
  rw [Bool.not_eq_true]
  exact hspace _ (hall _ (List.mem_reverse.1 (List.getElem_mem hlen)))

/-- The record a ref with a full id leads to. -/
theorem latest_of_file {svc : AgentStateService} {agent branch : Bytes} {id : Hash}
    (hagent : isValidStateRefComponent agent = true)
    (hbranch : isValidStateRefComponent branch = true)
    (hfile : svc.disk.refs.file agent branch = some (hashToHex id)) :
    svc.latest agent branch = readAgentStateRecord svc.store id := by
  unfold AgentStateService.latest
  rw [hagent, hbranch, hfile]
  simp only [Bool.not_true, Bool.false_eq_true, if_false, trimTrailing_hashToHex,
    hexToHashStrict_hashToHex]

end ContextFS
