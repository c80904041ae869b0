import ContextFS.Lib.Traversal
import ContextFS.Store.Refs
import ContextFS.State.RuntimeState
import ContextFS.Tree.Rebuild

/-!
# The mark phase of the garbage collector

Marking starts from the branch refs, the latest refs of the agents, the live union states and
the hashes the daemon holds.  Commits are followed through all their parents; whether a
commit's tree is kept is decided on the way and carried out at the end.  Agent-state and
union-state records refer to each other and to commits and are walked together.

Everything fails closed: the first object that cannot be read stops the phase.
-/

namespace ContextFS

open Std Lib ObjectStore

/-- `GcPolicy`; data is compacted only when `keepLast` is set. -/
structure GcPolicy where
  keepLast : Option UInt32 := none
  keepLabels : List Bytes := []
  dryRun : Bool := false

/-- `GcLiveRoots`: what the daemon held when it took the snapshot. -/
structure GcLiveRoots where
  expectedBranchRefs : List Bytes := []
  wtHashes : List Hash := []
  fhBlobHashes : List Hash := []
  fhPinnedCommits : List Hash := []
  pending : List Hash := []
  runtimeUnionStates : List Hash := []

/-- `GcResult` without the duration. -/
structure GcResult where
  ok : Bool := false
  error : String := ""
  rootsBranches : Nat := 0
  rootsStateRefs : Nat := 0
  rootsRuntimeStates : Nat := 0
  markedObjects : Nat := 0
  markedBytes : Nat := 0
  sweptObjects : Nat := 0
  sweptBytes : Nat := 0
  sweepErrors : Nat := 0
  compactedCommits : Nat := 0
  missingObjects : Nat := 0
  missing : List Hash := []

/-- How marking stops: an error text, with the hash `record_missing_hash` noted if any. -/
inductive MarkStop
  | outOfFuel
  | failed (text : String) (missing : Option Hash)

/-- The marked set, the commits whose data is to be marked, the compaction candidates and the
visited sets of `MarkTraversal`. -/
structure MarkState where
  marked : HashSet := ∅
  retainedData : List Hash := []
  compactedCandidates : HashSet := ∅
  trees : HashSet := ∅
  stateRecords : HashSet := ∅
  unionStates : HashSet := ∅

namespace MarkState

/-- `marked.insert(h)`. -/
def mark (h : Hash) (st : MarkState) : MarkState := { st with marked := st.marked.insert h }

/-- `marked.insert(h)` for every hash of a list. -/
def markAll (hs : List Hash) (st : MarkState) : MarkState :=
  { st with marked := st.marked.insertMany hs }

end MarkState

/-- `hash_to_hex` as text. -/
def hexText (h : Hash) : String := bytesText (hashToHex h)

/-- An action that fails. -/
def failTask {α : Type} (text : String) (missing : Option Hash) : Task α MarkState MarkStop :=
  .act fun _ => .error (.failed text missing)

section Store

variable (s : ObjectStore)

/-- `record_missing_hash`. -/
def missingHash (h : Hash) : Option Hash := if s.objectExists h then none else some h

/-- One entry of a tree object in `mark_tree_recursive`. -/
def treeEntryTask (c : DirEntry) : Task Hash MarkState MarkStop :=
  if c.2.kind = .tree then .visit c.2.hash
  else if c.2.kind ≠ .deleted ∧ c.2.hash ≠ zeroHash then .act fun st => .ok (st.mark c.2.hash)
  else .act fun st => .ok st

/-- The loop of `mark_tree_recursive` over the entries of a tree object. -/
def treeEntryTasks (h : Hash) : List (Task Hash MarkState MarkStop) :=
  match s.readTree h with
  | none => [failTask ("mark: tree object missing: " ++ hexText h) (missingHash s h)]
  | some body =>
      match deserializeTreeEntries body with
      | none => [failTask ("mark: corrupt tree object: " ++ hexText h) none]
      | some es => es.map treeEntryTask

/-- `mark_tree_recursive`. -/
def treeWalk : Walk Hash MarkState MarkStop where
  seen h st := st.trees.contains h
  note h st := { st with trees := st.trees.insert h }
  tasks h := .act (fun st => .ok (st.mark h)) :: treeEntryTasks s h
  stuck := .outOfFuel

/-- The commit at `h`, or the error of the mark phase. -/
def markReadCommit (h : Hash) : Except MarkStop CommitData :=
  match s.readObject h .commit with
  | none => .error (.failed ("mark: commit object missing: " ++ hexText h) (missingHash s h))
  | some body =>
      match deserializeCommit body with
      | .error _ => .error (.failed ("mark: corrupt commit: " ++ hexText h) none)
      | .ok cd => .ok cd

/-- `mark_commit_data`. -/
def markCommitData (fuel : Nat) (commit : Hash) (st : MarkState) : Except MarkStop MarkState :=
  match markReadCommit s commit with
  | .error e => .error e
  | .ok cd => (treeWalk s).run fuel cd.treeHash st

/-- The first pass of `mark_commit_chain`: at most `n` commits along first parents. -/
def keepLastWindow : Nat → Hash → List Hash
  | 0, _ => []
  | n + 1, cursor =>
      cursor ::
        match s.readCommit cursor with
        | none => []
        | some cd =>
            match cd.parents with
            | [] => []
            | p :: _ => keepLastWindow n p

/-- Whether `mark_commit_chain` keeps the data of a commit it reaches. -/
def retainsData (policy : GcPolicy) (head : Hash) (window : List Hash) (cur : Hash)
    (cd : CommitData) : Bool :=
  match policy.keepLast with
  | none => true
  | some _ => cur = head || window.contains cur || policy.keepLabels.contains cd.label

/-- The window of a branch head; state and runtime roots have none. -/
def chainWindow (policy : GcPolicy) (applyKeepLastWindow : Bool) (head : Hash) : List Hash :=
  match policy.keepLast with
  | none => []
  | some n => if applyKeepLastWindow then keepLastWindow s (max 1 n.toNat) head else []

/-- The second pass of `mark_commit_chain`, over all parents. -/
def chainWorklist (policy : GcPolicy) (head : Hash) (window : List Hash) :
    Worklist Hash MarkState MarkStop where
  expand cur st :=
    match markReadCommit s cur with
    | .error e => .error e
    | .ok cd =>
        let st := st.mark cur
        if retainsData policy head window cur cd then
          .ok (cd.parents, { st with retainedData := st.retainedData ++ [cur] })
        else
          .ok (cd.parents, { st with compactedCandidates := st.compactedCandidates.insert cur })
  stuck := .outOfFuel

/-- `mark_commit_chain`. -/
def markCommitChain (fuel : Nat) (policy : GcPolicy) (applyKeepLastWindow : Bool) (head : Hash)
    (st : MarkState) : Except MarkStop MarkState :=
  (chainWorklist s policy head (chainWindow s policy applyKeepLastWindow head)).run fuel [head] [] st

/-- A record of either kind. -/
inductive RecordRef
  | state (id : Hash)
  | union (id : Hash)
deriving DecidableEq

/-- `mark_required_hex_blob`. -/
def markRequiredHexBlob (hex : Bytes) (st : MarkState) : Except MarkStop MarkState :=
  if hex = [] then .ok st
  else
    match hexToHashStrict hex with
    | none => .error (.failed ("malformed object id: " ++ bytesText hex) none)
    | some h => .ok (st.mark h)

/-- `mark_opaque_cas_ref`. -/
def markOpaqueCasRef (value : Bytes) (st : MarkState) : MarkState :=
  match hexToHashStrict value with
  | none => st
  | some h => st.mark h

/-- The commit a record is linked to. -/
def markLinkedCommit (fuel : Nat) (policy : GcPolicy) (fsCommit : Hash) (st : MarkState) :
    Except MarkStop MarkState :=
  if fsCommit = zeroHash then .ok st else markCommitChain s fuel policy false fsCommit st

/-- A reference to another record, empty when there is none. -/
def linkTask (mk : Hash → RecordRef) (hex : Bytes) (errorText : String) :
    List (Task RecordRef MarkState MarkStop) :=
  if hex = [] then []
  else
    match hexToHashStrict hex with
    | some h => [.visit (mk h)]
    | none => [failTask errorText none]

/-- The body of `mark_state_record`. -/
def stateRecordTasks (fuel : Nat) (policy : GcPolicy) (id : Hash) :
    List (Task RecordRef MarkState MarkStop) :=
  match readAgentStateRecord s id with
  | .error rerr =>
      [failTask ("mark: state record unreadable: " ++ hexText id ++ ": " ++ rerr) (missingHash s id)]
  | .ok rec =>
      [.act fun st => .ok (st.mark id), .act (markRequiredHexBlob rec.payloadRef),
        .act fun st => .ok (st.markAll rec.dependencyHashes),
        .act (markLinkedCommit s fuel policy rec.fsCommit)] ++
      (linkTask .union rec.unionStateId ("mark: malformed union_state_id on " ++ hexText id) ++
        (linkTask .state rec.parentStateId ("mark: malformed state id on " ++ hexText id) ++
          linkTask .state rec.snapshotBaseStateId ("mark: malformed state id on " ++ hexText id)))

/-- The body of `mark_union_state`. -/
def unionStateTasks (fuel : Nat) (policy : GcPolicy) (id : Hash) :
    List (Task RecordRef MarkState MarkStop) :=
  match readUnionRuntimeState s id with
  | .error rerr =>
      [failTask ("mark: union state unreadable: " ++ hexText id ++ ": " ++ rerr) (missingHash s id)]
  | .ok us =>
      [.act fun st => .ok (st.mark id), .act (markLinkedCommit s fuel policy us.fsCommit),
        .act fun st => .ok (markOpaqueCasRef us.commandRef st),
        .act fun st => .ok (markOpaqueCasRef us.resourceManifestRef st)] ++
      (linkTask .state us.agentStateId ("mark: malformed agent_state_id on " ++ hexText id) ++
        linkTask .union us.parentUnionStateId "mark: malformed parent_union_state_id")

/-- `mark_state_record` and `mark_union_state`, which call each other. -/
def recordWalk (fuel : Nat) (policy : GcPolicy) : Walk RecordRef MarkState MarkStop where
  seen
    | .state id, st => st.stateRecords.contains id
    | .union id, st => st.unionStates.contains id
  note
    | .state id, st => { st with stateRecords := st.stateRecords.insert id }
    | .union id, st => { st with unionStates := st.unionStates.insert id }
  tasks
    | .state id => stateRecordTasks s fuel policy id
    | .union id => unionStateTasks s fuel policy id
  stuck := .outOfFuel

end Store

/-! ## The latest refs on disk -/

/-- An entry of `state/latest/<agent>`. -/
inductive StateRefFile
  | notRegular
  | inspectError (text : String)
  | regular (content : Bytes)

/-- An entry of `state/latest`. -/
inductive AgentDir
  | notDirectory
  | inspectError (text : String)
  | openError (text : String)
  | directory (refs : List (Bytes × StateRefFile)) (incrementError : Option String)

/-- `<store>/state/latest`; it need not exist. -/
structure LatestRoot where
  path : String := ""
  openError : Option String := none
  agents : List (Bytes × AgentDir) := []
  incrementError : Option String := none

/-- The words `operator>>` reads from a text. -/
def words (text : Bytes) : List Bytes :=
  ((text.splitOnP isSpace).filter (· ≠ []))

def markFail (text : String) : Except MarkStop Hash := .error (.failed text none)

/-- The id in a latest ref: one strict hexadecimal word and nothing else. -/
def latestRefId (path : String) (content : Bytes) : Except MarkStop Hash :=
  match words content with
  | [] => markFail ("mark: unreadable state latest ref: " ++ path)
  | [hex] =>
      match hexToHashStrict hex with
      | some id => .ok id
      | none => markFail ("mark: malformed state latest ref: " ++ path)
  | _ => markFail ("mark: malformed state latest ref: " ++ path)

/-- The ids in one agent's directory, in the order of the enumeration. -/
def agentLatestIds (root : LatestRoot) (agent : Bytes) : AgentDir → List (Except MarkStop Hash)
  | .notDirectory => []
  | .inspectError text => [markFail ("mark: inspect state/latest entry failed: " ++ text)]
  | .openError text => [markFail ("mark: enumerate state/latest agent failed: " ++ text)]
  | .directory refs incrementError =>
      refs.flatMap (fun f =>
        match f.2 with
        | .notRegular => []
        | .inspectError text => [markFail ("mark: inspect state latest ref failed: " ++ text)]
        | .regular content =>
            [latestRefId (root.path ++ "/" ++ bytesText agent ++ "/" ++ bytesText f.1) content]) ++
      (incrementError.toList.map fun text =>
        markFail ("mark: enumerate state/latest agent failed: " ++ text))

/-- All ids the scan of `state/latest` meets; it stops at the first error. -/
def latestIds (root : LatestRoot) : List (Except MarkStop Hash) :=
  match root.openError with
  | some text => [markFail ("mark: enumerate state/latest failed: " ++ text)]
  | none =>
      root.agents.flatMap (fun a => agentLatestIds root a.1 a.2) ++
        (root.incrementError.toList.map fun text =>
          markFail ("mark: enumerate state/latest failed: " ++ text))

/-! ## The whole phase -/

/-- Roots of one kind are counted and marked in order, up to the first error. -/
def markRoots {α : Type} (count : GcResult → GcResult)
    (markRoot : α → MarkState → Except MarkStop MarkState) :
    List (Except MarkStop α) → GcResult → MarkState → GcResult × Except MarkStop MarkState
  | [], r, st => (r, .ok st)
  | .error e :: _, r, _ => (r, .error e)
  | .ok a :: rest, r, st =>
      match markRoot a st with
      | .error e => (count r, .error e)
      | .ok st => markRoots count markRoot rest (count r) st

/-- The head of a branch whose ref was listed. -/
def branchHead (refs : Refs) (name : Bytes) : Except MarkStop Hash :=
  match refs.readRef name with
  | none => .error (.failed ("mark: unreadable ref: " ++ bytesText name) none)
  | some head => .ok head

/-- The data of the retained commits, in order. -/
def markRetained (s : ObjectStore) (fuel : Nat) :
    List Hash → MarkState → Except MarkStop MarkState
  | [], st => .ok st
  | c :: cs, st =>
      match markCommitData s fuel c st with
      | .error e => .error e
      | .ok st => markRetained s fuel cs st

/-- The hashes of the live snapshot. -/
def GcLiveRoots.hashes (live : GcLiveRoots) : List Hash :=
  live.wtHashes ++ live.fhBlobHashes ++ live.fhPinnedCommits ++ live.pending

/-- `mark_impl`. -/
def markImpl (fuel : Nat) (s : ObjectStore) (refs : Refs) (latest : LatestRoot)
    (live : GcLiveRoots) (policy : GcPolicy) : GcResult × Except MarkStop MarkState :=
  match refs.listRefs with
  | .error err => ({}, .error (.failed ("mark: " ++ err) none))
  | .ok names =>
      match live.expectedBranchRefs.find? fun expected => !names.contains expected with
      | some expected =>
          ({}, .error (.failed ("mark: expected branch ref missing: " ++ bytesText expected) none))
      | none =>
          match markRoots (fun r => { r with rootsBranches := r.rootsBranches + 1 })
              (markCommitChain s fuel policy true) (names.map (branchHead refs)) {} {} with
          | (r, .error e) => (r, .error e)
          | (r, .ok st) =>
              match markRoots (fun r => { r with rootsStateRefs := r.rootsStateRefs + 1 })
                  (fun id => (recordWalk s fuel policy).run fuel (.state id)) (latestIds latest)
                  r st with
              | (r, .error e) => (r, .error e)
              | (r, .ok st) =>
                  match markRoots
                      (fun r => { r with rootsRuntimeStates := r.rootsRuntimeStates + 1 })
                      (fun id => (recordWalk s fuel policy).run fuel (.union id))
                      (live.runtimeUnionStates.map .ok) r st with
                  | (r, .error e) => (r, .error e)
                  | (r, .ok st) =>
                      let st := st.markAll live.hashes
                      match markRetained s fuel st.retainedData st with
                      | .error e => (r, .error e)
                      | .ok st' =>
                          let compacted := st.compactedCandidates.toList.filter fun c =>
                            !st.retainedData.contains c
                          ({ r with compactedCommits := compacted.length }, .ok st')

end ContextFS
