import ContextFS.Gc.MarkSpec

/-!
# The sweep, and the collector as a whole

`run` reads the clock, marks, and then goes through the objects of the store once.  An object
is removed only if it is unmarked, was not touched in the two seconds before the clock was
read, and passes the removal's own checks of the pending set and the modification time.
-/

namespace ContextFS

open Std Lib ObjectStore MarkState

/-- The error text of a mark phase that failed. -/
def MarkStop.text : MarkStop → String
  | .outOfFuel => ""
  | .failed text _ => text

/-- `record_missing_hash` fills a list only when the mark phase fails. -/
def MarkStop.missingHashes : MarkStop → List Hash
  | .outOfFuel => []
  | .failed _ missing => missing.toList

/-- Error texts are joined while the first ones stay short. -/
def GcResult.appendError (r : GcResult) (text : String) : GcResult :=
  if r.error.utf8ByteSize < 2000 then
    { r with error := if r.error = "" then text else r.error ++ "; " ++ text }
  else r

/-- One object of the enumeration in `GcRunner::run`. -/
def sweepObject (st : MarkState) (markStart : Int) (policy : GcPolicy)
    (rs : GcResult × ObjectStore) (o : Hash × Nat × Int) : GcResult × ObjectStore :=
  let r := rs.1
  let s := rs.2
  if st.marked.contains o.1 then
    ({ r with markedObjects := r.markedObjects + 1, markedBytes := r.markedBytes + o.2.1 }, s)
  else if markStart ≤ o.2.2 + 2 then rs
  else if policy.dryRun then
    ({ r with sweptObjects := r.sweptObjects + 1, sweptBytes := r.sweptBytes + o.2.1 }, s)
  else
    match s.removeObjectIfOlderThan o.1 (markStart - 2) with
    | (.removed, s) =>
        ({ r with sweptObjects := r.sweptObjects + 1, sweptBytes := r.sweptBytes + o.2.1 }, s)
    | (.skipped, s) => (r, s)
    | (.error, s) => ({ r with sweepErrors := r.sweepErrors + 1 }.appendError s.lastError, s)

/-- `GcRunner::run`; `listing` is where the enumeration of the objects directory fails and
how, if it does. -/
def gcRun (fuel : Nat) (refs : Refs) (latest : LatestRoot) (live : GcLiveRoots)
    (policy : GcPolicy) (listing : Option (Nat × String)) (s : ObjectStore) :
    GcResult × ObjectStore :=
  let markStart := s.now
  match markImpl fuel s refs latest live policy with
  | (r, .error stop) => ({ r with error := stop.text }, s)
  | (r, .ok st) =>
      let objects :=
        match listing with
        | none => s.objectList
        | some (n, _) => s.objectList.take n
      let rs := objects.foldl (sweepObject st markStart policy) (r, s)
      match listing with
      | none => ({ rs.1 with ok := rs.1.sweepErrors = 0 }, rs.2)
      | some (_, err) =>
          ({ rs.1 with error := if rs.1.error = "" then err else rs.1.error ++ "; " ++ err }, rs.2)

/-- One marked object in `GcRunner::verify`. -/
def verifyObject (s : ObjectStore) (r : GcResult) (h : Hash) : GcResult :=
  let r := { r with markedObjects := r.markedObjects + 1 }
  if s.objectExists h then r
  else
    { r with
      missingObjects := r.missingObjects + 1
      missing := r.missing ++ [h]
      error :=
        if r.error.utf8ByteSize < 2000 then
          r.error ++ (if r.error = "" then "missing: " else ", ") ++ hexText h
        else r.error }

/-- `GcRunner::verify`. -/
def gcVerify (fuel : Nat) (s : ObjectStore) (refs : Refs) (latest : LatestRoot)
    (live : GcLiveRoots) (policy : GcPolicy) : GcResult :=
  match markImpl fuel s refs latest live policy with
  | (r, .error stop) =>
      { r with
        missing := stop.missingHashes
        missingObjects := stop.missingHashes.length
        error := stop.text }
  | (r, .ok st) =>
      let r := st.marked.toList.foldl (verifyObject s) r
      { r with
        missing := r.missing.insertionSort fun a b => compare a b ≠ .gt
        ok := r.missingObjects = 0 }

/-! ## What is to be kept -/

section Spec

variable (s : ObjectStore) (refs : Refs) (latest : LatestRoot) (live : GcLiveRoots)
  (policy : GcPolicy)

/-- `head` is the head of a branch. -/
def BranchHead (head : Hash) : Prop := ∃ name, refs.readRef name = some head

/-- A latest ref names the record `id`. -/
def LatestRecord (id : Hash) : Prop :=
  ∃ agent files err file content hex, (agent, AgentDir.directory files err) ∈ latest.agents ∧
    (file, StateRefFile.regular content) ∈ files ∧ words content = [hex] ∧
    hexToHashStrict hex = some id

/-- A record the collector starts from. -/
inductive RecordRoot : RecordRef → Prop
  | latest {id : Hash} (h : LatestRecord latest id) : RecordRoot (.state id)
  | live {id : Hash} (h : id ∈ live.runtimeUnionStates) : RecordRoot (.union id)

/-- A record reached from the roots through parent, base, union and agent-state links. -/
def RecordReachable (r : RecordRef) : Prop :=
  ∃ root, RecordRoot latest live root ∧ Relation.ReflTransGen (RecordLink s) root r

/-- A commit whose history is kept: a branch head or the commit of a reachable record. -/
inductive CommitRoot : Hash → Prop
  | branch {head : Hash} (h : BranchHead refs head) : CommitRoot head
  | record {r : RecordRef} {c : Hash} (h : RecordReachable s latest live r)
      (hc : RecordCommit s r c) : CommitRoot c

/-- A commit whose data is kept. -/
inductive DataRetained : Hash → Prop
  | head {head : Hash} (h : BranchHead refs head) : DataRetained head
  | window {head c : Hash} {n : UInt32} {k : Nat} (h : BranchHead refs head)
      (hn : policy.keepLast = some n) (hk : k < max 1 n.toNat)
      (hc : FirstParentSteps s k head c) : DataRetained c
  | label {root c : Hash} {cd : CommitData} (h : CommitRoot s refs latest live root)
      (hc : History s root c) (hcd : s.readCommit c = some cd)
      (hl : cd.label ∈ policy.keepLabels) : DataRetained c
  | record {r : RecordRef} {c : Hash} (h : RecordReachable s latest live r)
      (hc : RecordCommit s r c) : DataRetained c
  | all {root c : Hash} (h : CommitRoot s refs latest live root) (hc : History s root c)
      (hn : policy.keepLast = none) : DataRetained c

/-- The marked set holds everything to be kept. -/
structure MarkComplete (st : MarkState) : Prop where
  history : ∀ {root c : Hash}, CommitRoot s refs latest live root → History s root c →
    c ∈ st.marked
  data : ∀ {c : Hash}, DataRetained s refs latest live policy c →
    ∃ cd, s.readCommit c = some cd ∧ TreeMarked s st cd.treeHash
  records : ∀ {r : RecordRef}, RecordReachable s latest live r →
    ∀ {h : Hash}, RecordObject s r h → h ∈ st.marked
  live : ∀ h ∈ live.hashes, h ∈ st.marked

end Spec

/-! ## The phase marks all of it -/

variable {s : ObjectStore} {refs : Refs} {latest : LatestRoot} {live : GcLiveRoots}
  {policy : GcPolicy}

/-- The stages of a mark phase that succeeded. -/
theorem markImpl_ok {fuel : Nat} {r : GcResult} {st : MarkState}
    (h : markImpl fuel s refs latest live policy = (r, .ok st)) :
    ∃ names r₁ st₁ r₂ st₂ r₃ st₃, refs.listRefs = .ok names ∧ latest.openError = none ∧
      markRoots (fun r => { r with rootsBranches := r.rootsBranches + 1 })
        (markCommitChain s fuel policy true) (names.map (branchHead refs)) {} {} = (r₁, .ok st₁) ∧
      markRoots (fun r => { r with rootsStateRefs := r.rootsStateRefs + 1 })
        (fun id => (recordWalk s fuel policy).run fuel (.state id)) (latestIds latest) r₁ st₁ =
          (r₂, .ok st₂) ∧
      markRoots (fun r => { r with rootsRuntimeStates := r.rootsRuntimeStates + 1 })
        (fun id => (recordWalk s fuel policy).run fuel (.union id))
        (live.runtimeUnionStates.map .ok) r₂ st₂ = (r₃, .ok st₃) ∧
      markRetained s fuel (st₃.markAll live.hashes).retainedData (st₃.markAll live.hashes) =
        .ok st := by
  unfold markImpl at h
  cases hnames : refs.listRefs with
  | error err => simp [hnames] at h
  | ok names =>
      simp only [hnames] at h
      split at h
      · cases h
      · split at h
        · cases h
        · rename_i r₁ st₁ h₁
          split at h
          · cases h
          · rename_i r₂ st₂ h₂
            split at h
            · cases h
            · rename_i r₃ st₃ h₃
              split at h
              · cases h
              · rename_i st' h₄
                cases h
                refine ⟨names, r₁, st₁, r₂, st₂, r₃, st₃, rfl, ?_, h₁, h₂, h₃, h₄⟩
                cases hopen : latest.openError with
                | none => rfl
                | some text =>
                    obtain ⟨a, ha⟩ := exists_ok_of_markRoots h₂
                      (markFail ("mark: enumerate state/latest failed: " ++ text))
                      (by simp [latestIds, hopen])
                    cases ha

theorem mem_latestIds {id : Hash} (hopen : latest.openError = none)
    (h : LatestRecord latest id) : .ok id ∈ latestIds latest := by
  obtain ⟨agent, files, err, file, content, hex, hagent, hfile, hwords, hhex⟩ := h
  unfold latestIds
  rw [hopen]
  refine List.mem_append_left _ (List.mem_flatMap.2 ⟨_, hagent, ?_⟩)
  refine List.mem_append_left _ (List.mem_flatMap.2 ⟨_, hfile, ?_⟩)
  simp [latestRefId, hwords, hhex]

theorem mem_listRefs {names : List Bytes} (hnames : refs.listRefs = .ok names) {name : Bytes}
    {head : Hash} (h : refs.readRef name = some head) : name ∈ names := by
  unfold Refs.listRefs at hnames
  split at hnames
  · cases hnames
  · cases hnames
    rw [ExtTreeMap.mem_keys, ExtTreeMap.mem_iff_isSome_getElem?]
    unfold Refs.readRef at h
    cases hf : refs.files[name]? with
    | none => simp [hf] at h
    | some content => rfl

/-- Every visited record is done, and no tree has been visited. -/
def RecordsDone (s : ObjectStore) (fuel : Nat) (policy : GcPolicy) (st : MarkState) : Prop :=
  (∀ r, (recordWalk s fuel policy).seen r st → (recordWalk s fuel policy).Done Le st r) ∧
    st.trees = ∅

/-- What the stages of a mark phase leave: `st₃` is the state before the data of the retained
commits is marked, `st` the last one. -/
structure Walked (s : ObjectStore) (refs : Refs) (latest : LatestRoot) (live : GcLiveRoots)
    (policy : GcPolicy) (fuel : Nat) (st₃ st : MarkState) : Prop where
  grew : Le (st₃.markAll live.hashes) st
  records : ∀ {r : RecordRef}, RecordReachable s latest live r →
    (recordWalk s fuel policy).Done Le st₃ r
  chains : ∀ {name : Bytes} {head : Hash}, refs.readRef name = some head →
    ChainMarked s policy (chainWindow s policy true head) head st₃
  data : ∀ c ∈ st₃.retainedData, ∃ cd, s.readCommit c = some cd ∧ (treeWalk s).seen cd.treeHash st
  trees : ∀ x, (treeWalk s).seen x st → (treeWalk s).Done Le st x

theorem walked_of_ok {fuel : Nat} {r : GcResult} {st : MarkState}
    (h : markImpl fuel s refs latest live policy = (r, .ok st)) :
    ∃ st₃, Walked s refs latest live policy fuel st₃ st := by
  obtain ⟨names, r₁, st₁, r₂, st₂, r₃, st₃, hnames, hopen, h₁, h₂, h₃, h₄⟩ := markImpl_ok h
  have hlaws := recordWalk_laws s fuel policy
  -- branch refs: chains only, so no tree and no record is visited
  obtain ⟨hle₁, hsame, hheads⟩ := markRoots_spec (I := fun u => SameVisited {} u)
    (fun _ _ _ hu => (markCommitChain_spec hu).1.1)
    (fun _ _ _ hsame hu => hsame.trans (markCommitChain_spec hu).1.2) h₁ ⟨rfl, rfl, rfl⟩
  -- records: every visited one is done, and still no tree is visited
  have hwalk : ∀ {x u u'}, (recordWalk s fuel policy).run fuel x u = .ok u' →
      (RecordsDone s fuel policy u → RecordsDone s fuel policy u') ∧ Le u u' := by
    intro x u u' hu
    obtain ⟨hprog, -⟩ := Walk.run_spec hlaws hu
    refine ⟨fun hI => ⟨hprog.done_all hlaws hI.1, ?_⟩, hprog.grew⟩
    refine Walk.run_invariant (P := fun v => v.trees = ∅) ?_ ?_ hu hI.2
    · intro r v hv
      cases r <;> exact hv
    · intro r f v v' hf hok hv
      exact (recordWalk_act hf hok).2.1.trans hv
  have hnone : RecordsDone s fuel policy st₁ := by
    obtain ⟨htrees, hstates, hunions⟩ := hsame
    refine ⟨fun r hr => ?_, htrees⟩
    cases r with
    | state id => simp [recordWalk, hstates] at hr
    | union id => simp [recordWalk, hunions] at hr
  obtain ⟨hle₂, hdone₂, hlatest⟩ := markRoots_spec (fun _ _ _ hu => (hwalk hu).2)
    (fun _ _ _ hI hu => (hwalk hu).1 hI) h₂ hnone
  obtain ⟨hle₃, hdone₃, hunions⟩ := markRoots_spec (fun _ _ _ hu => (hwalk hu).2)
    (fun _ _ _ hI hu => (hwalk hu).1 hI) h₃ hdone₂
  -- data of the retained commits
  obtain ⟨hle₅, htrees, hdata⟩ := markRetained_spec h₄ (fun x hx => by
    have hempty : (st₃.markAll live.hashes).trees = ∅ := hdone₃.2
    simp [treeWalk, hempty] at hx)
  refine ⟨st₃, hle₅, fun {r} hr => ?_, fun {name head} hhead => ?_, hdata, htrees⟩
  · obtain ⟨root, hroot, hreach⟩ := hr
    have hseen : (recordWalk s fuel policy).seen root st₃ := by
      cases hroot with
      | latest hid =>
          obtain ⟨u, u', hu, hle'⟩ := hlatest _ (mem_latestIds hopen hid)
          exact hlaws.seen_mono (hle'.trans hle₃) (Walk.run_spec hlaws hu).2
      | live hid =>
          obtain ⟨u, u', hu, hle'⟩ := hunions _ (List.mem_map_of_mem hid)
          exact hlaws.seen_mono hle' (Walk.run_spec hlaws hu).2
    have hleads := Relation.ReflTransGen.mono
      (fun _ _ hlink => leads_of_recordLink fuel policy hlink) _ _ hreach
    exact hdone₃.1 r (Walk.seen_of_reachable hdone₃.1 hseen hleads)
  · have hmem : Except.ok head ∈ names.map (branchHead refs) :=
      List.mem_map.2 ⟨name, mem_listRefs hnames hhead, by simp [branchHead, hhead]⟩
    obtain ⟨u, u', hu, hle'⟩ := hheads head hmem
    exact (markCommitChain_spec hu).2.mono ((hle'.trans hle₂).trans hle₃)

/-- Whichever way a history is kept, its chain was marked. -/
theorem Walked.chain_of_root {fuel : Nat} {st₃ st : MarkState}
    (h : Walked s refs latest live policy fuel st₃ st) {root : Hash}
    (hroot : CommitRoot s refs latest live root) : ∃ window, ChainMarked s policy window root st₃ := by
  cases hroot with
  | branch hb =>
      obtain ⟨name, hname⟩ := hb
      exact ⟨_, h.chains hname⟩
  | record hr hc => exact ⟨_, (recordMarked_of_done (h.records hr)).commit hc⟩

/-- The data of a commit that is to be kept was scheduled. -/
theorem Walked.mem_retainedData {fuel : Nat} {st₃ st : MarkState}
    (h : Walked s refs latest live policy fuel st₃ st) {c : Hash}
    (hc : DataRetained s refs latest live policy c) : c ∈ st₃.retainedData := by
  cases hc with
  | head hb =>
      obtain ⟨name, hname⟩ := hb
      exact (h.chains hname).mem_retainedData .refl fun cd _ => retainsData_head _ _ _ cd
  | @window head _ n k hb hn hk hsteps =>
      obtain ⟨name, hname⟩ := hb
      refine (h.chains hname).mem_retainedData hsteps.history fun cd _ => ?_
      have hin := mem_keepLastWindow hsteps hk
      simp [retainsData, chainWindow, hn, hin]
  | label hroot hhist hcd hl =>
      obtain ⟨window, hchain⟩ := h.chain_of_root hroot
      refine hchain.mem_retainedData hhist fun cd' hcd' => ?_
      rw [hcd, Option.some.injEq] at hcd'
      subst hcd'
      exact retainsData_label hl _ _ _
  | record hr hc =>
      exact ((recordMarked_of_done (h.records hr)).commit hc).mem_retainedData .refl
        fun cd _ => retainsData_head _ _ _ cd
  | all hroot hhist hn =>
      obtain ⟨window, hchain⟩ := h.chain_of_root hroot
      exact hchain.mem_retainedData hhist fun cd _ => retainsData_none hn _ _ _ cd

/-- A mark phase that succeeds has marked everything that is to be kept. -/
theorem markComplete_of_ok {fuel : Nat} {r : GcResult} {st : MarkState}
    (h : markImpl fuel s refs latest live policy = (r, .ok st)) :
    MarkComplete s refs latest live policy st := by
  obtain ⟨st₃, hwalked⟩ := walked_of_ok h
  have hle : Le st₃ st := (le_markAll live.hashes st₃).trans hwalked.grew
  refine ⟨fun {root c} hroot hhist => ?_, fun {c} hc => ?_, fun {r} hr {h} ho => ?_, fun h hh => ?_⟩
  · obtain ⟨window, hchain⟩ := hwalked.chain_of_root hroot
    obtain ⟨cd, -, hm, -⟩ := hchain c hhist
    exact hle.marked hm
  · obtain ⟨cd, hcd, hseen⟩ := hwalked.data c (hwalked.mem_retainedData hc)
    exact ⟨cd, hcd, treeMarked_of_seen hwalked.trees hseen⟩
  · exact hle.marked ((recordMarked_of_done (hwalked.records hr)).objects ho)
  · exact hwalked.grew.marked (mem_marked_markAll.2 (Or.inl hh))

/-! ## The sweep -/

/-- A removal changes nothing, or it removes an object that is not pending and older than the
fence. -/
theorem removeObjectIfOlderThan_cases (s : ObjectStore) (h : Hash) (fence : Int) :
    (s.removeObjectIfOlderThan h fence).2.pending = s.pending ∧
      (s.removeObjectIfOlderThan h fence).2.now = s.now ∧
      ((s.removeObjectIfOlderThan h fence).2.objects = s.objects ∨
        (h ∉ s.pending ∧ ∃ f, s.objects[h]? = some f ∧ f.mtime < fence) ∧
          (s.removeObjectIfOlderThan h fence).2.objects = s.objects.erase h) := by
  unfold removeObjectIfOlderThan
  by_cases hp : s.pending.contains h = true
  · rw [if_pos hp]
    exact ⟨rfl, rfl, Or.inl rfl⟩
  · have hpend : h ∉ s.pending := fun hm => hp (ExtTreeSet.contains_iff_mem.2 hm)
    rw [if_neg hp]
    have hobj := s.nextFault_objects
    have hpen := s.nextFault_pending
    have hnow := s.nextFault_now
    rcases hn : s.nextFault with ⟨_ | err, s₁⟩
    · rw [hn] at hobj hpen hnow
      simp only at hobj hpen hnow ⊢
      cases hf : s₁.objects[h]? with
      | none => exact ⟨hpen, hnow, Or.inl hobj⟩
      | some f =>
          by_cases hfence : fence ≤ f.mtime
          · simp only [hfence, if_true]
            exact ⟨hpen, hnow, Or.inl hobj⟩
          · simp only [hfence, if_false]
            refine ⟨hpen, hnow, Or.inr ⟨⟨hpend, f, hobj ▸ hf, by omega⟩, ?_⟩⟩
            rw [hobj]
    · rw [hn] at hobj hpen hnow
      exact ⟨hpen, hnow, Or.inl hobj⟩

/-- One object of the enumeration: at most this object goes, and only if it is unmarked, not
pending and was not touched in the two seconds before the mark phase. -/
theorem sweepObject_cases (st : MarkState) (markStart : Int) (policy : GcPolicy)
    (rs : GcResult × ObjectStore) (o : Hash × Nat × Int) :
    (sweepObject st markStart policy rs o).2.pending = rs.2.pending ∧
      (sweepObject st markStart policy rs o).2.now = rs.2.now ∧
      ((sweepObject st markStart policy rs o).2.objects = rs.2.objects ∨
        (o.1 ∉ st.marked ∧ o.1 ∉ rs.2.pending ∧
          ∃ f, rs.2.objects[o.1]? = some f ∧ f.mtime + 2 < markStart) ∧
          (sweepObject st markStart policy rs o).2.objects = rs.2.objects.erase o.1) := by
  unfold sweepObject
  by_cases hm : st.marked.contains o.1 = true
  · rw [if_pos hm]
    exact ⟨rfl, rfl, Or.inl rfl⟩
  · have hunmarked : o.1 ∉ st.marked := fun h => hm (ExtTreeSet.contains_iff_mem.2 h)
    rw [if_neg hm]
    split
    · exact ⟨rfl, rfl, Or.inl rfl⟩
    · split
      · exact ⟨rfl, rfl, Or.inl rfl⟩
      · have hcases := removeObjectIfOlderThan_cases rs.2 o.1 (markStart - 2)
        generalize rs.2.removeObjectIfOlderThan o.1 (markStart - 2) = removed at hcases ⊢
        obtain ⟨_ | _ | _, s⟩ := removed
        all_goals
          obtain ⟨hpen, hnow, hobj | ⟨⟨hpend, f, hf, hlt⟩, hobj⟩⟩ := hcases
          · exact ⟨hpen, hnow, Or.inl hobj⟩
          · exact ⟨hpen, hnow, Or.inr ⟨⟨hunmarked, hpend, f, hf, by omega⟩, hobj⟩⟩

/-- The whole sweep keeps every marked object as it is. -/
theorem getElem?_foldl_sweepObject {st : MarkState} {markStart : Int} {policy : GcPolicy}
    {h : Hash} (hm : h ∈ st.marked) (os : List (Hash × Nat × Int)) (rs : GcResult × ObjectStore) :
    (os.foldl (sweepObject st markStart policy) rs).2.objects[h]? = rs.2.objects[h]? := by
  induction os generalizing rs with
  | nil => rfl
  | cons o os ih =>
      rw [List.foldl_cons, ih]
      obtain ⟨-, -, hobj | ⟨⟨hn, -⟩, hobj⟩⟩ := sweepObject_cases st markStart policy rs o
      · rw [hobj]
      · have hne : o.1 ≠ h := fun heq => hn (heq ▸ hm)
        simp [hobj, ExtTreeMap.getElem?_erase, hne]

theorem getElem?_gcRun_of_marked {fuel : Nat} {r : GcResult} {st : MarkState}
    (hmark : markImpl fuel s refs latest live policy = (r, .ok st))
    (listing : Option (Nat × String)) {h : Hash} (hm : h ∈ st.marked) :
    (gcRun fuel refs latest live policy listing s).2.objects[h]? = s.objects[h]? := by
  simp only [gcRun, hmark]
  cases listing with
  | none => exact getElem?_foldl_sweepObject hm _ _
  | some stop => exact getElem?_foldl_sweepObject hm _ _

/-- Marking that succeeds is complete and the run keeps every marked object; marking that fails
leaves every object in place. -/
theorem gcRun_keeps (fuel : Nat) (s : ObjectStore) (refs : Refs) (latest : LatestRoot)
    (live : GcLiveRoots) (policy : GcPolicy) (listing : Option (Nat × String)) :
    (∀ r st, markImpl fuel s refs latest live policy = (r, .ok st) →
      MarkComplete s refs latest live policy st ∧
        ∀ h ∈ st.marked,
          (gcRun fuel refs latest live policy listing s).2.objects[h]? = s.objects[h]?) ∧
    (∀ r stop, markImpl fuel s refs latest live policy = (r, .error stop) →
      (gcRun fuel refs latest live policy listing s).2.objects = s.objects) := by
  constructor
  · intro r st hmark
    exact ⟨markComplete_of_ok hmark, fun h hm => getElem?_gcRun_of_marked hmark listing hm⟩
  · intro r stop hmark
    simp only [gcRun, hmark]

/-! ## What the sweep takes -/

/-- What the sweep takes: no mark and no pending publication speak for the object, and its file was
not touched in the two seconds before the mark phase. -/
def Swept (st : MarkState) (markStart : Int) (s : ObjectStore) (h : Hash) (f : ObjectFile) : Prop :=
  h ∉ st.marked ∧ h ∉ s.pending ∧ f.mtime + 2 < markStart

/-- On a disk without errors a removal does what its three checks say. -/
theorem removeObjectIfOlderThan_of_noFaults {s : ObjectStore} (hdisk : s.faults = []) {h : Hash}
    {fence : Int} {f : ObjectFile} (hf : s.objects[h]? = some f) (hpend : h ∉ s.pending)
    (hold : f.mtime < fence) :
    s.removeObjectIfOlderThan h fence = (.removed, { s with objects := s.objects.erase h }) := by
  have hcon : ¬ s.pending.contains h = true := fun hc => hpend (ExtTreeSet.contains_iff_mem.1 hc)
  have hnext : s.nextFault = (none, s) := by
    unfold nextFault
    rw [hdisk]
  unfold removeObjectIfOlderThan
  rw [if_neg hcon, hnext]
  simp only [hf, if_neg (Int.not_le.2 hold)]

theorem removeObjectIfOlderThan_faults {s : ObjectStore} (hdisk : s.faults = []) (h : Hash)
    (fence : Int) : (s.removeObjectIfOlderThan h fence).2.faults = [] := by
  have hnext : s.nextFault = (none, s) := by
    unfold nextFault
    rw [hdisk]
  unfold removeObjectIfOlderThan
  rw [hnext]
  split
  · exact hdisk
  · simp only
    split
    · exact hdisk
    · split
      · exact hdisk
      · exact hdisk

theorem sweepObject_faults {st : MarkState} {markStart : Int} {policy : GcPolicy}
    {rs : GcResult × ObjectStore} (hdisk : rs.2.faults = []) (o : Hash × Nat × Int) :
    (sweepObject st markStart policy rs o).2.faults = [] := by
  have hafter := removeObjectIfOlderThan_faults hdisk o.1 (markStart - 2)
  simp only [sweepObject]
  split
  · exact hdisk
  · split
    · exact hdisk
    · split
      · exact hdisk
      · generalize rs.2.removeObjectIfOlderThan o.1 (markStart - 2) = removed at hafter ⊢
        obtain ⟨_ | _ | _, s⟩ := removed
        · exact hafter
        · exact hafter
        · exact hafter

/-- The sweep comes by an object it takes, and the object goes. -/
theorem sweepObject_takes {st : MarkState} {markStart : Int} {policy : GcPolicy}
    (hdry : policy.dryRun = false) {rs : GcResult × ObjectStore} (hdisk : rs.2.faults = [])
    {h : Hash} {f : ObjectFile} (hf : rs.2.objects[h]? = some f)
    (hs : Swept st markStart rs.2 h f) (size : Nat) :
    (sweepObject st markStart policy rs (h, size, f.mtime)).2.objects[h]? = none := by
  obtain ⟨hm, hpend, hold⟩ := hs
  have hmark : ¬ st.marked.contains h = true := fun hc => hm (ExtTreeSet.contains_iff_mem.1 hc)
  have hfence : f.mtime < markStart - 2 := by omega
  simp only [sweepObject, if_neg hmark, if_neg (Int.not_le.2 hold), hdry, Bool.false_eq_true,
    if_false, removeObjectIfOlderThan_of_noFaults hdisk hf hpend hfence]
  exact ExtTreeMap.getElem?_erase_self

/-- What is gone stays gone, and what the sweep does not take stays. -/
theorem getElem?_sweepObject_cases (st : MarkState) (markStart : Int) (policy : GcPolicy)
    (rs : GcResult × ObjectStore) (o : Hash × Nat × Int) (h : Hash) :
    (sweepObject st markStart policy rs o).2.objects[h]? = rs.2.objects[h]? ∨
      (sweepObject st markStart policy rs o).2.objects[h]? = none ∧
        ∃ f, rs.2.objects[h]? = some f ∧ Swept st markStart rs.2 h f := by
  obtain ⟨-, -, hobj | ⟨⟨hm, hpend, f, hf, hold⟩, hobj⟩⟩ :=
    sweepObject_cases st markStart policy rs o
  · exact Or.inl (by rw [hobj])
  · by_cases ho : o.1 = h
    · subst ho
      refine Or.inr ⟨?_, f, hf, hm, hpend, hold⟩
      rw [hobj]
      exact ExtTreeMap.getElem?_erase_self
    · left
      simp [hobj, ExtTreeMap.getElem?_erase, ho]

/-- The whole sweep: an object it does not take stays as it is. -/
theorem foldl_sweepObject_keeps {st : MarkState} {markStart : Int} {policy : GcPolicy} {h : Hash}
    {f : ObjectFile} (os : List (Hash × Nat × Int)) {rs : GcResult × ObjectStore}
    (hf : rs.2.objects[h]? = some f) (hs : ¬ Swept st markStart rs.2 h f) :
    (os.foldl (sweepObject st markStart policy) rs).2.objects[h]? = some f := by
  induction os generalizing rs with
  | nil => exact hf
  | cons o os ih =>
      have hpen := (sweepObject_cases st markStart policy rs o).1
      rw [List.foldl_cons]
      obtain hsame | ⟨-, f', hf', htaken⟩ :=
        getElem?_sweepObject_cases st markStart policy rs o h
      · refine ih (hsame.trans hf) ?_
        unfold Swept
        rw [hpen]
        exact hs
      · rw [hf, Option.some.injEq] at hf'
        subst hf'
        exact absurd htaken hs

/-- What is gone is not put back. -/
theorem foldl_sweepObject_gone {st : MarkState} {markStart : Int} {policy : GcPolicy} {h : Hash}
    (os : List (Hash × Nat × Int)) {rs : GcResult × ObjectStore}
    (hnone : rs.2.objects[h]? = none) :
    (os.foldl (sweepObject st markStart policy) rs).2.objects[h]? = none := by
  induction os generalizing rs with
  | nil => exact hnone
  | cons o os ih =>
      refine ih ?_
      obtain hsame | ⟨hgone, -⟩ :=
        getElem?_sweepObject_cases st markStart policy rs o h
      · exact hsame.trans hnone
      · exact hgone

/-- The whole sweep: an object it takes is gone once the enumeration came by it. -/
theorem foldl_sweepObject_takes {st : MarkState} {markStart : Int} {policy : GcPolicy}
    (hdry : policy.dryRun = false) {h : Hash} {f : ObjectFile} {size : Nat}
    {os : List (Hash × Nat × Int)} (hmem : (h, size, f.mtime) ∈ os)
    {rs : GcResult × ObjectStore} (hdisk : rs.2.faults = [])
    (hf : rs.2.objects[h]? = some f ∨ rs.2.objects[h]? = none)
    (hs : Swept st markStart rs.2 h f) :
    (os.foldl (sweepObject st markStart policy) rs).2.objects[h]? = none := by
  induction os generalizing rs with
  | nil => cases hmem
  | cons o os ih =>
      rw [List.foldl_cons]
      rcases hf with hf | hnone
      · rcases List.mem_cons.1 hmem with rfl | hrest
        · exact foldl_sweepObject_gone os (sweepObject_takes hdry hdisk hf hs size)
        · have hpen := (sweepObject_cases st markStart policy rs o).1
          refine ih hrest (sweepObject_faults hdisk o) ?_ ?_
          · obtain hsame | ⟨hnone, -⟩ :=
              getElem?_sweepObject_cases st markStart policy rs o h
            · exact Or.inl (hsame.trans hf)
            · exact Or.inr hnone
          · unfold Swept
            rw [hpen]
            exact hs
      · exact foldl_sweepObject_gone (o :: os) hnone

/-- After a run on a disk without errors exactly the objects are left that are marked, pending or
were touched in the two seconds before the mark phase. -/
theorem getElem?_gcRun {fuel : Nat} {r : GcResult} {st : MarkState}
    (hmark : markImpl fuel s refs latest live policy = (r, .ok st)) (hdry : policy.dryRun = false)
    (hdisk : s.faults = []) {h : Hash} {f : ObjectFile} :
    (gcRun fuel refs latest live policy none s).2.objects[h]? = some f ↔
      s.objects[h]? = some f ∧ (h ∈ st.marked ∨ h ∈ s.pending ∨ s.now ≤ f.mtime + 2) := by
  have hrun : (gcRun fuel refs latest live policy none s).2 =
      (s.objectList.foldl (sweepObject st s.now policy) (r, s)).2 := by
    simp only [gcRun, hmark]
  rw [hrun]
  have hkept : ∀ f', (h ∈ st.marked ∨ h ∈ s.pending ∨ s.now ≤ f'.mtime + 2) ↔
      ¬ Swept st s.now s h f' := by
    intro f'
    unfold Swept
    rw [not_and_or, not_and_or, not_not, not_not, Int.not_lt]
  rw [hkept]
  cases hobj : s.objects[h]? with
  | none =>
      rw [foldl_sweepObject_gone s.objectList hobj]
      simp
  | some f' =>
      by_cases hs : Swept st s.now s h f'
      · have hmem : (h, f'.raw.length, f'.mtime) ∈ s.objectList :=
          List.mem_map.2 ⟨(h, f'), ExtTreeMap.mem_toList_iff_getElem?_eq_some.2 hobj, rfl⟩
        rw [foldl_sweepObject_takes hdry hmem hdisk (Or.inl hobj) hs]
        constructor
        · intro hf
          cases hf
        · rintro ⟨hf, hkeep⟩
          cases hf
          exact absurd hs hkeep
      · rw [foldl_sweepObject_keeps s.objectList hobj hs]
        constructor
        · intro hf
          cases hf
          exact ⟨rfl, hs⟩
        · exact fun hf => hf.1

/-! ## What `verify` reports -/

/-- Counting roots changes no other field. -/
theorem field_markRoots {α β : Type} {field : GcResult → β} {count : GcResult → GcResult}
    (hcount : ∀ r, field (count r) = field r)
    {markRoot : α → MarkState → Except MarkStop MarkState} {roots : List (Except MarkStop α)}
    {r r' : GcResult} {st : MarkState} {out : Except MarkStop MarkState}
    (h : markRoots count markRoot roots r st = (r', out)) : field r' = field r := by
  induction roots generalizing r st with
  | nil =>
      cases h
      rfl
  | cons root rest ih =>
      cases root with
      | error e =>
          cases h
          rfl
      | ok a =>
          rw [markRoots] at h
          cases hmark : markRoot a st with
          | error e =>
              rw [hmark] at h
              cases h
              exact hcount r
          | ok st' =>
              rw [hmark] at h
              exact (ih h).trans (hcount r)

/-- The mark phase counts roots and compacted commits, and nothing else. -/
theorem field_markImpl {β : Type} {field : GcResult → β}
    (hbranches : ∀ r n, field { r with rootsBranches := n } = field r)
    (hrecords : ∀ r n, field { r with rootsStateRefs := n } = field r)
    (hunions : ∀ r n, field { r with rootsRuntimeStates := n } = field r)
    (hcompacted : ∀ r n, field { r with compactedCommits := n } = field r) {fuel : Nat}
    {r : GcResult} {out : Except MarkStop MarkState}
    (h : markImpl fuel s refs latest live policy = (r, out)) : field r = field {} := by
  unfold markImpl at h
  split at h
  · cases h
    rfl
  split at h
  · cases h
    rfl
  split at h
  · rename_i h₁
    cases h
    exact field_markRoots (fun r => hbranches r _) h₁
  rename_i h₁
  have hr₁ := field_markRoots (fun r => hbranches r _) h₁
  split at h
  · rename_i h₂
    cases h
    exact (field_markRoots (fun r => hrecords r _) h₂).trans hr₁
  rename_i h₂
  have hr₂ := (field_markRoots (fun r => hrecords r _) h₂).trans hr₁
  split at h
  · rename_i h₃
    cases h
    exact (field_markRoots (fun r => hunions r _) h₃).trans hr₂
  rename_i h₃
  have hr₃ := (field_markRoots (fun r => hunions r _) h₃).trans hr₂
  simp only at h
  split at h
  · cases h
    exact hr₃
  · cases h
    exact (hcompacted _ _).trans hr₃

theorem foldl_verifyObject (s : ObjectStore) (hs : List Hash) (r : GcResult) :
    (hs.foldl (verifyObject s) r).missing = r.missing ++ hs.filter (fun h => !s.objectExists h) ∧
    (hs.foldl (verifyObject s) r).missingObjects =
      r.missingObjects + (hs.filter fun h => !s.objectExists h).length := by
  induction hs generalizing r with
  | nil => exact ⟨(List.append_nil _).symm, rfl⟩
  | cons h hs ih =>
      obtain ⟨hmissing, hcount⟩ := ih (verifyObject s r h)
      rw [List.foldl_cons, hmissing, hcount, List.filter_cons]
      unfold verifyObject
      cases hexists : s.objectExists h with
      | true => exact ⟨rfl, rfl⟩
      | false =>
          refine ⟨List.append_assoc _ [h] _, ?_⟩
          simp only [Bool.not_false, if_true, Bool.false_eq_true, if_false, List.length_cons]
          omega

/-- What `verify` reports after a mark phase that succeeded: exactly the marked objects that are
not in the store, and success if there is none. -/
theorem gcVerify_spec {fuel : Nat} {r : GcResult} {st : MarkState}
    (hmark : markImpl fuel s refs latest live policy = (r, .ok st)) :
    (∀ h, h ∈ (gcVerify fuel s refs latest live policy).missing ↔ h ∈ st.marked ∧ h ∉ s.objects) ∧
    ((gcVerify fuel s refs latest live policy).ok = true ↔ ∀ h ∈ st.marked, h ∈ s.objects) := by
  have hempty : r.missing = [] :=
    field_markImpl (fun _ _ => rfl) (fun _ _ => rfl) (fun _ _ => rfl) (fun _ _ => rfl) hmark
  have hzero : r.missingObjects = 0 :=
    field_markImpl (fun _ _ => rfl) (fun _ _ => rfl) (fun _ _ => rfl) (fun _ _ => rfl) hmark
  obtain ⟨hmissing, hcount⟩ := foldl_verifyObject s st.marked.toList r
  have hgone : ∀ h, h ∈ st.marked.toList.filter (fun h => !s.objectExists h) ↔
      h ∈ st.marked ∧ h ∉ s.objects := by
    intro h
    rw [List.mem_filter, ExtTreeSet.mem_toList, objectExists, Bool.not_eq_true',
      ← Bool.not_eq_true, ExtTreeMap.contains_iff_mem]
  constructor
  · intro h
    rw [← hgone h]
    simp only [gcVerify, hmark, List.mem_insertionSort, hmissing, hempty, List.nil_append]
  · simp only [gcVerify, hmark, decide_eq_true_eq, hcount, hzero, Nat.zero_add,
      List.length_eq_zero_iff, List.eq_nil_iff_forall_not_mem]
    refine forall_congr' fun h => ?_
    rw [hgone h, not_and, not_not]

/-- The collector takes nothing of what `verify` found whole: after the sweep it is whole still. -/
theorem mem_objects_gcRun_of_verified {fuel : Nat} {r : GcResult} {st : MarkState}
    (hmark : markImpl fuel s refs latest live policy = (r, .ok st))
    (hok : (gcVerify fuel s refs latest live policy).ok = true) (listing : Option (Nat × String)) :
    ∀ h ∈ st.marked, h ∈ (gcRun fuel refs latest live policy listing s).2.objects := by
  intro h hm
  have hmem := (gcVerify_spec hmark).2.1 hok h hm
  rw [ExtTreeMap.mem_iff_isSome_getElem?] at hmem ⊢
  rwa [getElem?_gcRun_of_marked hmark listing hm]

section History

local instance : Blake3 := foldDigest

/-- Writes a file under a directory of the root, and a commit of the root. -/
def commitFile (s : ObjectStore) (data : Bytes) (parents : List Hash) : ObjectStore × Hash :=
  let file := s.writeBlob data
  let dir := file.1.writeTree (serializeTreeEntries [([120], ⟨.blob, file.2, 0o100644⟩)])
  let root := dir.1.writeTree (serializeTreeEntries [([100], ⟨.tree, dir.2, 0o40755⟩)])
  root.1.writeCommit (serializeCommit ⟨root.2, parents, 0, 0, [], 0⟩)

/-- Three commits, each the parent of the next. -/
def firstCommit : ObjectStore × Hash := commitFile {} [49] []

def secondCommit : ObjectStore × Hash := commitFile firstCommit.1 [50] [firstCommit.2]

def thirdCommit : ObjectStore × Hash := commitFile secondCommit.1 [51] [secondCommit.2]

/-- A session, -/
def sessionRecord : ObjectStore × Hash :=
  thirdCommit.1.writeBlob (ascii "agentvfs.agent_state.v1\nagent_id=a\n")

/-- and a record that continues it and was taken at the first commit. -/
def continuedRecord : ObjectStore × Hash :=
  sessionRecord.1.writeBlob (ascii "agentvfs.agent_state.v1\nparent_state_id=" ++
    hashToHex sessionRecord.2 ++ ascii "\nfs_commit=" ++ hashToHex firstCommit.2 ++ [10])

/-- All of it, ten seconds later. -/
def historyStore : ObjectStore := { continuedRecord.1 with pending := ∅, now := 10 }

def historyRefs : Refs := (({} : Refs).writeRef Refs.mainName thirdCommit.2).2

/-- The agent's latest record. -/
def historyLatest : LatestRoot :=
  { agents := [([97], .directory [([109], .regular (hashToHex continuedRecord.2 ++ [10]))] none)] }

def keepHead : GcPolicy := { keepLast := some 1 }

/-- The second commit is kept and its tree is not; without the first commit nothing is swept. -/
theorem gcRun_keeps_history :
    (∃ st, MarkComplete historyStore historyRefs historyLatest {} keepHead st ∧
      ∀ h ∈ st.marked, (gcRun 99 historyRefs historyLatest {} keepHead none
        historyStore).2.objects[h]? = historyStore.objects[h]?) ∧
    ((gcRun 99 historyRefs historyLatest {} keepHead none historyStore).1.markedObjects,
      (gcRun 99 historyRefs historyLatest {} keepHead none historyStore).1.sweptObjects) = (11, 3) ∧
    (gcRun 99 historyRefs historyLatest {} keepHead none
      { historyStore with objects := historyStore.objects.erase firstCommit.2 }).2.objects =
        historyStore.objects.erase firstCommit.2 := by
  refine ⟨?_, by decide +kernel, ?_⟩
  · cases hmark : markImpl 99 historyStore historyRefs historyLatest {} keepHead with
    | mk r out =>
        cases out with
        | ok st =>
            exact ⟨st, (gcRun_keeps 99 historyStore historyRefs historyLatest {} keepHead none).1
              r st hmark⟩
        | error stop =>
            have hok : (markImpl 99 historyStore historyRefs historyLatest {} keepHead).2.isOk =
                true := by decide +kernel
            rw [hmark] at hok
            cases hok
  · cases hmark : markImpl 99 { historyStore with
        objects := historyStore.objects.erase firstCommit.2 } historyRefs historyLatest {} keepHead with
    | mk r out =>
        cases out with
        | error stop => exact (gcRun_keeps 99 _ historyRefs historyLatest {} keepHead none).2 r stop hmark
        | ok st =>
            have hfail : (markImpl 99 { historyStore with
                objects := historyStore.objects.erase firstCommit.2 } historyRefs historyLatest {}
                  keepHead).2.isOk = false := by decide +kernel
            rw [hmark] at hfail
            cases hfail

end History

end ContextFS
