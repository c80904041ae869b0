import ContextFS.Daemon.FuseStep
import ContextFS.Gc.Sweep
import ContextFS.Lib.Runs

/-!
# Collecting garbage while files are being changed

`run_gc` holds the locks of all branches only while it takes the snapshot of the live roots.
Requests go on while it reads the clock, marks and sweeps.  A blob such a request stores must
then be protected by the pending set or by the age fence: it was published, or touched, no more
than two seconds before the clock was read.

The system below has one step for each critical section: of a request (its start, the two
sections of `write_object`, its end), of the collector, and of the clock.
-/

namespace ContextFS

open Std Lib ObjectStore WorkingTree

/-- An entry that names an object: a file or a symlink with content. -/
def WorkingTreeEntry.namesObject (e : WorkingTreeEntry) : Bool := e.isLeaf && e.hash ≠ zeroHash

/-- `collect_live_roots_locked`; `unionStates` is what the runtime supervisor lists. -/
def collectLiveRoots (d : Daemon) (unionStates : List Hash) : GcLiveRoots where
  expectedBranchRefs := d.branches.toList.map fun b => b.2.name
  wtHashes := d.branches.toList.flatMap fun b =>
    (b.2.wt.entries.filter fun pe => pe.2.namesObject).map fun pe => pe.2.hash
  fhBlobHashes := (d.fhTable.toList.map fun f => f.2.baseBlob).filter (· ≠ zeroHash)
  fhPinnedCommits := (d.fhTable.toList.map fun f => f.2.pinnedCommit).filter (· ≠ zeroHash)
  pending := d.store.pending.toList
  runtimeUnionStates := unionStates

/-- Where a request is in `write_object`. -/
inductive WriteStage
  | probing
  | writingTemp
  | stored
deriving DecidableEq

/-- A request that has started, holds the lock of its branch and is writing a blob. -/
structure InFlight where
  data : Bytes
  finish : Hash → Daemon → Answer × Daemon
  stage : WriteStage

/-- Where the collector is.  While it sweeps, `stat` is the object the enumeration has just
read, with its size and modification time. -/
inductive GcPhase
  | idle
  | snapshot (live : GcLiveRoots)
  | clockRead (live : GcLiveRoots) (markStart : Int)
  | sweeping (markStart : Int) (policy : GcPolicy) (marks : MarkState) (result : GcResult)
      (stat : Option (Hash × Nat × Int))

/-- The daemon, the requests under way by the branch whose lock they hold, and the collector.
`seen` and `adopted` only record history: the daemon as the last snapshot found it, and the blobs
that requests found in the store, and touched, since then. -/
structure GcRunState where
  daemon : Daemon
  inFlight : ExtTreeMap Nat InFlight
  gc : GcPhase
  seen : Daemon := {}
  adopted : List Hash := []

inductive GcEvent
  | tick (now : Int)
  | request (op : FuseOp)
  | probe (b : Nat)
  | publish (b : Nat)
  | finish (b : Nat)
  | writeFails (b : Nat)
  | releaseFh (fh : Nat)
  | snapshot (unionStates : List Hash)
  | readClock
  | mark (fuel : Nat) (latest : LatestRoot) (policy : GcPolicy)
  | stat (h : Hash)
  | sweep
  | sweepDone

/-- The object file of the blob a request writes. -/
def InFlight.raw (w : InFlight) : Bytes := ObjectTag.blob.bytes ++ blobBody w.data

/-- The hash of the blob a request writes. -/
def InFlight.hash [Blake3] (w : InFlight) : Hash := objectHash .blob (blobBody w.data)

namespace GcRunState

/-- The object store. -/
def store (σ : GcRunState) : ObjectStore := σ.daemon.store

/-- The state with another object store. -/
def withStore (σ : GcRunState) (s : ObjectStore) : GcRunState :=
  { σ with daemon := { σ.daemon with store := s } }

section Next

variable [Blake3]

/-- A request starts once the lock it takes is free.  It answers, or it begins to write. -/
def startRequest (σ : GcRunState) (op : FuseOp) : Option GcRunState :=
  match op.lock σ.daemon with
  | none =>
      match op.start σ.daemon with
      | .reply _ d => some { σ with daemon := d }
      | .write _ _ => none
  | some b =>
      if σ.inFlight.contains b then none
      else
        match op.start σ.daemon with
        | .reply _ d => some { σ with daemon := d }
        | .write data finish =>
            some { σ with inFlight := σ.inFlight.insert b ⟨data, finish, .probing⟩ }

/-- The request of branch `b` goes on in stage `stage` with a new store.  What it stored is adopted
when the object was there before. -/
def advance (σ : GcRunState) (b : Nat) (w : InFlight) (stage : WriteStage) (s : ObjectStore) :
    GcRunState :=
  { σ.withStore s with
    inFlight := σ.inFlight.insert b { w with stage := stage }
    adopted :=
      if stage = .stored ∧ (σ.store.adopt w.hash w.raw).isSome then w.hash :: σ.adopted
      else σ.adopted }

/-- The request of branch `b` goes on with the hash `write_blob` returned, and ends. -/
def endRequest (σ : GcRunState) (b : Nat) (w : InFlight) (h : Hash) : GcRunState :=
  { σ with daemon := (w.finish h σ.daemon).2, inFlight := σ.inFlight.erase b }

/-- The next critical section of the request of branch `b`. -/
def requestStep (σ : GcRunState) (b : Nat) (ev : GcEvent) : Option GcRunState :=
  match σ.inFlight[b]? with
  | none => none
  | some w =>
      match w.stage, ev with
      | .probing, .probe _ =>
          match σ.store.adopt w.hash w.raw with
          | some s => some (σ.advance b w .stored s)
          | none => some (σ.advance b w .writingTemp σ.store)
      | .writingTemp, .publish _ => some (σ.advance b w .stored (σ.store.publish w.hash w.raw))
      | .stored, .finish _ => some (σ.endRequest b w w.hash)
      | .probing, .writeFails _ | .writingTemp, .writeFails _ => some (σ.endRequest b w zeroHash)
      | _, _ => none

/-- A step of the collector.  No object disappears while it marks, so reading the objects one by
one gives what reading them all at the end gives. -/
def collectorStep (σ : GcRunState) (ev : GcEvent) : Option GcRunState :=
  match σ.gc, ev with
  | .idle, .snapshot unionStates =>
      -- the locks of all branches are held, so no request is inside one
      if σ.inFlight.isEmpty then
        some { σ with
          gc := .snapshot (collectLiveRoots σ.daemon unionStates)
          seen := σ.daemon
          adopted := [] }
      else none
  -- the locks are released before the clock is read
  | .snapshot live, .readClock => some { σ with gc := .clockRead live σ.store.now }
  | .clockRead live markStart, .mark fuel latest policy =>
      match markImpl fuel σ.store σ.daemon.refs latest live policy with
      | (r, .ok marks) => some { σ with gc := .sweeping markStart policy marks r none }
      | (_, .error _) => some { σ with gc := .idle }
  | .sweeping markStart policy marks r none, .stat h =>
      match σ.store.objects[h]? with
      | none => none
      | some f => some { σ with
          gc := .sweeping markStart policy marks r (some (h, f.raw.length, f.mtime)) }
  | .sweeping markStart policy marks r (some o), .sweep =>
      let rs := sweepObject marks markStart policy (r, σ.store) o
      some { σ.withStore rs.2 with gc := .sweeping markStart policy marks rs.1 none }
  | .sweeping _ _ _ _ none, .sweepDone => some { σ with gc := .idle }
  | _, _ => none

/-- What an event leads to, if it can happen now. -/
def next (σ : GcRunState) (ev : GcEvent) : Option GcRunState :=
  match ev with
  | .tick now => if σ.store.now ≤ now then some (σ.withStore { σ.store with now := now }) else none
  | .request op => σ.startRequest op
  | .probe b | .publish b | .finish b | .writeFails b => σ.requestStep b ev
  | .releaseFh fh => some { σ with daemon := σ.daemon.releaseFh fh }
  | .snapshot _ | .readClock | .mark _ _ _ | .stat _ | .sweep | .sweepDone => σ.collectorStep ev

def Step (σ : GcRunState) (ev : GcEvent) (σ' : GcRunState) : Prop := σ.next ev = some σ'

end Next

end GcRunState

/-! ## What the daemon holds on to -/

/-- The hash of an object that a live entry of a working tree or the base of an open handle
names. -/
inductive Daemon.Held (d : Daemon) : Hash → Prop
  | entry {b : Nat} {wt : WorkingTree} {p : FsPath} {e : WorkingTreeEntry}
      (hb : d.tree b = some wt) (he : wt.lookup p = some e) (hn : e.namesObject = true) :
      Held d e.hash
  | handle {fh : Nat} {s : FhState} (hs : d.getFh fh = some s) (hz : s.baseBlob ≠ zeroHash) :
      Held d s.baseBlob

namespace Daemon

theorem Held.ne_zero {d : Daemon} {h : Hash} (hh : d.Held h) : h ≠ zeroHash := by
  cases hh with
  | entry hb he hn =>
      simp only [WorkingTreeEntry.namesObject, Bool.and_eq_true, decide_eq_true_eq] at hn
      exact hn.2
  | handle hs hz => exact hz

/-- The live roots have everything the daemon holds on to. -/
theorem Held.mem_liveRoots {d : Daemon} {h : Hash} (hh : d.Held h) (unionStates : List Hash) :
    h ∈ (collectLiveRoots d unionStates).hashes := by
  simp only [GcLiveRoots.hashes, List.mem_append]
  refine Or.inl (Or.inl ?_)
  cases hh with
  | @entry b wt p e hb he hn =>
      obtain ⟨br, hbr, rfl⟩ := Option.map_eq_some_iff.1 hb
      refine Or.inl (List.mem_flatMap.2 ⟨(b, br),
        ExtTreeMap.mem_toList_iff_getElem?_eq_some.2 hbr, List.mem_map.2 ⟨(p, e), ?_, rfl⟩⟩)
      exact List.mem_filter.2 ⟨mem_entries.2 (lookup_eq_some.1 he).1, hn⟩
  | @handle fh s hs hz =>
      refine Or.inr (List.mem_filter.2 ⟨List.mem_map.2 ⟨(fh, s), ?_, rfl⟩, by simpa using hz⟩)
      exact ExtTreeMap.mem_toList_iff_getElem?_eq_some.2 hs

/-- The object store does not hold on to anything. -/
theorem Held.of_store {d : Daemon} {s : ObjectStore} {h : Hash}
    (hh : { d with store := s }.Held h) : d.Held h := by
  cases hh with
  | entry hb he hn => exact .entry hb he hn
  | handle hs hz => exact .handle hs hz

/-- A tree update adds at most the hashes it puts in. -/
theorem held_modifyTree {d : Daemon} {b : Nat} {f : WorkingTree → WorkingTree} {K : Hash → Prop}
    (hf : ∀ wt p e, d.tree b = some wt → (f wt).lookup p = some e → e.namesObject = true →
      (∃ q, wt.lookup q = some e) ∨ d.Held e.hash ∨ K e.hash)
    {h : Hash} (hh : (d.modifyTree b f).Held h) : d.Held h ∨ K h := by
  cases hh with
  | @entry c wt p e hb he hn =>
      rw [tree_modifyTree] at hb
      split at hb
      · rename_i hbc
        subst hbc
        cases hwt : d.tree b with
        | none => simp [hwt] at hb
        | some wt₀ =>
            simp only [hwt, Option.map_some, Option.some.injEq] at hb
            subst hb
            rcases hf wt₀ p e hwt he hn with ⟨q, hq⟩ | hheld | hk
            · exact Or.inl (.entry hwt hq hn)
            · exact Or.inl hheld
            · exact Or.inr hk
      · exact Or.inl (.entry hb he hn)
  | handle hs hz =>
      rw [getFh_modifyTree] at hs
      exact Or.inl (.handle hs hz)

theorem held_modifyTree_insert {d : Daemon} {b : Nat} {path : FsPath} {kind : EntryKind}
    {mode : UInt32} {k h : Hash}
    (hh : (d.modifyTree b fun wt => wt.insert path ⟨kind, k, mode⟩).Held h) :
    d.Held h ∨ h = k := by
  refine held_modifyTree (K := fun h => h = k) (fun wt p e _ he hn => ?_) hh
  rw [lookup_eq_some, lookupRaw_insert] at he
  obtain ⟨he, hk⟩ := he
  split at he
  · cases he
    exact Or.inr (Or.inr rfl)
  · exact Or.inl ⟨p, lookup_eq_some.2 ⟨he, hk⟩⟩

/-- A handle update adds at most the base it sets. -/
theorem held_modifyFh {d : Daemon} {fh : Nat} {f : FhState → FhState} {K : Hash → Prop}
    (hf : ∀ s, d.getFh fh = some s → (f s).baseBlob = s.baseBlob ∨ K (f s).baseBlob)
    {h : Hash} (hh : (d.modifyFh fh f).Held h) : d.Held h ∨ K h := by
  cases hh with
  | @entry c wt p e hb he hn =>
      rw [tree_congr (d.modifyFh_branches fh f)] at hb
      exact Or.inl (.entry hb he hn)
  | @handle k s hs hz =>
      rw [getFh_modifyFh] at hs
      split at hs
      · rename_i hk
        subst hk
        cases hfh : d.getFh fh with
        | none => simp [hfh] at hs
        | some s₀ =>
            simp only [hfh, Option.map_some, Option.some.injEq] at hs
            subst hs
            rcases hf s₀ hfh with heq | hk
            · rw [heq] at hz ⊢
              exact Or.inl (.handle hfh hz)
            · exact Or.inr hk
      · exact Or.inl (.handle hs hz)

theorem held_allocateFh {d : Daemon} {s : FhState} {h : Hash} (hh : (d.allocateFh s).2.Held h) :
    d.Held h ∨ h = s.baseBlob := by
  cases hh with
  | entry hb he hn => exact Or.inl (.entry hb he hn)
  | @handle k s' hs hz =>
      rw [getFh_allocateFh] at hs
      split at hs
      · cases hs
        exact Or.inr rfl
      · exact Or.inl (.handle hs hz)

theorem held_releaseFh {d : Daemon} {fh : Nat} {h : Hash} (hh : (d.releaseFh fh).Held h) :
    d.Held h := by
  cases hh with
  | entry hb he hn => exact .entry hb he hn
  | handle hs hz =>
      rw [getFh_releaseFh] at hs
      split at hs
      · cases hs
      · exact .handle hs hz

@[simp] theorem ensureBaseCache_baseBlob (s : FhState) (store : ObjectStore) :
    (s.ensureBaseCache store).baseBlob = s.baseBlob := by
  unfold FhState.ensureBaseCache
  split
  · rfl
  · split <;> rfl

/-- A flush puts its blob, and nothing else, into the tree. -/
theorem lookup_insertFlushed (wt : WorkingTree) (path : FsPath) (h : Hash) (q : FsPath) :
    (insertFlushed wt path h).lookup q =
      if path = q then some ⟨.blob, h, ((wt.lookup path).map (·.mode)).getD 0o100644⟩
      else wt.lookup q := by
  unfold insertFlushed
  rw [lookup_insert _ _ _ _ (by simp)]
  cases wt.lookup path <;> rfl

end Daemon

/-- What is left to do only puts objects into the tree that the daemon held on to before, or
the one just written; and it leaves the store alone. -/
def Critical.HoldsOnly (d : Daemon) : Critical → Prop
  | .reply _ d' => d'.store = d.store ∧ ∀ h, d'.Held h → d.Held h
  | .write _ finish => ∀ h d₁, (finish h d₁).2.store = d₁.store ∧
      ∀ k, (finish h d₁).2.Held k → d₁.Held k ∨ k = h

open Daemon

theorem holdsOnly_modifyTree {d : Daemon} {b : Nat} {f : WorkingTree → WorkingTree} {ans : Answer}
    (hf : ∀ wt p e, d.tree b = some wt → (f wt).lookup p = some e → e.namesObject = true →
      (∃ q, wt.lookup q = some e) ∨ d.Held e.hash) :
    (Critical.reply ans (d.modifyTree b f)).HoldsOnly d := by
  refine ⟨modifyTree_store d b f, fun h hh => ?_⟩
  refine (held_modifyTree (K := fun _ => False) (fun wt p e hwt he hn => ?_) hh).resolve_right id
  rcases hf wt p e hwt he hn with h | h
  · exact Or.inl h
  · exact Or.inr (Or.inl h)

theorem holdsOnly_modifyFh {d : Daemon} {fh : Nat} {f : FhState → FhState} {ans : Answer}
    (hf : ∀ s, (f s).baseBlob = s.baseBlob) :
    (Critical.reply ans (d.modifyFh fh f)).HoldsOnly d :=
  ⟨modifyFh_store d fh f, fun _ hh =>
    (held_modifyFh (K := fun _ => False) (fun s _ => Or.inl (hf s)) hh).resolve_right id⟩

theorem holdsOnly_remove (d : Daemon) (ans : Answer) (b : Nat) (path : FsPath) :
    (Critical.reply ans (d.modifyTree b fun wt => wt.remove path)).HoldsOnly d := by
  refine holdsOnly_modifyTree fun wt p e _ he _ => Or.inl ⟨p, ?_⟩
  rw [lookup_remove] at he
  split at he
  · cases he
  · exact he

theorem holdsOnly_openEmpty (d : Daemon) (b : Nat) (br : BranchContext) (path : FsPath)
    (mode : UInt32) : (Critical.write [] (openEmpty b br path mode)).HoldsOnly d := by
  refine fun h d₁ => ⟨modifyTree_store d₁ b _, fun k hk => ?_⟩
  rcases held_allocateFh hk with hk | hk
  · exact held_modifyTree_insert hk
  · exact Or.inr hk

theorem holdsOnly_putBlob (d : Daemon) (data : Bytes) (b : Nat) (path : FsPath) (kind : EntryKind)
    (mode : UInt32) : (Critical.write data (putBlob b path kind mode)).HoldsOnly d :=
  fun _ d₁ => ⟨modifyTree_store d₁ b _, fun _ hk => held_modifyTree_insert hk⟩

theorem holdsOnly_putFlushed (d : Daemon) (fh : Nat) (s : FhState) (data : Bytes)
    (store : ObjectStore) : (Critical.write data (putFlushed fh s store)).HoldsOnly d := by
  intro h d₁
  unfold putFlushed
  by_cases hz : h = zeroHash
  · rw [if_pos hz]
    refine ⟨modifyFh_store _ _ _, fun k hk => Or.inl ?_⟩
    exact (held_modifyFh (K := fun _ => False)
      (fun s _ => Or.inl (ensureBaseCache_baseBlob s store)) hk).resolve_right id
  · rw [if_neg hz]
    refine ⟨(modifyFh_store _ _ _).trans (modifyTree_store _ _ _), fun k hk => ?_⟩
    rcases held_modifyFh (K := fun k => k = h) (fun s _ => Or.inr rfl) hk with hk | hk
    · refine held_modifyTree (K := fun k => k = h) (fun wt p e _ he _ => ?_) hk
      rw [lookup_insertFlushed] at he
      split at he
      · cases he
        exact Or.inr (Or.inr rfl)
      · exact Or.inl ⟨p, he⟩
    · exact Or.inr hk

/-- No request puts anything into a tree or a handle but what was held before and the blob it
has written. -/
theorem FuseOp.holdsOnly_start (d : Daemon) (op : FuseOp) : (op.start d).HoldsOnly d := by
  have hop := op.started d
  generalize op.start d = c at hop
  cases hop with
  | refused op e => exact ⟨rfl, fun _ hh => hh⟩
  | @opened b path br e size hbr he hk hsize =>
      refine ⟨rfl, fun h hh => ?_⟩
      rcases held_allocateFh hh with hheld | rfl
      · exact hheld
      · have hz : e.hash ≠ zeroHash := hh.ne_zero
        exact .entry (tree_of_branch hbr) he (by simp [WorkingTreeEntry.namesObject,
          WorkingTreeEntry.isLeaf, hk, hz])
  | openTrunc hbr he hk => exact holdsOnly_openEmpty d _ _ _ _
  | create hok hbr => exact holdsOnly_openEmpty d _ _ _ _
  | read hs => exact holdsOnly_modifyFh fun s => ensureBaseCache_baseBlob s d.store
  | write hs => exact holdsOnly_modifyFh fun s => rfl
  | flushClean hs hclean => exact ⟨rfl, fun _ hh => hh⟩
  | flush hs hdirty => exact holdsOnly_putFlushed d _ _ _ _
  | truncateFh hs => exact holdsOnly_modifyFh fun s => rfl
  | truncate hbr he hk => exact holdsOnly_putBlob d _ _ _ _ _
  | unlink hbr he hk => exact holdsOnly_remove d _ _ _
  | rmdir hbr he hk hempty => exact holdsOnly_remove d _ _ _
  | mkdir hok hbr he =>
      refine holdsOnly_modifyTree fun wt p e hwt hlook hn => Or.inl ⟨p, ?_⟩
      rw [lookup_insert _ _ _ _ (by simp)] at hlook
      split at hlook
      · cases hlook
        simp [WorkingTreeEntry.namesObject, WorkingTreeEntry.isLeaf] at hn
      · exact hlook
  | renameDir hok hbr he hk =>
      exact holdsOnly_modifyTree fun wt p e _ hlook _ =>
        Or.inl (exists_lookup_of_lookup_renameDir hlook)
  | renameEntry hok hbr he hk =>
      exact holdsOnly_modifyTree fun wt p e _ hlook _ =>
        Or.inl (exists_lookup_of_lookup_renameEntry hlook)
  | symlink hok hbr he => exact holdsOnly_putBlob d _ _ _ _ _
  | @chmod b path mode br e hbr he =>
      refine holdsOnly_modifyTree fun wt p e' hwt hlook hn => ?_
      have hins := lookup_insert wt path p
        { e with mode := (e.mode &&& modeType) ||| (mode &&& modePerm) } (lookup_eq_some.1 he).2
      rw [hins] at hlook
      split at hlook
      · cases hlook
        have hheld : d.Held e.hash := .entry (tree_of_branch hbr) he hn
        exact Or.inr hheld
      · exact Or.inl ⟨p, hlook⟩

/-! ## What a publication does for the collector -/

/-- An object that was stored, or touched, at the earliest two seconds before `markStart`. -/
def ObjectStore.Fresh (s : ObjectStore) (markStart : Int) (h : Hash) : Prop :=
  ∃ f, s.objects[h]? = some f ∧ markStart ≤ f.mtime + 2

/-- From `s` to `s'` all objects stay, those that are pending or fresh stay so, and `h` is
stored and either pending or fresh for any clock value read so far. -/
structure Protects (s s' : ObjectStore) (h : Hash) : Prop where
  objects : ∀ k ∈ s.objects, k ∈ s'.objects
  now : s'.now = s.now
  pending : ∀ k ∈ s.pending, k ∈ s'.pending
  fresh : ∀ k markStart, markStart ≤ s.now → s.Fresh markStart k → s'.Fresh markStart k
  mem : h ∈ s'.objects
  published : ∀ markStart, markStart ≤ s.now → h ∈ s'.pending ∨ s'.Fresh markStart h

theorem protects_of_insert {s s' : ObjectStore} {h : Hash} (raw : Bytes)
    (hobj : s'.objects = s.objects.insert h ⟨raw, s.now⟩) (hnow : s'.now = s.now)
    (hpend : ∀ k ∈ s.pending, k ∈ s'.pending) : Protects s s' h where
  objects := fun k hk => by
    rw [hobj]
    exact ExtTreeMap.mem_insert.2 (Or.inr hk)
  now := hnow
  pending := hpend
  fresh := by
    intro k markStart hle hfresh
    obtain ⟨f, hf, hf'⟩ := hfresh
    by_cases hk : h = k
    · exact ⟨⟨raw, s.now⟩, by simp [hobj, hk], by simp only; omega⟩
    · exact ⟨f, by simp [hobj, ExtTreeMap.getElem?_insert, hk, hf], hf'⟩
  mem := by simp [hobj]
  published := fun markStart hle =>
    Or.inr ⟨⟨raw, s.now⟩, by simp [hobj], by simp only; omega⟩

theorem protects_adopt {s s' : ObjectStore} {h : Hash} {raw : Bytes}
    (ha : s.adopt h raw = some s') : Protects s s' h := by
  obtain ⟨f, -, rfl⟩ := adopt_eq_some ha
  exact protects_of_insert f.raw rfl rfl fun _ hk => hk

theorem protects_publish (s : ObjectStore) (h : Hash) (raw : Bytes) :
    Protects s (s.publish h raw) h := by
  cases ha : s.adopt h raw with
  | some s' =>
      have hs : s.publish h raw = s' := by simp [publish, ha]
      exact hs ▸ protects_adopt ha
  | none =>
      rw [publish_of_getElem?_eq_none raw (adopt_eq_none.1 ha)]
      exact protects_of_insert raw rfl rfl fun k hk => ExtTreeSet.mem_insert.2 (Or.inr hk)

namespace GcRunState

section

variable [Blake3]

/-! ## The invariant -/

/-- An object that is held, or stored by a request that has not put it in yet. -/
inductive InUse (σ : GcRunState) : Hash → Prop
  | held {h : Hash} (hh : σ.daemon.Held h) : InUse σ h
  | stored {b : Nat} {w : InFlight} (hw : σ.inFlight[b]? = some w) (hst : w.stage = .stored) :
      InUse σ w.hash

/-- What the collector will not remove.  Before it marks: what was held when it took its snapshot,
what is pending and, if all goes well, what was adopted since; while it sweeps: what is marked,
pending or fresh. -/
def Guarded (σ : GcRunState) (h : Hash) : Prop :=
  match σ.gc with
  | .idle => True
  | .snapshot _ | .clockRead _ _ => σ.seen.Held h ∨ h ∈ σ.store.pending ∨ h ∈ σ.adopted
  | .sweeping markStart _ marks _ _ =>
      h ∈ marks.marked ∨ h ∈ σ.store.pending ∨ σ.store.Fresh markStart h

/-- The collector has read its clock in the past. -/
def ClockRead (now : Int) : GcPhase → Prop
  | .clockRead _ markStart | .sweeping markStart _ _ _ _ => markStart ≤ now
  | _ => True

/-- The snapshot the collector has taken and not marked yet. -/
def GcPhase.liveRoots : GcPhase → Option GcLiveRoots
  | .snapshot live | .clockRead live _ => some live
  | .idle | .sweeping _ _ _ _ _ => none

/-- What every run keeps, as long as no blob is adopted too early. -/
structure GcInv (σ : GcRunState) : Prop where
  kept : ∀ h, σ.InUse h → h ∈ σ.store.objects
  guarded : ∀ h, σ.InUse h → σ.Guarded h
  clock : ClockRead σ.store.now σ.gc
  snapshot : ∀ live, GcPhase.liveRoots σ.gc = some live → ∀ h, σ.seen.Held h → h ∈ live.hashes
  finish : ∀ (b : Nat) (w : InFlight), σ.inFlight[b]? = some w →
      (Critical.write w.data w.finish).HoldsOnly σ.daemon

/-- Another state of the same collector, with the same history. -/
structure SameGc (σ σ' : GcRunState) : Prop where
  gc : σ'.gc = σ.gc
  seen : σ'.seen = σ.seen
  adopted : ∀ h ∈ σ.adopted, h ∈ σ'.adopted

omit [Blake3] in
theorem Guarded.protects {σ σ' : GcRunState} {h k : Hash} (hp : Protects σ.store σ'.store h)
    (hsame : SameGc σ σ') (hclock : ClockRead σ.store.now σ.gc) (hg : σ.Guarded k) :
    σ'.Guarded k := by
  unfold Guarded at hg ⊢
  rw [hsame.gc, hsame.seen]
  cases hgc : σ.gc with
  | idle => trivial
  | snapshot live | clockRead live markStart =>
      rw [hgc] at hg
      exact hg.imp_right (Or.imp (hp.pending k) (hsame.adopted k))
  | sweeping markStart policy marks r stat =>
      rw [hgc] at hg hclock
      exact hg.imp_right (Or.imp (hp.pending k) (hp.fresh k markStart hclock))

omit [Blake3] in
theorem guarded_withNow {σ : GcRunState} {now : Int} {k : Hash} (hg : σ.Guarded k) :
    (σ.withStore { σ.store with now := now }).Guarded k := by
  unfold Guarded at hg ⊢
  exact hg

omit [Blake3] in
theorem ClockRead.mono {now now' : Int} (hle : now ≤ now') {gc : GcPhase}
    (h : ClockRead now gc) : ClockRead now' gc := by
  cases gc with
  | idle => trivial
  | snapshot live => trivial
  | clockRead live markStart => exact Int.le_trans h hle
  | sweeping markStart policy marks r stat => exact Int.le_trans h hle

omit [Blake3] in
/-- What was published is pending or fresh, and before the mark pending or recorded as adopted. -/
theorem guarded_published {σ σ' : GcRunState} {h : Hash} (hp : Protects σ.store σ'.store h)
    (hgc : σ'.gc = σ.gc) (hnew : h ∈ σ'.store.pending ∨ h ∈ σ'.adopted)
    (hclock : ClockRead σ.store.now σ.gc) : σ'.Guarded h := by
  unfold Guarded
  rw [hgc]
  cases hgc : σ.gc with
  | idle => trivial
  | snapshot live | clockRead live markStart => exact Or.inr hnew
  | sweeping markStart policy marks r stat =>
      rw [hgc] at hclock
      exact Or.inr (hp.published markStart hclock)

/-- A step that leaves the store and the collector alone and takes nothing new into use. -/
theorem GcInv.quiet {σ σ' : GcRunState} (hinv : GcInv σ) (hstore : σ'.store = σ.store)
    (hsame : SameGc σ σ') (huse : ∀ k, σ'.InUse k → σ.InUse k)
    (hfinish : ∀ (b : Nat) (w : InFlight), σ'.inFlight[b]? = some w →
      (Critical.write w.data w.finish).HoldsOnly σ'.daemon) : GcInv σ' where
  kept := fun k hk => hstore ▸ hinv.kept k (huse k hk)
  guarded := fun k hk => by
    have hg := hinv.guarded k (huse k hk)
    unfold Guarded at hg ⊢
    rw [hstore, hsame.gc, hsame.seen]
    cases hgc : σ.gc with
    | idle => trivial
    | snapshot live | clockRead live markStart =>
        rw [hgc] at hg
        exact hg.imp_right (Or.imp_right (hsame.adopted k))
    | sweeping markStart policy marks r stat =>
        rw [hgc] at hg
        exact hg
  clock := by
    rw [hstore, hsame.gc]
    exact hinv.clock
  snapshot := by
    rw [hsame.gc, hsame.seen]
    exact hinv.snapshot
  finish := hfinish

/-- A step that publishes one object and takes at most this one into use. -/
theorem GcInv.publish {σ σ' : GcRunState} {h : Hash} (hinv : GcInv σ)
    (hp : Protects σ.store σ'.store h) (hsame : SameGc σ σ')
    (hnew : h ∈ σ'.store.pending ∨ h ∈ σ'.adopted)
    (huse : ∀ k, σ'.InUse k → σ.InUse k ∨ k = h)
    (hfinish : ∀ (b : Nat) (w : InFlight), σ'.inFlight[b]? = some w →
      (Critical.write w.data w.finish).HoldsOnly σ'.daemon) : GcInv σ' where
  kept := fun k hk => by
    rcases huse k hk with hk | rfl
    · exact hp.objects k (hinv.kept k hk)
    · exact hp.mem
  guarded := fun k hk => by
    rcases huse k hk with hk | rfl
    · exact (hinv.guarded k hk).protects hp hsame hinv.clock
    · exact guarded_published hp hsame.gc hnew hinv.clock
  clock := by
    rw [hsame.gc, hp.now]
    exact hinv.clock
  snapshot := by
    rw [hsame.gc, hsame.seen]
    exact hinv.snapshot
  finish := hfinish

/-! ## Requests -/

/-- Another daemon that holds no more objects, with the same requests under way. -/
theorem InUse.of_daemon {σ : GcRunState} {d : Daemon} (hd : ∀ h, d.Held h → σ.daemon.Held h)
    {h : Hash} (hh : InUse { σ with daemon := d } h) : σ.InUse h := by
  cases hh with
  | held hh => exact .held (hd _ hh)
  | stored hw hst => exact .stored hw hst

/-- A request that answers at once, or starts to write. -/
theorem GcInv.startRequest {σ σ' : GcRunState} {op : FuseOp} (hinv : GcInv σ)
    (hs : σ.startRequest op = some σ') : GcInv σ' := by
  have hop := op.holdsOnly_start σ.daemon
  have hreply : ∀ {ans : Answer} {d : Daemon}, op.start σ.daemon = .reply ans d →
      GcInv { σ with daemon := d } := by
    intro ans d heq
    rw [heq] at hop
    exact hinv.quiet hop.1 ⟨rfl, rfl, fun _ => id⟩ (fun k hk => hk.of_daemon hop.2) hinv.finish
  unfold GcRunState.startRequest at hs
  split at hs
  · split at hs
    · rename_i heq
      cases hs
      exact hreply heq
    · cases hs
  · rename_i b hlock
    split at hs
    · cases hs
    · split at hs
      · rename_i heq
        cases hs
        exact hreply heq
      · rename_i data finish heq
        cases hs
        rw [heq] at hop
        refine hinv.quiet rfl ⟨rfl, rfl, fun _ => id⟩ (fun k hk => ?_) fun c w hw => ?_
        · cases hk with
          | held hh => exact .held hh
          | @stored c w hw hst =>
              rw [ExtTreeMap.getElem?_insert] at hw
              split at hw
              · cases hw
                cases hst
              · exact .stored hw hst
        · rw [ExtTreeMap.getElem?_insert] at hw
          split at hw
          · cases hw
            exact hop
          · exact hinv.finish c w hw

/-- The stages of a request: what is in use with the request of branch `b` in a new stage. -/
theorem InUse.of_advance {σ : GcRunState} {b : Nat} {w : InFlight} {stage : WriteStage}
    {s : ObjectStore} {h : Hash} (hh : InUse (σ.advance b w stage s) h) :
    σ.InUse h ∨ stage = .stored ∧ h = w.hash := by
  cases hh with
  | held hh => exact Or.inl (.held hh.of_store)
  | @stored c w' hw hst =>
      simp only [advance, ExtTreeMap.getElem?_insert] at hw
      split at hw
      · cases hw
        exact Or.inr ⟨hst, rfl⟩
      · exact Or.inl (.stored hw hst)

/-- A request that goes on leaves the collector and its history alone. -/
theorem sameGc_advance (σ : GcRunState) (b : Nat) (w : InFlight) (stage : WriteStage)
    (s : ObjectStore) : SameGc σ (σ.advance b w stage s) where
  gc := rfl
  seen := rfl
  adopted := by
    intro h hh
    unfold advance
    split
    · exact List.mem_cons_of_mem _ hh
    · exact hh

/-- A blob that was stored is pending, or it was adopted. -/
theorem pending_or_adopted (σ : GcRunState) (b : Nat) (w : InFlight) {s : ObjectStore}
    (hs : (σ.store.adopt w.hash w.raw).isSome = false → w.hash ∈ s.pending) :
    w.hash ∈ (σ.advance b w .stored s).store.pending ∨
      w.hash ∈ (σ.advance b w .stored s).adopted := by
  cases ha : (σ.store.adopt w.hash w.raw).isSome with
  | false => exact Or.inl (hs ha)
  | true =>
      refine Or.inr ?_
      unfold advance
      rw [if_pos ⟨rfl, ha⟩]
      exact List.mem_cons_self

theorem finish_advance {σ : GcRunState} {b : Nat} {w : InFlight} {stage : WriteStage}
    {s : ObjectStore} (hinv : GcInv σ) (hw : σ.inFlight[b]? = some w) :
    ∀ (c : Nat) (w' : InFlight), (σ.advance b w stage s).inFlight[c]? = some w' →
      (Critical.write w'.data w'.finish).HoldsOnly (σ.advance b w stage s).daemon := by
  intro c w' hw'
  simp only [advance, ExtTreeMap.getElem?_insert] at hw'
  split at hw'
  · cases hw'
    exact hinv.finish b w hw
  · exact hinv.finish c w' hw'

/-- A request that ends with the hash of a stored object, or with none. -/
theorem GcInv.endRequest {σ : GcRunState} {b : Nat} {w : InFlight} {h : Hash} (hinv : GcInv σ)
    (hw : σ.inFlight[b]? = some w) (hh : σ.InUse h ∨ h = zeroHash) :
    GcInv (σ.endRequest b w h) := by
  have hfin := hinv.finish b w hw h σ.daemon
  have herase : ∀ {c : Nat} {w' : InFlight}, (σ.inFlight.erase b)[c]? = some w' →
      σ.inFlight[c]? = some w' := by
    intro c w' hc
    rw [ExtTreeMap.getElem?_erase] at hc
    split at hc
    · cases hc
    · exact hc
  refine hinv.quiet hfin.1 ⟨rfl, rfl, fun _ => id⟩ (fun k hk => ?_) fun c w' hw' => ?_
  · cases hk with
    | held hheld =>
        rcases hfin.2 k hheld with hk | rfl
        · exact .held hk
        · exact hh.resolve_right hheld.ne_zero
    | stored hw' hst => exact .stored (herase hw') hst
  · exact hinv.finish c w' (herase hw')

theorem GcInv.requestStep {σ σ' : GcRunState} {b : Nat} {ev : GcEvent} (hinv : GcInv σ)
    (hs : σ.requestStep b ev = some σ') : GcInv σ' := by
  unfold GcRunState.requestStep at hs
  split at hs
  · cases hs
  · rename_i w hw
    have hquiet : ∀ stage, stage ≠ .stored → GcInv (σ.advance b w stage σ.store) := by
      intro stage hne
      refine hinv.quiet rfl (sameGc_advance σ b w stage _) (fun k hk => ?_)
        (finish_advance hinv hw)
      exact hk.of_advance.resolve_right fun h => hne h.1
    have hpublish : ∀ s, Protects σ.store s w.hash →
        ((σ.store.adopt w.hash w.raw).isSome = false → w.hash ∈ s.pending) →
        GcInv (σ.advance b w .stored s) := by
      intro s hp hpend
      refine hinv.publish hp (sameGc_advance σ b w .stored s) (pending_or_adopted σ b w hpend)
        (fun k hk => ?_) (finish_advance hinv hw)
      exact hk.of_advance.imp_right fun h => h.2
    split at hs
    · split at hs
      · rename_i s ha
        cases hs
        exact hpublish s (protects_adopt ha) fun hnone => by simp [ha] at hnone
      · cases hs
        exact hquiet .writingTemp (by decide)
    · cases hs
      refine hpublish _ (protects_publish _ _ _) fun hnone => ?_
      have ha : σ.store.adopt w.hash w.raw = none := by simpa using hnone
      rw [publish_of_getElem?_eq_none w.raw (adopt_eq_none.1 ha)]
      exact ExtTreeSet.mem_insert_self
    · rename_i hst
      cases hs
      exact hinv.endRequest hw (Or.inl (.stored hw hst))
    · cases hs
      exact hinv.endRequest hw (Or.inr rfl)
    · cases hs
      exact hinv.endRequest hw (Or.inr rfl)
    · cases hs

/-! ## The collector -/

/-- Objects the mark phase is to keep: histories, the data of retained commits, records and the
live snapshot. -/
inductive Kept (s : ObjectStore) (refs : Refs) (latest : LatestRoot) (live : GcLiveRoots)
    (policy : GcPolicy) : Hash → Prop
  | history {root c : Hash} (hroot : CommitRoot s refs latest live root) (hc : History s root c) :
      Kept s refs latest live policy c
  | data {c : Hash} {cd : CommitData} {p : FsPath} {e : WorkingTreeEntry}
      (hret : DataRetained s refs latest live policy c) (hcd : s.readCommit c = some cd)
      (hin : InTree s cd.treeHash p e) (hn : e.namesObject = true) :
      Kept s refs latest live policy e.hash
  | record {r : RecordRef} {h : Hash} (hr : RecordReachable s latest live r)
      (ho : RecordObject s r h) : Kept s refs latest live policy h
  | live {h : Hash} (hh : h ∈ live.hashes) : Kept s refs latest live policy h

omit [Blake3] in
theorem Kept.mem_marked {s : ObjectStore} {refs : Refs} {latest : LatestRoot}
    {live : GcLiveRoots} {policy : GcPolicy} {st : MarkState} {h : Hash}
    (hm : MarkComplete s refs latest live policy st) (hk : Kept s refs latest live policy h) :
    h ∈ st.marked := by
  cases hk with
  | history hroot hc => exact hm.history hroot hc
  | @data c cd p e hret hcd hin hn =>
      obtain ⟨cd', hcd', htree⟩ := hm.data hret
      rw [hcd, Option.some.injEq] at hcd'
      subst hcd'
      simp only [WorkingTreeEntry.namesObject, WorkingTreeEntry.isLeaf, Bool.and_eq_true,
        Bool.or_eq_true, decide_eq_true_eq] at hn
      refine htree.below hin (fun hk => ?_) fun _ => hn.2
      rcases hn.1 with h | h <;> rw [hk] at h <;> cases h
  | record hr ho => exact hm.records hr ho
  | live hh => exact hm.live h hh

omit [Blake3] in
theorem recordReachable_of_noRoots {s : ObjectStore} {latest : LatestRoot} {r : RecordRef}
    (h : RecordReachable s latest {} r) (live : GcLiveRoots) : RecordReachable s latest live r := by
  obtain ⟨root, hroot, hlinks⟩ := h
  cases hroot with
  | latest h => exact ⟨_, .latest h, hlinks⟩
  | live h => cases h

omit [Blake3] in
theorem commitRoot_of_noRoots {s : ObjectStore} {refs : Refs} {latest : LatestRoot} {c : Hash}
    (h : CommitRoot s refs latest {} c) (live : GcLiveRoots) : CommitRoot s refs latest live c := by
  cases h with
  | branch h => exact .branch h
  | record h hc => exact .record (recordReachable_of_noRoots h live) hc

omit [Blake3] in
/-- What the refs alone keep is kept with any live roots. -/
theorem Kept.of_noRoots {s : ObjectStore} {refs : Refs} {latest : LatestRoot} {policy : GcPolicy}
    {h : Hash} (hk : Kept s refs latest {} policy h) (live : GcLiveRoots) :
    Kept s refs latest live policy h := by
  cases hk with
  | history hroot hc => exact .history (commitRoot_of_noRoots hroot live) hc
  | data hret hcd hin hn =>
      refine .data ?_ hcd hin hn
      cases hret with
      | head h => exact .head h
      | window h hw hlt hc => exact .window h hw hlt hc
      | label h hc hcd hl => exact .label (commitRoot_of_noRoots h live) hc hcd hl
      | record h hc => exact .record (recordReachable_of_noRoots h live) hc
      | all h hc hn => exact .all (commitRoot_of_noRoots h live) hc hn
  | record hr ho => exact .record (recordReachable_of_noRoots hr live) ho
  | live hh => cases hh

/-- No blob is adopted between the snapshot and the clock and left more than two seconds behind
it: when the mark phase begins, every blob adopted since the snapshot was touched at the earliest
two seconds before the clock was read, unless something else keeps it: it was held when the
snapshot was taken, it is pending, or the branch refs and latest refs retain it. -/
def AdoptsInTime (σ : GcRunState) (ev : GcEvent) (_ : GcRunState) : Prop :=
  ∀ live markStart fuel latest policy, σ.gc = .clockRead live markStart →
    ev = .mark fuel latest policy → ∀ h ∈ σ.adopted,
      σ.store.Fresh markStart h ∨ σ.seen.Held h ∨ h ∈ σ.store.pending ∨
        Kept σ.store σ.daemon.refs latest {} policy h

/-- Sweeping one object keeps everything in use. -/
theorem GcInv.sweep {σ : GcRunState} {markStart : Int} {policy : GcPolicy} {marks : MarkState}
    {r : GcResult} {o : Hash × Nat × Int} (hinv : GcInv σ)
    (hgc : σ.gc = .sweeping markStart policy marks r (some o)) :
    GcInv { σ.withStore (sweepObject marks markStart policy (r, σ.store) o).2 with
      gc := .sweeping markStart policy marks
        (sweepObject marks markStart policy (r, σ.store) o).1 none } := by
  obtain ⟨hpend, hnow, hobj⟩ := sweepObject_cases marks markStart policy (r, σ.store) o
  have hclock : markStart ≤ σ.store.now := by
    have h := hinv.clock
    rwa [hgc] at h
  have huse : ∀ {s : ObjectStore} {gc : GcPhase} {k : Hash},
      InUse { σ.withStore s with gc := gc } k → σ.InUse k := by
    intro s gc k hk
    cases hk with
    | held hh => exact .held (Daemon.Held.of_store hh)
    | stored hw hst => exact .stored hw hst
  have hguard : ∀ {k : Hash}, σ.InUse k →
      k ∈ marks.marked ∨ k ∈ σ.store.pending ∨ σ.store.Fresh markStart k := by
    intro k hk
    have h := hinv.guarded k hk
    unfold Guarded at h
    rwa [hgc] at h
  have hsame : ∀ {k : Hash}, σ.InUse k →
      (sweepObject marks markStart policy (r, σ.store) o).2.objects[k]? = σ.store.objects[k]? := by
    intro k hk
    rcases hobj with hobj | ⟨⟨hmark, hpending, f, hf, hold⟩, hobj⟩
    · rw [hobj]
    · have hne : o.1 ≠ k := by
        rintro rfl
        rcases hguard hk with h | h | ⟨f', hf', hfresh⟩
        · exact hmark h
        · exact hpending h
        · rw [hf, Option.some.injEq] at hf'
          subst hf'
          omega
      simp [hobj, ExtTreeMap.getElem?_erase, hne]
  refine ⟨fun k hk => ?_, fun k hk => ?_, ?_, fun _ h => (by cases h), hinv.finish⟩
  · have hmem := hinv.kept k (huse hk)
    rw [ExtTreeMap.mem_iff_isSome_getElem?] at hmem ⊢
    exact (hsame (huse hk)).symm ▸ hmem
  · rcases hguard (huse hk) with h | h | ⟨f, hf, hfresh⟩
    · exact Or.inl h
    · exact Or.inr (Or.inl (hpend.symm ▸ h))
    · exact Or.inr (Or.inr ⟨f, (hsame (huse hk)).trans hf, hfresh⟩)
  · show markStart ≤ (sweepObject marks markStart policy (r, σ.store) o).2.now
    rw [hnow]
    exact hclock

/-- The mark phase ends, and everything in use is marked, pending or fresh: what was held when the
snapshot was taken is in the snapshot, what was stored since then is pending or was adopted. -/
theorem GcInv.mark {σ : GcRunState} {live : GcLiveRoots} {markStart : Int} {fuel : Nat}
    {latest : LatestRoot} {policy : GcPolicy} {r : GcResult} {marks : MarkState} {ev : GcEvent}
    {σ' : GcRunState} (hinv : GcInv σ) (hgc : σ.gc = .clockRead live markStart)
    (hev : ev = .mark fuel latest policy) (hadopt : AdoptsInTime σ ev σ')
    (hmark : markImpl fuel σ.store σ.daemon.refs latest live policy = (r, .ok marks)) {h : Hash}
    (hh : σ.InUse h) : h ∈ marks.marked ∨ h ∈ σ.store.pending ∨ σ.store.Fresh markStart h := by
  have hcomplete := markComplete_of_ok hmark
  have hseen : σ.seen.Held h → h ∈ marks.marked := fun hheld =>
    hcomplete.live h (hinv.snapshot live (by rw [hgc]; rfl) h hheld)
  have hguard := hinv.guarded h hh
  unfold Guarded at hguard
  rw [hgc] at hguard
  rcases hguard with hheld | hpend | hadopted
  · exact Or.inl (hseen hheld)
  · exact Or.inr (Or.inl hpend)
  · rcases hadopt live markStart fuel latest policy hgc hev h hadopted with
      hfresh | hheld | hpend | hkept
    · exact Or.inr (Or.inr hfresh)
    · exact Or.inl (hseen hheld)
    · exact Or.inr (Or.inl hpend)
    · exact Or.inl ((hkept.of_noRoots live).mem_marked hcomplete)

/-- A step of the collector under the condition. -/
theorem GcInv.collectorStep {σ σ' : GcRunState} {ev : GcEvent} (hinv : GcInv σ)
    (hadopt : AdoptsInTime σ ev σ') (hs : σ.collectorStep ev = some σ') : GcInv σ' := by
  have huse : ∀ {gc : GcPhase} {k : Hash}, InUse { σ with gc := gc } k → σ.InUse k := by
    intro gc k hk
    cases hk with
    | held hh => exact .held hh
    | stored hw hst => exact .stored hw hst
  -- a step that moves only the collector
  have hquiet : ∀ gc : GcPhase, ClockRead σ.store.now gc →
      (∀ k, σ.InUse k → Guarded { σ with gc := gc } k) →
      (∀ live, GcPhase.liveRoots gc = some live → ∀ h, σ.seen.Held h → h ∈ live.hashes) →
      GcInv { σ with gc := gc } :=
    fun gc hclock hguard hlive => ⟨fun k hk => hinv.kept k (huse hk),
      fun k hk => hguard k (huse hk), hclock, hlive, hinv.finish⟩
  have hclock := hinv.clock
  unfold GcRunState.collectorStep at hs
  split at hs
  · split at hs
    · rename_i hfree
      cases hs
      refine ⟨fun k hk => hinv.kept k ?_, fun k hk => ?_, trivial, fun live hlive h hh => ?_,
        hinv.finish⟩
      · cases hk with
        | held hh => exact .held hh
        | stored hw hst => exact .stored hw hst
      · -- no request is under way, so what is in use is held
        cases hk with
        | held hh => exact Or.inl hh
        | stored hw hst =>
            rw [ExtTreeMap.isEmpty_iff.1 hfree] at hw
            simp at hw
      · cases hlive
        exact hh.mem_liveRoots _
    · cases hs
  · rename_i live hgc
    cases hs
    -- the clock is read
    refine hquiet _ (Int.le_refl _) (fun k hk => ?_) fun live' hlive => ?_
    · have hg := hinv.guarded k hk
      unfold Guarded at hg ⊢
      rw [hgc] at hg
      exact hg
    · cases hlive
      exact hinv.snapshot live (by rw [hgc]; rfl)
  · rename_i live markStart fuel latest policy hgc
    split at hs
    · rename_i r marks hmark
      cases hs
      rw [hgc] at hclock
      -- marking succeeds: what is in use is marked, pending or young
      exact hquiet _ hclock (fun k hk => hinv.mark hgc rfl hadopt hmark hk)
        fun _ h => by cases h
    · cases hs
      exact hquiet _ trivial (fun _ _ => trivial) fun _ h => by cases h
  · rename_i markStart policy marks r h hgc
    split at hs
    · cases hs
    · cases hs
      rw [hgc] at hclock
      refine hquiet _ hclock (fun k hk => ?_) fun _ h => by cases h
      have hg := hinv.guarded k hk
      unfold Guarded at hg ⊢
      rw [hgc] at hg
      exact hg
  · rename_i markStart policy marks r o hgc
    cases hs
    -- one object is swept
    exact hinv.sweep hgc
  · cases hs
    exact hquiet _ trivial (fun _ _ => trivial) fun _ h => by cases h
  · cases hs

/-! ## Whole runs -/

/-- Where a run starts: no request and no collection is under way, and everything the daemon
holds on to is stored. -/
def Start (σ : GcRunState) : Prop :=
  (∀ h, σ.daemon.Held h → h ∈ σ.store.objects) ∧ σ.inFlight = ∅ ∧ σ.gc = .idle

theorem Start.gcInv {σ : GcRunState} (h : σ.Start) : GcInv σ := by
  obtain ⟨hheld, hfree, hidle⟩ := h
  refine ⟨fun k hk => ?_, fun k _ => ?_, ?_, fun live hlive => ?_, fun b w hw => ?_⟩
  · cases hk with
    | held hh => exact hheld k hh
    | stored hw _ => simp [hfree] at hw
  · unfold Guarded
    rw [hidle]
    trivial
  · rw [hidle]
    trivial
  · rw [hidle] at hlive
    cases hlive
  · simp [hfree] at hw

/-- Every step under the condition keeps the invariant. -/
theorem GcInv.step {σ σ' : GcRunState} {ev : GcEvent} (hinv : GcInv σ)
    (hs : Restrict Step AdoptsInTime σ ev σ') : GcInv σ' := by
  obtain ⟨hs, hadopt⟩ := hs
  unfold Step next at hs
  split at hs
  · rename_i now
    split at hs
    · rename_i hle
      cases hs
      have huse : ∀ {k : Hash}, InUse (σ.withStore { σ.store with now := now }) k → σ.InUse k := by
        intro k hk
        cases hk with
        | held hh => exact .held hh.of_store
        | stored hw hst => exact .stored hw hst
      refine ⟨fun k hk => hinv.kept k (huse hk), fun k hk => ?_, ?_, hinv.snapshot, hinv.finish⟩
      · exact guarded_withNow (hinv.guarded k (huse hk))
      · exact hinv.clock.mono hle
    · cases hs
  · exact hinv.startRequest hs
  · exact hinv.requestStep hs
  · exact hinv.requestStep hs
  · exact hinv.requestStep hs
  · exact hinv.requestStep hs
  · cases hs
    exact hinv.quiet rfl ⟨rfl, rfl, fun _ => id⟩
      (fun k hk => hk.of_daemon fun _ => Daemon.held_releaseFh) hinv.finish
  all_goals exact hinv.collectorStep hadopt hs

/-- In every run in which no blob is adopted between the snapshot and the clock more than two
seconds before the clock is read, with nothing else to keep it: every object a live entry or an
open handle names is in the store, in every state. -/
theorem held_stored_of_adoptsInTime (σ : GcRunState)
    (hr : Reaches Start (Restrict Step AdoptsInTime) σ) {h : Hash} (hh : σ.daemon.Held h) :
    h ∈ σ.store.objects := by
  have hinv : GcInv σ := hr.invariant (fun _ h₀ => h₀.gcInv) fun _ _ _ hinv hs => hinv.step hs
  exact hinv.kept h (.held hh)

end

/-! ## A blob touched between the snapshot and the clock -/

section AdoptedBlob

local instance : Blake3 := foldDigest

/-- The hash of the blob whose only byte is 7. -/
def oldBlob : Hash := objectHash .blob (blobBody [7])

/-- An empty tree and a commit of it. -/
def oneCommit : ObjectStore × Hash :=
  let t := writeTree {} (serializeTreeEntries [])
  t.1.writeCommit (serializeCommit ⟨t.2, [], 0, 0, [], 0⟩)

def oneCommitRefs : Refs := (({} : Refs).writeRef Refs.mainName oneCommit.2).2

/-- A daemon whose `main` is empty; its store holds the commit of `main` and, from ten seconds
ago, the blob, which nothing names. -/
def beforeGc : GcRunState where
  daemon := {
    store := { (oneCommit.1.writeBlob [7]).1 with pending := ∅, now := 10 }
    refs := oneCommitRefs
    branches := (∅ : ExtTreeMap Nat BranchContext).insert 0 ⟨Refs.mainName, {}⟩ }
  inFlight := ∅
  gc := .idle

/-- A symlink to the text whose only byte is 7, at `/s`. -/
def symlinkRequest : FuseOp := .symlink 0 [7] [[115]]

/-- Whether `/s` of `main` names the blob. -/
def linkNamesBlob (σ : GcRunState) : Bool :=
  (σ.daemon.tree 0).any fun wt =>
    (wt.lookup [[115]]).any fun e => e.namesObject && e.hash == oldBlob

theorem held_of_linkNamesBlob {σ : GcRunState} (h : linkNamesBlob σ = true) :
    σ.daemon.Held oldBlob := by
  simp only [linkNamesBlob, Option.any_eq_true, Bool.and_eq_true, beq_iff_eq] at h
  obtain ⟨wt, hwt, e, he, hn, heq⟩ := h
  exact heq ▸ .entry hwt he hn

theorem not_held_beforeGc (h : Hash) : ¬ beforeGc.daemon.Held h := by
  intro hh
  cases hh with
  | @entry b wt p e hb he hn =>
      have hwt : wt = {} := by
        simp only [Daemon.tree, Daemon.branch, beforeGc, ExtTreeMap.getElem?_insert] at hb
        split at hb
        · simpa using hb.symm
        · simp at hb
      subst hwt
      rw [lookup_eq_some, lookupRaw_empty] at he
      cases he.1
  | handle hs hz => simp [Daemon.getFh, beforeGc] at hs

theorem start_beforeGc : beforeGc.Start :=
  ⟨fun h hh => absurd hh (not_held_beforeGc h), rfl, rfl⟩

/-- The symlink adopts the blob after the snapshot; ten seconds pass before the clock is read. -/
def adoptedLate : List GcEvent :=
  [.snapshot [], .request symlinkRequest, .probe 0, .finish 0, .tick 20, .readClock,
    .mark 9 {} {}, .stat oldBlob, .sweep, .sweepDone]

/-- The blob of a live symlink is swept. -/
theorem held_not_stored :
    ¬ ∀ σ, Reaches Start Step σ → ∀ h, σ.daemon.Held h → h ∈ σ.store.objects := by
  intro hall
  cases hrun : adoptedLate.foldlM next beforeGc with
  | none =>
      have hsome : (adoptedLate.foldlM next beforeGc).isSome = true := by decide +kernel
      rw [hrun] at hsome
      cases hsome
  | some σ =>
      have hlost : (adoptedLate.foldlM next beforeGc).all
          fun σ => linkNamesBlob σ && !σ.store.objects.contains oldBlob := by decide +kernel
      rw [hrun, Option.all_some, Bool.and_eq_true] at hlost
      have hmem := hall σ (.run adoptedLate (fun _ _ _ _ hs => hs)
        (.start start_beforeGc) hrun) oldBlob (held_of_linkNamesBlob hlost.1)
      simp [ExtTreeMap.contains_iff_mem.2 hmem] at hlost

/-- The symlink adopts the blob after the snapshot, and the clock is read two seconds later. -/
def adoptedInTime : List GcEvent :=
  [.snapshot [], .request symlinkRequest, .probe 0, .finish 0, .tick 12, .readClock]

/-- The collector comes to the blob. -/
def sweepsBlob : List GcEvent := [.stat oldBlob, .sweep, .sweepDone]

/-- The time the collector has read. -/
def markStart? (σ : GcRunState) : Option Int :=
  match σ.gc with
  | .clockRead _ markStart => some markStart
  | _ => none

theorem adoptsInTime_of_notMark {ev : GcEvent}
    (hev : ∀ fuel latest policy, ev ≠ .mark fuel latest policy) (σ σ' : GcRunState) :
    AdoptsInTime σ ev σ' :=
  fun _ _ fuel latest policy _ heq => absurd heq (hev fuel latest policy)

/-- Every blob adopted is as young as the clock the collector has read demands. -/
theorem adoptsInTime_of_all {σ : GcRunState} (h : (markStart? σ).all (fun markStart =>
      σ.adopted.all fun k => (σ.store.objects[k]?).any fun f => markStart ≤ f.mtime + 2) = true)
    (ev : GcEvent) (σ' : GcRunState) : AdoptsInTime σ ev σ' := by
  intro live markStart fuel latest policy hgc _ k hk
  rw [show markStart? σ = some markStart by simp only [markStart?, hgc], Option.all_some] at h
  obtain ⟨f, hf, hle⟩ := (Option.any_eq_true _ _).1 (List.all_eq_true.1 h k hk)
  exact Or.inl ⟨f, hf, of_decide_eq_true hle⟩

/-- The blob of the symlink survives the collection when it is adopted in time. -/
theorem held_stored_of_adoptsInTime_symlink :
    ((adoptedInTime.foldlM next beforeGc).bind fun σ =>
      (σ.next (.mark 9 {} {})).bind fun σ => sweepsBlob.foldlM next σ).any
      (fun σ => linkNamesBlob σ && σ.store.objects.contains oldBlob) = true := by
  have hlink : ((adoptedInTime.foldlM next beforeGc).bind fun σ =>
      (σ.next (.mark 9 {} {})).bind fun σ => sweepsBlob.foldlM next σ).any linkNamesBlob = true := by
    decide +kernel
  have hyoung : (adoptedInTime.foldlM next beforeGc).all (fun σ =>
      (markStart? σ).all fun markStart => σ.adopted.all fun k =>
        (σ.store.objects[k]?).any fun f => markStart ≤ f.mtime + 2) = true := by
    decide +kernel
  cases hread : adoptedInTime.foldlM next beforeGc with
  | none => simp [hread] at hlink
  | some σ₁ =>
      cases hmark : σ₁.next (.mark 9 {} {}) with
      | none => simp [hread, hmark] at hlink
      | some σ₂ =>
          cases hrun : sweepsBlob.foldlM next σ₂ with
          | none => simp [hread, hmark, hrun] at hlink
          | some σ₃ =>
              simp only [hread, hmark, hrun, Option.bind_some, Option.any_some] at hlink ⊢
              rw [hread, Option.all_some] at hyoung
              have hreach₁ : Reaches Start (Restrict Step AdoptsInTime) σ₁ := by
                refine .run adoptedInTime ?_ (.start start_beforeGc) hread
                intro ev hev σ σ' hs
                refine ⟨hs, adoptsInTime_of_notMark (fun fuel latest policy heq => ?_) σ σ'⟩
                subst heq
                simp [adoptedInTime] at hev
              have hreach₃ : Reaches Start (Restrict Step AdoptsInTime) σ₃ := by
                refine .run sweepsBlob ?_
                  (.step hreach₁ ⟨hmark, adoptsInTime_of_all hyoung _ _⟩) hrun
                intro ev hev σ σ' hs
                refine ⟨hs, adoptsInTime_of_notMark (fun fuel latest policy heq => ?_) σ σ'⟩
                subst heq
                simp [sweepsBlob] at hev
              have hmem := held_stored_of_adoptsInTime σ₃ hreach₃ (held_of_linkNamesBlob hlink)
              simp [hlink, ExtTreeMap.contains_iff_mem.2 hmem]

end AdoptedBlob

end GcRunState
end ContextFS
