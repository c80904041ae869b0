import ContextFS.State.Publications

/-!
# What `restore_session` replays

A session is replayed from a record along its parents to the first record that is the snapshot
base of the start or has no parent.  `ReplaysTo` is that chain for any rule of where to stop; the
rule the source documents compares ids as hashes, the loop compares the base as text.  The two
agree on a base in the lower-case text `hash_to_hex` prints, and on any base the walk does not
come to.
-/

namespace ContextFS

open ObjectStore

/-- When the walk is to stop at the record `rec` under `id`. -/
abbrev StopRule := Hash → AgentStateRecord → Prop

/-- The records from `cur` on, each the parent of the one before, up to the first where the rule
stops. -/
inductive ReplaysTo (s : ObjectStore) (stop : StopRule) : Hash → List AgentStateRecord → Prop
  | last {cur : Hash} {rec : AgentStateRecord} (read : readAgentStateRecord s cur = .ok rec)
      (here : stop cur rec) : ReplaysTo s stop cur [rec]
  | next {cur parent : Hash} {rec : AgentStateRecord} {recs : List AgentStateRecord}
      (read : readAgentStateRecord s cur = .ok rec) (more : ¬ stop cur rec)
      (link : hexToHashStrict rec.parentStateId = some parent)
      (rest : ReplaysTo s stop parent recs) : ReplaysTo s stop cur (rec :: recs)

/-- The documented rule: the record is the snapshot base, as a hash, or has no parent. -/
def BaseStop (base : Option Hash) : StopRule := fun id rec =>
  base = some id ∨ rec.parentStateId = []

/-- The rule of the loop: the id printed is the text of the anchor. -/
def AnchorStop (anchor : Bytes) : StopRule := fun _ rec =>
  (anchor ≠ [] ∧ rec.stateId = anchor) ∨ rec.parentStateId = []

/-- `n` parent links through readable records lead from `start` to the record. -/
inductive AfterLinks (s : ObjectStore) (start : Hash) : Nat → Hash → Prop
  | start : AfterLinks s start 0 start
  | parent {n : Nat} {cur next : Hash} {rec : AgentStateRecord} (h : AfterLinks s start n cur)
      (read : readAgentStateRecord s cur = .ok rec)
      (link : hexToHashStrict rec.parentStateId = some next) : AfterLinks s start (n + 1) next

section Replay

variable {s : ObjectStore} {stop stop' : StopRule} {start cur : Hash}

theorem stateId_of_read {rec : AgentStateRecord} (h : readAgentStateRecord s cur = .ok rec) :
    rec.stateId = hashToHex cur := by
  unfold readAgentStateRecord at h
  cases hb : s.readBlob cur with
  | none =>
      rw [hb] at h
      cases h
  | some body =>
      rw [hb] at h
      cases hd : deserializeAgentStateRecord body with
      | error err =>
          simp only [hd, Except.map] at h
          cases h
      | ok r =>
          simp only [hd, Except.map, Except.ok.injEq] at h
          rw [← h]

/-- The loop with its anchor set follows the rule of the loop, within its budget. -/
theorem restoreChain_ok_iff {anchor : Bytes} {budget : Nat} {chain : List AgentStateRecord} :
    restoreChain s budget (some anchor) cur = .ok chain ↔
      ReplaysTo s (AnchorStop anchor) cur chain ∧ chain.length ≤ budget := by
  -- on the budget, along the parents
  induction budget generalizing cur chain with
  | zero =>
      constructor
      · intro h
        cases h
      · rintro ⟨h, hlen⟩
        cases h with
        | last => simp at hlen
        | next => simp at hlen
  | succ budget ih =>
      rw [restoreChain]
      cases hread : readAgentStateRecord s cur with
      | error err =>
          refine iff_of_false (fun h => by cases h) ?_
          rintro ⟨h, -⟩
          cases h with
          | last read => cases hread.symm.trans read
          | next read => cases hread.symm.trans read
      | ok rec =>
          simp only [Option.getD_some]
          by_cases hstop : (anchor ≠ [] ∧ rec.stateId = anchor) ∨ rec.parentStateId = []
          -- the record the loop stops at is the last of the chain
          · rw [if_pos hstop, Except.ok.injEq]
            constructor
            · rintro rfl
              exact ⟨.last hread hstop, by simp⟩
            · rintro ⟨h, -⟩
              cases h with
              | last read => cases hread.symm.trans read; rfl
              | next read more =>
                  cases hread.symm.trans read
                  exact absurd hstop more
          rw [if_neg hstop]
          cases hlink : hexToHashStrict rec.parentStateId with
          | none =>
              refine iff_of_false (fun h => by cases h) ?_
              rintro ⟨h, -⟩
              cases h with
              | last read here => cases hread.symm.trans read; exact hstop here
              | next read more link =>
                  cases hread.symm.trans read
                  cases hlink.symm.trans link
          | some parent =>
              constructor
              · intro h
                cases hrest : restoreChain s budget (some anchor) parent with
                | error err =>
                    simp only [hrest, Except.map] at h
                    cases h
                | ok recs =>
                    simp only [hrest, Except.map, Except.ok.injEq] at h
                    obtain ⟨hrecs, hlen⟩ := ih.1 hrest
                    rw [← h]
                    exact ⟨.next hread hstop hlink hrecs, Nat.succ_le_succ hlen⟩
              · rintro ⟨h, hlen⟩
                cases h with
                | last read here => cases hread.symm.trans read; exact absurd here hstop
                | next read more link rest =>
                    cases hread.symm.trans read
                    cases hlink.symm.trans link
                    have hrest := ih.2 ⟨rest, Nat.le_of_succ_le_succ hlen⟩
                    simp only [hrest, Except.map]

/-- Rules that agree on every record within the limit replay the same chains. -/
theorem ReplaysTo.congr {limit n : Nat} {recs : List AgentStateRecord}
    (hstops : ∀ k id rec, k < limit → AfterLinks s start k id →
      readAgentStateRecord s id = .ok rec → (stop id rec ↔ stop' id rec))
    (hcur : AfterLinks s start n cur) (h : ReplaysTo s stop cur recs)
    (hlen : n + recs.length ≤ limit) : ReplaysTo s stop' cur recs := by
  induction h generalizing n with
  | last read here =>
      have hlt : n < limit := by
        simpa using hlen
      exact .last read ((hstops n _ _ hlt hcur read).1 here)
  | next read more link rest ih =>
      rw [List.length_cons] at hlen
      have hlt : n < limit := by omega
      refine .next read (fun hstop => more ((hstops n _ _ hlt hcur read).2 hstop)) link ?_
      exact ih (.parent hcur read link) (by omega)

/-- A chain ends at a record where its rule stops. -/
theorem ReplaysTo.exists_last {recs : List AgentStateRecord} (h : ReplaysTo s stop cur recs) :
    ∃ id rec, recs.getLast? = some rec ∧ readAgentStateRecord s id = .ok rec ∧ stop id rec := by
  induction h with
  | @last cur rec read here => exact ⟨cur, rec, rfl, read, here⟩
  | @next cur parent rec recs read more link rest ih =>
      obtain ⟨id, last, hlast, hread, hstop⟩ := ih
      refine ⟨id, last, ?_, hread, hstop⟩
      rw [List.getLast?_cons, hlast]
      rfl

theorem parent_ne_nil {rec : AgentStateRecord} {parent : Hash}
    (link : hexToHashStrict rec.parentStateId = some parent) : rec.parentStateId ≠ [] := by
  intro hnil
  rw [hnil] at link
  cases link

/-- A base the walk comes to, with a parent of its own, ends a chain by the documented rule. -/
theorem exists_replaysTo_base {base : Hash} {n : Nat} {recs : List AgentStateRecord}
    (hcur : AfterLinks s start n cur) (h : ReplaysTo s (BaseStop (some base)) cur recs)
    (hlast : ∀ r, recs.getLast? = some r → r.parentStateId ≠ []) :
    ∃ chain, ReplaysTo s (BaseStop (some base)) start chain ∧ chain.length ≤ n + recs.length ∧
      ∀ r, chain.getLast? = some r → r.parentStateId ≠ [] := by
  induction hcur generalizing recs with
  | start => exact ⟨recs, h, by omega, hlast⟩
  | @parent n cur next rec _ read link ih =>
      have hparent := parent_ne_nil link
      by_cases hbase : base = cur
      · -- the base was passed earlier: the chain ends there
        have hone : ReplaysTo s (BaseStop (some base)) cur [rec] :=
          .last read (Or.inl (congrArg some hbase))
        obtain ⟨chain, hchain, hle, hend⟩ := ih hone fun r hr => by
          cases hr
          exact hparent
        have hpos : 0 < recs.length := by
          cases h with
          | last => simp
          | next => simp
        refine ⟨chain, hchain, ?_, hend⟩
        rw [List.length_singleton] at hle
        omega
      · have hmore : ¬ BaseStop (some base) cur rec := by
          rintro (hstop | hroot)
          · exact hbase (Option.some.inj hstop)
          · exact hparent hroot
        obtain ⟨id, last, hlast', -, -⟩ := h.exists_last
        obtain ⟨chain, hchain, hle, hend⟩ := ih (.next read hmore link h) fun r hr => by
          rw [List.getLast?_cons, hlast'] at hr
          cases hr
          exact hlast _ hlast'
        refine ⟨chain, hchain, ?_, hend⟩
        rw [List.length_cons] at hle
        omega

end Replay

namespace AgentStateService

/-- The chain the source documents for a start id and a limit. -/
def ReplaysWithin (s : ObjectStore) (stateId : Bytes) (maxDepth : Nat)
    (chain : List AgentStateRecord) : Prop :=
  ∃ start first, hexToHashStrict stateId = some start ∧ readAgentStateRecord s start = .ok first ∧
    ReplaysTo s (BaseStop (hexToHashStrict first.snapshotBaseStateId)) start chain ∧
    chain.length ≤ maxDepth

/-- Within the limit, and through readable records, the walk comes to the record `base`, which has
a parent. -/
def WalksOnto (s : ObjectStore) (start : Hash) (maxDepth : Nat) (base : Hash) : Prop :=
  ∃ n rec, n < maxDepth ∧ AfterLinks s start n base ∧ readAgentStateRecord s base = .ok rec ∧
    rec.parentStateId ≠ []

/-- The start names its snapshot base in the text `hash_to_hex` prints, or the walk does not come
to that base before it ends. -/
def BaseRecognised (s : ObjectStore) (stateId : Bytes) (maxDepth : Nat) : Prop :=
  ∀ start first base, hexToHashStrict stateId = some start →
    readAgentStateRecord s start = .ok first →
    hexToHashStrict first.snapshotBaseStateId = some base →
    first.snapshotBaseStateId = hashToHex base ∨ ¬ WalksOnto s start maxDepth base

section Restore

variable {s : ObjectStore} {start : Hash} {maxDepth : Nat}

/-- The first record sets the anchor. -/
theorem restoreChain_none {first : AgentStateRecord}
    (h : readAgentStateRecord s start = .ok first) :
    restoreChain s maxDepth none start =
      restoreChain s maxDepth (some first.snapshotBaseStateId) start := by
  cases maxDepth with
  | zero => rfl
  | succ budget =>
      rw [restoreChain, restoreChain, h]
      rfl

theorem restoreChain_unreadable {err : String} {anchor : Option Bytes}
    {chain : List AgentStateRecord} (h : readAgentStateRecord s start = .error err) :
    restoreChain s maxDepth anchor start ≠ .ok chain := by
  cases maxDepth with
  | zero =>
      intro hc
      cases hc
  | succ budget =>
      rw [restoreChain, h]
      intro hc
      cases hc

/-- Both rules at one record: they differ only where the base is written in another case. -/
theorem stops_alike {first rec : AgentStateRecord} {id : Hash}
    (hread : readAgentStateRecord s id = .ok rec)
    (h : ∀ base, hexToHashStrict first.snapshotBaseStateId = some base →
      first.snapshotBaseStateId = hashToHex base ∨ base ≠ id ∨ rec.parentStateId = []) :
    AnchorStop first.snapshotBaseStateId id rec ↔
      BaseStop (hexToHashStrict first.snapshotBaseStateId) id rec := by
  have hid := stateId_of_read hread
  constructor
  · rintro (⟨-, heq⟩ | hroot)
    · left
      rw [← heq, hid, hexToHashStrict_hashToHex]
    · exact Or.inr hroot
  · rintro (hbase | hroot)
    · rcases h id hbase with htext | hne | hroot
      · left
        refine ⟨?_, hid.trans htext.symm⟩
        intro hnil
        rw [hnil] at hbase
        cases hbase
      · exact absurd rfl hne
      · exact Or.inr hroot
    · exact Or.inr hroot

theorem replaysTo_iff_of_recognised {first : AgentStateRecord} {chain : List AgentStateRecord}
    (h : ∀ base, hexToHashStrict first.snapshotBaseStateId = some base →
      first.snapshotBaseStateId = hashToHex base ∨ ¬ WalksOnto s start maxDepth base)
    (hlen : chain.length ≤ maxDepth) :
    ReplaysTo s (AnchorStop first.snapshotBaseStateId) start chain ↔
      ReplaysTo s (BaseStop (hexToHashStrict first.snapshotBaseStateId)) start chain := by
  have hstops : ∀ k id rec, k < maxDepth → AfterLinks s start k id →
      readAgentStateRecord s id = .ok rec → (AnchorStop first.snapshotBaseStateId id rec ↔
        BaseStop (hexToHashStrict first.snapshotBaseStateId) id rec) := by
    intro k id rec hk hwalk hread
    refine stops_alike hread fun base hbase => ?_
    rcases h base hbase with htext | hoff
    · exact Or.inl htext
    by_cases hid : base = id
    · right; right
      by_contra hparent
      subst hid
      exact hoff ⟨k, rec, hk, hwalk, hread, hparent⟩
    · exact Or.inr (Or.inl hid)
  have hlen' : 0 + chain.length ≤ maxDepth := by omega
  constructor
  · intro hc
    exact hc.congr hstops .start hlen'
  · intro hc
    refine hc.congr (fun k id rec hk hwalk hread => ?_) .start hlen'
    exact (hstops k id rec hk hwalk hread).symm

end Restore

/-- `restore_session` answers with the documented chain, and only with it, exactly when the base
is written as `hash_to_hex` prints it or the walk does not come to it. -/
theorem restoreSession_exact_iff (svc : AgentStateService) (stateId : Bytes) (maxDepth : Nat) :
    (∀ chain, svc.restoreSession stateId maxDepth = .ok chain ↔
      ReplaysWithin svc.store stateId maxDepth chain) ↔
    BaseRecognised svc.store stateId maxDepth := by
  cases hid : hexToHashStrict stateId with
  | none =>
      refine iff_of_true (fun chain => iff_of_false ?_ ?_) ?_
      · intro h
        simp only [restoreSession, hid] at h
        cases h
      · rintro ⟨start, first, hstart, -⟩
        cases hid.symm.trans hstart
      · intro start first base hstart
        cases hid.symm.trans hstart
  | some start =>
  cases hread : readAgentStateRecord svc.store start with
  | error err =>
      refine iff_of_true (fun chain => iff_of_false ?_ ?_) ?_
      · simp only [restoreSession, hid]
        exact restoreChain_unreadable hread
      · rintro ⟨start', first, hstart, hfirst, -⟩
        cases hid.symm.trans hstart
        cases hread.symm.trans hfirst
      · intro start' first base hstart hfirst
        cases hid.symm.trans hstart
        cases hread.symm.trans hfirst
  | ok first =>
  -- what the loop replays, and what is documented
  have hcode : ∀ chain, svc.restoreSession stateId maxDepth = .ok chain ↔
      ReplaysTo svc.store (AnchorStop first.snapshotBaseStateId) start chain ∧
        chain.length ≤ maxDepth := by
    intro chain
    simp only [restoreSession, hid]
    rw [restoreChain_none hread]
    exact restoreChain_ok_iff
  have hdoc : ∀ chain, ReplaysWithin svc.store stateId maxDepth chain ↔
      ReplaysTo svc.store (BaseStop (hexToHashStrict first.snapshotBaseStateId)) start chain ∧
        chain.length ≤ maxDepth := by
    intro chain
    constructor
    · rintro ⟨start', first', hstart, hfirst, hchain⟩
      cases hid.symm.trans hstart
      cases hread.symm.trans hfirst
      exact hchain
    · intro hchain
      exact ⟨start, first, hid, hread, hchain⟩
  constructor
  · intro hexact start' first' base hstart hfirst hbase
    cases hid.symm.trans hstart
    cases hread.symm.trans hfirst
    by_contra hno
    rw [not_or, not_not] at hno
    obtain ⟨htext, n, rec, hn, hwalk, hrec, hparent⟩ := hno
    -- the documented chain ends at the base, the loop only stops at a root
    have hone : ReplaysTo svc.store (BaseStop (some base)) base [rec] := .last hrec (Or.inl rfl)
    obtain ⟨chain, hchain, hle, hend⟩ := exists_replaysTo_base hwalk hone fun r hr => by
      cases hr
      exact hparent
    rw [List.length_singleton] at hle
    have hwithin := (hdoc chain).2 ⟨hbase ▸ hchain, by omega⟩
    obtain ⟨hloop, -⟩ := (hcode chain).1 ((hexact chain).2 hwithin)
    obtain ⟨id, last, hlast, hlastRead, hstop⟩ := hloop.exists_last
    rcases hstop with ⟨-, hanchor⟩ | hroot
    · rw [stateId_of_read hlastRead] at hanchor
      rw [← hanchor, hexToHashStrict_hashToHex, Option.some.injEq] at hbase
      exact htext (hbase ▸ hanchor.symm)
    · exact hend last hlast hroot
  -- both stop at the same records
  · intro hrec chain
    rw [hcode, hdoc]
    have hbases := fun base => hrec start first base hid hread
    constructor
    · rintro ⟨hchain, hlen⟩
      exact ⟨(replaysTo_iff_of_recognised hbases hlen).1 hchain, hlen⟩
    · rintro ⟨hchain, hlen⟩
      exact ⟨(replaysTo_iff_of_recognised hbases hlen).2 hchain, hlen⟩

/-! ## A base in upper case -/

section UpperCase

local instance replayDigest : Blake3 := foldDigest

/-- The same id in capital letters. -/
def upperHex (hex : Bytes) : Bytes :=
  hex.map fun c => if 97 ≤ c ∧ c ≤ 102 then c - 32 else c

/-- An unsynced record of agent `a` on branch `b`. -/
def recordRequest (parent base : Bytes) : AgentStateAppendRequest :=
  { record := { agentId := [97], branch := [98], parentStateId := parent, snapshotBaseStateId := base }
    dependencyHashes := [], sync := false }

/-- The id an append stores its record under. -/
def requestId (req : AgentStateAppendRequest) : Hash :=
  objectHash .blob (blobBody req.appended.serialize)

def rootId : Hash := requestId (recordRequest [] [])

def baseRecordId : Hash := requestId (recordRequest (hashToHex rootId) [])

def tipId : Hash :=
  requestId (recordRequest (hashToHex baseRecordId) (upperHex (hashToHex baseRecordId)))

/-- A root, a record on it and a record on that one, which names it as its base in capitals. -/
def threeRecords : AgentStateService :=
  let root := (AgentStateService.append ⟨{}, {}⟩ (recordRequest [] [])).2
  let base := (root.append (recordRequest (hashToHex rootId) [])).2
  (base.append
    (recordRequest (hashToHex baseRecordId) (upperHex (hashToHex baseRecordId)))).2

/-- The tip replays down to the root, past the base it names. -/
theorem restoreSession_passes_base :
    ¬∀ (svc : AgentStateService) (stateId : Bytes) (maxDepth : Nat) (chain : List AgentStateRecord),
      svc.restoreSession stateId maxDepth = .ok chain ↔
        ReplaysWithin svc.store stateId maxDepth chain := by
  intro h
  have hlen : (threeRecords.restoreSession (hashToHex tipId) 3).toOption.map List.length =
      some 3 := by decide +kernel
  have htip : ((readAgentStateRecord threeRecords.store tipId).toOption.all fun r =>
      hexToHashStrict r.parentStateId == some baseRecordId &&
        hexToHashStrict r.snapshotBaseStateId == some baseRecordId) = true := by decide +kernel
  cases hchain : threeRecords.restoreSession (hashToHex tipId) 3 with
  | error err =>
      rw [hchain] at hlen
      cases hlen
  | ok chain =>
      rw [hchain] at hlen
      have hthree : chain.length = 3 := Option.some.inj hlen
      obtain ⟨start, first, hstart, hfirst, hreplays, -⟩ := (h _ _ _ _).1 hchain
      rw [hexToHashStrict_hashToHex, Option.some.injEq] at hstart
      subst hstart
      rw [hfirst] at htip
      change (hexToHashStrict first.parentStateId == some baseRecordId &&
        hexToHashStrict first.snapshotBaseStateId == some baseRecordId) = true at htip
      simp only [Bool.and_eq_true, beq_iff_eq] at htip
      obtain ⟨hparent, hbase⟩ := htip
      rw [hbase] at hreplays
      cases hreplays with
      | last => cases hthree
      | next read more link rest =>
          cases hfirst.symm.trans read
          cases hparent.symm.trans link
          cases rest with
          | last => cases hthree
          | next _ more' => exact more' (Or.inl rfl)

end UpperCase

end AgentStateService

end ContextFS
