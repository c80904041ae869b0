import ContextFS.Runtime.RestoreRuntime
import ContextFS.Runtime.Vouched

/-!
# What the checks of the peer are worth

Each check passes only for a peer that is who it says at the time; put together, a process group
reaches the supervisor only when a peer vouches for it.  So no signal goes to another group,
however the threads of the requests, of the restores and of the snapshots are mixed.
-/

namespace ContextFS

open Lib

variable {Peers : PeerCredentials → Prop} {peer : PeerCredentials} {w : World}

/-! ## Facts about the kernel -/

namespace Kernel

variable {k : Kernel}

theorem getpgid_range {pid pgid : Int} (h : k.getpgid pid = some pgid) : pgid ≤ pidMax := by
  unfold getpgid at h
  split at h
  · cases h
    exact k.ownGroup_range.2
  · obtain ⟨p, -, rfl⟩ := Option.map_eq_some_iff.1 h
    exact p.group_range.2

theorem processGroupForPid_range {pid pgid : Int} (h : k.processGroupForPid pid = some pgid) :
    pgid ≤ pidMax := by
  unfold processGroupForPid at h
  split at h
  · cases h
  · exact getpgid_range h

theorem process_of_processGroupForPid {pid pgid : Int} (hpid : 1 ≤ pid ∧ pid ≤ pidMax)
    (h : k.processGroupForPid pid = some pgid) :
    ∃ p, k.process pid = some p ∧ p.group = pgid := by
  unfold processGroupForPid at h
  rw [if_neg (by omega), toPidT_of_range hpid] at h
  unfold getpgid at h
  rw [if_neg (by omega)] at h
  exact Option.map_eq_some_iff.1 h

/-- The parent that is read is the parent, unless the name has a newline. -/
theorem process_of_parentForPid {pid parent : Int} (h : k.parentForPid pid = some parent) :
    (1 ≤ pid ∧ pid ≤ pidMax) ∧
      ∃ p, k.process pid = some p ∧ (p.parent = parent ∨ 10 ∈ p.name) := by
  unfold parentForPid at h
  split at h
  · cases h
  · obtain ⟨p, hp, hparse⟩ := Option.bind_eq_some_iff.1 h
    have hrange := k.pids hp
    refine ⟨hrange, p, hp, ?_⟩
    by_cases hname : 10 ∈ p.name
    · exact Or.inr hname
    · rw [p.parentFromStat_statText ⟨by omega, hrange.2⟩ hname] at hparse
      exact Or.inl (Option.some.inj hparse)

end Kernel

/-! ## Vouching by launching and by reporting -/

/-- A launcher vouches for the group of a process it is the parent of. -/
theorem World.vouched_of_parent {pid pgid : Int} (hpeer : Peers peer) (hpos : 1 ≤ pgid)
    (hgroup : w.Once fun m => m.kernel.processGroupForPid pid = some pgid)
    (hparent : peer.trusted = true ∨
      w.Once fun m => m.kernel.parentForPid pid = some peer.pid) : w.Vouched Peers pgid := by
  obtain ⟨m, -, hm⟩ := id hgroup
  refine ⟨⟨hpos, Kernel.processGroupForPid_range hm⟩, peer, hpeer, hparent.imp_right ?_⟩
  intro hparent
  obtain ⟨m', -, hm'⟩ := id hparent
  have hrange := (Kernel.process_of_parentForPid hm').1
  refine ⟨pid, hgroup.imp fun m hm => Kernel.process_of_processGroupForPid hrange hm, Or.inr ?_⟩
  exact hparent.imp fun m hm => (Kernel.process_of_parentForPid hm).2

/-- A process vouches for its own group. -/
theorem World.vouched_of_self {pid pgid : Int} (hpeer : Peers peer) (hpos : 1 ≤ pgid)
    (hgroup : w.Once fun m => m.kernel.processGroupForPid pid = some pgid)
    (hself : peer.trusted = true ∨ 0 < peer.pid ∧ peer.pid = pid) : w.Vouched Peers pgid := by
  obtain ⟨m, -, hm⟩ := id hgroup
  refine ⟨⟨hpos, Kernel.processGroupForPid_range hm⟩, peer, hpeer, hself.imp_right ?_⟩
  rintro ⟨hsome, rfl⟩
  have hrange : 1 ≤ peer.pid ∧ peer.pid ≤ pidMax := ⟨hsome, peer.pid_range.2⟩
  exact ⟨peer.pid, hgroup.imp fun m hm => Kernel.process_of_processGroupForPid hrange hm,
    Or.inl rfl⟩

/-- What is behind an answer that a call was mapped to. -/
theorem exists_map_eq_ok {α β : Type} {f : α → β} {r : Except String α} {b : β}
    (h : r.map f = .ok b) : ∃ a, r = .ok a ∧ f a = b := by
  cases r with
  | error e => cases h
  | ok a => exact ⟨a, rfl, Except.ok.inj h⟩

/-! ## Rules for the threads -/

namespace Handler

/-- The thread keeps the invariant, and unless it fails what it ends with satisfies `Q`. -/
abbrev Keeps {α : Type} (Peers : PeerCredentials → Prop) (Q : α → World → Prop) (p : Handler α)
    (w : World) : Prop :=
  Attempt.Passes (runtimeService Peers) Q p w

/-- A question that may be asked now may be asked later. -/
theorem safe_query {e : Question} {Q : AnswerTo e → World → Prop} (hg : e.Guarded Peers w)
    (hQ : ∀ w' o r w'', w.Later w' → w'.Ok Peers → w'.serve o e = some (r, w'') →
      (runtimeService Peers).Always (Q r) w'') :
    (Thread.query e : Thread Question AnswerTo _).Safe (runtimeService Peers) Q w := by
  refine Thread.safe_query fun w' o r w'' hl hok hs => ?_
  obtain ⟨hok', hl'⟩ := World.serve_ok hok (hg.later hl) hs
  exact ⟨hok', hl', hQ w' o r w'' hl hok hs⟩

theorem keeps_ask {e : Question} {Q : AnswerTo e → World → Prop} (hok : w.Ok Peers)
    (hg : e.Guarded Peers w)
    (hQ : ∀ w' o r w'', w.Later w' → w'.Ok Peers → w'.serve o e = some (r, w'') →
      (runtimeService Peers).Always (Q r) w'') : Keeps Peers Q (ask e) w :=
  Attempt.passes_lift (safe_query hg hQ) hok

/-- Nothing is needed of the answer. -/
theorem keeps_ask_any {e : Question} (hok : w.Ok Peers) (hg : e.Guarded Peers w) :
    Keeps Peers (fun _ _ => True) (ask e) w :=
  keeps_ask hok hg fun _ _ _ _ _ _ _ _ _ _ => trivial

/-- The answer to a question that only looks is one that was right at some time. -/
theorem keeps_look {e : Question} {P : AnswerTo e → Instant → Prop} (hok : w.Ok Peers)
    (hg : e.Guarded Peers w)
    (hlook : ∀ (w' : World) o r w'', w'.serve o e = some (r, w'') → P r w''.now) :
    Keeps Peers (fun r w => w.Once (P r)) (ask e) w :=
  keeps_ask hok hg fun w' o r w'' _ _ hs _ ht _ => (World.once_now (hlook w' o r w'' hs)).later ht

theorem keeps_demand {α : Type} {p : Thread Question AnswerTo (Except String α)}
    {Q : α → World → Prop}
    (h : p.Safe (runtimeService Peers) (fun r w => ∀ a, r = .ok a → Q a w) w) :
    Keeps Peers Q (demand p) w := h

theorem keeps_throw {α : Type} {message : String} {Q : α → World → Prop} :
    Keeps Peers Q (throw message) w :=
  Attempt.passes_throw

theorem keeps_pure {α : Type} {a : α} {Q : α → World → Prop}
    (h : ∀ w', w.Later w' → Q a w') : Keeps Peers Q (pure a) w :=
  Attempt.passes_pure fun w' hl _ => h w' hl

theorem keeps_any {α : Type} (a : α) : Keeps Peers (fun _ _ => True) (pure a) w :=
  keeps_pure fun _ _ => trivial

/-- One step and then the rest. -/
theorem Keeps.bind {α β : Type} {Q : α → World → Prop} {Q' : β → World → Prop} {p : Handler α}
    {f : α → Handler β} (h : Keeps Peers Q p w) (hok : w.Ok Peers)
    (hf : ∀ a w', w.Later w' → w'.Ok Peers → Q a w' → Keeps Peers Q' (f a) w') :
    Keeps Peers Q' (p >>= f) w :=
  Attempt.Passes.bind h hok fun a w' hl hok' hq => hf a w' hl hok' (hq.now hok')

theorem keeps_attempt {α : Type} {p : Handler α} {Q : α → World → Prop} (h : Keeps Peers Q p w)
    (hok : w.Ok Peers) :
    Keeps Peers (fun r w => ∀ a, r = .ok a → Q a w) (attempt p) w :=
  Attempt.passes_lift h hok

/-! ## The checks -/

theorem keeps_peerAvailableOrTrusted :
    Keeps Peers (fun _ _ => peer.trusted = true ∨ 0 < peer.pid) (peerAvailableOrTrusted peer) w := by
  unfold peerAvailableOrTrusted
  split
  · rename_i htrusted
    exact keeps_pure fun _ _ => Or.inl htrusted
  · split
    · rename_i havailable
      simp only [Bool.and_eq_true, decide_eq_true_eq] at havailable
      exact keeps_pure fun _ _ => Or.inr havailable.2
    · exact keeps_throw

theorem keeps_requirePeerPid (hok : w.Ok Peers) (claimed : Int) :
    Keeps Peers (fun _ _ => peer.trusted = true ∨ 0 < peer.pid ∧ peer.pid = claimed)
      (requirePeerPid peer claimed) w := by
  unfold requirePeerPid
  split
  · rename_i htrusted
    exact keeps_pure fun _ _ => Or.inl htrusted
  · rename_i htrusted
    refine keeps_peerAvailableOrTrusted.bind hok fun _ w' _ _ hpos => ?_
    split
    · exact keeps_throw
    · rename_i heq
      exact keeps_pure fun _ _ => Or.inr ⟨hpos.resolve_left htrusted, not_not.1 heq⟩

theorem keeps_requireProcessGroup (hok : w.Ok Peers) (pid pgid : Int) :
    Keeps Peers
      (fun _ w => 1 ≤ pgid ∧ w.Once fun m => m.kernel.processGroupForPid pid = some pgid)
      (requireProcessGroup pid pgid) w := by
  unfold requireProcessGroup
  split
  · exact keeps_throw
  rename_i hpos
  have hask : Keeps Peers (fun (r : Option Int) w =>
      w.Once fun m => m.kernel.processGroupForPid pid = r) (ask (.group pid)) w := by
    refine keeps_look hok trivial fun w' o r w'' hs => ?_
    cases hs
    rfl
  refine hask.bind hok fun actual w' _ _ hactual => ?_
  cases actual with
  | none => exact keeps_throw
  | some actualPgid =>
      dsimp only
      split
      · exact keeps_throw
      · rename_i heq
        rw [not_not] at heq
        subst heq
        exact keeps_pure fun t ht => ⟨by omega, hactual.later ht⟩

theorem keeps_requireParent (hok : w.Ok Peers) (pid expected : Int)
    (unverifiable mismatch : String) :
    Keeps Peers (fun _ w => w.Once fun m => m.kernel.parentForPid pid = some expected)
      (requireParent pid expected unverifiable mismatch) w := by
  unfold requireParent
  have hask : Keeps Peers (fun (r : Option Int) w =>
      w.Once fun m => m.kernel.parentForPid pid = r) (ask (.parent pid)) w := by
    refine keeps_look hok trivial fun w' o r w'' hs => ?_
    cases hs
    rfl
  refine hask.bind hok fun parent w' _ _ hparent => ?_
  cases parent with
  | none => exact keeps_throw
  | some ppid =>
      dsimp only
      split
      · exact keeps_throw
      · rename_i heq
        rw [not_not] at heq
        subst heq
        exact keeps_pure fun t ht => hparent.later ht

/-- A launcher that passes vouches for the group. -/
theorem keeps_requireLauncherPeer (hpeer : Peers peer) (hok : w.Ok Peers) (rootPid pgid : Int) :
    Keeps Peers (fun _ w => w.Vouched Peers pgid) (requireLauncherPeer peer rootPid pgid) w := by
  unfold requireLauncherPeer
  refine (keeps_requireProcessGroup hok rootPid pgid).bind hok fun _ w' _ hok' hgroup => ?_
  split
  · rename_i htrusted
    exact keeps_pure fun t ht =>
      (World.vouched_of_parent hpeer hgroup.1 hgroup.2 (Or.inl htrusted)).later ht
  · refine keeps_peerAvailableOrTrusted.bind hok' fun _ w'' hl hok'' _ => ?_
    have hparent := keeps_requireParent hok'' rootPid peer.pid "runtime parent not verifiable"
      "runtime launcher mismatch"
    exact hparent.imp fun _ t ht _ hq =>
      World.vouched_of_parent hpeer hgroup.1 (hgroup.2.later (hl.trans ht)) (Or.inr hq)

/-- A template's child that passes is the process it names, and vouches for its group; its parent
was read to be the template. -/
theorem keeps_requireGenerationPeer (hpeer : Peers peer) (hok : w.Ok Peers) (pid pgid : Int)
    (restoreTemplate : TemplateStatus) :
    Keeps Peers (fun _ w => w.Vouched Peers pgid ∧ (peer.trusted = true ∨
        0 < peer.pid ∧ peer.pid = pid ∧
          w.Once fun m => m.kernel.parentForPid pid = some restoreTemplate.templatePid))
      (requireGenerationPeer peer pid pgid restoreTemplate) w := by
  unfold requireGenerationPeer
  refine (keeps_requirePeerPid hok pid).bind hok fun _ w' _ hok' hself => ?_
  refine (keeps_requireProcessGroup hok' pid pgid).bind hok' fun _ w'' _ hok'' hgroup => ?_
  have hvouched := World.vouched_of_self hpeer hgroup.1 hgroup.2 hself
  split
  · rename_i htrusted
    exact keeps_pure fun t ht => ⟨hvouched.later ht, Or.inl htrusted⟩
  · rename_i htrusted
    obtain ⟨hpos, heq⟩ := hself.resolve_left htrusted
    exact (keeps_requireParent hok'' pid _ _ _).imp fun _ t ht _ hparent =>
      ⟨hvouched.later ht, Or.inr ⟨hpos, heq, hparent⟩⟩

theorem keeps_requireTemplatePeer (hok : w.Ok Peers) (pid pgid : Int) :
    Keeps Peers (fun _ _ => peer.trusted = true ∨ 0 < peer.pid ∧ peer.pid = pid)
      (requireTemplatePeer peer pid pgid) w := by
  unfold requireTemplatePeer
  refine (keeps_requirePeerPid hok pid).bind hok fun _ w' _ hok' hself => ?_
  split
  · exact keeps_pure fun _ _ => hself
  · exact (keeps_requireProcessGroup hok' pid pgid).imp fun _ _ _ _ _ => hself

theorem keeps_requireRuntimePeer (hok : w.Ok Peers) (pid : Int) (st : RuntimeStatus)
    (generation : UInt64) :
    Keeps Peers (fun _ _ => peer.trusted = true ∨
        0 < peer.pid ∧ peer.pid = pid ∧ st.rootPid = pid ∧ st.generation = generation)
      (requireRuntimePeer peer pid st generation) w := by
  unfold requireRuntimePeer
  refine (keeps_requirePeerPid hok pid).bind hok fun _ w' _ hok' hself => ?_
  split
  · rename_i htrusted
    exact keeps_pure fun _ _ => Or.inl htrusted
  rename_i htrusted
  split
  · exact keeps_throw
  rename_i hroot
  split
  · exact keeps_throw
  rename_i hgeneration
  rw [not_not] at hroot hgeneration
  obtain ⟨hpos, heq⟩ := hself.resolve_left htrusted
  refine (keeps_ask_any hok' (by exact trivial)).bind hok' fun actual w'' _ _ _ => ?_
  change Option Int at actual
  cases actual with
  | none => exact keeps_throw
  | some actualPgid =>
      dsimp only
      split
      · exact keeps_throw
      · exact keeps_pure fun _ _ => Or.inr ⟨hpos, heq, hroot, hgeneration⟩

/-! ## The handlers -/

/-- A call whose answer is not used further. -/
theorem keeps_call {α : Type} {p : Thread Question AnswerTo (Except String α)}
    (h : p.Safe (runtimeService Peers) (fun _ _ => True) w) :
    Keeps Peers (fun _ _ => True) (demand p) w :=
  keeps_demand (h.imp fun _ _ _ _ _ _ _ => trivial)

theorem safe_any {e : Question} (hg : e.Guarded Peers w) :
    (Thread.query e : Thread Question AnswerTo _).Safe (runtimeService Peers)
      (fun _ _ => True) w :=
  safe_query hg fun _ _ _ _ _ _ _ _ _ _ => trivial

theorem keeps_runtimeCreate (hpeer : Peers peer) (hok : w.Ok Peers) (rest : Bytes) :
    Keeps Peers (fun _ _ => True) (runtimeCreate peer rest) w := by
  unfold runtimeCreate
  dsimp only
  split
  · exact keeps_throw
  refine (keeps_ask_any hok (by exact trivial)).bind hok fun known w₁ _ hok₁ _ => ?_
  split
  · exact keeps_throw
  split
  · exact keeps_throw
  rename_i htoken
  refine (keeps_ask_any hok₁ (by exact trivial)).bind hok₁ fun live w₂ _ hok₂ _ => ?_
  split
  · exact keeps_throw
  split
  · exact keeps_throw
  refine (keeps_requireLauncherPeer hpeer hok₂ _ _).bind hok₂ fun _ w₃ _ hok₃ hv => ?_
  exact (keeps_call (safe_any (by exact ⟨htoken, hv⟩))).bind hok₃ fun _ _ _ _ _ => keeps_any _

theorem keeps_runtimeStatus (hok : w.Ok Peers) (rest : Bytes) :
    Keeps Peers (fun _ _ => True) (runtimeStatus rest) w := by
  unfold runtimeStatus
  dsimp only
  split
  · exact keeps_throw
  · exact (keeps_call (safe_any (by exact trivial))).bind hok fun _ _ _ _ _ => keeps_any _

theorem keeps_runtimeDrop (hok : w.Ok Peers) (rest : Bytes) :
    Keeps Peers (fun _ _ => True) (runtimeDrop rest) w := by
  unfold runtimeDrop
  dsimp only
  split
  · exact keeps_throw
  · exact (keeps_call (safe_any (by exact trivial))).bind hok fun _ _ _ _ _ => keeps_any _

theorem keeps_runtimeBoundary (hok : w.Ok Peers) (rest : Bytes) :
    Keeps Peers (fun _ _ => True) (runtimeBoundary peer rest) w := by
  unfold runtimeBoundary
  dsimp only
  split
  · exact keeps_throw
  refine (keeps_call (safe_any (by exact trivial))).bind hok fun st w₁ _ hok₁ _ => ?_
  refine (keeps_requireRuntimePeer hok₁ _ _ _).bind hok₁ fun _ w₂ _ hok₂ _ => ?_
  refine (keeps_ask_any hok₂ (by exact trivial)).bind hok₂ fun observed w₃ _ hok₃ _ => ?_
  change Except String Bytes at observed
  cases observed with
  | error e =>
      dsimp only
      split
      · exact keeps_any _
      · exact keeps_throw
  | ok bid =>
      refine (keeps_call (safe_any (by exact trivial))).bind hok₃ fun action w₄ _ _ _ => ?_
      split
      · exact keeps_throw
      · exact keeps_any _

theorem keeps_runtimeTemplateReady (hok : w.Ok Peers) (rest : Bytes) :
    Keeps Peers (fun _ _ => True) (runtimeTemplateReady peer rest) w := by
  unfold runtimeTemplateReady
  dsimp only
  split
  · exact keeps_throw
  refine (keeps_requireTemplatePeer hok _ _).bind hok fun _ w₁ _ hok₁ _ => ?_
  refine (keeps_call (safe_any (by exact trivial))).bind hok₁ fun _ w₂ _ hok₂ _ => ?_
  exact (keeps_call (safe_any (by exact trivial))).bind hok₂ fun _ _ _ _ _ => keeps_any _

theorem keeps_runtimeTemplatePoll (hok : w.Ok Peers) (rest : Bytes) :
    Keeps Peers (fun _ _ => True) (runtimeTemplatePoll peer rest) w := by
  unfold runtimeTemplatePoll
  dsimp only
  split
  · exact keeps_throw
  refine (keeps_call (safe_any (by exact trivial))).bind hok fun tmpl w₁ _ hok₁ _ => ?_
  refine (keeps_requirePeerPid hok₁ _).bind hok₁ fun _ w₂ _ _ _ => ?_
  exact keeps_call (safe_any (by exact trivial))

theorem keeps_runtimeGenerationReady (hpeer : Peers peer) (hok : w.Ok Peers) (rest : Bytes) :
    Keeps Peers (fun _ _ => True) (runtimeGenerationReady peer rest) w := by
  unfold runtimeGenerationReady
  dsimp only
  split
  · exact keeps_throw
  refine (keeps_call (safe_any (by exact trivial))).bind hok fun tmpl w₁ _ hok₁ _ => ?_
  split
  · exact keeps_throw
  refine (keeps_requireGenerationPeer hpeer hok₁ _ _ _).bind hok₁ fun _ w₂ _ hok₂ hv => ?_
  exact (keeps_call (safe_any (by exact hv.1))).bind hok₂ fun _ _ _ _ _ => keeps_any _

/-! ## A restore -/

/-- The group that is resumed is one the runtime was registered with. -/
theorem keeps_abortRestore (hok : w.Ok Peers) (rid : Bytes) :
    Keeps Peers (fun _ _ => True) (abortRestore rid) w := by
  unfold abortRestore
  have hask : Keeps Peers (fun (r : Except String Int) w => ∀ g, r = .ok g → w.Vouched Peers g)
      (ask (.abortRestore rid)) w := by
    refine keeps_ask hok trivial fun w' o r w'' _ hok' hs => ?_
    cases hs
    intro t ht _ g hg
    obtain ⟨⟨g', σ'⟩, hσ, rfl⟩ := exists_map_eq_ok hg
    obtain ⟨hf, r, hr, rfl⟩ := RuntimeSupervisor.identityFrame_abortRestore hσ
    exact (hok'.runtimes rid r hr).group.later ((hok'.supervise fun _ _ h =>
      (RuntimeSupervisor.identityFrame_abortRestore h).1).2.trans ht)
  refine hask.bind hok fun aborted w' _ hok' hv => ?_
  cases aborted with
  | error e => exact keeps_any _
  | ok frozen =>
      dsimp only
      split
      · exact (keeps_ask_any hok' (by exact hv frozen rfl)).bind hok' fun _ _ _ _ _ => keeps_any _
      · exact keeps_any _

/-- The group that is terminated is one the runtime was registered with before. -/
theorem keeps_retirePendingGeneration (hok : w.Ok Peers) (rid : Bytes) :
    Keeps Peers (fun _ _ => True) (retirePendingGeneration rid) w := by
  unfold retirePendingGeneration
  have hask : Keeps Peers (fun (g : Int) w => g = 0 ∨ w.Vouched Peers g)
      (demand (Thread.query (Question.retire rid))) w := by
    refine keeps_demand (safe_query trivial fun w' o r w'' _ hok' hs => ?_)
    cases hs
    intro t ht _ g hg
    obtain ⟨⟨g', σ'⟩, hσ, rfl⟩ := exists_map_eq_ok hg
    obtain ⟨hf, r, hr, rfl⟩ := RuntimeSupervisor.identityFrame_retirePendingGeneration hσ
    exact (hok'.runtimes rid r hr).retire.imp_right fun h => h.later ((hok'.supervise fun _ _ h =>
      (RuntimeSupervisor.identityFrame_retirePendingGeneration h).1).2.trans ht)
  refine hask.bind hok fun prior w' _ hok' hv => ?_
  split
  · rename_i hpos
    have hv : w'.Vouched Peers prior := hv.resolve_left (by omega)
    exact (keeps_ask_any hok' (by exact hv)).bind hok' fun _ _ _ _ _ => keeps_any _
  · exact keeps_any _

theorem keeps_rollBack (hok : w.Ok Peers) (branch : Bytes) (commit : Hash) :
    Keeps Peers (fun _ _ => True) (rollBack branch commit) w := by
  unfold rollBack
  refine (keeps_ask_any hok (by exact trivial)).bind hok fun found w' _ _ _ => ?_
  split
  · exact keeps_throw
  · exact keeps_call (safe_any (by exact trivial))

/-- What an attempt comes to is not used further. -/
theorem keeps_attempt_any {α : Type} {p : Handler α} (h : Keeps Peers (fun _ _ => True) p w)
    (hok : w.Ok Peers) : Keeps Peers (fun _ _ => True) (attempt p) w :=
  (keeps_attempt h hok).imp fun _ _ _ _ _ => trivial

theorem keeps_recoverFrom (hok : w.Ok Peers) (us : UnionRuntimeState) (recovery : Hash)
    (error shown : String) :
    Keeps Peers (fun _ _ => True) (recoverFrom us recovery error shown) w := by
  unfold recoverFrom recoverBranchTip
  have hrecover : Keeps Peers (fun _ _ => True) (do
      let recovered ← attempt (rollBack us.branch recovery)
      pure recovered.toBool) w :=
    (keeps_attempt_any (keeps_rollBack hok _ _) hok).bind hok fun _ _ _ _ _ => keeps_any _
  refine hrecover.bind hok fun recovered w₁ _ hok₁ _ => ?_
  refine (keeps_abortRestore hok₁ _).bind hok₁ fun _ w₂ _ _ _ => ?_
  split
  · exact keeps_any _
  · exact keeps_throw

theorem keeps_checkRestore (hok : w.Ok Peers) (uid : Bytes) :
    Keeps Peers (fun _ _ => True) (checkRestore uid) w := by
  unfold checkRestore
  refine (keeps_call (safe_any (by exact trivial))).bind hok fun us w₁ _ hok₁ _ => ?_
  refine (keeps_ask_any hok₁ (by exact trivial)).bind hok₁ fun tmpl w₂ _ hok₂ _ => ?_
  change Except String TemplateStatus at tmpl
  cases tmpl with
  | error e => exact keeps_throw
  | ok t =>
      dsimp only
      split
      · exact keeps_throw
      refine (keeps_ask_any hok₂ (by exact trivial)).bind hok₂ fun found w₃ _ hok₃ _ => ?_
      split
      · exact keeps_throw
      refine (keeps_ask_any hok₃ (by exact trivial)).bind hok₃ fun recovery w₄ _ hok₄ _ => ?_
      split
      · exact keeps_throw
      refine (keeps_ask_any hok₄ (by exact trivial)).bind hok₄ fun readable w₅ _ hok₅ _ => ?_
      split
      · exact keeps_throw
      refine (keeps_ask_any hok₅ (by exact trivial)).bind hok₅ fun target w₆ _ _ _ => ?_
      split
      · exact keeps_throw
      · exact keeps_any _

theorem keeps_releaseTemplate (hok : w.Ok Peers) (us : UnionRuntimeState) (recovery : Hash) :
    Keeps Peers (fun _ _ => True) (releaseTemplate us recovery) w := by
  unfold releaseTemplate
  refine (keeps_ask_any hok (by exact trivial)).bind hok fun published w₁ _ hok₁ _ => ?_
  change Except String Unit at published
  cases published with
  | error e => exact keeps_recoverFrom hok₁ _ _ _ _
  | ok _ =>
      refine (keeps_ask_any hok₁ (by exact trivial)).bind hok₁ fun ready w₂ _ hok₂ _ => ?_
      change Except String Unit at ready
      cases ready with
      | error e => exact keeps_recoverFrom hok₂ _ _ _ _
      | ok _ =>
          have hretire := keeps_attempt_any (keeps_retirePendingGeneration hok₂ us.runtimeId) hok₂
          refine hretire.bind hok₂ fun retired w₃ _ hok₃ _ => ?_
          cases retired with
          | error e =>
              exact (keeps_abortRestore hok₃ _).bind hok₃ fun _ _ _ _ _ => keeps_any _
          | ok _ =>
              unfold restoredDocument
              exact (keeps_ask_any hok₃ (by exact trivial)).bind hok₃ fun _ _ _ _ _ => keeps_any _

theorem keeps_restoreRuntime (hok : w.Ok Peers) (uid : Bytes) :
    Keeps Peers (fun _ _ => True) (restoreRuntime uid) w := by
  unfold restoreRuntime
  refine (keeps_checkRestore hok uid).bind hok fun checked w₁ _ hok₁ _ => ?_
  obtain ⟨us, recovery⟩ := checked
  dsimp only
  refine (keeps_call (safe_any (by exact trivial))).bind hok₁ fun _ w₂ _ hok₂ _ => ?_
  refine (keeps_attempt_any (keeps_rollBack hok₂ _ _) hok₂).bind hok₂ fun rolled w₃ _ hok₃ _ => ?_
  cases rolled with
  | error e => exact (keeps_abortRestore hok₃ _).bind hok₃ fun _ _ _ _ _ => keeps_throw
  | ok _ => exact keeps_releaseTemplate hok₃ us recovery

theorem keeps_runtimeRestore (hok : w.Ok Peers) (rest : Bytes) :
    Keeps Peers (fun _ _ => True) (runtimeRestore rest) w := by
  unfold runtimeRestore
  split
  · exact keeps_throw
  · exact keeps_throw
  rename_i uid _
  split
  · exact keeps_throw
  split
  · exact keeps_throw
  refine (keeps_ask_any hok (by exact trivial)).bind hok fun _ w₁ _ hok₁ _ => ?_
  refine (keeps_attempt_any (keeps_restoreRuntime hok₁ uid) hok₁).bind hok₁ fun result w₂ _ hok₂ _ => ?_
  refine (keeps_ask_any hok₂ (by exact trivial)).bind hok₂ fun _ w₃ _ _ _ => ?_
  exact fun _ _ _ _ _ => trivial

end Handler

/-! ## Every run -/

/-- The calls of `snapshot_runtime`. -/
def RuntimeSupervisor.Operation.OfSnapshot : RuntimeSupervisor.Operation → Prop
  | .beginSnapshot _ | .cancelSnapshot _ | .releaseForSnapshot _ | .releaseWithError _ _
  | .attach _ _ _ | .failPublish _ _ | .drop _ => True
  | .register _ | .observe .. | .endWait _ | .templateReady .. | .retire _ => False

/-- What snapshots ask of the supervisor, in whatever order. -/
def snapshotThread (doc : ControlProtocol.Document) :
    List RuntimeSupervisor.Operation → Thread Question AnswerTo (Except String ControlProtocol.Document)
  | [] => pure (.ok doc)
  | op :: ops => .ask (.snapshot op) fun _ => snapshotThread doc ops

/-- The threads there may be: one for each request of a peer, and snapshots. -/
inductive RuntimeThread (Peers : PeerCredentials → Prop) :
    Thread Question AnswerTo (Except String ControlProtocol.Document) → Prop
  | create {peer : PeerCredentials} (rest : Bytes) (h : Peers peer) :
      RuntimeThread Peers (Handler.runtimeCreate peer rest).run
  | status (rest : Bytes) : RuntimeThread Peers (Handler.runtimeStatus rest).run
  | drop (rest : Bytes) : RuntimeThread Peers (Handler.runtimeDrop rest).run
  | boundary {peer : PeerCredentials} (rest : Bytes) (h : Peers peer) :
      RuntimeThread Peers (Handler.runtimeBoundary peer rest).run
  | templateReady {peer : PeerCredentials} (rest : Bytes) (h : Peers peer) :
      RuntimeThread Peers (Handler.runtimeTemplateReady peer rest).run
  | templatePoll {peer : PeerCredentials} (rest : Bytes) (h : Peers peer) :
      RuntimeThread Peers (do
        let action ← Handler.runtimeTemplatePoll peer rest
        pure (Handler.pollDocument action) : Handler ControlProtocol.Document).run
  | generationReady {peer : PeerCredentials} (rest : Bytes) (h : Peers peer) :
      RuntimeThread Peers (Handler.runtimeGenerationReady peer rest).run
  | restore (rest : Bytes) : RuntimeThread Peers (Handler.runtimeRestore rest).run
  | snapshot (doc : ControlProtocol.Document) (ops : List RuntimeSupervisor.Operation)
      (h : ∀ op ∈ ops, op.OfSnapshot) : RuntimeThread Peers (snapshotThread doc ops)

theorem safe_snapshotThread (doc : ControlProtocol.Document) {ops : List RuntimeSupervisor.Operation}
    (h : ∀ op ∈ ops, op.OfSnapshot) :
    (snapshotThread doc ops).Safe (runtimeService Peers) (fun _ _ => True) w := by
  induction ops generalizing w with
  | nil => exact fun _ _ _ => trivial
  | cons op ops ih =>
      intro w' o r w'' _ hok hs
      have hg : (Question.snapshot op).Guarded Peers w' := by
        rintro request rfl
        exact h _ List.mem_cons_self
      obtain ⟨hok', hl⟩ := World.serve_ok (o := o) hok hg hs
      exact ⟨hok', hl, ih fun op hop => h op (List.mem_cons_of_mem _ hop)⟩

theorem RuntimeThread.safe {p : Thread Question AnswerTo (Except String ControlProtocol.Document)}
    (h : RuntimeThread Peers p) (hok : w.Ok Peers) :
    p.Safe (runtimeService Peers) (fun _ _ => True) w := by
  have hany {p : Handler ControlProtocol.Document}
      (hp : Handler.Keeps Peers (fun _ _ => True) p w) :
      p.run.Safe (runtimeService Peers) (fun _ _ => True) w :=
    Thread.Safe.imp hp fun _ _ _ _ _ => trivial
  cases h with
  | create rest h => exact hany (Handler.keeps_runtimeCreate h hok rest)
  | status rest => exact hany (Handler.keeps_runtimeStatus hok rest)
  | drop rest => exact hany (Handler.keeps_runtimeDrop hok rest)
  | boundary rest h => exact hany (Handler.keeps_runtimeBoundary hok rest)
  | templateReady rest h => exact hany (Handler.keeps_runtimeTemplateReady hok rest)
  | templatePoll rest h =>
      exact hany ((Handler.keeps_runtimeTemplatePoll hok rest).bind hok
        fun _ _ _ _ _ => Handler.keeps_any _)
  | generationReady rest h => exact hany (Handler.keeps_runtimeGenerationReady h hok rest)
  | restore rest => exact hany (Handler.keeps_runtimeRestore hok rest)
  | snapshot doc ops h => exact safe_snapshotThread doc h

/-- The daemon and whatever it serves. -/
abbrev RuntimePool := Pool World Question AnswerTo (Except String ControlProtocol.Document)

/-- A daemon that has just started. -/
def World.Fresh (w : World) : Prop := w.signals = [] ∧ w.now.supervisor = {}

theorem World.Fresh.ok (h : w.Fresh) : w.Ok Peers := by
  refine ⟨fun rid r hr => ?_, fun s hs => ?_⟩
  · rw [h.2] at hr
    cases hr
  · rw [h.1] at hs
    cases hs

/-- Steps of the pool: the kernel's tables change, threads begin, questions are answered. -/
def RuntimePool.Step (Peers : PeerCredentials → Prop) :
    RuntimePool → PoolEvent Question Outside Kernel AnswerTo (Except String ControlProtocol.Document) →
      RuntimePool → Prop :=
  Pool.Step World.serve World.turn (RuntimeThread Peers)

theorem ok_of_reaches {Peers : PeerCredentials → Prop} {x : RuntimePool}
    (h : Reaches (Pool.Init World.Fresh) (RuntimePool.Step Peers) x) : x.state.Ok Peers :=
  (Pool.safe_of_reaches (V := runtimeService Peers) (Q := fun _ _ => True)
    (P := World.Fresh) (fun _ h => h.ok) (fun w k hw => ⟨World.Ok.turn hw k, w.later_turn k⟩)
    (fun _ _ hp hw => hp.safe hw) h).1

/-- A signal that the daemon sends goes to one process group, and a peer vouches for that group:
some process of it was the peer itself or a child of the peer, or had a newline in its name, unless
the peer is trusted. -/
theorem signals_vouched {Peers : PeerCredentials → Prop} {x : RuntimePool}
    (h : Reaches (Pool.Init World.Fresh) (RuntimePool.Step Peers) x) {kind : SignalKind} {arg : Int}
    (hsent : (kind, arg) ∈ x.state.signals) :
    1 ≤ -arg ∧ -arg ≤ pidMax ∧ ∃ peer, Peers peer ∧ (peer.trusted = true ∨ ∃ pid,
      (x.state.Once fun m => ∃ p, m.kernel.process pid = some p ∧ p.group = -arg) ∧
        (pid = peer.pid ∨ x.state.Once fun m => ∃ p, m.kernel.process pid = some p ∧
          (p.parent = peer.pid ∨ 10 ∈ p.name))) := by
  obtain ⟨pgid, heq, hv⟩ := (ok_of_reaches h).signals _ hsent
  obtain rfl : arg = -pgid := heq
  rw [neg_neg]
  exact ⟨hv.range.1, hv.range.2, hv.peer⟩

/-! ## A run -/

/-- The peer that starts a runtime, the runtime and the template it forks. -/
def launcher : PeerCredentials := { available := true, pid := 100 }
def launched : PeerCredentials := { available := true, pid := 200 }
def parked : PeerCredentials := { available := true, pid := 300 }

/-- A process without a name. -/
def plainProcess (parent group : Int) (hparent : 0 ≤ parent ∧ parent ≤ pidMax)
    (hgroup : 0 ≤ group ∧ group ≤ pidMax) : Process where
  name := []
  state := 83
  parent := parent
  group := group
  fields := []
  name_length := by decide
  name_text := by decide
  state_letter := by decide
  parent_range := hparent
  group_range := hgroup

/-- The launcher's child is in that group, and its own child leads another. -/
def twoProcesses (group : Int) (hgroup : 0 ≤ group ∧ group ≤ pidMax) : Kernel where
  process pid :=
    if pid = 200 then some (plainProcess 100 group (by decide) hgroup)
    else if pid = 300 then some (plainProcess 200 300 (by decide) (by decide))
    else none
  pids := by
    intro pid p h
    split at h
    · rename_i heq
      rw [heq]
      decide
    · split at h
      · rename_i heq
        rw [heq]
        decide
      · cases h
  reachable _ := true
  ownGroup := 1
  ownGroup_range := by decide

/-- The runtime leads its group. -/
def ownGroup : Kernel := twoProcesses 200 (by decide)

/-- The runtime is in group 1, like the children of the first process of a container. -/
def groupOne : Kernel := twoProcesses 1 (by decide)

/-- The union state of the snapshot. -/
def snapshotState : UnionRuntimeState where
  runtimeId := ascii "r"
  templateId := generatedId templateKind 1
  runtimeGeneration := 1

/-- What the outside answers in the run. -/
def favourable : Outside where
  union := .ok snapshotState
  commit := { bytes := List.replicate 32 1, length_eq := by decide }

/-- A runtime is registered, snapshot and restored, up to the freeze. -/
def frozenRun (create : Bytes) : List (PoolEvent Question Outside Kernel AnswerTo
    (Except String ControlProtocol.Document)) :=
  .start (Handler.runtimeCreate launcher create).run ::
  List.replicate 5 (.answer 0 favourable) ++
  .start (snapshotThread (.flag true) [
      .beginSnapshot { runtimeId := ascii "r", boundaryKind := ascii "manual" },
      .releaseForSnapshot (generatedId boundaryKind 1)]) ::
  .answer 1 favourable ::
  .start (Handler.runtimeBoundary launched (ascii
      "\x7b\"runtime_id\":\"r\",\"control_token\":\"t\",\"pid\":200,\"generation\":1\x7d")).run ::
  List.replicate 3 (.answer 2 favourable) ++
  .answer 1 favourable ::
  .start (Handler.runtimeTemplateReady parked (ascii
      "\x7b\"template_id\":\"tmpl-0000000000000001\",\"control_token\":\"t\",\"template_pid\":300,\"template_process_group_id\":300\x7d")).run ::
  List.replicate 2 (.answer 3 favourable) ++
  .start (Handler.runtimeRestore (ascii
      "\x7b\"union_state_id\":\"0000000000000000000000000000000000000000000000000000000000000001\"\x7d")).run ::
  List.replicate 8 (.answer 4 favourable)

/-- The request that registers the runtime in a group of its own. -/
def createOwnGroup : Bytes := ascii
  "\x7b\"runtime_id\":\"r\",\"root_pid\":200,\"process_group_id\":200,\"control_token\":\"t\"\x7d"

/-- The request that registers the runtime in group 1. -/
def createGroupOne : Bytes := ascii
  "\x7b\"runtime_id\":\"r\",\"root_pid\":200,\"process_group_id\":1,\"control_token\":\"t\"\x7d"

/-- The peers of the run. -/
def RunPeers (p : PeerCredentials) : Prop := p = launcher ∨ p = launched ∨ p = parked

/-- The pool the run begins with. -/
def freshPool (k : Kernel) : RuntimePool where
  state := { now := { kernel := k } }

section Peers

variable {Peers : PeerCredentials → Prop} (hpeers : ∀ p, RunPeers p → Peers p)
include hpeers

/-- Every thread of the run is one that there may be. -/
theorem frozenRun_starts (create : Bytes) :
    ∀ e ∈ frozenRun create, ∀ p, e = .start p → RuntimeThread Peers p := by
  intro e he p hp
  subst hp
  simp only [frozenRun, List.cons_append, List.append_assoc, List.mem_cons, List.mem_append,
    List.mem_replicate, PoolEvent.start.injEq, reduceCtorEq, and_false, false_or, or_false] at he
  rcases he with rfl | rfl | rfl | rfl | rfl
  · exact .create _ (hpeers _ (Or.inl rfl))
  · refine .snapshot _ _ ?_
    simp [RuntimeSupervisor.Operation.OfSnapshot]
  · exact .boundary _ (hpeers _ (Or.inr (Or.inl rfl)))
  · exact .templateReady _ (hpeers _ (Or.inr (Or.inr rfl)))
  · exact .restore _

/-- Where the run ends is reached. -/
theorem reaches_frozenRun {create : Bytes} {k : Kernel} {x : RuntimePool}
    (hrun : (frozenRun create).foldlM (Pool.next World.serve World.turn) (freshPool k) = some x) :
    Reaches (Pool.Init World.Fresh) (RuntimePool.Step Peers) x :=
  Reaches.run (frozenRun create) (fun e he _ _ hs => ⟨hs, frozenRun_starts hpeers create e he⟩)
    (.start ⟨⟨rfl, rfl⟩, rfl⟩) hrun

end Peers

theorem frozenRun_ownGroup : ∃ x : RuntimePool,
    (frozenRun createOwnGroup).foldlM (Pool.next World.serve World.turn) (freshPool ownGroup) =
      some x ∧ (SignalKind.stop, -200) ∈ x.state.signals := by
  have hsignals : (((frozenRun createOwnGroup).foldlM (Pool.next World.serve World.turn)
      (freshPool ownGroup)).map fun x => x.state.signals) = some [(.stop, -200)] := by
    decide +kernel
  obtain ⟨x, hrun, hx⟩ := Option.map_eq_some_iff.1 hsignals
  refine ⟨x, hrun, ?_⟩
  rw [hx]
  exact List.mem_singleton_self _

theorem signals_vouched_frozenRun : ∃ x : RuntimePool, (SignalKind.stop, -200) ∈ x.state.signals ∧
    ∃ peer, RunPeers peer ∧ (peer.trusted = true ∨ ∃ pid,
      (x.state.Once fun m => ∃ p, m.kernel.process pid = some p ∧ p.group = -(-200)) ∧
        (pid = peer.pid ∨ x.state.Once fun m => ∃ p, m.kernel.process pid = some p ∧
          (p.parent = peer.pid ∨ 10 ∈ p.name))) := by
  obtain ⟨x, hrun, hmem⟩ := frozenRun_ownGroup
  have hreach : Reaches (Pool.Init World.Fresh) (RuntimePool.Step RunPeers) x :=
    reaches_frozenRun (fun _ h => h) hrun
  exact ⟨x, hmem, (signals_vouched hreach hmem).2.2⟩

/-! ## A signal to every process -/

/-- The processes have always been these. -/
def World.Still (k : Kernel) (w : World) : Prop := ∀ m ∈ w.moments, m.kernel = k

section Still

variable {k : Kernel} {w w' : World}

theorem World.Still.put (h : w.Still k) (σ : RuntimeSupervisor) : (w.put σ).Still k := by
  intro m hm
  rcases List.mem_cons.1 hm with rfl | hm
  · exact h w.now List.mem_cons_self
  · exact h m hm

/-- No answer changes the processes. -/
theorem World.Still.serve (h : w.Still k) {o : Outside} {e : Question} {r : AnswerTo e}
    (hs : w.serve o e = some (r, w')) : w'.Still k := by
  cases e
  case lock =>
    simp only [World.serve] at hs
    split at hs
    · cases hs
    · cases hs
      exact h
  case beginRestore intent =>
    cases hs
    refine World.Still.put ?_ _
    split
    · exact h
    · exact h
  all_goals
    cases hs
    first
    | exact h
    | exact h.put _

/-- The processes stay what they are in a run in which the kernel's tables do not change. -/
theorem still_of_foldlM
    {evs : List (PoolEvent Question Outside Kernel AnswerTo (Except String ControlProtocol.Document))}
    (hevs : ∀ u, .world u ∉ evs) {x x' : RuntimePool} (h : x.state.Still k)
    (hrun : evs.foldlM (Pool.next World.serve World.turn) x = some x') : x'.state.Still k := by
  induction evs generalizing x with
  | nil =>
      cases hrun
      exact h
  | cons ev evs ih =>
      rw [List.foldlM_cons, Option.bind_eq_bind, Option.bind_eq_some_iff] at hrun
      obtain ⟨x₁, hnext, hrest⟩ := hrun
      refine ih (fun u hu => hevs u (List.mem_cons_of_mem _ hu)) ?_ hrest
      cases ev with
      | world u => exact absurd List.mem_cons_self (hevs u)
      | start p =>
          cases hnext
          exact h
      | answer i o =>
          simp only [Pool.next] at hnext
          split at hnext
          · obtain ⟨r, hserve, rfl⟩ := Option.map_eq_some_iff.1 hnext
            exact h.serve hserve
          · cases hnext

end Still

/-- A signal to group 1 goes to every process there is: the first argument of `kill` is -1.  It is
sent only when a process was in that group; and where one is, as in a container, a restore stops
them all. -/
theorem signals_broadcast :
    (∀ {Peers : PeerCredentials → Prop} {x : RuntimePool},
      Reaches (Pool.Init World.Fresh) (RuntimePool.Step Peers) x →
      (∀ peer, Peers peer → peer.trusted = false) →
      (∀ m ∈ x.state.moments, ∀ pid p, m.kernel.process pid = some p → p.group ≠ 1) →
        ∀ kind, (kind, -1) ∉ x.state.signals) ∧
    ∃ x : RuntimePool, Reaches (Pool.Init World.Fresh) (RuntimePool.Step RunPeers) x ∧
      (SignalKind.stop, -1) ∈ x.state.signals := by
  constructor
  · intro Peers x h htrusted hgroups kind hsent
    obtain ⟨pgid, heq, hv⟩ := (ok_of_reaches h).signals _ hsent
    change -1 = -pgid at heq
    obtain rfl : pgid = 1 := by omega
    obtain ⟨peer, hpeer, htrust | ⟨pid, ⟨m, hm, p, hp, hgroup⟩, -⟩⟩ := hv.peer
    · rw [htrusted peer hpeer] at htrust
      cases htrust
    · exact hgroups m hm pid p hp hgroup
  · have hsignals : (((frozenRun createGroupOne).foldlM (Pool.next World.serve World.turn)
        (freshPool groupOne)).map fun x => x.state.signals) = some [(.stop, -1)] := by
      decide +kernel
    obtain ⟨x, hrun, hx⟩ := Option.map_eq_some_iff.1 hsignals
    refine ⟨x, reaches_frozenRun (fun _ h => h) hrun, ?_⟩
    rw [hx]
    exact List.mem_singleton_self _

/-- A restore of a runtime that leads its own group. -/
theorem signals_broadcast_ownGroup : ∃ x : RuntimePool,
    Reaches (Pool.Init World.Fresh) (RuntimePool.Step RunPeers) x ∧
      (SignalKind.stop, -200) ∈ x.state.signals ∧ ∀ kind, (kind, -1) ∉ x.state.signals := by
  obtain ⟨x, hrun, hx⟩ := frozenRun_ownGroup
  have hreach : Reaches (Pool.Init World.Fresh) (RuntimePool.Step RunPeers) x :=
    reaches_frozenRun (fun _ h => h) hrun
  have hstart : (freshPool ownGroup).state.Still ownGroup := by
    intro m hm
    rw [List.mem_singleton.1 hm]
    rfl
  have hstill : x.state.Still ownGroup := still_of_foldlM (by simp [frozenRun]) hstart hrun
  refine ⟨x, hreach, hx, signals_broadcast.1 hreach ?_ ?_⟩
  · rintro peer (rfl | rfl | rfl)
    · rfl
    · rfl
    · rfl
  · intro m hm pid p hp
    rw [hstill m hm] at hp
    simp only [ownGroup, twoProcesses] at hp
    split_ifs at hp
    · cases hp
      decide
    · cases hp
      decide

end ContextFS
