import ContextFS.Lib.Runs
import ContextFS.Router.BranchRouter
import ContextFS.Router.CgroupWatch

/-!
# Registration and the delete watch

The requests that register and unregister cgroups, the watch's event thread and the host, each
moving by its critical sections.  While leaf revalidation is off the router trusts the watch to
evict the id of every registered directory that goes.
-/

namespace ContextFS

open Lib

/-- Where a request is between two critical sections.  `session.register` goes from `watchStat`
to `fallback`, `session.unregister` from `unregisterStat` to `unwatch`. -/
inductive WatchPc
  | watchStat
  | watchLock (inode : Nat)
  | registerStat (watched : Bool)
  | registerLock (watched : Bool) (cgId : Nat)
  | fallback
  | unregisterStat
  | unregisterLock (cgId : Nat)
  | unwatch
  | done
deriving DecidableEq

structure WatchRequest where
  path : Bytes
  branchId : Nat := 0
  pc : WatchPc
deriving DecidableEq

structure DeleteWatch where
  host : Inotify := {}
  watch : CgroupWatch := {}
  router : BranchRouter := { revalidateLeaf := false }
  /-- Children whose records the event thread has erased and whose ids it has yet to evict. -/
  evicting : List Child := []
  requests : List WatchRequest := []

/-- One step of one party.  `request` carries whether the kernel refuses a watch there. -/
inductive WatchAction
  | mkdir (d : Dir)
  | rmdir (d : Dir)
  | register (path : Bytes) (branchId : Nat)
  | unregister (path : Bytes)
  | request (i : Nat) (refused : Bool)
  | event

namespace DeleteWatch

open CgroupWatch (splitPath)

/-- `BranchRouter::cgroup_id`. -/
def cgroupId (s : DeleteWatch) (path : Bytes) : Nat := (s.host.resolve path).getD 0

/-- The next critical section of a request, with where it goes on. -/
def advance (s : DeleteWatch) (r : WatchRequest) (refused : Bool) : DeleteWatch × WatchPc :=
  match r.pc with
  | .watchStat =>
      match splitPath r.path, s.host.resolve r.path with
      | some _, some inode => (s, .watchLock inode)
      | _, _ => (s, .registerStat false)
  | .watchLock inode =>
      match s.watch.watch s.host r.path inode refused with
      | none => (s, .registerStat false)
      | some (watch, host) => ({ s with watch := watch, host := host }, .registerStat true)
  | .registerStat watched => (s, .registerLock watched (s.cgroupId r.path))
  | .registerLock watched cgId =>
      match s.router.registerCgroup cgId r.branchId with
      | none => (s, if watched then .unwatch else .done)
      | some router => ({ s with router := router }, if watched then .done else .fallback)
  | .fallback => ({ s with router := s.router.setLeafRevalidation true }, .done)
  | .unregisterStat => (s, .unregisterLock (s.cgroupId r.path))
  | .unregisterLock cgId =>
      ({ s with router := (s.router.unregisterCgroup cgId).2 }, .unwatch)
  | .unwatch =>
      let (watch, host) := s.watch.unwatch s.host r.path
      ({ s with watch := watch, host := host }, .done)
  | .done => (s, .done)

/-- The event thread: it evicts what it has in hand, or handles the next event. -/
def handleEvent (s : DeleteWatch) : Option DeleteWatch :=
  match s.evicting with
  | child :: evicting =>
      some { s with router := s.router.evictCgroupId child.inode, evicting := evicting }
  | [] =>
      match s.host.events with
      | [] => none
      | ev :: events =>
          let (evicting, watch, host) := s.watch.handle { s.host with events := events } ev
          some { s with evicting := evicting, watch := watch, host := host }

def act (s : DeleteWatch) : WatchAction → Option DeleteWatch
  | .mkdir d => if s.host.CanMake d then some { s with host := s.host.mkdir d } else none
  | .rmdir d => if s.host.CanRemove d then some { s with host := s.host.rmdir d } else none
  | .register path branchId =>
      some { s with requests := s.requests ++ [{ path, branchId, pc := .watchStat }] }
  | .unregister path => some { s with requests := s.requests ++ [{ path, pc := .unregisterStat }] }
  | .request i refused =>
      match s.requests[i]? with
      | none => none
      | some r =>
          let (s', pc) := s.advance r refused
          some { s' with requests := s'.requests.set i { r with pc } }
  | .event => s.handleEvent

/-- The daemon has started: nothing is watched or registered yet. -/
def Start (s : DeleteWatch) : Prop :=
  s.host.Ok ∧ s.host.watches = [] ∧ s.host.events = [] ∧ s.watch = {} ∧
    s.router.cgroupBranchMap = [] ∧ s.evicting = [] ∧ s.requests = []

def Step (s : DeleteWatch) (a : WatchAction) (s' : DeleteWatch) : Prop := s.act a = some s'

/-- No request is in progress, all events are handled and leaf revalidation is off. -/
def Quiet (s : DeleteWatch) : Prop :=
  (∀ r ∈ s.requests, r.pc = .done) ∧ s.host.events = [] ∧ s.evicting = [] ∧
    s.router.revalidateLeaf = false

/-- An id is in the registration map. -/
def Registered (s : DeleteWatch) (cgId : Nat) : Prop :=
  AssocList.find cgId s.router.cgroupBranchMap ≠ none

instance (s : DeleteWatch) (cgId : Nat) : Decidable (s.Registered cgId) :=
  inferInstanceAs (Decidable (_ ≠ _))

/-- The record under a descriptor and a name is of a directory with this inode that is found there
under a watch of the kernel. -/
def Live (s : DeleteWatch) (wd : Nat) (name : Bytes) (cgId : Nat) : Prop :=
  (∃ child, s.watch.record wd name = some child ∧ child.inode = cgId) ∧
    ∃ ino, (wd, ino) ∈ s.host.watches ∧ s.host.lookup ino name = some cgId

/-- A directory is there, the watch has recorded it with its inode, and its removal queues an event
about that record. -/
def Watched (s : DeleteWatch) (cgId : Nat) : Prop :=
  s.host.Exists cgId ∧ ∃ wd name, s.Live wd name cgId ∧ ∀ d, d.ino = cgId → s.host.CanRemove d →
    ∃ ev ∈ (s.host.rmdir d).events, CgroupWatch.About ev wd name

/-- Every registered id is watched. -/
def Covered (s : DeleteWatch) : Prop := ∀ cgId, s.Registered cgId → s.Watched cgId

/-! ## What keeps an id from going stale -/

/-- The record is live, or an event about it is queued. -/
def TrackedBy (s : DeleteWatch) (wd : Nat) (name : Bytes) (cgId : Nat) : Prop :=
  s.Live wd name cgId ∨ (∃ child, s.watch.record wd name = some child ∧ child.inode = cgId) ∧
    ∃ ev ∈ s.host.events, CgroupWatch.About ev wd name

/-- Leaf revalidation is on, or a request is about to set it. -/
def Revalidates (s : DeleteWatch) : Prop :=
  s.router.revalidateLeaf = true ∨ ∃ r ∈ s.requests, r.pc = .fallback

/-- An id that will not go stale even if some records are lost: another record tracks it, the event
thread is about to evict it, or the router revalidates. -/
def GuardedBut (s : DeleteWatch) (lost : Nat → Bytes → Prop) (cgId : Nat) : Prop :=
  (∃ wd name, ¬ lost wd name ∧ s.TrackedBy wd name cgId) ∨
    (∃ child ∈ s.evicting, child.inode = cgId) ∨ s.Revalidates

/-- An id that will not go stale. -/
def Guarded (s : DeleteWatch) (cgId : Nat) : Prop := s.GuardedBut (fun _ _ => False) cgId

/-- A record whose loss makes no registered id go stale. -/
def Expendable (s : DeleteWatch) (wd : Nat) (name : Bytes) : Prop :=
  ∀ child, s.watch.record wd name = some child → s.Registered child.inode →
    s.GuardedBut (fun wd' name' => wd' = wd ∧ name' = name) child.inode

/-- What the critical sections of a request rely on: `watch` replaces only records of the same
inode or ones that can go, `unwatch` drops only records that can go, and what `register_cgroup`
inserts after a successful `watch` is still guarded. -/
def Careful (s : DeleteWatch) (a : WatchAction) (_ : DeleteWatch) : Prop :=
  ∀ i refused r, a = .request i refused → s.requests[i]? = some r →
    (∀ inode parent name ino, r.pc = .watchLock inode → splitPath r.path = some (parent, name) →
      s.host.resolve parent = some ino → refused = false →
      (∃ child, s.watch.record (s.host.addWatch ino).1 name = some child ∧ child.inode = inode) ∨
        s.Expendable (s.host.addWatch ino).1 name) ∧
    (∀ parent name wd, r.pc = .unwatch → splitPath r.path = some (parent, name) →
      AssocList.find parent s.watch.wdByParent = some wd → s.Expendable wd name) ∧
    ∀ cgId, r.pc = .registerLock true cgId → cgId ≠ 0 → s.Guarded cgId

/-- The directories are in order and no registered id goes stale. -/
structure Ok (s : DeleteWatch) : Prop where
  host : s.host.Ok
  guarded : ∀ cgId, s.Registered cgId → s.Guarded cgId

variable {s s' : DeleteWatch} {cgId wd : Nat} {name : Bytes} {lost : Nat → Bytes → Prop}

/-- What tracks an id is a record of it. -/
theorem TrackedBy.record (h : s.TrackedBy wd name cgId) :
    ∃ child, s.watch.record wd name = some child ∧ child.inode = cgId := by
  rcases h with hlive | hpending
  · exact hlive.1
  · exact hpending.1

/-- Tracking outlasts a change that keeps the record, the watch, the directory and the events. -/
theorem TrackedBy.keep (h : s.TrackedBy wd name cgId)
    (hrec : ∀ child, s.watch.record wd name = some child → s'.watch.record wd name = some child)
    (hlive : ∀ ino, (wd, ino) ∈ s.host.watches → s.host.lookup ino name = some cgId →
      (wd, ino) ∈ s'.host.watches ∧ s'.host.lookup ino name = some cgId)
    (hev : ∀ ev ∈ s.host.events, CgroupWatch.About ev wd name → ev ∈ s'.host.events) :
    s'.TrackedBy wd name cgId := by
  rcases h with ⟨⟨child, hr, hid⟩, ino, hw, hl⟩ | ⟨⟨child, hr, hid⟩, ev, hmem, habout⟩
  · exact Or.inl ⟨⟨child, hrec child hr, hid⟩, ino, hlive ino hw hl⟩
  · exact Or.inr ⟨⟨child, hrec child hr, hid⟩, ev, hev ev hmem habout, habout⟩

/-- A request that moves on keeps the other requests where they are. -/
theorem fallback_set {requests : List WatchRequest} {i : Nat} {r r' : WatchRequest}
    (hi : requests[i]? = some r) (h : ∃ q ∈ requests, q.pc = .fallback) :
    r.pc = .fallback ∨ ∃ q ∈ requests.set i r', q.pc = .fallback := by
  obtain ⟨q, hq, hpc⟩ := h
  obtain ⟨j, hj⟩ := List.mem_iff_getElem?.1 hq
  by_cases hji : j = i
  · subst hji
    rw [hi] at hj
    cases hj
    exact Or.inl hpc
  · refine Or.inr ⟨q, List.mem_iff_getElem?.2 ⟨j, ?_⟩, hpc⟩
    rw [List.getElem?_set_ne (Ne.symm hji)]
    exact hj

/-! ## The host moves -/

theorem Ok.mkdir (h : s.Ok) {d : Dir} (hm : s.host.CanMake d) :
    Ok { s with host := s.host.mkdir d } := by
  refine ⟨h.host.mkdir hm, fun cgId hreg => ?_⟩
  rcases h.guarded cgId hreg with ⟨wd, name, hlost, ht⟩ | hrest
  · refine Or.inl ⟨wd, name, hlost, ht.keep (fun _ hr => hr) (fun ino hw hl => ⟨hw, ?_⟩)
      fun _ hev _ => hev⟩
    exact Inotify.lookup_mkdir hm (h.host.watched _ hw) hl
  · exact Or.inr hrest

theorem Ok.rmdir (h : s.Ok) {d : Dir} (hr : s.host.CanRemove d) :
    Ok { s with host := s.host.rmdir d } := by
  refine ⟨h.host.rmdir hr, fun cgId hreg => ?_⟩
  rcases h.guarded cgId hreg with ⟨wd, name, hlost, ht⟩ | hrest
  · refine Or.inl ⟨wd, name, hlost, ?_⟩
    rcases ht with ⟨hrec, ino, hw, hl⟩ | ⟨hrec, ev, hev, habout⟩
    · by_cases hgone : cgId = d.ino ∨ ino = d.ino
      · refine Or.inr ⟨hrec, ?_⟩
        rcases Inotify.queued_rmdir h.host hr hw hl hgone with hq | hq
        · exact ⟨_, hq, rfl, rfl⟩
        · exact ⟨_, hq, rfl⟩
      · push Not at hgone
        refine Or.inl ⟨hrec, ino, List.mem_filter.2 ⟨hw, by simpa using hgone.2⟩, ?_⟩
        exact Inotify.lookup_rmdir hgone.2 hgone.1 hl
    · refine Or.inr ⟨hrec, ev, ?_, habout⟩
      exact List.mem_append_left _ (List.mem_append_left _ hev)
  · exact Or.inr hrest

/-! ## Requests move -/

/-- A new request does nothing yet. -/
theorem Ok.begin (h : s.Ok) (r : WatchRequest) : Ok { s with requests := s.requests ++ [r] } := by
  refine ⟨h.host, fun cgId hreg => ?_⟩
  rcases h.guarded cgId hreg with ht | hev | hrev | ⟨q, hq, hpc⟩
  · exact Or.inl ht
  · exact Or.inr (Or.inl hev)
  · exact Or.inr (Or.inr (Or.inl hrev))
  · exact Or.inr (Or.inr (Or.inr ⟨q, List.mem_append_left _ hq, hpc⟩))

/-- A request that was not about to set revalidation goes on. -/
theorem Ok.goto (h : s.Ok) {i : Nat} {r : WatchRequest} (hi : s.requests[i]? = some r)
    (hpc : r.pc ≠ .fallback) (r' : WatchRequest) :
    Ok { s with requests := s.requests.set i r' } := by
  refine ⟨h.host, fun cgId hreg => ?_⟩
  rcases h.guarded cgId hreg with ht | hev | hrev | hq
  · exact Or.inl ht
  · exact Or.inr (Or.inl hev)
  · exact Or.inr (Or.inr (Or.inl hrev))
  · rcases fallback_set hi hq with hr | hq
    · exact absurd hr hpc
    · exact Or.inr (Or.inr (Or.inr hq))

/-- The router may forget ids; one that it learns is guarded already. -/
theorem Ok.router (h : s.Ok) {router : BranchRouter}
    (hleaf : router.revalidateLeaf = s.router.revalidateLeaf)
    (hmap : ∀ cgId, AssocList.find cgId router.cgroupBranchMap ≠ none →
      s.Registered cgId ∨ s.Guarded cgId) : Ok { s with router := router } := by
  refine ⟨h.host, fun cgId hreg => ?_⟩
  have hguard : s.Guarded cgId := (hmap cgId hreg).elim (h.guarded cgId) id
  rcases hguard with ht | hev | hrev | hq
  · exact Or.inl ht
  · exact Or.inr (Or.inl hev)
  · exact Or.inr (Or.inr (Or.inl (hleaf.trans hrev)))
  · exact Or.inr (Or.inr (Or.inr hq))

theorem registerCgroup_spec {b : Nat} {router : BranchRouter}
    (hr : s.router.registerCgroup cgId b = some router) :
    cgId ≠ 0 ∧ router.revalidateLeaf = s.router.revalidateLeaf ∧
      ∀ id, AssocList.find id router.cgroupBranchMap ≠ none → id = cgId ∨ s.Registered id := by
  unfold BranchRouter.registerCgroup at hr
  split at hr
  · cases hr
  rename_i hne
  cases hr
  refine ⟨hne, rfl, fun id hid => ?_⟩
  change AssocList.find id (AssocList.assign cgId b s.router.cgroupBranchMap) ≠ none at hid
  rw [AssocList.find_assign] at hid
  split at hid
  · exact Or.inl ‹_›
  · exact Or.inr hid

theorem unregisterCgroup_spec (s : DeleteWatch) (cgId : Nat) :
    (s.router.unregisterCgroup cgId).2.revalidateLeaf = s.router.revalidateLeaf ∧
      ∀ id, AssocList.find id (s.router.unregisterCgroup cgId).2.cgroupBranchMap ≠ none →
        s.Registered id := by
  unfold BranchRouter.unregisterCgroup
  split
  · exact ⟨rfl, fun _ hid => hid⟩
  · refine ⟨rfl, fun id hid => ?_⟩
    change AssocList.find id (AssocList.remove cgId s.router.cgroupBranchMap) ≠ none at hid
    rw [AssocList.find_remove] at hid
    split at hid
    · exact absurd rfl hid
    · exact hid

/-- The critical section of `watch`. -/
theorem Ok.watch (h : s.Ok) {dir : Bytes} {inode : Nat} {refused : Bool} {w : CgroupWatch}
    {host : Inotify} (hw : s.watch.watch s.host dir inode refused = some (w, host))
    (hc : ∀ parent name ino, splitPath dir = some (parent, name) →
      s.host.resolve parent = some ino →
      (∃ child, s.watch.record (s.host.addWatch ino).1 name = some child ∧ child.inode = inode) ∨
        s.Expendable (s.host.addWatch ino).1 name) :
    Ok { s with watch := w, host := host } := by
  obtain ⟨parent, name, ino, hs, hr, rfl, hrec⟩ := CgroupWatch.watch_spec hw
  obtain ⟨hkeep, hdirs, hcwd, hevents, hnew⟩ := s.host.addWatch_keeps ino
  have hok : (s.host.addWatch ino).2.Ok := h.host.rewatch hdirs hcwd fun p hp => by
    rcases hnew p hp with hold | hat
    · exact Or.inl hold
    · exact Or.inr (hat ▸ Inotify.exists_resolve h.host hr)
  refine ⟨hok, fun cgId hreg => ?_⟩
  -- a record that is not the one written tracks what it tracked
  have hother : ∀ wd name', ¬ (wd = (s.host.addWatch ino).1 ∧ name' = name) →
      s.TrackedBy wd name' cgId →
        TrackedBy { s with watch := w, host := (s.host.addWatch ino).2 } wd name' cgId := by
    intro wd name' hne ht
    refine ht.keep (fun child hchild => ?_) (fun q hq hl => ⟨hkeep _ hq, ?_⟩)
      fun ev hev _ => hevents ▸ hev
    · show w.record wd name' = some child
      rw [hrec, if_neg hne]
      exact hchild
    · exact (Inotify.lookup_congr hdirs q name').trans hl
  rcases h.guarded cgId hreg with ⟨wd, name', -, ht⟩ | hrest
  · by_cases hsame : wd = (s.host.addWatch ino).1 ∧ name' = name
    · obtain ⟨rfl, rfl⟩ := hsame
      obtain ⟨child, hchild, hid⟩ := ht.record
      rcases hc parent name' ino hs hr with ⟨child', hchild', hid'⟩ | hexp
      · -- the record is written with the inode it had
        rw [hchild] at hchild'
        cases hchild'
        refine Or.inl ⟨(s.host.addWatch ino).1, name', fun hf => hf, ?_⟩
        have hrec' : ∃ child, w.record (s.host.addWatch ino).1 name' = some child ∧
            child.inode = cgId := ⟨⟨dir, inode⟩, by rw [hrec, if_pos ⟨rfl, rfl⟩], hid'.symm.trans hid⟩
        rcases ht with ⟨-, q, hq, hl⟩ | ⟨-, ev, hev, habout⟩
        · exact Or.inl ⟨hrec', q, hkeep _ hq, (Inotify.lookup_congr hdirs q name').trans hl⟩
        · exact Or.inr ⟨hrec', ev, hevents ▸ hev, habout⟩
      · subst hid
        rcases hexp child hchild hreg with ⟨wd, name, hne, ht⟩ | hrest
        · exact Or.inl ⟨wd, name, fun hf => hf, hother wd name hne ht⟩
        · exact Or.inr hrest
    · exact Or.inl ⟨wd, name', fun hf => hf, hother wd name' hsame ht⟩
  · exact Or.inr hrest

/-- The critical section of `unwatch`. -/
theorem Ok.unwatch (h : s.Ok) {dir : Bytes}
    (hc : ∀ parent name wd, splitPath dir = some (parent, name) →
      AssocList.find parent s.watch.wdByParent = some wd → s.Expendable wd name) :
    Ok { s with watch := (s.watch.unwatch s.host dir).1, host := (s.watch.unwatch s.host dir).2 } := by
  obtain ⟨hrec, htidy⟩ := s.watch.unwatch_spec s.host dir
  refine ⟨h.host.rewatch htidy.dirs htidy.cwd fun p hp => Or.inl (htidy.old p hp),
    fun cgId hreg => ?_⟩
  -- a record that is left tracks what it tracked
  have hother : ∀ wd name, (∀ child, s.watch.record wd name = some child →
      (s.watch.unwatch s.host dir).1.record wd name = some child) → s.TrackedBy wd name cgId →
        TrackedBy { s with
          watch := (s.watch.unwatch s.host dir).1
          host := (s.watch.unwatch s.host dir).2 } wd name cgId := by
    intro wd name hleft ht
    obtain ⟨child, hchild, -⟩ := ht.record
    refine ht.keep hleft (fun q hq hl => ⟨?_, ?_⟩) fun ev hev _ => htidy.events ev hev
    · exact htidy.live _ hq name child (hleft child hchild)
    · exact (Inotify.lookup_congr htidy.dirs q name).trans hl
  rcases h.guarded cgId hreg with ⟨wd, name, -, ht⟩ | hrest
  · by_cases hlost : ∃ parent, splitPath dir = some (parent, name) ∧
        AssocList.find parent s.watch.wdByParent = some wd
    · obtain ⟨parent, hs, hwd⟩ := hlost
      obtain ⟨child, hchild, rfl⟩ := ht.record
      rcases hc parent name wd hs hwd child hchild hreg with ⟨wd', name', hne, ht'⟩ | hrest
      · refine Or.inl ⟨wd', name', fun hf => hf, hother wd' name' (fun c hr => ?_) ht'⟩
        rcases hrec wd' name' c hr with hleft | ⟨parent', hs', hwd'⟩
        · exact hleft
        · rw [hs] at hs'
          cases hs'
          rw [hwd] at hwd'
          cases hwd'
          exact absurd ⟨rfl, rfl⟩ hne
      · exact Or.inr hrest
    · refine Or.inl ⟨wd, name, fun hf => hf, hother wd name (fun c hr => ?_) ht⟩
      exact (hrec wd name c hr).resolve_right hlost
  · exact Or.inr hrest

/-- The next critical section of a request. -/
theorem Ok.advance (h : s.Ok) {i : Nat} {r : WatchRequest} {refused : Bool}
    (hi : s.requests[i]? = some r) (hc : ∀ s', s.Careful (.request i refused) s') :
    Ok { (s.advance r refused).1 with
      requests := (s.advance r refused).1.requests.set i { r with pc := (s.advance r refused).2 } } := by
  obtain ⟨hwatch, hunwatch, hregister⟩ := hc s i refused r rfl hi
  cases hpc : r.pc with
  | watchStat =>
      simp only [DeleteWatch.advance, hpc]
      split <;> exact h.goto hi (by simp [hpc]) _
  | watchLock inode =>
      simp only [DeleteWatch.advance, hpc]
      cases hw : s.watch.watch s.host r.path inode refused with
      | none => exact h.goto hi (by simp [hpc]) _
      | some wh =>
          obtain ⟨w, host⟩ := wh
          have hnot : refused = false := by
            unfold CgroupWatch.watch at hw
            split at hw
            · cases hw
            split at hw
            · cases hw
            split at hw
            · cases hw
            · simpa using ‹¬ refused = true›
          -- the new watch may replace another, which `hwatch` says was not needed
          have hmoved := h.watch hw fun parent name ino hs hr =>
            hwatch inode parent name ino hpc hs hr hnot
          exact hmoved.goto (i := i) (r := r) hi (by simp [hpc]) _
  | registerStat watched =>
      simp only [DeleteWatch.advance, hpc]
      exact h.goto hi (by simp [hpc]) _
  | registerLock watched cgId =>
      simp only [DeleteWatch.advance, hpc]
      cases hr : s.router.registerCgroup cgId r.branchId with
      | none => exact h.goto hi (by simp [hpc]) _
      | some router =>
          obtain ⟨hne, hleaf, hmap⟩ := registerCgroup_spec hr
          cases watched with
          | true =>
              -- an id that is registered now is tracked by the watch made before
              have hmoved := h.router hleaf fun id hid => by
                rcases hmap id hid with rfl | hold
                · exact Or.inr (hregister _ hpc hne)
                · exact Or.inl hold
              exact hmoved.goto (i := i) (r := r) hi (by simp [hpc]) _
          | false =>
              -- the next critical section of the request sets revalidation
              refine ⟨h.host, fun id _ => Or.inr (Or.inr (Or.inr ⟨{ r with pc := .fallback }, ?_, rfl⟩))⟩
              exact List.mem_set (List.getElem?_eq_some_iff.1 hi).1 _
  | fallback =>
      simp only [DeleteWatch.advance, hpc]
      exact ⟨h.host, fun id _ => Or.inr (Or.inr (Or.inl rfl))⟩
  | unregisterStat =>
      simp only [DeleteWatch.advance, hpc]
      exact h.goto hi (by simp [hpc]) _
  | unregisterLock cgId =>
      simp only [DeleteWatch.advance, hpc]
      obtain ⟨hleaf, hmap⟩ := s.unregisterCgroup_spec cgId
      have hmoved := h.router hleaf fun id hid => Or.inl (hmap id hid)
      exact hmoved.goto (i := i) (r := r) hi (by simp [hpc]) _
  -- what is no longer watched is no longer registered
  | unwatch =>
      simp only [DeleteWatch.advance, hpc]
      have hmoved := h.unwatch fun parent name wd hs hwd => hunwatch parent name wd hpc hs hwd
      exact hmoved.goto (i := i) (r := r) hi (by simp [hpc]) _
  | done =>
      simp only [DeleteWatch.advance, hpc]
      exact h.goto hi (by simp [hpc]) _

/-! ## The event thread moves -/

theorem Ok.handleEvent (h : s.Ok) (hs : s.handleEvent = some s') : s'.Ok := by
  unfold DeleteWatch.handleEvent at hs
  cases hevicting : s.evicting with
  | cons child evicting =>
      rw [hevicting] at hs
      cases hs
      refine ⟨h.host, fun cgId hreg => ?_⟩
      change AssocList.find cgId (AssocList.remove child.inode s.router.cgroupBranchMap) ≠ none
        at hreg
      rw [AssocList.find_remove] at hreg
      split at hreg
      · exact absurd rfl hreg
      rename_i hne
      rcases h.guarded cgId hreg with ht | ⟨c, hc, rfl⟩ | hrest
      · exact Or.inl ht
      · rw [hevicting] at hc
        rcases List.mem_cons.1 hc with rfl | hc
        · exact absurd rfl hne
        · exact Or.inr (Or.inl ⟨c, hc, rfl⟩)
      · exact Or.inr (Or.inr hrest)
  | nil =>
      rw [hevicting] at hs
      cases hevents : s.host.events with
      | nil =>
          rw [hevents] at hs
          cases hs
      | cons ev events =>
          rw [hevents] at hs
          cases hs
          obtain ⟨hrec, htidy⟩ := s.watch.handle_spec { s.host with events := events } ev
          have hpopped : Inotify.Ok { s.host with events := events } :=
            ⟨h.host.distinct, h.host.plain, h.host.ino, h.host.parent, h.host.watched, h.host.cwd⟩
          refine ⟨hpopped.rewatch htidy.dirs htidy.cwd fun p hp => Or.inl (htidy.old p hp),
            fun cgId hreg => ?_⟩
          rcases h.guarded cgId hreg with ⟨wd, name, -, ht⟩ | ⟨c, hc, -⟩ | hrest
          · obtain ⟨child, hchild, rfl⟩ := ht.record
            rcases hrec wd name child hchild with ⟨hnot, hleft⟩ | hhand
            · refine Or.inl ⟨wd, name, fun hf => hf, ht.keep (fun c hc => ?_)
                (fun q hq hl => ⟨htidy.live _ hq name child hleft, ?_⟩) fun ev' hev habout => ?_⟩
              · rw [hchild] at hc
                cases hc
                exact hleft
              · exact (Inotify.lookup_congr htidy.dirs q name).trans hl
              · rw [hevents] at hev
                rcases List.mem_cons.1 hev with rfl | hev
                · exact absurd habout hnot
                · exact htidy.events ev' hev
            · exact Or.inr (Or.inl ⟨child, hhand, rfl⟩)
          · rw [hevicting] at hc
            cases hc
          · exact Or.inr (Or.inr hrest)

/-- No step that a request takes with care lets an id go stale. -/
theorem Ok.step {a : WatchAction} (h : s.Ok) (hs : Restrict Step Careful s a s') : s'.Ok := by
  obtain ⟨hs, hc⟩ := hs
  unfold Step act at hs
  cases a with
  | mkdir d =>
      simp only at hs
      split at hs
      · cases hs
        exact h.mkdir ‹_›
      · cases hs
  | rmdir d =>
      simp only at hs
      split at hs
      · cases hs
        exact h.rmdir ‹_›
      · cases hs
  | register path branchId =>
      cases hs
      exact h.begin _
  | unregister path =>
      cases hs
      exact h.begin _
  | request i refused =>
      simp only at hs
      split at hs
      · cases hs
      · cases hs
        exact h.advance ‹_› fun _ => hc
  | event => exact h.handleEvent hs

theorem Start.ok (h : Start s) : s.Ok := by
  obtain ⟨hhost, -, -, -, hmap, -, -⟩ := h
  refine ⟨hhost, fun cgId hreg => ?_⟩
  rw [Registered, hmap] at hreg
  exact absurd rfl hreg

/-- When all is handled, only a live record guards an id. -/
theorem Ok.covered (h : s.Ok) (hq : s.Quiet) : s.Covered := by
  obtain ⟨hdone, hevents, hevicting, hleaf⟩ := hq
  intro cgId hreg
  rcases h.guarded cgId hreg with ⟨wd, name, -, hlive | ⟨-, ev, hev, -⟩⟩ | ⟨c, hc, -⟩ | hrev
  · obtain ⟨ino, hw, hl⟩ := hlive.2
    refine ⟨Inotify.exists_lookup h.host (h.host.watched _ hw) hl, wd, name, hlive, ?_⟩
    rintro d rfl hr
    rcases Inotify.queued_rmdir h.host hr hw hl (Or.inl rfl) with hq | hq
    · exact ⟨_, hq, rfl, rfl⟩
    · exact ⟨_, hq, rfl⟩
  · rw [hevents] at hev
    cases hev
  · rw [hevicting] at hc
    cases hc
  · rcases hrev with hon | ⟨r, hr, hpc⟩
    · rw [hleaf] at hon
      cases hon
    · rw [hdone r hr] at hpc
      cases hpc

/-- In every run whose requests meet their conditions, whenever all is handled and leaf
revalidation is off, every registered id is watched. -/
theorem covered_of_careful (hrun : Reaches Start (Restrict Step Careful) s) (hq : s.Quiet) :
    s.Covered := by
  have hok : s.Ok := hrun.invariant (fun _ => Start.ok) fun _ _ _ h hs => h.step hs
  exact hok.covered hq

/-! ## One registration -/

/-- A cgroup `/a` at inode 2, nothing registered. -/
def oneCgroup : DeleteWatch := { host := { dirs := [⟨2, 1, [97]⟩] } }

/-- The registration of `/a` for branch 7, at one of its critical sections. -/
def registering (pc : WatchPc) : DeleteWatch :=
  { oneCgroup with requests := [⟨[47, 97], 7, pc⟩] }

/-- `/a` is in the tables of the watch. -/
def watching (pc : WatchPc) : DeleteWatch :=
  { registering pc with
    host := { dirs := [⟨2, 1, [97]⟩], watches := [(1, 1)], nextWd := 2 }
    watch := { byWd := [(1, ⟨[47], [([97], ⟨[47, 97], 2⟩)]⟩)], wdByParent := [([47], 1)] } }

/-- `/a` is registered. -/
def registered : DeleteWatch :=
  { watching .done with
    router := { revalidateLeaf := false, cgroupBranchMap := [(2, 7)], generation := 1 } }

theorem start_oneCgroup : Start oneCgroup := by
  refine ⟨⟨?_, ?_, ?_, ?_, ?_, Or.inl rfl⟩, rfl, rfl, rfl, rfl, rfl, rfl⟩ <;> decide

theorem covered_registered : registered.Quiet ∧ registered.Registered 2 ∧ registered.Covered := by
  have hquiet : registered.Quiet := by
    refine ⟨?_, rfl, rfl, rfl⟩
    decide
  refine ⟨hquiet, by decide, covered_of_careful ?_ hquiet⟩
  have hcareful : ∀ (s s' : DeleteWatch) (i : Nat) (r : WatchRequest), s.requests = [r] →
      (∀ inode, r.pc ≠ .watchLock inode) → r.pc ≠ .unwatch →
      (∀ cgId, r.pc ≠ .registerLock true cgId) → s.Careful (.request i false) s' := by
    intro s s' i r hreq hlock hdrop hreg j refused r' _ hr'
    have hr : r' = r := by
      have hmem := List.mem_of_getElem? hr'
      rw [hreq] at hmem
      exact List.mem_singleton.1 hmem
    subst hr
    exact ⟨fun inode _ _ _ hpc => absurd hpc (hlock inode), fun _ _ _ hpc => absurd hpc hdrop,
      fun cgId hpc => absurd hpc (hreg cgId)⟩
  have h₀ : Reaches Start (Restrict Step Careful) oneCgroup := .start start_oneCgroup
  have h₁ : Reaches Start (Restrict Step Careful) (registering .watchStat) := by
    refine .step (e := .register [47, 97] 7) h₀ ⟨rfl, ?_⟩
    rintro i refused r ha
    cases ha
  have h₂ : Reaches Start (Restrict Step Careful) (registering (.watchLock 2)) :=
    .step (e := .request 0 false) h₁
      ⟨rfl, hcareful _ _ 0 _ rfl (by simp) (by simp) (by simp)⟩
  have h₃ : Reaches Start (Restrict Step Careful) (watching (.registerStat true)) := by
    refine .step (e := .request 0 false) h₂ ⟨rfl, fun i refused r ha hr => ?_⟩
    cases ha
    cases hr
    refine ⟨fun inode parent name ino _ _ _ _ => Or.inr fun child hchild => ?_,
      fun _ _ _ hpc => (by cases hpc), fun _ hpc => (by cases hpc)⟩
    cases hchild
  have h₄ : Reaches Start (Restrict Step Careful) (watching (.registerLock true 2)) :=
    .step (e := .request 0 false) h₃
      ⟨rfl, hcareful _ _ 0 _ rfl (by simp) (by simp) (by simp)⟩
  refine .step (e := .request 0 false) h₄ ⟨rfl, fun i refused r ha hr => ?_⟩
  cases ha
  cases hr
  refine ⟨fun _ _ _ _ hpc => (by cases hpc), fun _ _ _ hpc => (by cases hpc), fun cgId hpc _ => ?_⟩
  cases hpc
  exact Or.inl ⟨1, [97], fun hf => hf, Or.inl ⟨⟨_, rfl, rfl⟩, 1, by decide, by decide⟩⟩

/-- A cgroup goes while it is registered, and is unregistered before the event thread has seen
that: nothing evicts its id any more. -/
theorem not_covered_unregister_removed :
    ¬ ∀ s : DeleteWatch, Reaches Start Step s → s.Quiet → s.Covered := by
  intro hclaim
  let events : List WatchAction := [.register [47, 97] 7, .request 0 false, .request 0 false,
    .request 0 false, .request 0 false, .rmdir ⟨2, 1, [97]⟩, .unregister [47, 97],
    .request 1 false, .request 1 false, .request 1 false, .event, .event]
  obtain ⟨s, hrun, hquiet, hreg, hgone⟩ : ∃ s, events.foldlM act oneCgroup = some s ∧ s.Quiet ∧
      s.Registered 2 ∧ ¬ s.host.Exists 2 := by
    refine ⟨_, rfl, ⟨?_, rfl, rfl, rfl⟩, ?_, ?_⟩ <;> decide
  have hreach : Reaches Start Step s :=
    Reaches.run events (fun _ _ _ _ hs => hs) (.start start_oneCgroup) hrun
  exact hgone (hclaim s hreach hquiet 2 hreg).1

end DeleteWatch
end ContextFS
