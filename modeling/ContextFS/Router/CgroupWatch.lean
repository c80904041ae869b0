import ContextFS.Router.Inotify

/-!
# The cgroup watch

The tables of `CgroupWatch` and its critical sections.  For every watched directory there is a
record under the descriptor of its parent's watch and its own name, with the inode that it had when
it was recorded; a removal that is reported erases the record and hands its inode on to be evicted.
-/

namespace ContextFS

open Lib

/-- `CgroupWatch::Child`. -/
structure Child where
  path : Bytes
  inode : Nat
deriving DecidableEq

/-- `CgroupWatch::Parent`. -/
structure WatchParent where
  dir : Bytes := []
  children : List (Bytes × Child) := []
deriving DecidableEq

structure CgroupWatch where
  byWd : List (Nat × WatchParent) := []
  wdByParent : List (Bytes × Nat) := []
deriving DecidableEq

namespace CgroupWatch

open Inotify (slash)

/-- The trailing slashes of a reversed path go, but not its last character. -/
def trimTrailing : Bytes → Bytes
  | c :: d :: path => if c = slash then trimTrailing (d :: path) else c :: d :: path
  | path => path

/-- `split_path`: the parent of a path and its name in it. -/
def splitPath (dir : Bytes) : Option (Bytes × Bytes) :=
  let trimmed := trimTrailing dir.reverse
  match trimmed.dropWhile (· != slash) with
  | [] => none
  | _ :: parent =>
      let name := (trimmed.takeWhile (· != slash)).reverse
      if name = [] then none
      else some (if parent = [] then [slash] else parent.reverse, name)

/-- The record under a watch descriptor and a name. -/
def record (w : CgroupWatch) (wd : Nat) (name : Bytes) : Option Child :=
  (AssocList.find wd w.byWd).bind fun entry => AssocList.find name entry.children

/-- The critical section of `watch`, with the inode that was read before it; nothing where the
kernel refuses the watch. -/
def watch (w : CgroupWatch) (h : Inotify) (dir : Bytes) (inode : Nat) (refused : Bool) :
    Option (CgroupWatch × Inotify) :=
  match splitPath dir with
  | none => none
  | some (parent, name) =>
      match h.resolve parent with
      | none => none
      | some ino =>
          if refused then none
          else
            let (wd, h) := h.addWatch ino
            let entry := (AssocList.find wd w.byWd).getD {}
            some ({
              byWd := AssocList.assign wd
                ⟨parent, AssocList.assign name ⟨dir, inode⟩ entry.children⟩ w.byWd
              wdByParent := AssocList.assign parent wd w.wdByParent }, h)

/-- A record goes, and the watch of its parent with the last one. -/
def eraseChild (w : CgroupWatch) (h : Inotify) (wd : Nat) (entry : WatchParent) (name : Bytes)
    (parent : Bytes) : CgroupWatch × Inotify :=
  let children := AssocList.remove name entry.children
  if children = [] then
    ({ byWd := AssocList.remove wd w.byWd
       wdByParent := AssocList.remove parent w.wdByParent }, h.rmWatch wd)
  else ({ w with byWd := AssocList.assign wd { entry with children := children } w.byWd }, h)

/-- `unwatch`. -/
def unwatch (w : CgroupWatch) (h : Inotify) (dir : Bytes) : CgroupWatch × Inotify :=
  match splitPath dir with
  | none => (w, h)
  | some (parent, name) =>
      match AssocList.find parent w.wdByParent with
      | none => (w, h)
      | some wd =>
          match AssocList.find wd w.byWd with
          | none => (w, h)
          | some entry => w.eraseChild h wd entry name parent

/-- The critical section of `run` for one event, with the children whose ids are evicted after
it. -/
def handle (w : CgroupWatch) (h : Inotify) : WatchEvent → List Child × CgroupWatch × Inotify
  | .deleted wd name =>
      match AssocList.find wd w.byWd with
      | none => ([], w, h)
      | some entry =>
          match AssocList.find name entry.children with
          | none => ([], w, h)
          | some child => ([child], w.eraseChild h wd entry name entry.dir)
  | .ignored wd =>
      match AssocList.find wd w.byWd with
      | none => ([], w, h)
      | some entry =>
          (entry.children.map (·.2),
            { byWd := AssocList.remove wd w.byWd
              wdByParent := AssocList.remove entry.dir w.wdByParent }, h)

/-! ## Splitting a path -/

theorem trimTrailing_spec : ∀ path : Bytes,
    ∃ k, path = List.replicate k slash ++ trimTrailing path
  | [] => ⟨0, rfl⟩
  | [_] => ⟨0, rfl⟩
  | c :: d :: path => by
      unfold trimTrailing
      split
      · rename_i hc
        obtain ⟨k, hk⟩ := trimTrailing_spec (d :: path)
        refine ⟨k + 1, ?_⟩
        rw [List.replicate_succ, List.cons_append, ← hk, hc]
      · exact ⟨0, rfl⟩

/-- A path is its parent, a slash, its name and slashes behind them. -/
theorem splitPath_eq_some {dir parent name : Bytes} (hs : splitPath dir = some (parent, name)) :
    ∃ front k, dir = front ++ slash :: (name ++ List.replicate k slash) ∧ slash ∉ name ∧
      parent = if front = [] then [slash] else front := by
  obtain ⟨k, hk⟩ := trimTrailing_spec dir.reverse
  simp only [splitPath] at hs
  generalize trimTrailing dir.reverse = trimmed at hs hk
  have hsplit : trimmed.takeWhile (· != slash) ++ trimmed.dropWhile (· != slash) = trimmed :=
    List.takeWhile_append_dropWhile
  have hhead := List.head?_dropWhile_not (· != slash) trimmed
  have hname : slash ∉ trimmed.takeWhile (· != slash) := fun hmem => by
    simpa using List.mem_takeWhile_imp hmem
  generalize trimmed.takeWhile (· != slash) = back at hs hsplit hname
  cases hfront : trimmed.dropWhile (· != slash) with
  | nil =>
      rw [hfront] at hs
      cases hs
  | cons c front =>
      rw [hfront] at hs hsplit hhead
      obtain rfl : c = slash := by simpa using hhead
      simp only at hs
      split at hs
      · cases hs
      · obtain ⟨rfl, rfl⟩ : _ ∧ _ := by simpa using hs
        refine ⟨front.reverse, k, ?_, by simpa using hname, by simp⟩
        rw [← List.reverse_reverse dir, hk, ← hsplit]
        simp

variable {h : Inotify} {w : CgroupWatch} {dir parent name : Bytes}

/-- Walking from a directory along a path string. -/
def walk (h : Inotify) (ino : Nat) (path : Bytes) : Option Nat :=
  (path.splitOn slash).foldlM h.lookup ino

theorem walk_nil (h : Inotify) (ino : Nat) : walk h ino [] = some ino := rfl

theorem walk_append (h : Inotify) (ino : Nat) (front back : Bytes) :
    walk h ino (front ++ slash :: back) = (walk h ino front).bind fun q => walk h q back := by
  simp only [walk, List.splitOn_eq_splitOnP]
  rw [List.splitOnP_append_cons front back (by simp), List.foldlM_append]
  rfl

theorem walk_name (h : Inotify) (ino : Nat) (hname : slash ∉ name) :
    walk h ino name = h.lookup ino name := by
  have hsingle : name.splitOnP (· == slash) = [name] :=
    List.splitOnP_eq_singleton fun c hc => by
      simp only [beq_eq_false_iff_ne]
      rintro rfl
      exact hname hc
  rw [walk, List.splitOn_eq_splitOnP, hsingle, List.foldlM_cons]
  cases h.lookup ino name <;> rfl

theorem walk_slashes (h : Inotify) : ∀ (k ino : Nat), walk h ino (List.replicate k slash) = some ino
  | 0, ino => rfl
  | k + 1, ino => by
      have hnil := walk_append h ino [] (List.replicate k slash)
      rw [List.nil_append, walk_nil] at hnil
      rw [List.replicate_succ, hnil]
      exact walk_slashes h k ino

theorem walk_trailing (h : Inotify) (ino k : Nat) (path : Bytes) :
    walk h ino (path ++ List.replicate k slash) = walk h ino path := by
  cases k with
  | zero => simp
  | succ k =>
      rw [List.replicate_succ, walk_append]
      cases walk h ino path with
      | none => rfl
      | some q => exact walk_slashes h k q

/-- The path that was split is the name in the directory at the parent's path. -/
theorem resolve_of_splitPath (hs : splitPath dir = some (parent, name)) :
    h.resolve dir = (h.resolve parent).bind fun p => h.lookup p name := by
  obtain ⟨front, k, rfl, hname, rfl⟩ := splitPath_eq_some hs
  have hne : front ++ slash :: (name ++ List.replicate k slash) ≠ [] := by simp
  have hwalk : ∀ path, path ≠ [] → h.resolve path = walk h (h.startOf path) path := by
    intro path hpath
    rw [Inotify.resolve, if_neg hpath]
    rfl
  rw [hwalk _ hne, walk_append]
  simp only [walk_trailing, walk_name h _ hname]
  cases front with
  | nil => rfl
  | cons c front =>
      rw [if_neg (List.cons_ne_nil c front), hwalk _ (List.cons_ne_nil c front)]
      rfl

/-! ## Records -/

theorem record_assign (wd wd' : Nat) (name' : Bytes) (entry : WatchParent)
    (byParent : List (Bytes × Nat)) :
    record ⟨AssocList.assign wd entry w.byWd, byParent⟩ wd' name' =
      if wd' = wd then AssocList.find name' entry.children else w.record wd' name' := by
  unfold record
  rw [AssocList.find_assign]
  split <;> rfl

theorem record_remove (wd wd' : Nat) (name' : Bytes) (byParent : List (Bytes × Nat)) :
    record ⟨AssocList.remove wd w.byWd, byParent⟩ wd' name' =
      if wd' = wd then none else w.record wd' name' := by
  unfold record
  rw [AssocList.find_remove]
  split <;> rfl

/-- What `watch` does: it writes one record under the watch of the parent. -/
theorem watch_spec {inode : Nat} {refused : Bool} {w' : CgroupWatch} {h' : Inotify}
    (hw : w.watch h dir inode refused = some (w', h')) :
    ∃ parent name ino, splitPath dir = some (parent, name) ∧ h.resolve parent = some ino ∧
      h' = (h.addWatch ino).2 ∧ ∀ wd' name', w'.record wd' name' =
        if wd' = (h.addWatch ino).1 ∧ name' = name then some ⟨dir, inode⟩
        else w.record wd' name' := by
  unfold watch at hw
  split at hw
  · cases hw
  rename_i parent name hs
  split at hw
  · cases hw
  rename_i ino hr
  split at hw
  · cases hw
  refine ⟨parent, name, ino, hs, hr, ?_⟩
  simp only [Option.some.injEq, Prod.mk.injEq] at hw
  obtain ⟨rfl, rfl⟩ := hw
  refine ⟨rfl, fun wd' name' => ?_⟩
  rw [record_assign]
  by_cases hwd : wd' = (h.addWatch ino).1
  · subst hwd
    rw [if_pos rfl, AssocList.find_assign]
    by_cases hn : name' = name
    · rw [if_pos hn, if_pos ⟨rfl, hn⟩]
    · rw [if_neg hn, if_neg fun hboth => hn hboth.2, record]
      cases AssocList.find (h.addWatch ino).1 w.byWd <;> rfl
  · rw [if_neg hwd, if_neg fun hboth => hwd hboth.1]

/-- A change of the watches that concerns no record: a watch under which one is left stays, no
event is lost, and nothing new is watched. -/
structure Tidies (w : CgroupWatch) (h h' : Inotify) : Prop where
  dirs : h'.dirs = h.dirs
  cwd : h'.cwd = h.cwd
  events : ∀ ev ∈ h.events, ev ∈ h'.events
  old : ∀ p ∈ h'.watches, p ∈ h.watches
  live : ∀ p ∈ h.watches, ∀ name child, w.record p.1 name = some child → p ∈ h'.watches

theorem Tidies.refl (w : CgroupWatch) (h : Inotify) : Tidies w h h :=
  ⟨rfl, rfl, fun _ hev => hev, fun _ hp => hp, fun _ hp _ _ _ => hp⟩

/-- What `eraseChild` does: the one record goes. -/
theorem eraseChild_spec {wd : Nat} {entry : WatchParent}
    (hwd : AssocList.find wd w.byWd = some entry) (name parent : Bytes) :
    (∀ wd' name', (w.eraseChild h wd entry name parent).1.record wd' name' =
        if wd' = wd ∧ name' = name then none else w.record wd' name') ∧
      Tidies (w.eraseChild h wd entry name parent).1 h
        (w.eraseChild h wd entry name parent).2 := by
  have hrecord : ∀ name', w.record wd name' = AssocList.find name' entry.children := by
    intro name'
    rw [record, hwd]
    rfl
  simp only [eraseChild]
  split
  · rename_i hempty
    have hnone : ∀ name', name' ≠ name → AssocList.find name' entry.children = none := by
      intro name' hn
      have hfind := AssocList.find_remove name name' entry.children
      rw [hempty, if_neg hn] at hfind
      exact hfind.symm
    have hgone := fun wd' name' =>
      record_remove (w := w) wd wd' name' (AssocList.remove parent w.wdByParent)
    refine ⟨fun wd' name' => ?_, ?_⟩
    · rw [hgone]
      by_cases hwd' : wd' = wd
      · subst hwd'
        by_cases hn : name' = name
        · rw [if_pos rfl, if_pos ⟨rfl, hn⟩]
        · rw [if_pos rfl, if_neg fun hboth => hn hboth.2, hrecord, hnone name' hn]
      · rw [if_neg hwd', if_neg fun hboth => hwd' hboth.1]
    · obtain ⟨hkeep, hdirs, hcwd, hev, hold⟩ := h.rmWatch_keeps wd
      refine ⟨hdirs, hcwd, hev, hold, fun p hp name' child hr => hkeep p hp ?_⟩
      intro hpw
      rw [hgone, if_pos hpw] at hr
      cases hr
  · refine ⟨fun wd' name' => ?_, Tidies.refl _ _⟩
    rw [record_assign]
    by_cases hwd' : wd' = wd
    · subst hwd'
      rw [if_pos rfl, AssocList.find_remove]
      by_cases hn : name' = name
      · rw [if_pos hn, if_pos ⟨rfl, hn⟩]
      · rw [if_neg hn, if_neg fun hboth => hn hboth.2, hrecord]
    · rw [if_neg hwd', if_neg fun hboth => hwd' hboth.1]

/-- What `unwatch` does: at most the record it drops goes. -/
theorem unwatch_spec (w : CgroupWatch) (h : Inotify) (dir : Bytes) :
    (∀ wd name child, w.record wd name = some child →
        (w.unwatch h dir).1.record wd name = some child ∨
          ∃ parent, splitPath dir = some (parent, name) ∧
            AssocList.find parent w.wdByParent = some wd) ∧
      Tidies (w.unwatch h dir).1 h (w.unwatch h dir).2 := by
  unfold unwatch
  cases hs : splitPath dir with
  | none => exact ⟨fun _ _ _ hr => Or.inl hr, .refl _ _⟩
  | some s =>
      obtain ⟨parent, name⟩ := s
      cases hp : AssocList.find parent w.wdByParent with
      | none =>
          simp only [hp]
          exact ⟨fun _ _ _ hr => Or.inl hr, .refl _ _⟩
      | some wd =>
          cases hwd : AssocList.find wd w.byWd with
          | none =>
              simp only [hp, hwd]
              exact ⟨fun _ _ _ hr => Or.inl hr, .refl _ _⟩
          | some entry =>
              obtain ⟨hrec, htidy⟩ := eraseChild_spec (h := h) hwd name parent
              simp only [hp, hwd]
              refine ⟨fun wd' name' child hr => ?_, htidy⟩
              rw [hrec]
              by_cases hboth : wd' = wd ∧ name' = name
              · obtain ⟨rfl, rfl⟩ := hboth
                exact Or.inr ⟨parent, rfl, hp⟩
              · rw [if_neg hboth]
                exact Or.inl hr

/-- The records that an event is about. -/
def About : WatchEvent → Nat → Bytes → Prop
  | .deleted wd name, wd', name' => wd' = wd ∧ name' = name
  | .ignored wd, wd', _ => wd' = wd

/-- What `handle` does: the records that the event is about go, and are evicted. -/
theorem handle_spec (w : CgroupWatch) (h : Inotify) (ev : WatchEvent) :
    (∀ wd name child, w.record wd name = some child →
        ¬ About ev wd name ∧ (w.handle h ev).2.1.record wd name = some child ∨
          child ∈ (w.handle h ev).1) ∧
      Tidies (w.handle h ev).2.1 h (w.handle h ev).2.2 := by
  cases ev with
  | deleted wd name =>
      cases hwd : AssocList.find wd w.byWd with
      | none =>
          simp only [handle, hwd]
          refine ⟨fun wd' name' child hr => Or.inl ⟨?_, hr⟩, .refl _ _⟩
          rintro ⟨rfl, -⟩
          simp [record, hwd] at hr
      | some entry =>
          cases hn : AssocList.find name entry.children with
          | none =>
              simp only [handle, hwd, hn]
              refine ⟨fun wd' name' child hr => Or.inl ⟨?_, hr⟩, .refl _ _⟩
              rintro ⟨rfl, rfl⟩
              simp [record, hwd, hn] at hr
          | some found =>
              obtain ⟨hrec, htidy⟩ := eraseChild_spec (h := h) hwd name entry.dir
              simp only [handle, hwd, hn]
              refine ⟨fun wd' name' child hr => ?_, htidy⟩
              by_cases hboth : wd' = wd ∧ name' = name
              · obtain ⟨rfl, rfl⟩ := hboth
                refine Or.inr (List.mem_singleton.2 ?_)
                simpa [record, hwd, hn] using hr.symm
              · rw [hrec, if_neg hboth]
                exact Or.inl ⟨hboth, hr⟩
  | ignored wd =>
      cases hwd : AssocList.find wd w.byWd with
      | none =>
          simp only [handle, hwd]
          refine ⟨fun wd' name' child hr => Or.inl ⟨?_, hr⟩, .refl _ _⟩
          rintro rfl
          simp [record, hwd] at hr
      | some entry =>
          simp only [handle, hwd]
          refine ⟨fun wd' name' child hr => ?_, ⟨rfl, rfl, fun _ hev => hev, fun _ hp => hp,
            fun _ hp _ _ _ => hp⟩⟩
          by_cases hwd' : wd' = wd
          · subst hwd'
            have hfind : AssocList.find name' entry.children = some child := by
              simpa [record, hwd] using hr
            exact Or.inr (List.mem_map.2 ⟨(name', child), AssocList.mem_of_find hfind, rfl⟩)
          · rw [record_remove, if_neg hwd']
            exact Or.inl ⟨hwd', hr⟩

end CgroupWatch
end ContextFS
