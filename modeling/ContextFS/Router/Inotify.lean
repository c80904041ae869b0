import ContextFS.Lib.AssocList
import ContextFS.Store.Hash

/-!
# Directories and their inotify watches

What the cgroup watch sees of its host: the directories, how a path string is walked through
them, and one inotify instance that is asked for the removals in a directory.  A removal under a
watched directory is queued exactly once and in order, and a watched directory that goes itself
takes its watch with it.
-/

namespace ContextFS

open Lib

/-- A directory below the root, as an entry of its parent. -/
structure Dir where
  ino : Nat
  parent : Nat
  name : Bytes
deriving DecidableEq

/-- `IN_DELETE` with the name of the entry, and `IN_IGNORED`. -/
inductive WatchEvent
  | deleted (wd : Nat) (name : Bytes)
  | ignored (wd : Nat)
deriving DecidableEq

structure Inotify where
  dirs : List Dir := []
  /-- The working directory of the daemon. -/
  cwd : Nat := 1
  /-- Watch descriptors with the directory each one is on. -/
  watches : List (Nat × Nat) := []
  nextWd : Nat := 1
  events : List WatchEvent := []

namespace Inotify

def rootIno : Nat := 1

def slash : UInt8 := 47

/-- The names that every directory has for itself and for its parent. -/
def dot : Bytes := [46]

def dotdot : Bytes := [46, 46]

/-- A name that can be given to a new entry. -/
def Plain (name : Bytes) : Prop :=
  name ≠ [] ∧ name ≠ dot ∧ name ≠ dotdot ∧ slash ∉ name

instance (name : Bytes) : Decidable (Plain name) := inferInstanceAs (Decidable (_ ∧ _))

/-- There is a directory with this inode. -/
def Exists (h : Inotify) (ino : Nat) : Prop := ino = rootIno ∨ ∃ d ∈ h.dirs, d.ino = ino

/-- What `..` is in a directory; the root is its own parent. -/
def parentOf (h : Inotify) (ino : Nat) : Nat :=
  match h.dirs.find? fun d => decide (d.ino = ino) with
  | some d => d.parent
  | none => ino

/-- One component of a path, looked up in a directory. -/
def lookup (h : Inotify) (ino : Nat) (name : Bytes) : Option Nat :=
  if name = [] ∨ name = dot then some ino
  else if name = dotdot then some (h.parentOf ino)
  else (h.dirs.find? fun d => decide (d.parent = ino ∧ d.name = name)).map (·.ino)

/-- Where a path string starts. -/
def startOf (h : Inotify) (path : Bytes) : Nat :=
  if path.head? = some slash then rootIno else h.cwd

/-- The directory at a path string, as `stat` and `inotify_add_watch` find it. -/
def resolve (h : Inotify) (path : Bytes) : Option Nat :=
  if path = [] then none else (path.splitOn slash).foldlM h.lookup (h.startOf path)

def mkdir (h : Inotify) (d : Dir) : Inotify := { h with dirs := h.dirs ++ [d] }

/-- A directory that may be made: its parent is there, its name is free and its inode unused. -/
def CanMake (h : Inotify) (d : Dir) : Prop :=
  Plain d.name ∧ h.Exists d.parent ∧ h.lookup d.parent d.name = none ∧ d.ino ≠ 0 ∧
    ¬ h.Exists d.ino

/-- A directory that may be removed: it is empty and nobody works in it. -/
def CanRemove (h : Inotify) (d : Dir) : Prop :=
  d ∈ h.dirs ∧ (∀ e ∈ h.dirs, e.parent ≠ d.ino) ∧ h.cwd ≠ d.ino

instance (h : Inotify) (ino : Nat) : Decidable (h.Exists ino) :=
  inferInstanceAs (Decidable (_ ∨ _))

instance (h : Inotify) (d : Dir) : Decidable (h.CanMake d) :=
  inferInstanceAs (Decidable (_ ∧ _))

instance (h : Inotify) (d : Dir) : Decidable (h.CanRemove d) :=
  inferInstanceAs (Decidable (_ ∧ _))

/-- The descriptors of the watches on a directory. -/
def watchesOn (h : Inotify) (ino : Nat) : List Nat :=
  (h.watches.filter fun w => decide (w.2 = ino)).map (·.1)

/-- `rmdir`: the watch on the parent reports the name, the one on the directory itself ends. -/
def rmdir (h : Inotify) (d : Dir) : Inotify :=
  { h with
    dirs := h.dirs.filter fun e => decide (e ≠ d)
    watches := h.watches.filter fun w => decide (w.2 ≠ d.ino)
    events := h.events ++ (h.watchesOn d.parent).map (WatchEvent.deleted · d.name) ++
      (h.watchesOn d.ino).map WatchEvent.ignored }

/-- `inotify_add_watch`: a directory that is watched already keeps its descriptor. -/
def addWatch (h : Inotify) (ino : Nat) : Nat × Inotify :=
  match h.watches.find? fun w => decide (w.2 = ino) with
  | some w => (w.1, h)
  | none => (h.nextWd, { h with watches := h.watches ++ [(h.nextWd, ino)], nextWd := h.nextWd + 1 })

/-- `inotify_rm_watch`: the end of a watch is queued too. -/
def rmWatch (h : Inotify) (wd : Nat) : Inotify :=
  if h.watches.any fun w => decide (w.1 = wd) then
    { h with
      watches := h.watches.filter fun w => decide (w.1 ≠ wd)
      events := h.events ++ [.ignored wd] }
  else h

/-- Inodes tell the directories apart, every one is in another, and what is watched exists. -/
structure Ok (h : Inotify) : Prop where
  distinct : ∀ d ∈ h.dirs, ∀ e ∈ h.dirs, d.ino = e.ino → d = e
  plain : ∀ d ∈ h.dirs, Plain d.name
  ino : ∀ d ∈ h.dirs, d.ino ≠ 0 ∧ d.ino ≠ rootIno
  parent : ∀ d ∈ h.dirs, h.Exists d.parent
  watched : ∀ w ∈ h.watches, h.Exists w.2
  cwd : h.Exists h.cwd

variable {h : Inotify} {d : Dir} {p ino : Nat} {name : Bytes}

/-! ## Looking names up -/

theorem exists_of_mem (hd : d ∈ h.dirs) : h.Exists d.ino := Or.inr ⟨d, hd, rfl⟩

theorem exists_parentOf (hok : h.Ok) (hp : h.Exists p) : h.Exists (h.parentOf p) := by
  unfold parentOf
  split
  · rename_i e he
    exact hok.parent e (List.mem_of_find?_eq_some he)
  · exact hp

/-- What is found under a name exists. -/
theorem exists_lookup (hok : h.Ok) (hp : h.Exists p) (hl : h.lookup p name = some ino) :
    h.Exists ino := by
  unfold lookup at hl
  split at hl
  · cases hl
    exact hp
  split at hl
  · cases hl
    exact exists_parentOf hok hp
  · obtain ⟨e, he, rfl⟩ := Option.map_eq_some_iff.1 hl
    exact exists_of_mem (List.mem_of_find?_eq_some he)

theorem exists_startOf (hok : h.Ok) (path : Bytes) : h.Exists (h.startOf path) := by
  unfold startOf
  split
  · exact Or.inl rfl
  · exact hok.cwd

theorem exists_walk (hok : h.Ok) : ∀ {names : List Bytes} {p ino : Nat}, h.Exists p →
    names.foldlM h.lookup p = some ino → h.Exists ino
  | [], _, _, hp, hw => by
      cases hw
      exact hp
  | name :: names, p, ino, hp, hw => by
      rw [List.foldlM_cons, Option.bind_eq_bind, Option.bind_eq_some_iff] at hw
      obtain ⟨q, hq, hw⟩ := hw
      exact exists_walk hok (exists_lookup hok hp hq) hw

theorem exists_resolve (hok : h.Ok) {path : Bytes} (hr : h.resolve path = some ino) :
    h.Exists ino := by
  unfold resolve at hr
  split at hr
  · cases hr
  · exact exists_walk hok (exists_startOf hok path) hr

/-! ## New directories -/

theorem ne_of_canMake (hm : h.CanMake d) (hp : h.Exists p) : d.ino ≠ p := by
  rintro rfl
  exact hm.2.2.2.2 hp

/-- A new directory changes nothing that was found before. -/
theorem lookup_mkdir (hm : h.CanMake d) (hp : h.Exists p) (hl : h.lookup p name = some ino) :
    (h.mkdir d).lookup p name = some ino := by
  have hne := ne_of_canMake hm hp
  unfold lookup at hl ⊢
  split at hl
  · rw [if_pos ‹_›]
    exact hl
  rw [if_neg ‹_›]
  split at hl
  · rw [if_pos ‹_›]
    have hup : (h.mkdir d).parentOf p = h.parentOf p := by
      unfold parentOf mkdir
      simp only [List.find?_append, List.find?_singleton, decide_eq_true_eq, if_neg hne,
        Option.or_none]
    rw [hup]
    exact hl
  · rw [if_neg ‹_›]
    obtain ⟨e, he, rfl⟩ := Option.map_eq_some_iff.1 hl
    rw [mkdir, List.find?_append, he]
    rfl

theorem exists_mkdir (hp : h.Exists p) : (h.mkdir d).Exists p := by
  rcases hp with hroot | ⟨e, he, heq⟩
  · exact Or.inl hroot
  · exact Or.inr ⟨e, List.mem_append_left _ he, heq⟩

theorem Ok.mkdir (hok : h.Ok) (hm : h.CanMake d) : (h.mkdir d).Ok := by
  have hmem : ∀ {e}, e ∈ (h.mkdir d).dirs → e ∈ h.dirs ∨ e = d := fun he => by
    simpa [Inotify.mkdir] using he
  refine ⟨?distinct, ?plain, ?ino, ?parent, ?watched, ?cwd⟩
  case distinct =>
    intro e he e' he' heq
    rcases hmem he with hold | rfl
    · rcases hmem he' with hold' | rfl
      · exact hok.distinct e hold e' hold' heq
      · exact absurd heq.symm (ne_of_canMake hm (exists_of_mem hold))
    · rcases hmem he' with hold' | rfl
      · exact absurd heq (ne_of_canMake hm (exists_of_mem hold'))
      · rfl
  case plain =>
    intro e he
    rcases hmem he with he | rfl
    · exact hok.plain e he
    · exact hm.1
  case ino =>
    intro e he
    rcases hmem he with he | rfl
    · exact hok.ino e he
    · exact ⟨hm.2.2.2.1, ne_of_canMake hm (Or.inl rfl)⟩
  case parent =>
    intro e he
    rcases hmem he with he | rfl
    · exact exists_mkdir (hok.parent e he)
    · exact exists_mkdir hm.2.1
  case watched => exact fun w hw => exists_mkdir (hok.watched w hw)
  case cwd => exact exists_mkdir hok.cwd

/-! ## Removed directories -/

theorem exists_rmdir (hp : h.Exists p) (hne : p ≠ d.ino) : (h.rmdir d).Exists p := by
  rcases hp with hroot | ⟨e, he, rfl⟩
  · exact Or.inl hroot
  · refine Or.inr ⟨e, List.mem_filter.2 ⟨he, ?_⟩, rfl⟩
    simp only [decide_eq_true_eq]
    rintro rfl
    exact hne rfl

/-- A search that finds an element finds it among those left by a filter it passes. -/
theorem find_filter {α : Type*} {q r : α → Bool} {l : List α} {a : α} (hf : l.find? q = some a)
    (hr : r a = true) : (l.filter r).find? q = some a := by
  induction l with
  | nil => cases hf
  | cons b l ih =>
      rw [List.find?_cons] at hf
      split at hf
      · rename_i hq
        obtain rfl : b = a := by simpa using hf
        rw [List.filter_cons_of_pos hr, List.find?_cons, hq]
      · rename_i hq
        by_cases hb : r b = true
        · rw [List.filter_cons_of_pos hb, List.find?_cons, hq]
          exact ih hf
        · rw [List.filter_cons_of_neg hb]
          exact ih hf

theorem parentOf_rmdir (hne : p ≠ d.ino) : (h.rmdir d).parentOf p = h.parentOf p := by
  unfold parentOf
  cases hf : h.dirs.find? fun e => decide (e.ino = p) with
  | some e =>
      have hep : e.ino = p := by simpa using List.find?_some hf
      have hkeep : (h.rmdir d).dirs.find? (fun e => decide (e.ino = p)) = some e := by
        refine find_filter hf ?_
        simp only [decide_eq_true_eq]
        rintro rfl
        exact hne hep.symm
      rw [hkeep]
  | none =>
      have hnone : (h.rmdir d).dirs.find? (fun e => decide (e.ino = p)) = none := by
        refine List.find?_eq_none.2 fun e he => ?_
        exact List.find?_eq_none.1 hf e (List.mem_filter.1 he).1
      rw [hnone]

/-- A removal does not change where the other directories are found. -/
theorem lookup_rmdir (hpd : p ≠ d.ino) (hne : ino ≠ d.ino)
    (hl : h.lookup p name = some ino) : (h.rmdir d).lookup p name = some ino := by
  unfold lookup at hl ⊢
  split at hl
  · rw [if_pos ‹_›]
    exact hl
  rw [if_neg ‹_›]
  split at hl
  · rw [if_pos ‹_›, parentOf_rmdir hpd]
    exact hl
  · rw [if_neg ‹_›]
    obtain ⟨e, he, rfl⟩ := Option.map_eq_some_iff.1 hl
    have hkeep := find_filter (r := fun e => decide (e ≠ d)) he (by
      simp only [decide_eq_true_eq]
      rintro rfl
      exact hne rfl)
    rw [rmdir, hkeep]
    rfl

/-- A directory that is removed is found in another one under its own name only. -/
theorem eq_of_lookup_removed (hok : h.Ok) (hr : h.CanRemove d) (hpd : p ≠ d.ino)
    (hl : h.lookup p name = some d.ino) : d.parent = p ∧ d.name = name := by
  unfold lookup at hl
  split at hl
  · cases hl
    exact absurd rfl hpd
  split at hl
  · have hup : h.parentOf p = d.ino := by simpa using hl
    unfold parentOf at hup
    split at hup
    · rename_i e he
      exact absurd hup (hr.2.1 e (List.mem_of_find?_eq_some he))
    · exact absurd hup hpd
  · obtain ⟨e, he, heq⟩ := Option.map_eq_some_iff.1 hl
    obtain rfl := hok.distinct e (List.mem_of_find?_eq_some he) d hr.1 heq
    simpa using List.find?_some he

theorem mem_watchesOn {wd : Nat} (hw : (wd, ino) ∈ h.watches) : wd ∈ h.watchesOn ino :=
  List.mem_map.2 ⟨(wd, ino), List.mem_filter.2 ⟨hw, by simp⟩, rfl⟩

/-- Under a watched directory a removal is queued; a watch that goes with its directory is. -/
theorem queued_rmdir (hok : h.Ok) (hr : h.CanRemove d) {wd : Nat} (hw : (wd, p) ∈ h.watches)
    (hl : h.lookup p name = some ino) (hgone : ino = d.ino ∨ p = d.ino) :
    .deleted wd name ∈ (h.rmdir d).events ∨ .ignored wd ∈ (h.rmdir d).events := by
  by_cases hpd : p = d.ino
  · subst hpd
    refine Or.inr (List.mem_append_right _ ?_)
    exact List.mem_map.2 ⟨wd, mem_watchesOn hw, rfl⟩
  · rcases hgone with rfl | hp
    · obtain ⟨rfl, rfl⟩ := eq_of_lookup_removed hok hr hpd hl
      refine Or.inl (List.mem_append_left _ (List.mem_append_right _ ?_))
      exact List.mem_map.2 ⟨wd, mem_watchesOn hw, rfl⟩
    · exact absurd hp hpd

theorem Ok.rmdir (hok : h.Ok) (hr : h.CanRemove d) : (h.rmdir d).Ok := by
  have hmem : ∀ {e}, e ∈ (h.rmdir d).dirs → e ∈ h.dirs := fun he => (List.mem_filter.1 he).1
  refine ⟨fun e he e' he' => hok.distinct e (hmem he) e' (hmem he'),
    fun e he => hok.plain e (hmem he), fun e he => hok.ino e (hmem he), fun e he => ?_,
    fun w hw => ?_, exists_rmdir hok.cwd hr.2.2⟩
  · exact exists_rmdir (hok.parent e (hmem he)) (hr.2.1 e (hmem he))
  · obtain ⟨hw, hne⟩ := List.mem_filter.1 hw
    exact exists_rmdir (hok.watched w hw) (by simpa using hne)

/-! ## Watches -/

/-- A new watch keeps the old ones; the directories and the events stay. -/
theorem addWatch_keeps (h : Inotify) (ino : Nat) :
    (∀ w ∈ h.watches, w ∈ (h.addWatch ino).2.watches) ∧ (h.addWatch ino).2.dirs = h.dirs ∧
      (h.addWatch ino).2.cwd = h.cwd ∧ (h.addWatch ino).2.events = h.events ∧
      ∀ w ∈ (h.addWatch ino).2.watches, w ∈ h.watches ∨ w.2 = ino := by
  unfold addWatch
  split
  · exact ⟨fun _ hw => hw, rfl, rfl, rfl, fun _ hw => Or.inl hw⟩
  · refine ⟨fun _ hw => List.mem_append_left _ hw, rfl, rfl, rfl, fun w hw => ?_⟩
    rcases List.mem_append.1 hw with hw | hw
    · exact Or.inl hw
    · rw [List.mem_singleton.1 hw]
      exact Or.inr rfl

theorem rmWatch_keeps (h : Inotify) (wd : Nat) :
    (∀ w ∈ h.watches, w.1 ≠ wd → w ∈ (h.rmWatch wd).watches) ∧ (h.rmWatch wd).dirs = h.dirs ∧
      (h.rmWatch wd).cwd = h.cwd ∧ (∀ ev ∈ h.events, ev ∈ (h.rmWatch wd).events) ∧
      ∀ w ∈ (h.rmWatch wd).watches, w ∈ h.watches := by
  unfold rmWatch
  split
  · exact ⟨fun w hw hne => List.mem_filter.2 ⟨hw, by simpa using hne⟩, rfl, rfl,
      fun _ hev => List.mem_append_left _ hev, fun w hw => (List.mem_filter.1 hw).1⟩
  · exact ⟨fun _ hw _ => hw, rfl, rfl, fun _ hev => hev, fun _ hw => hw⟩

/-- With the same directories and watches that were there, or are on directories, all is well. -/
theorem Ok.rewatch (hok : h.Ok) {h' : Inotify} (hdirs : h'.dirs = h.dirs) (hcwd : h'.cwd = h.cwd)
    (hw : ∀ w ∈ h'.watches, w ∈ h.watches ∨ h.Exists w.2) : h'.Ok := by
  have hex : ∀ {ino}, h.Exists ino → h'.Exists ino := fun he => by
    unfold Exists
    rw [hdirs]
    exact he
  refine ⟨by rw [hdirs]; exact hok.distinct, by rw [hdirs]; exact hok.plain,
    by rw [hdirs]; exact hok.ino, fun d hd => ?_, fun w hmem => ?_, by rw [hcwd]; exact hex hok.cwd⟩
  · rw [hdirs] at hd
    exact hex (hok.parent d hd)
  · rcases hw w hmem with hold | hnew
    · exact hex (hok.watched w hold)
    · exact hex hnew

/-- What is found depends on the directories only. -/
theorem lookup_congr {h' : Inotify} (hdirs : h'.dirs = h.dirs) (p : Nat) (name : Bytes) :
    h'.lookup p name = h.lookup p name := by
  unfold lookup parentOf
  rw [hdirs]

end Inotify
end ContextFS
