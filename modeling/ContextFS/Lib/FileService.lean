import ContextFS.Lib.PosixFile
import Mathlib.Data.Set.Basic
import Mathlib.Logic.Function.Basic

/-!
# A file service with drafts and snapshots

What a service of files promises its users, in terms of plain files.  Each of its trees shows a
node at some paths.  An open file is a draft: what is written to it is seen through it alone,
until it is saved; then the whole of it stands at the path the file was opened at.  A tree can be
forked and dropped, and a snapshot keeps what a tree shows.

A service makes no promise about some calls: `Allowed` are those it answers as told here.
-/

namespace ContextFS
namespace Lib

inductive NodeKind
  | dir
  | file
  | link
deriving DecidableEq

/-- What is at a path: the content of a file, or where a link leads. -/
structure FileNode (α π : Type*) where
  kind : NodeKind
  perm : π
  data : List α

/-- What a tree shows. -/
abbrev FileView (ν α π : Type*) := List ν → Option (FileNode α π)

namespace FileView

variable {ν α π : Type*} [DecidableEq ν]

def put (v : FileView ν α π) (path : List ν) (n : FileNode α π) : FileView ν α π :=
  Function.update v path (some n)

def erase (v : FileView ν α π) (path : List ν) : FileView ν α π := Function.update v path none

/-- One node goes to another path, over what was there. -/
def moveNode (v : FileView ν α π) (source target : List ν) : FileView ν α π :=
  fun q => if q = target then v source else if q = source then none else v q

/-- A node goes to another path with all that is below it. -/
def moveTree (v : FileView ν α π) (source target : List ν) : FileView ν α π :=
  fun q =>
    if target <+: q then v (source ++ q.drop target.length)
    else if source <+: q then none
    else v q

/-- The place a directory may be moved to: nothing is at or below it, and neither path leads
through the other. -/
structure Vacant (v : FileView ν α π) (source target : List ν) : Prop where
  not_into : ¬ source <+: target
  not_onto : ¬ target <+: source
  nothing : ∀ q, target <+: q → v q = none

end FileView

/-! ## Drafts -/

/-- Whether the operation counts as a change, even where it changes nothing. -/
def FileOp.isEdit {α : Type*} : FileOp α → Bool
  | .write _ data => !data.isEmpty
  | .truncate _ => true

/-- Where what the operation writes, or leaves, ends. -/
def FileOp.reach {α : Type*} : FileOp α → Nat
  | .write offset data => offset + data.length
  | .truncate size => size

/-- A content and what was done to it since it was saved. -/
structure Draft (α : Type*) where
  base : List α
  edits : List (FileOp α) := []

namespace Draft

variable {α : Type*} [Zero α]

def content (f : Draft α) : List α := fileAfter f.edits f.base

def dirty (f : Draft α) : Bool := f.edits.any FileOp.isEdit

def edit (f : Draft α) (op : FileOp α) : Draft α := { f with edits := f.edits ++ [op] }

def saved (f : Draft α) : Draft α where
  base := f.content

/-- The draft has not grown over anything but zeros that a truncate has cut off. -/
def Settled (f : Draft α) : Prop :=
  ∀ pos < f.content.length, cutAt f.edits pos = true → byteAt f.base pos = 0

theorem content_edit (f : Draft α) (op : FileOp α) : (f.edit op).content = op.onFile f.content := by
  simp only [content, edit, fileAfter, List.foldl_append, List.foldl_cons, List.foldl_nil]

omit [Zero α] in
theorem cutAt_edit (f : Draft α) (op : FileOp α) (pos : Nat) :
    cutAt (f.edit op).edits pos = op.cuts pos (cutAt f.edits pos) := by
  simp only [cutAt, edit, List.foldl_append, List.foldl_cons, List.foldl_nil]

omit [Zero α] in
theorem dirty_edit (f : Draft α) (op : FileOp α) : (f.edit op).dirty = (f.dirty || op.isEdit) := by
  simp only [dirty, edit, List.any_append, List.any_cons, List.any_nil, Bool.or_false]

/-- An edit makes a content at most as long as it reaches. -/
theorem length_onFile_lt {f : List α} {op : FileOp α} {bound : Nat} (hf : f.length < bound)
    (hop : op.reach < bound) : (op.onFile f).length < bound := by
  cases op with
  | write offset data =>
      show (writeAt f offset data).length < bound
      rw [length_writeAt]
      split
      · exact hf
      · exact Nat.max_lt.2 ⟨hf, hop⟩
  | truncate size =>
      show (resize f size).length < bound
      rwa [length_resize]

end Draft

/-! ## The service -/

/-- A file opened in a tree; it is stale when the tree was set back or dropped. -/
structure OpenFile (ν α : Type*) where
  tree : Nat
  path : List ν
  draft : Draft α
  stale : Bool := false

/-- A file of the tree that can be used and was changed. -/
def OpenFile.pending {ν α : Type*} (f : OpenFile ν α) (b : Nat) : Bool :=
  f.tree == b && !f.stale && f.draft.dirty

/-- What is fixed for a service: the permissions of a file that a save makes and those links are
shown with, the names that stay hidden, a bound on the length of files, and the tree that is
listed in place of one that is gone. -/
structure FileConventions (ν π : Type*) where
  savedPerm : π
  linkPerm : π
  hidden : ν → Bool
  bound : Nat
  home : Nat

/-- A path with a place in a tree: not the root, and not below a hidden name. -/
def FileConventions.Open {ν π : Type*} (c : FileConventions ν π) (path : List ν) : Prop :=
  ∃ name, path.head? = some name ∧ c.hidden name = false

structure FileService (ν α π τ : Type*) where
  view : Nat → Option (FileView ν α π)
  file : Nat → Option (OpenFile ν α)
  snapshot : τ → Option (FileView ν α π)
  nextFile : Nat
  nextTree : Nat

inductive FileRefusal
  | missing
  | closed
  | gone
  | isDir
  | notDir
  | notLink
  | notEmpty
  | taken
deriving DecidableEq

inductive FileReply (ν α π : Type*)
  | done
  | opened (fh : Nat)
  | count (n : Nat)
  | data (data : List α)
  | names (names : Set ν)
  | stat (kind : NodeKind) (perm : π) (size : Nat)
  | tree (b : Nat)

abbrev FileAnswer (ν α π : Type*) := Except FileRefusal (FileReply ν α π)

/-- A call; where more than one open file can be meant, `order` is the order they are tried in. -/
inductive FileCall (ν α π τ : Type*)
  | openFile (b : Nat) (path : List ν) (trunc : Bool)
  | create (b : Nat) (path : List ν) (perm : π)
  | read (fh offset size : Nat)
  | write (fh offset : Nat) (data : List α)
  | save (fh : Nat)
  | close (fh : Nat)
  | resize (fh size : Nat)
  | truncate (b : Nat) (path : List ν) (size : Nat)
  | unlink (b : Nat) (path : List ν)
  | rmdir (b : Nat) (path : List ν)
  | mkdir (b : Nat) (path : List ν) (perm : π)
  | rename (b : Nat) (source target : List ν)
  | symlink (b : Nat) (target : List α) (path : List ν)
  | chmod (b : Nat) (path : List ν) (perm : π)
  | list (b : Nat) (path : List ν)
  | stat (b : Nat) (order : List Nat) (path : List ν)
  | readlink (b : Nat) (path : List ν) (size : Nat)
  | checkpoint (b : Nat) (order : List Nat) (token : τ)
  | fork (b : Nat)
  | drop (b : Nat)
  | restore (b : Nat) (token : τ)

namespace FileService

variable {ν α π τ : Type*} [DecidableEq ν] [Zero α] [DecidableEq τ]

def setView (sv : FileService ν α π τ) (b : Nat) (v : FileView ν α π) : FileService ν α π τ :=
  { sv with view := Function.update sv.view b (some v) }

def setFile (sv : FileService ν α π τ) (fh : Nat) (f : OpenFile ν α) : FileService ν α π τ :=
  { sv with file := Function.update sv.file fh (some f) }

/-- A new open file. -/
def addFile (sv : FileService ν α π τ) (f : OpenFile ν α) :
    FileAnswer ν α π × FileService ν α π τ :=
  (.ok (.opened sv.nextFile), { sv.setFile sv.nextFile f with nextFile := sv.nextFile + 1 })

/-- All open files of a tree become stale. -/
def staleFiles (sv : FileService ν α π τ) (b : Nat) : FileService ν α π τ :=
  { sv with
    file := fun fh => (sv.file fh).map fun f => if f.tree = b then { f with stale := true } else f }

/-- What a listing shows: the tree, or the home tree when that one is gone. -/
def look (c : FileConventions ν π) (sv : FileService ν α π τ) (b : Nat) : FileView ν α π :=
  ((sv.view b).or (sv.view c.home)).getD fun _ => none

def withView (sv : FileService ν α π τ) (b : Nat)
    (k : FileView ν α π → FileAnswer ν α π × FileService ν α π τ) :
    FileAnswer ν α π × FileService ν α π τ :=
  match sv.view b with
  | none => (.error .gone, sv)
  | some v => k v

def withNode (sv : FileService ν α π τ) (b : Nat) (path : List ν)
    (k : FileView ν α π → FileNode α π → FileAnswer ν α π × FileService ν α π τ) :
    FileAnswer ν α π × FileService ν α π τ :=
  sv.withView b fun v =>
    match v path with
    | none => (.error .missing, sv)
    | some n => k v n

/-- A file can be used as long as its tree is there and has not been set back. -/
def withFile (sv : FileService ν α π τ) (fh : Nat)
    (k : OpenFile ν α → FileView ν α π → FileAnswer ν α π × FileService ν α π τ) :
    FileAnswer ν α π × FileService ν α π τ :=
  match sv.file fh with
  | none => (.error .closed, sv)
  | some f => sv.withView f.tree fun v => if f.stale then (.error .gone, sv) else k f v

/-- The content of the draft stands at its path, with the permissions of what was there. -/
def save (c : FileConventions ν π) (sv : FileService ν α π τ) (fh : Nat) (f : OpenFile ν α)
    (v : FileView ν α π) : FileService ν α π τ :=
  (sv.setView f.tree (v.put f.path
    ⟨.file, ((v f.path).map (·.perm)).getD c.savedPerm, f.draft.content⟩)).setFile fh
      { f with draft := f.draft.saved }

/-- A save of a file that was changed. -/
def saveFile (c : FileConventions ν π) (sv : FileService ν α π τ) (fh : Nat) :
    FileAnswer ν α π × FileService ν α π τ :=
  sv.withFile fh fun f v => (.ok .done, if f.draft.dirty then sv.save c fh f v else sv)

/-- All changed files of a tree are saved, one after the other. -/
def saveAll (c : FileConventions ν π) (b : Nat) (sv : FileService ν α π τ) :
    List Nat → FileService ν α π τ
  | [] => sv
  | fh :: order =>
      match sv.file fh, sv.view b with
      | some f, some v =>
          if f.pending b then (sv.save c fh f v).saveAll c b order
          else sv.saveAll c b order
      | _, _ => sv.saveAll c b order

/-- The length a file at a path has for the one who changes it. -/
def draftSize (sv : FileService ν α π τ) (b : Nat) (order : List Nat) (path : List ν) :
    Option Nat :=
  (order.filterMap sv.file).findSome? fun f =>
    if f.path = path ∧ f.pending b then some f.draft.content.length else none

open Classical in
/-- What the service does when it is called, and what it answers. -/
noncomputable def call (c : FileConventions ν π) (sv : FileService ν α π τ) :
    FileCall ν α π τ → FileAnswer ν α π × FileService ν α π τ
  | .openFile b path trunc =>
      sv.withNode b path fun v n =>
        if n.kind ≠ .file then (.error .isDir, sv)
        else if trunc then
          (sv.setView b (v.put path { n with data := [] })).addFile ⟨b, path, ⟨[], []⟩, false⟩
        else sv.addFile ⟨b, path, ⟨n.data, []⟩, false⟩
  | .create b path perm =>
      sv.withView b fun v =>
        (sv.setView b (v.put path ⟨.file, perm, []⟩)).addFile ⟨b, path, ⟨[], []⟩, false⟩
  | .read fh offset size =>
      sv.withFile fh fun f _ => (.ok (.data (readAt f.draft.content offset size)), sv)
  | .write fh offset data =>
      sv.withFile fh fun f _ =>
        (.ok (.count data.length),
          sv.setFile fh { f with draft := f.draft.edit (.write offset data) })
  | .save fh => sv.saveFile c fh
  | .close fh =>
      let sv := (sv.saveFile c fh).2
      (.ok .done, { sv with file := Function.update sv.file fh none })
  | .resize fh size =>
      sv.withFile fh fun f _ =>
        (.ok .done, sv.setFile fh { f with draft := f.draft.edit (.truncate size) })
  | .truncate b path size =>
      sv.withNode b path fun v n =>
        if n.kind ≠ .file then (.error .isDir, sv)
        else (.ok .done, sv.setView b (v.put path { n with data := resize n.data size }))
  | .unlink b path =>
      sv.withNode b path fun v n =>
        if n.kind = .dir then (.error .isDir, sv)
        else (.ok .done, sv.setView b (v.erase path))
  | .rmdir b path =>
      sv.withNode b path fun v n =>
        if n.kind ≠ .dir then (.error .notDir, sv)
        else if ∃ name, v (path ++ [name]) ≠ none then (.error .notEmpty, sv)
        else (.ok .done, sv.setView b (v.erase path))
  | .mkdir b path perm =>
      sv.withView b fun v =>
        if (v path).isSome then (.error .taken, sv)
        else (.ok .done, sv.setView b (v.put path ⟨.dir, perm, []⟩))
  | .rename b source target =>
      sv.withNode b source fun v n =>
        if n.kind = .dir then (.ok .done, sv.setView b (v.moveTree source target))
        else (.ok .done, sv.setView b (v.moveNode source target))
  | .symlink b target path =>
      sv.withView b fun v =>
        if (v path).isSome then (.error .taken, sv)
        else (.ok .done, sv.setView b (v.put path ⟨.link, c.linkPerm, target⟩))
  | .chmod b path perm =>
      sv.withNode b path fun v n =>
        (.ok .done, sv.setView b (v.put path { n with perm := perm }))
  | .list b path =>
      let v := sv.look c b
      if path ≠ [] ∧ (v path).map (·.kind) ≠ some .dir then (.error .missing, sv)
      else (.ok (.names { name | v (path ++ [name]) ≠ none ∧ c.hidden name = false }), sv)
  | .stat b order path =>
      sv.withNode b path fun _ n =>
        match n.kind with
        | .dir => (.ok (.stat .dir n.perm 0), sv)
        | .file =>
            (.ok (.stat .file n.perm ((sv.draftSize b order path).getD n.data.length)), sv)
        | .link =>
            (.ok (.stat .link c.linkPerm ((sv.draftSize b order path).getD n.data.length)), sv)
  | .readlink b path size =>
      match sv.look c b path with
      | none => (.error .missing, sv)
      | some n =>
          if n.kind ≠ .link then (.error .notLink, sv)
          else (.ok (.data (n.data.take (size - 1))), sv)
  | .checkpoint b order token =>
      sv.withView b fun _ =>
        let sv := sv.saveAll c b order
        (.ok .done, { sv with snapshot := Function.update sv.snapshot token (sv.view b) })
  | .fork b =>
      sv.withView b fun v =>
        (.ok (.tree sv.nextTree), { sv.setView sv.nextTree v with nextTree := sv.nextTree + 1 })
  | .drop b =>
      sv.withView b fun _ =>
        (.ok .done, { sv.staleFiles b with view := Function.update sv.view b none })
  | .restore b token =>
      sv.withView b fun _ =>
        match sv.snapshot token with
        | none => (.error .missing, sv)
        | some v => (.ok .done, (sv.staleFiles b).setView b v)

/-! ## What the service promises something about -/

/-- The draft of a file may be looked at and saved. -/
def Settled (sv : FileService ν α π τ) (fh : Nat) : Prop :=
  ∀ f, sv.file fh = some f → f.draft.Settled

section Updates

variable (sv : FileService ν α π τ)

omit [DecidableEq ν] [Zero α] [DecidableEq τ]

theorem setView_view (b : Nat) (v : FileView ν α π) (c : Nat) :
    (sv.setView b v).view c = if b = c then some v else sv.view c := by
  simp only [setView, Function.update_apply, eq_comm]

theorem setFile_file (fh : Nat) (f : OpenFile ν α) (k : Nat) :
    (sv.setFile fh f).file k = if fh = k then some f else sv.file k := by
  simp only [setFile, Function.update_apply, eq_comm]

/-- Setting a file to what it is. -/
theorem setFile_self {fh : Nat} {f : OpenFile ν α} (h : sv.file fh = some f) :
    sv.setFile fh f = sv := by
  rw [setFile, ← h, Function.update_eq_self]

/-- A save settles the file and leaves the others as they are. -/
theorem Settled.save [DecidableEq ν] [Zero α] {c : FileConventions ν π} {k : Nat}
    (h : sv.Settled k) (fh : Nat) (f : OpenFile ν α) (v : FileView ν α π) :
    (sv.save c fh f v).Settled k := by
  intro f' hf'
  rw [FileService.save, setFile_file] at hf'
  split at hf'
  · cases hf'
    intro pos _ hcut
    cases hcut
  · exact h f' hf'

end Updates

def Allowed (c : FileConventions ν π) (sv : FileService ν α π τ) : FileCall ν α π τ → Prop
  | .openFile _ path _ | .create _ path _ | .unlink _ path | .rmdir _ path | .mkdir _ path _
  | .chmod _ path _ | .stat _ _ path | .readlink _ path _ => c.Open path
  | .read fh _ _ | .save fh | .close fh => sv.Settled fh
  | .write _ offset data => offset + data.length < c.bound
  | .resize _ size => size < c.bound
  | .truncate _ path size => c.Open path ∧ size < c.bound
  | .rename b source target =>
      c.Open source ∧ c.Open target ∧
        ∀ v n, sv.view b = some v → v source = some n → n.kind = .dir → v.Vacant source target
  | .symlink _ target path => c.Open path ∧ target.length < c.bound
  | .list b path =>
      c.Open path ∨ path = [] ∧ sv.look c b [] = none
  | .checkpoint _ order _ => ∀ fh ∈ order, sv.Settled fh
  | .restore _ token => sv.snapshot token ≠ none
  | .fork _ | .drop _ => True

end FileService
end Lib
end ContextFS
