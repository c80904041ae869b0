import ContextFS.Lib.AssocList
import ContextFS.State.TextRecord

/-!
# Latest refs

`state/latest/<agent>/<branch>` holds the id of the newest durable record of an agent on a branch.
A ref is replaced by renaming a temporary file that lies next to it; the last step is the fsync
of the agent's directory, so a publication that fails there has changed the ref nevertheless.

`faults` lists how the coming system calls end.  `passed` collects the contents of the directory
that a publication leaves behind on its way: what a crash may find.
-/

namespace ContextFS

open Lib

/-- The files below `state/latest`, by agent and name. -/
structure LatestRefs where
  agents : List (Bytes × List (Bytes × Bytes)) := []

/-- `is_valid_state_ref_component`: `[A-Za-z0-9_-]{1,64}`. -/
def isValidStateRefComponent (name : Bytes) : Bool :=
  !name.isEmpty && name.length ≤ 64 && name.all fun c =>
    (48 ≤ c && c ≤ 57) || (65 ≤ c && c ≤ 90) || (97 ≤ c && c ≤ 122) || c == 45 || c == 95

namespace LatestRefs

/-- The content of a file. -/
def file (l : LatestRefs) (agent name : Bytes) : Option Bytes :=
  (AssocList.find agent l.agents).bind (AssocList.find name)

/-- The files of an agent. -/
def filesOf (l : LatestRefs) (agent : Bytes) : List (Bytes × Bytes) :=
  (AssocList.find agent l.agents).getD []

/-- The directory of an agent, made if it is not there. -/
def mkdir (agent : Bytes) (l : LatestRefs) : LatestRefs :=
  ⟨AssocList.assign agent (l.filesOf agent) l.agents⟩

def write (agent name content : Bytes) (l : LatestRefs) : LatestRefs :=
  ⟨AssocList.assign agent (AssocList.assign name content (l.filesOf agent)) l.agents⟩

def unlink (agent name : Bytes) (l : LatestRefs) : LatestRefs :=
  ⟨AssocList.assign agent (AssocList.remove name (l.filesOf agent)) l.agents⟩

/-- The file at the target is replaced. -/
def rename (agent source target : Bytes) (l : LatestRefs) : LatestRefs :=
  match l.file agent source with
  | none => l
  | some content => (l.write agent target content).unlink agent source

end LatestRefs

structure LatestDisk where
  refs : LatestRefs := {}
  faults : List (Option String) := []
  /-- What `mkstemp` puts in place of the six `X`. -/
  suffix : Bytes := []
  /-- How many bytes the coming write gets to the file if it fails. -/
  written : Nat := 0
  passed : List LatestRefs := []

namespace LatestDisk

/-- One system call: it fails and does nothing, or has its effect. -/
def sysCall (d : LatestDisk) (effect : LatestRefs → LatestRefs) : Option String × LatestDisk :=
  match d.faults with
  | some err :: faults => (some err, { d with faults := faults })
  | none :: faults =>
      (none, { d with
        refs := effect d.refs, faults := faults, passed := effect d.refs :: d.passed })
  | [] => (none, { d with refs := effect d.refs, passed := effect d.refs :: d.passed })

/-- `ensure_child_dir_durable`: the directory is made and its parent fsynced. -/
def ensureChildDirDurable (d : LatestDisk) (mkdir : LatestRefs → LatestRefs) :
    Option String × LatestDisk :=
  match d.sysCall mkdir with
  | (some err, d) => (some err, d)
  | (none, d) => d.sysCall id

/-- The name `create_latest_ref_temp` asks for. -/
def tempName (branch suffix : Bytes) : Bytes := ascii ".ref-" ++ (branch ++ 45 :: suffix)

/-- `create_latest_ref_temp`; `mkstemp` never opens a file that is there already. -/
def createLatestRefTemp (d : LatestDisk) (agent tmp : Bytes) : Option String × LatestDisk :=
  if (d.refs.file agent tmp).isSome then (some "mkstemp failed", d)
  else d.sysCall (.write agent tmp [])

/-- The write of the whole id and the fsync of the file. -/
def writeTemp (d : LatestDisk) (agent tmp hex : Bytes) : Option String × LatestDisk :=
  match d.sysCall (.write agent tmp hex) with
  | (some err, d) =>
      let refs := d.refs.write agent tmp (hex.take d.written)
      (some err, { d with refs := refs, passed := refs :: d.passed })
  | (none, d) => d.sysCall id

/-- `remove_temp`; its outcome is ignored. -/
def removeTemp (d : LatestDisk) (agent tmp : Bytes) : LatestDisk :=
  (d.sysCall (.unlink agent tmp)).2

/-- `publish_latest_ref`: nothing, or an error text. -/
def publishLatestRef (d : LatestDisk) (agent branch hex : Bytes) : Option String × LatestDisk :=
  -- the directories `state` and `state/latest` hold no refs of their own
  match d.ensureChildDirDurable id with
  | (some err, d) => (some err, d)
  | (none, d) =>
  match d.ensureChildDirDurable id with
  | (some err, d) => (some err, d)
  | (none, d) =>
  match d.ensureChildDirDurable (.mkdir agent) with
  | (some err, d) => (some err, d)
  | (none, d) =>
  let tmp := tempName branch d.suffix
  match d.createLatestRefTemp agent tmp with
  | (some err, d) => (some err, d)
  | (none, d) =>
  match d.writeTemp agent tmp hex with
  | (some err, d) => (some ("write/fsync latest ref failed: " ++ err), d.removeTemp agent tmp)
  | (none, d) =>
  match d.sysCall (.rename agent tmp branch) with
  | (some err, d) => (some ("rename latest ref failed: " ++ err), d.removeTemp agent tmp)
  | (none, d) => d.sysCall id

end LatestDisk

/-! ## Files -/

namespace LatestRefs

variable {l : LatestRefs} {agent name : Bytes}

theorem find_filesOf (l : LatestRefs) (agent name : Bytes) :
    AssocList.find name (l.filesOf agent) = l.file agent name := by
  unfold file filesOf
  cases AssocList.find agent l.agents <;> rfl

@[simp] theorem file_mkdir (a n : Bytes) : (l.mkdir agent).file a n = l.file a n := by
  rw [file, mkdir, AssocList.find_assign]
  split
  · rename_i ha
    rw [ha, Option.bind_some, find_filesOf]
  · rfl

theorem file_write (content a n : Bytes) :
    (l.write agent name content).file a n =
      if a = agent ∧ n = name then some content else l.file a n := by
  rw [file, write, AssocList.find_assign]
  by_cases ha : a = agent
  · subst ha
    rw [if_pos rfl, Option.bind_some, AssocList.find_assign, find_filesOf]
    by_cases hn : n = name
    · rw [if_pos hn, if_pos ⟨rfl, hn⟩]
    · rw [if_neg hn, if_neg fun h => hn h.2]
  · rw [if_neg ha, if_neg fun h => ha h.1]
    rfl

theorem file_unlink (a n : Bytes) :
    (l.unlink agent name).file a n = if a = agent ∧ n = name then none else l.file a n := by
  rw [file, unlink, AssocList.find_assign]
  by_cases ha : a = agent
  · subst ha
    rw [if_pos rfl, Option.bind_some, AssocList.find_remove, find_filesOf]
    by_cases hn : n = name
    · rw [if_pos hn, if_pos ⟨rfl, hn⟩]
    · rw [if_neg hn, if_neg fun h => hn h.2]
  · rw [if_neg ha, if_neg fun h => ha h.1]
    rfl

/-- What a directory can hold while the ref `agent/branch` is published from `old`: the old files,
some bytes of the id in the temporary file besides, or the new ref. -/
inductive Publishing (old : LatestRefs) (agent branch tmp hex : Bytes) (l : LatestRefs) : Prop
  | untouched (h : ∀ a n, l.file a n = old.file a n)
  | temp (k : Nat)
      (h : ∀ a n, l.file a n = if a = agent ∧ n = tmp then some (hex.take k) else old.file a n)
  | renamed
      (h : ∀ a n, l.file a n = if a = agent ∧ n = branch then some hex else old.file a n)

end LatestRefs

/-! ## One publication -/

namespace LatestDisk

open LatestRefs

variable {d d' : LatestDisk} {agent branch tmp hex : Bytes}

/-- The name of a temporary file is no ref. -/
theorem tempName_not_valid (branch suffix : Bytes) :
    isValidStateRefComponent (tempName branch suffix) = false := by
  have hdot : (46 : UInt8) ∈ tempName branch suffix := by
    refine List.mem_append_left _ ?_
    decide +kernel
  by_contra hvalid
  rw [Bool.not_eq_false, isValidStateRefComponent, Bool.and_eq_true] at hvalid
  have hall := List.all_eq_true.1 hvalid.2 46 hdot
  exact absurd hall (by decide)

/-- The call after `k` that succeed fails. -/
def FailsAt (d : LatestDisk) (k : Nat) : Prop :=
  ∃ err faults, d.faults = List.replicate k none ++ some err :: faults

theorem FailsAt.unique {k m : Nat} (hk : d.FailsAt k) (hm : d.FailsAt m) : k = m := by
  have hlt : ∀ {a b : Nat}, d.FailsAt a → d.FailsAt b → ¬a < b := by
    rintro a b ⟨err, fs, ha⟩ ⟨err', fs', hb⟩ hab
    have hget : d.faults[a]? = some (some err) := by
      rw [ha, List.getElem?_append_right (by simp)]
      simp
    rw [hb, List.getElem?_append_left (by simpa using hab), List.getElem?_replicate,
      if_pos hab] at hget
    cases hget
  have h₁ := hlt hk hm
  have h₂ := hlt hm hk
  omega

/-- The write of the id is the first call that fails, and the call after it, which removes the
temporary file, fails too. -/
def LeavesPartial (d : LatestDisk) (agent branch : Bytes) : Prop :=
  d.FailsAt 7 ∧ d.refs.file agent (tempName branch d.suffix) = none ∧
    ∃ err, (d.faults.drop 8).head? = some (some err)

/-- `d` comes from `old` by `k` calls that succeeded; everything it has passed, and what it holds
now, has the property. -/
structure Reached (P : LatestRefs → Prop) (old d : LatestDisk) (k : Nat) : Prop where
  now : P d.refs
  passed : ∀ l ∈ d.passed, l ∈ old.passed ∨ P l
  faults : ∀ f fs, d.faults = f :: fs → old.faults = List.replicate k none ++ f :: fs
  suffix : d.suffix = old.suffix

variable {P : LatestRefs → Prop} {old : LatestDisk} {k : Nat}

/-- Everything `d` has passed since `old`, and what it holds now, has the property. -/
structure Through (P : LatestRefs → Prop) (old d : LatestDisk) : Prop where
  now : P d.refs
  passed : ∀ l ∈ d.passed, l ∈ old.passed ∨ P l
  suffix : d.suffix = old.suffix

theorem Reached.through (h : Reached P old d k) : Through P old d := ⟨h.now, h.passed, h.suffix⟩

/-- One more call: it is the first that fails, or it succeeds too. -/
theorem Reached.sysCall (effect : LatestRefs → LatestRefs) (h : Reached P old d k)
    (he : P (effect d.refs)) :
    (∃ err d', d.sysCall effect = (some err, d') ∧ Through P old d' ∧ d'.refs = d.refs ∧
        old.FailsAt k ∧ d'.faults = old.faults.drop (k + 1)) ∨
      ∃ d', d.sysCall effect = (none, d') ∧ Reached P old d' (k + 1) ∧
        d'.refs = effect d.refs := by
  have hpassed : ∀ l ∈ effect d.refs :: d.passed, l ∈ old.passed ∨ P l := by
    intro l hl
    rcases List.mem_cons.1 hl with rfl | hl
    · exact Or.inr he
    · exact h.passed l hl
  unfold LatestDisk.sysCall
  split
  · rename_i err faults hf
    refine Or.inl ⟨err, _, rfl, ⟨h.now, h.passed, h.suffix⟩, rfl, ⟨err, faults, h.faults _ _ hf⟩, ?_⟩
    show faults = old.faults.drop (k + 1)
    rw [h.faults _ _ hf, List.drop_append, List.drop_eq_nil_of_le (by simp), List.nil_append,
      List.length_replicate, Nat.add_sub_cancel_left, List.drop_one, List.tail_cons]
  · rename_i faults hf
    refine Or.inr ⟨_, rfl, ⟨he, hpassed, fun f fs hfs => ?_, h.suffix⟩, rfl⟩
    rw [h.faults _ _ hf, show faults = f :: fs from hfs, List.replicate_succ']
    simp
  · rename_i hf
    refine Or.inr ⟨_, rfl, ⟨he, hpassed, fun f fs hfs => ?_, h.suffix⟩, rfl⟩
    rw [show d.faults = f :: fs from hfs] at hf
    cases hf

theorem Through.sysCall {effect : LatestRefs → LatestRefs} (h : Through P old d)
    (he : P (effect d.refs)) :
    Through P old (d.sysCall effect).2 ∧
      ((d.sysCall effect).2.refs = d.refs ∨ (d.sysCall effect).2.refs = effect d.refs) := by
  have hpassed : ∀ l ∈ effect d.refs :: d.passed, l ∈ old.passed ∨ P l := by
    intro l hl
    rcases List.mem_cons.1 hl with rfl | hl
    · exact Or.inr he
    · exact h.passed l hl
  unfold LatestDisk.sysCall
  split
  · exact ⟨⟨h.now, h.passed, h.suffix⟩, Or.inl rfl⟩
  · exact ⟨⟨he, hpassed, h.suffix⟩, Or.inr rfl⟩
  · exact ⟨⟨he, hpassed, h.suffix⟩, Or.inr rfl⟩

/-- The fsync of the agent's directory, the last step, is the first that fails. -/
def LastFsyncFails (d : LatestDisk) (agent branch : Bytes) : Prop :=
  d.FailsAt 10 ∧ d.refs.file agent (tempName branch d.suffix) = none

/-- The ref holds the new id and nothing else has changed. -/
def Replaced (d d' : LatestDisk) (agent branch hex : Bytes) : Prop :=
  ∀ a n, d'.refs.file a n = if a = agent ∧ n = branch then some hex else d.refs.file a n

/-- The old directory, but for a temporary file with the whole id. -/
def RestoredUpToWhole (old l : LatestRefs) (agent tmp hex : Bytes) : Prop :=
  ∀ a n, l.file a n = old.file a n ∨ a = agent ∧ n = tmp ∧ l.file a n = some hex

/-- How a publication ends. -/
inductive Outcome (d : LatestDisk) (agent branch hex : Bytes) : Option String × LatestDisk → Prop
  | published {d' : LatestDisk} (replaced : Replaced d d' agent branch hex) :
      Outcome d agent branch hex (none, d')
  | unpublished {err : String} {d' : LatestDisk} (not_last : ¬d.LastFsyncFails agent branch)
      (unchanged : ∀ a n, isValidStateRefComponent n = true → d'.refs.file a n = d.refs.file a n)
      (restored : ¬d.LeavesPartial agent branch →
        RestoredUpToWhole d.refs d'.refs agent (tempName branch d.suffix) hex) :
      Outcome d agent branch hex (some err, d')
  | unsynced {err : String} {d' : LatestDisk} (last : d.LastFsyncFails agent branch)
      (replaced : Replaced d d' agent branch hex) : Outcome d agent branch hex (some err, d')

/-- A directory that differs from the old one in the temporary file at most. -/
def UpToTemp (old l : LatestRefs) (agent tmp : Bytes) : Prop :=
  ∀ a n, ¬(a = agent ∧ n = tmp) → l.file a n = old.file a n

theorem Outcome.of_upToTemp {err : String} (hlast : ¬d.LastFsyncFails agent branch)
    (h : UpToTemp d.refs d'.refs agent (tempName branch d.suffix))
    (hrestored : ¬d.LeavesPartial agent branch →
      RestoredUpToWhole d.refs d'.refs agent (tempName branch d.suffix) hex) :
    Outcome d agent branch hex (some err, d') := by
  refine .unpublished hlast (fun a n hn => h a n ?_) hrestored
  rintro ⟨-, rfl⟩
  rw [tempName_not_valid] at hn
  cases hn

/-- A publication that fails before it has made a temporary file. -/
theorem Outcome.of_same {err : String} (hlast : ¬d.LastFsyncFails agent branch)
    (h : ∀ a n, d'.refs.file a n = d.refs.file a n) : Outcome d agent branch hex (some err, d') :=
  .unpublished hlast (fun a n _ => h a n) fun _ a n => Or.inl (h a n)

/-- A directory is made and its parent fsynced. -/
theorem Reached.ensureChildDirDurable (mkdir : LatestRefs → LatestRefs) (h : Reached P old d k)
    (he : P (mkdir d.refs)) :
    (∃ err d' m, d.ensureChildDirDurable mkdir = (some err, d') ∧ Through P old d' ∧
        (d'.refs = d.refs ∨ d'.refs = mkdir d.refs) ∧ old.FailsAt m ∧ m < k + 2) ∨
      ∃ d', d.ensureChildDirDurable mkdir = (none, d') ∧ Reached P old d' (k + 2) ∧
        d'.refs = mkdir d.refs := by
  unfold LatestDisk.ensureChildDirDurable
  rcases h.sysCall mkdir he with ⟨err, d₁, h₁, t₁, hr₁, hf₁, -⟩ | ⟨d₁, h₁, r₁, hr₁⟩
  · exact Or.inl ⟨err, d₁, k, by rw [h₁], t₁, Or.inl hr₁, hf₁, by omega⟩
  rw [h₁]
  rcases r₁.sysCall id r₁.now with ⟨err, d₂, h₂, t₂, hr₂, hf₂, -⟩ | ⟨d₂, h₂, r₂, hr₂⟩
  · exact Or.inl ⟨err, d₂, k + 1, h₂, t₂, Or.inr (hr₂.trans hr₁), hf₂, by omega⟩
  · exact Or.inr ⟨d₂, h₂, r₂, hr₂.trans hr₁⟩

/-- The id is written, wholly or up to some byte, and the file fsynced. -/
theorem Reached.writeTemp (hex : Bytes) (h : Reached P old d k)
    (he : ∀ j, P (d.refs.write agent tmp (hex.take j))) :
    (∃ err d' m, d.writeTemp agent tmp hex = (some err, d') ∧ Through P old d' ∧
        UpToTemp d.refs d'.refs agent tmp ∧ old.FailsAt m ∧ m < k + 2 ∧
        d'.faults = old.faults.drop (m + 1) ∧
        (m = k ∨ d'.refs.file agent tmp = some hex)) ∨
      ∃ d', d.writeTemp agent tmp hex = (none, d') ∧ Reached P old d' (k + 2) ∧
        d'.refs = d.refs.write agent tmp hex := by
  have hwrite : ∀ j, UpToTemp d.refs (d.refs.write agent tmp (hex.take j)) agent tmp := by
    intro j a n hn
    rw [file_write, if_neg hn]
  have hfull : hex.take hex.length = hex := List.take_length
  have hfirst := h.sysCall (fun l => l.write agent tmp hex) (hfull ▸ he hex.length)
  unfold LatestDisk.writeTemp
  rcases hfirst with ⟨err, d₁, h₁, t₁, hr₁, hf₁, hleft⟩ | ⟨d₁, h₁, r₁, hr₁⟩
  · rw [h₁]
    refine Or.inl ⟨err, _, k, rfl, ⟨?_, fun l hl => ?_, t₁.suffix⟩, ?_, hf₁, by omega, hleft,
      Or.inl rfl⟩
    · show P (d₁.refs.write agent tmp (hex.take d₁.written))
      rw [hr₁]
      exact he _
    · rcases List.mem_cons.1 hl with rfl | hl
      · rw [hr₁]
        exact Or.inr (he _)
      · exact t₁.passed l hl
    · show UpToTemp d.refs (d₁.refs.write agent tmp (hex.take d₁.written)) agent tmp
      rw [hr₁]
      exact hwrite _
  rw [h₁]
  rcases r₁.sysCall id r₁.now with
    ⟨err, d₂, h₂, t₂, hr₂, hf₂, hleft⟩ | ⟨d₂, h₂, r₂, hr₂⟩
  · refine Or.inl ⟨err, d₂, k + 1, h₂, t₂, ?_, hf₂, by omega, hleft, Or.inr ?_⟩
    · rw [hr₂, hr₁, ← hfull]
      exact hwrite _
    · rw [hr₂, hr₁, file_write, if_pos ⟨rfl, rfl⟩]
  · exact Or.inr ⟨d₂, h₂, r₂, hr₂.trans hr₁⟩

/-- The temporary file goes, or stays where its removal fails. -/
theorem Through.removeTemp (h : Through P old d) (he : P (d.refs.unlink agent tmp)) :
    Through P old (d.removeTemp agent tmp) ∧
      ((d.removeTemp agent tmp).refs = d.refs ∨
        (d.removeTemp agent tmp).refs = d.refs.unlink agent tmp) ∧
      ((∀ err, d.faults.head? ≠ some (some err)) →
        (d.removeTemp agent tmp).refs = d.refs.unlink agent tmp) := by
  obtain ⟨t, hr⟩ := h.sysCall he
  refine ⟨t, hr, fun hquiet => ?_⟩
  unfold LatestDisk.removeTemp LatestDisk.sysCall
  split
  · rename_i err faults hf
    exact absurd (by rw [hf]; rfl) (hquiet err)
  · rfl
  · rfl

/-- Whatever is written into the temporary file, the directory is the old one but for it. -/
theorem UpToTemp.file_write {old l : LatestRefs} (h : UpToTemp old l agent tmp) (content : Bytes)
    (a n : Bytes) :
    (l.write agent tmp content).file a n =
      if a = agent ∧ n = tmp then some content else old.file a n := by
  rw [LatestRefs.file_write]
  split
  · rfl
  · exact h a n ‹_›

/-- Without the temporary file, which the old directory did not have, it is the old one. -/
theorem UpToTemp.file_unlink {old l : LatestRefs} (h : UpToTemp old l agent tmp)
    (hfree : old.file agent tmp = none) (a n : Bytes) :
    (l.unlink agent tmp).file a n = old.file a n := by
  rw [LatestRefs.file_unlink]
  split
  · rename_i hat
    rw [hat.1, hat.2, hfree]
  · exact h a n ‹_›

/-- Once the whole temporary file is renamed, the ref has its content. -/
theorem file_rename_of_written {old l : LatestRefs} (hfree : old.file agent tmp = none)
    (hne : tmp ≠ branch)
    (h : ∀ a n, l.file a n = if a = agent ∧ n = tmp then some hex else old.file a n) (a n : Bytes) :
    (l.rename agent tmp branch).file a n =
      if a = agent ∧ n = branch then some hex else old.file a n := by
  have hsource := h agent tmp
  rw [if_pos ⟨rfl, rfl⟩] at hsource
  simp only [LatestRefs.rename, hsource]
  rw [LatestRefs.file_unlink, LatestRefs.file_write]
  by_cases hat : a = agent ∧ n = tmp
  · rw [if_pos hat, if_neg, hat.1, hat.2, hfree]
    exact fun heq => hne (hat.2.symm.trans heq.2)
  · rw [if_neg hat, h, if_neg hat]

/-- A publication whose call `k` fails once the temporary file is there: the file is removed, or
left behind where its removal fails too. -/
theorem Through.failed {e : LatestDisk} {err : String}
    (t : Through (Publishing d.refs agent branch (tempName branch d.suffix) hex) d e)
    (hup : UpToTemp d.refs e.refs agent (tempName branch d.suffix))
    (hfree : d.refs.file agent (tempName branch d.suffix) = none)
    (hlast : ¬d.LastFsyncFails agent branch) (hf : d.FailsAt k)
    (hleft : e.faults = d.faults.drop (k + 1))
    (hwhole : k = 7 ∨ e.refs.file agent (tempName branch d.suffix) = some hex) :
    Through (Publishing d.refs agent branch (tempName branch d.suffix) hex) d
        (e.removeTemp agent (tempName branch d.suffix)) ∧
      Outcome d agent branch hex (some err, e.removeTemp agent (tempName branch d.suffix)) := by
  have hgone := hup.file_unlink hfree
  obtain ⟨t', hr', hremoved⟩ := t.removeTemp (.untouched hgone)
  refine ⟨t', .of_upToTemp hlast (fun a n hn => ?_) fun hquiet a n => ?_⟩
  · rcases hr' with hr' | hr'
    · rw [hr', hup a n hn]
    · rw [hr', hgone]
  · rcases hwhole with rfl | hwhole
    · rw [hremoved fun err herr => hquiet ⟨hf, hfree, err, hleft ▸ herr⟩]
      exact Or.inl (hgone a n)
    · rcases hr' with hr' | hr'
      · by_cases hat : a = agent ∧ n = tempName branch d.suffix
        · exact Or.inr ⟨hat.1, hat.2, by rw [hr', hat.1, hat.2, hwhole]⟩
        · exact Or.inl (by rw [hr', hup a n hat])
      · exact Or.inl (by rw [hr', hgone])

/-- The whole publication: what it passes on its way, and how it ends. -/
theorem publishLatestRef_spec (d : LatestDisk) (agent hex : Bytes)
    (hbranch : isValidStateRefComponent branch = true) :
    Through (Publishing d.refs agent branch (tempName branch d.suffix) hex) d
        (d.publishLatestRef agent branch hex).2 ∧
      Outcome d agent branch hex (d.publishLatestRef agent branch hex) := by
  have hne : tempName branch d.suffix ≠ branch := by
    intro heq
    rw [← heq, tempName_not_valid] at hbranch
    cases hbranch
  have start : Reached (Publishing d.refs agent branch (tempName branch d.suffix) hex) d d 0 :=
    ⟨.untouched fun _ _ => rfl, fun _ hl => Or.inl hl, fun _ _ hf => hf, rfl⟩
  have early : ∀ {k : Nat}, d.FailsAt k → k ≠ 10 → ¬d.LastFsyncFails agent branch :=
    fun hk hne hlast => hne (hk.unique hlast.1)
  unfold publishLatestRef
  rcases start.ensureChildDirDurable id start.now with
    ⟨err, d₁, m, h₁, t, hr, hf, hm⟩ | ⟨d₁, h₁, r₁, e₁⟩
  · simp only [h₁]
    refine ⟨t, .of_same (early hf (by omega)) fun a n => ?_⟩
    rcases hr with hr | hr
    · rw [hr]
    · rw [hr, id]
  simp only [h₁]
  rcases r₁.ensureChildDirDurable id r₁.now with
    ⟨err, d₂, m, h₂, t, hr, hf, hm⟩ | ⟨d₂, h₂, r₂, e₂⟩
  · simp only [h₂]
    refine ⟨t, .of_same (early hf (by omega)) fun a n => ?_⟩
    rcases hr with hr | hr
    · rw [hr, e₁, id]
    · rw [hr, id, e₁, id]
  simp only [h₂]
  have hsame : d₂.refs = d.refs := e₂.trans e₁
  have hmade : ∀ a n, (d₂.refs.mkdir agent).file a n = d.refs.file a n := by
    intro a n
    rw [file_mkdir, hsame]
  rcases r₂.ensureChildDirDurable (LatestRefs.mkdir agent) (.untouched hmade) with
    ⟨err, d₃, m, h₃, t, hr, hf, hm⟩ | ⟨d₃, h₃, r₃, e₃⟩
  · simp only [h₃]
    refine ⟨t, .of_same (early hf (by omega)) fun a n => ?_⟩
    rcases hr with hr | hr
    · rw [hr, hsame]
    · rw [hr, hmade]
  simp only [h₃]
  have hold : ∀ a n, d₃.refs.file a n = d.refs.file a n := by
    intro a n
    rw [e₃, hmade]
  rw [r₃.suffix]
  unfold createLatestRefTemp
  by_cases htaken : (d₃.refs.file agent (tempName branch d.suffix)).isSome = true
  · simp only [if_pos htaken]
    refine ⟨r₃.through, .of_same (fun hlast => ?_) hold⟩
    rw [hold, hlast.2] at htaken
    cases htaken
  simp only [if_neg htaken]
  have hfree : d.refs.file agent (tempName branch d.suffix) = none := by
    rw [hold] at htaken
    exact Option.not_isSome_iff_eq_none.1 htaken
  -- from here on the directory differs from the old one in the temporary file
  have hold₃ : UpToTemp d.refs d₃.refs agent (tempName branch d.suffix) := fun a n _ => hold a n
  rcases r₃.sysCall (fun l => l.write agent (tempName branch d.suffix) [])
      (.temp 0 (hold₃.file_write [])) with ⟨err, d₄, h₄, t, hr, hf, -⟩ | ⟨d₄, h₄, r₄, e₄⟩
  · simp only [h₄]
    refine ⟨t, .of_same (early hf (by omega)) fun a n => ?_⟩
    rw [hr, hold]
  simp only [h₄]
  have hold₄ : UpToTemp d.refs d₄.refs agent (tempName branch d.suffix) := by
    intro a n hn
    rw [e₄, hold₃.file_write, if_neg hn]
  rcases r₄.writeTemp hex (fun j => .temp j (hold₄.file_write (hex.take j))) with
    ⟨err, d₅, m, h₅, t, hr, hf, hm, hleft, hwhole⟩ | ⟨d₅, h₅, r₅, e₅⟩
  · simp only [h₅]
    have hold₅ : UpToTemp d.refs d₅.refs agent (tempName branch d.suffix) := by
      intro a n hn
      rw [hr a n hn, hold₄ a n hn]
    exact t.failed hold₅ hfree (early hf (by omega)) hf hleft hwhole
  simp only [h₅]
  have hfull : ∀ a n, d₅.refs.file a n =
      if a = agent ∧ n = tempName branch d.suffix then some hex else d.refs.file a n := by
    intro a n
    rw [e₅, hold₄.file_write]
  have hold₅ : UpToTemp d.refs d₅.refs agent (tempName branch d.suffix) := by
    intro a n hn
    rw [hfull, if_neg hn]
  have hrenamed := file_rename_of_written hfree hne hfull
  rcases r₅.sysCall (LatestRefs.rename agent (tempName branch d.suffix) branch)
      (.renamed hrenamed) with ⟨err, d₆, h₆, t, hr, hf, hleft⟩ | ⟨d₆, h₆, r₆, e₆⟩
  · simp only [h₆]
    refine t.failed (hr ▸ hold₅) hfree (early hf (by omega)) hf hleft (Or.inr ?_)
    rw [hr, hfull, if_pos ⟨rfl, rfl⟩]
  simp only [h₆]
  rcases r₆.sysCall id r₆.now with ⟨err, d₇, h₇, t, hr, hf, -⟩ | ⟨d₇, h₇, r₇, e₇⟩
  · rw [h₇]
    refine ⟨t, .unsynced ⟨hf, hfree⟩ fun a n => ?_⟩
    rw [hr, e₆, hrenamed]
  · rw [h₇]
    refine ⟨r₇.through, .published fun a n => ?_⟩
    rw [e₇, e₆, id, hrenamed]

end LatestDisk
end ContextFS
