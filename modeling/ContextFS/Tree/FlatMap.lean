import ContextFS.Lib.Runs
import ContextFS.Tree.WorkingTree

/-!
# A working tree as one plain map

To its user a working tree is a map from paths to live entries.  `FlatMap` is that map with the
operations a user has in mind; `Shows` connects a working tree to it.  Every operation keeps the
connection, whatever the base, the overlay, the source marks and the mode are, so any number of
trees that are cloned from each other and then edited show what their plain maps hold.
-/

namespace ContextFS

open Std Lib WorkingTree

/-- The live entries by path. -/
abbrev FlatMap := ExtTreeMap FsPath WorkingTreeEntry

namespace FlatMap

/-- Setting an entry; an entry that is itself a whiteout leaves nothing. -/
def set (m : FlatMap) (path : FsPath) (entry : WorkingTreeEntry) : FlatMap :=
  if entry.kind = .deleted then m.erase path else m.insert path entry

/-- Moving one entry. -/
def moveEntry (m : FlatMap) (oldPath newPath : FsPath) : FlatMap :=
  match m[oldPath]? with
  | none => m
  | some entry => (m.erase oldPath).insert newPath entry

/-- Where a path is after the subtree at `old` has been moved to `new`. -/
def relocate (old new path : FsPath) : FsPath :=
  if old <+: path then new ++ path.drop old.length else path

/-- Moving a whole subtree. -/
def moveSubtree (m : FlatMap) (old new : FsPath) : FlatMap :=
  ExtTreeMap.ofList (m.toList.map fun pe => (relocate old new pe.1, pe.2))

/-- The live entries of a base. -/
def ofBase (entries : EntryMap) : FlatMap := entries.filter fun _ e => e.kind ≠ .deleted

/-- The direct children of a directory, in order. -/
def listDir (m : FlatMap) (dirPath : FsPath) : List (FsPath × WorkingTreeEntry) :=
  m.toList.filter fun pe => pe.1.dropLast = dirPath

/-- The place a directory is moved to: nothing is at or under it, and neither path is inside the
other. -/
structure Vacant (m : FlatMap) (old new : FsPath) : Prop where
  not_into : ¬ old <+: new
  not_onto : ¬ new <+: old
  nothing : ∀ q, new <+: q → m[q]? = none

end FlatMap

/-- An operation on one working tree. -/
inductive TreeOp
  | insert (path : FsPath) (entry : WorkingTreeEntry)
  | insertSource (path : FsPath) (entry : WorkingTreeEntry)
  | remove (path : FsPath)
  | renameEntry (oldPath newPath : FsPath)
  | renameDir (oldPrefix newPrefix : FsPath)
  | setBase (entries : EntryMap)
  | foldIntoBase
  | beginSourceWalk

namespace TreeOp

/-- The operation on a working tree. -/
def run (wt : WorkingTree) : TreeOp → WorkingTree
  | .insert path entry => wt.insert path entry
  | .insertSource path entry => wt.insertSource path entry
  | .remove path => wt.remove path
  | .renameEntry oldPath newPath => wt.renameEntry oldPath newPath
  | .renameDir oldPrefix newPrefix => wt.renameDir oldPrefix newPrefix
  | .setBase entries => wt.setBase entries
  | .foldIntoBase => wt.foldIntoBase
  | .beginSourceWalk => wt.beginSourceWalk

/-- The operation on the plain map. -/
def flat (m : FlatMap) : TreeOp → FlatMap
  | .insert path entry | .insertSource path entry => m.set path entry
  | .remove path => m.erase path
  | .renameEntry oldPath newPath => m.moveEntry oldPath newPath
  | .renameDir oldPrefix newPrefix => m.moveSubtree oldPrefix newPrefix
  | .setBase entries => .ofBase entries
  | .foldIntoBase | .beginSourceWalk => m

/-- The renames a user asks for: of a live path, and of a directory to a vacant place. -/
def Sensible (m : FlatMap) : TreeOp → Prop
  | .renameEntry oldPath _ => m[oldPath]? ≠ none
  | .renameDir oldPrefix newPrefix =>
      (∃ e, m[oldPrefix]? = some e ∧ e.kind = .tree) ∧ m.Vacant oldPrefix newPrefix
  | _ => True

end TreeOp

/-- The live view of the tree is the map. -/
def WorkingTree.Shows (wt : WorkingTree) (m : FlatMap) : Prop := ∀ p, wt.lookup p = m[p]?

/-! ## One operation -/

namespace WorkingTree

variable {wt : WorkingTree} {m : FlatMap}

theorem Shows.set (h : wt.Shows m) (p : FsPath) (e : WorkingTreeEntry) :
    (wt.insert p e).Shows (m.set p e) := by
  intro q
  unfold FlatMap.set
  by_cases he : e.kind = .deleted
  · have hraw := lookupRaw_insert wt p q e
    rw [if_pos he]
    unfold WorkingTree.lookup
    rw [hraw, ExtTreeMap.getElem?_erase]
    by_cases hpq : p = q
    · simp [hpq, he]
    · simpa [hpq, WorkingTree.lookup] using h q
  · rw [if_neg he, lookup_insert wt p q e he, ExtTreeMap.getElem?_insert]
    by_cases hpq : p = q
    · simp [hpq]
    · simpa [hpq] using h q

theorem Shows.erase (h : wt.Shows m) (p : FsPath) : (wt.remove p).Shows (m.erase p) := by
  intro q
  rw [lookup_remove, ExtTreeMap.getElem?_erase]
  by_cases hpq : p = q
  · simp [hpq]
  · simpa [hpq] using h q

theorem Shows.moveEntry (h : wt.Shows m) {old : FsPath} (new : FsPath) (hold : m[old]? ≠ none) :
    (wt.renameEntry old new).Shows (m.moveEntry old new) := by
  intro q
  obtain ⟨e, he⟩ := Option.ne_none_iff_exists'.1 hold
  have hlive := (h old).trans he
  have hraw := (lookup_eq_some.1 hlive).1
  simp only [lookup_renameEntry, hraw, hlive, FlatMap.moveEntry, he, ExtTreeMap.getElem?_insert,
    ExtTreeMap.getElem?_erase, Std.compare_eq_iff_eq]
  rw [h q]

theorem Shows.ofBase (wt : WorkingTree) (entries : EntryMap) :
    (wt.setBase entries).Shows (.ofBase entries) := by
  intro q
  unfold WorkingTree.lookup FlatMap.ofBase
  rw [lookupRaw_setBase, ExtTreeMap.getElem?_filter']
  cases hq : entries[q]? with
  | none => rfl
  | some e =>
      by_cases he : e.kind = .deleted
      · simp [Option.filter, he]
      · simp [Option.filter, he]

end WorkingTree

namespace FlatMap

variable {m : FlatMap} {old new : FsPath}

theorem relocate_of_below {p : FsPath} (h : old <+: p) :
    relocate old new p = new ++ p.drop old.length := if_pos h

theorem relocate_of_outside {p : FsPath} (h : ¬ old <+: p) : relocate old new p = p := if_neg h

/-- Nothing lands on anything else when the destination is vacant. -/
theorem relocate_inj (hv : m.Vacant old new) {p q : FsPath} (hp : m[p]? ≠ none)
    (hq : m[q]? ≠ none) (h : relocate old new p = relocate old new q) : p = q := by
  by_cases hop : old <+: p <;> by_cases hoq : old <+: q
  · rw [relocate_of_below hop, relocate_of_below hoq] at h
    calc p = old ++ p.drop old.length := List.prefix_append_drop hop
      _ = old ++ q.drop old.length := by rw [List.append_cancel_left h]
      _ = q := (List.prefix_append_drop hoq).symm
  · rw [relocate_of_below hop, relocate_of_outside hoq] at h
    exact absurd (hv.nothing q (h ▸ List.prefix_append _ _)) hq
  · rw [relocate_of_outside hop, relocate_of_below hoq] at h
    exact absurd (hv.nothing p (h ▸ List.prefix_append _ _)) hp
  · rwa [relocate_of_outside hop, relocate_of_outside hoq] at h

/-- The map after a move holds exactly the relocated entries. -/
theorem getElem?_moveSubtree (hv : m.Vacant old new) {q : FsPath} {e : WorkingTreeEntry} :
    (m.moveSubtree old new)[q]? = some e ↔ ∃ p, m[p]? = some e ∧ relocate old new p = q := by
  have hdistinct : (m.toList.map fun pe => (relocate old new pe.1, pe.2)).Pairwise
      fun a b => ¬ compare a.1 b.1 = .eq := by
    rw [List.pairwise_map]
    refine (Lib.sortedKeys_toList m).imp_of_mem ?_
    rintro ⟨p, e⟩ ⟨p', e'⟩ hp hp' hlt heq
    have hpe := ExtTreeMap.mem_toList_iff_getElem?_eq_some.1 hp
    have hpe' := ExtTreeMap.mem_toList_iff_getElem?_eq_some.1 hp'
    have hsame : p = p' :=
      relocate_inj hv (by simp [hpe]) (by simp [hpe']) (LawfulEqCmp.eq_of_compare heq)
    simp [hsame] at hlt
  have hsome : ∀ p e, m[p]? = some e → (m.moveSubtree old new)[relocate old new p]? = some e := by
    intro p e hp
    refine ExtTreeMap.getElem?_ofList_of_mem ReflCmp.compare_self hdistinct ?_
    exact List.mem_map.2 ⟨(p, e), ExtTreeMap.mem_toList_iff_getElem?_eq_some.2 hp, rfl⟩
  constructor
  · intro hq
    by_cases hex : ∃ p e', m[p]? = some e' ∧ relocate old new p = q
    · obtain ⟨p, e', hp, rfl⟩ := hex
      rw [hsome p e' hp, Option.some.injEq] at hq
      exact ⟨p, hq ▸ hp, rfl⟩
    · -- a path nothing is relocated to is not in the map
      have hnone : (m.moveSubtree old new)[q]? = none := by
        refine ExtTreeMap.getElem?_ofList_of_contains_eq_false ?_
        rw [← Bool.not_eq_true, List.contains_iff_mem]
        intro hmem
        rw [List.map_map] at hmem
        obtain ⟨⟨p, e'⟩, hp, heq⟩ := List.mem_map.1 hmem
        exact hex ⟨p, e', ExtTreeMap.mem_toList_iff_getElem?_eq_some.1 hp, heq⟩
      rw [hnone] at hq
      cases hq
  · rintro ⟨p, hp, rfl⟩
    exact hsome p e hp

end FlatMap

namespace WorkingTree

variable {wt : WorkingTree} {m : FlatMap}

theorem Shows.moveSubtree (h : wt.Shows m) {old new : FsPath} (hv : m.Vacant old new) :
    (wt.renameDir old new).Shows (m.moveSubtree old new) := by
  intro q
  have hlookup := lookup_renameDir hv.not_into hv.not_onto wt q
  refine Option.ext fun e => ?_
  show (wt.renameDir old new).lookup q = some e ↔ _
  rw [FlatMap.getElem?_moveSubtree hv, hlookup]
  by_cases hold : old <+: q
  · -- the old subtree is empty, and nothing is relocated into it
    rw [if_pos hold]
    refine ⟨(fun he => (by cases he)), ?_⟩
    rintro ⟨p, hp, rfl⟩
    by_cases hop : old <+: p
    · rw [FlatMap.relocate_of_below hop] at hold
      exact (not_both_below hv.not_into hv.not_onto hold (List.prefix_append _ _)).elim
    · rw [FlatMap.relocate_of_outside hop] at hold
      exact absurd hold hop
  · rw [if_neg hold]
    by_cases hnew : new <+: q
    · -- below the new prefix only relocated entries are live
      have hvacant : wt.lookup q = none := (h q).trans (hv.nothing q hnew)
      obtain ⟨rest, rfl⟩ := hnew
      rw [List.drop_left]
      have hmoved : (∃ p, m[p]? = some e ∧ FlatMap.relocate old new p = new ++ rest) ↔
          wt.lookup (old ++ rest) = some e := by
        rw [h (old ++ rest)]
        constructor
        · rintro ⟨p, hp, heq⟩
          by_cases hop : old <+: p
          · rw [FlatMap.relocate_of_below hop] at heq
            rwa [← List.append_cancel_left heq, ← List.prefix_append_drop hop]
          · rw [FlatMap.relocate_of_outside hop] at heq
            rw [heq, hv.nothing _ (List.prefix_append _ _)] at hp
            cases hp
        · intro hp
          refine ⟨old ++ rest, hp, ?_⟩
          rw [FlatMap.relocate_of_below (List.prefix_append _ _), List.drop_left]
      rw [hmoved]
      by_cases hraw : wt.lookupRaw (old ++ rest) = none
      · have hnone : wt.lookup (old ++ rest) = none := by
          unfold WorkingTree.lookup
          rw [hraw]
        rw [if_neg (by simp [hraw]), hvacant, hnone]
      · rw [if_pos ⟨List.prefix_append _ _, hraw⟩]
    · rw [if_neg fun hboth => hnew hboth.1, h q]
      constructor
      · exact fun hq => ⟨q, hq, FlatMap.relocate_of_outside hold⟩
      · rintro ⟨p, hp, heq⟩
        by_cases hop : old <+: p
        · rw [FlatMap.relocate_of_below hop] at heq
          exact absurd (heq ▸ List.prefix_append _ _) hnew
        · rw [FlatMap.relocate_of_outside hop] at heq
          rwa [← heq]

/-- Every operation on the tree is the operation on the map. -/
theorem Shows.step (h : wt.Shows m) {op : TreeOp} (hop : op.Sensible m) :
    (op.run wt).Shows (op.flat m) := by
  cases op with
  | insert path entry => exact h.set path entry
  | insertSource path entry =>
      intro q
      exact (lookup_congr (lookupRaw_insertSource wt path q entry)).trans (h.set path entry q)
  | remove path => exact h.erase path
  | renameEntry oldPath newPath => exact h.moveEntry newPath hop
  | renameDir oldPrefix newPrefix => exact h.moveSubtree hop.2
  | setBase entries => exact .ofBase wt entries
  | foldIntoBase => exact fun q => (lookup_congr (lookupRaw_foldIntoBase wt q)).trans (h q)
  | beginSourceWalk => exact fun q => (lookup_congr (lookupRaw_beginSourceWalk wt q)).trans (h q)

/-! ## What can be asked of a tree -/

theorem sortedKeys_liveEntries (wt : WorkingTree) : SortedKeys wt.liveEntries :=
  (sortedKeys_entries wt).filter _

/-- The iteration visits the map in order. -/
theorem Shows.liveEntries_eq (h : wt.Shows m) : wt.liveEntries = m.toList := by
  refine (sortedKeys_liveEntries wt).eq_of_mem_iff (Lib.sortedKeys_toList m) ?_
  rintro ⟨p, e⟩
  rw [mem_liveEntries, mem_toList_iff, h p]

theorem Shows.size_eq (h : wt.Shows m) : wt.size = m.size := by
  rw [WorkingTree.size, h.liveEntries_eq, ExtTreeMap.length_toList]

theorem sortedKeys_listDir (wt : WorkingTree) (dir : FsPath) : SortedKeys (wt.listDir dir) :=
  (Lib.sortedKeys_mergeSorted ((Lib.sortedKeys_toList _).filter _)
    ((Lib.sortedKeys_toList _).filter _)).filter _

/-- The listing of a directory is the listing of the map. -/
theorem Shows.listDir_eq (h : wt.Shows m) (dir : FsPath) : wt.listDir dir = m.listDir dir := by
  refine (sortedKeys_listDir wt dir).eq_of_mem_iff ((Lib.sortedKeys_toList m).filter _) ?_
  rintro ⟨p, e⟩
  rw [mem_listDir, h p, FlatMap.listDir, List.mem_filter, mem_toList_iff]
  simp

end WorkingTree

/-! ## Any number of trees -/

/-- Working trees by name, each with the map it is meant to show. -/
structure Grove where
  trees : Nat → WorkingTree
  maps : Nat → FlatMap

/-- Something that happens in a grove. -/
inductive GroveEvent
  | op (i : Nat) (op : TreeOp)
  | clone (i j : Nat)

namespace Grove

/-- Only empty trees. -/
def Empty (g : Grove) : Prop := g = ⟨fun _ => {}, fun _ => ∅⟩

/-- One tree is edited, or replaced by a clone of another one; the maps follow, each on its
own. -/
inductive Step (g : Grove) : GroveEvent → Grove → Prop
  | op (i : Nat) (op : TreeOp) (hop : op.Sensible (g.maps i)) :
      Step g (.op i op) ⟨Function.update g.trees i (op.run (g.trees i)),
        Function.update g.maps i (op.flat (g.maps i))⟩
  | clone (i j : Nat) :
      Step g (.clone i j) ⟨Function.update g.trees j (g.trees i).clone,
        Function.update g.maps j (g.maps i)⟩

/-- In every grove that arises from empty trees, whatever is asked of a tree is answered as its
plain map answers it. -/
theorem tree_refines_flatMap {g : Grove} (h : Reaches Empty Step g) (i : Nat) :
    (∀ p, (g.trees i).lookup p = (g.maps i)[p]?) ∧
      (∀ dir, (g.trees i).listDir dir = (g.maps i).listDir dir) ∧
      (g.trees i).liveEntries = (g.maps i).toList ∧ (g.trees i).size = (g.maps i).size := by
  have hshows : ∀ j, (g.trees j).Shows (g.maps j) := by
    refine Reaches.invariant (I := fun g => ∀ j, (g.trees j).Shows (g.maps j)) ?_ ?_ h
    · rintro g rfl j q
      simp [WorkingTree.lookup]
    · rintro g ev g' hg hstep k
      cases hstep with
      | op i op hop =>
          by_cases hk : k = i
          · subst hk
            simpa using (hg k).step hop
          · simpa [Function.update_of_ne hk] using hg k
      | clone i j =>
          by_cases hk : k = j
          · subst hk
            simpa using hg i
          · simpa [Function.update_of_ne hk] using hg k
  exact ⟨hshows i, (hshows i).listDir_eq, (hshows i).liveEntries_eq, (hshows i).size_eq⟩

/-- A directory inserted in one tree, cloned into a second one and then removed from the first. -/
def cloned : Grove :=
  let dir : FsPath := [[100]]
  let entry : WorkingTreeEntry := ⟨.tree, zeroHash, 0o40755⟩
  let t := Function.update (fun _ => ({} : WorkingTree)) 0 (({} : WorkingTree).insert dir entry)
  let m := Function.update (fun _ => (∅ : FlatMap)) 0 ((∅ : FlatMap).set dir entry)
  let t := Function.update t 1 (t 0).clone
  let m := Function.update m 1 (m 0)
  ⟨Function.update t 0 ((t 0).remove dir), Function.update m 0 ((m 0).erase dir)⟩

theorem tree_refines_flatMap_cloned :
    (cloned.trees 0).size = 0 ∧ (cloned.trees 1).size = 1 ∧
      (cloned.trees 1).liveEntries = (cloned.maps 1).toList := by
  have hreach : Reaches Empty Step cloned :=
    .step (.step (.step (.start rfl) (.op 0 (.insert [[100]] ⟨.tree, zeroHash, 0o40755⟩) trivial))
      (.clone 0 1)) (.op 0 (.remove [[100]]) trivial)
  refine ⟨?_, ?_, (tree_refines_flatMap hreach 1).2.2.1⟩
  · rw [(tree_refines_flatMap hreach 0).2.2.2]
    decide +kernel
  · rw [(tree_refines_flatMap hreach 1).2.2.2]
    decide +kernel

end Grove
end ContextFS
