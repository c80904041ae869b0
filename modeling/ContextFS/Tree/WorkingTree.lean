import ContextFS.Store.Hash
import ContextFS.Lib.SortedMerge

/-!
# The two-level working tree

A path is the list of its components below the root, so `"/a/b"` is `[a, b]` and `"/"` is
`[]`.  `WorkingTree` overlays a private `delta` on a shared immutable `base`; an entry of
kind `deleted` in either level is a whiteout.  The raw view of a tree is what a lookup finds,
whiteouts included, and the live view leaves them out.
-/

namespace ContextFS

open Std

/-- One path component. -/
abbrev Name := Bytes

/-- An absolute path, as the list of its components. -/
abbrev FsPath := List Name

instance : TransOrd FsPath := inferInstanceAs (TransOrd (List (List UInt8)))

/-- `EntryKind`, a byte; a tree object can hold a byte that is none of the four kinds. -/
inductive EntryKind
  | blob
  | tree
  | symlink
  | deleted
  | unknown (code : Fin 252)
deriving DecidableEq

namespace EntryKind

def toByte : EntryKind → UInt8
  | .blob => 0
  | .tree => 1
  | .symlink => 2
  | .deleted => 3
  | .unknown code => UInt8.ofNat (code.val + 4)

def ofByte (b : UInt8) : EntryKind :=
  if b.toNat = 0 then .blob
  else if b.toNat = 1 then .tree
  else if b.toNat = 2 then .symlink
  else if b.toNat = 3 then .deleted
  else .unknown (Fin.ofNat 252 (b.toNat - 4))

@[simp] theorem ofByte_toByte (k : EntryKind) : ofByte k.toByte = k := by
  cases k with
  | blob => rfl
  | tree => rfl
  | symlink => rfl
  | deleted => rfl
  | unknown code =>
      have hlt := code.isLt
      have hnat : (UInt8.ofNat (code.val + 4)).toNat = code.val + 4 :=
        UInt8.toNat_ofNat_of_lt' (by simp only [UInt8.size]; omega)
      simp only [toByte, ofByte, hnat]
      rw [if_neg (by omega), if_neg (by omega), if_neg (by omega), if_neg (by omega)]
      congr 1
      apply Fin.ext
      simp [Fin.ofNat, Nat.mod_eq_of_lt hlt]

end EntryKind

/-- `WorkingTreeEntry`. -/
structure WorkingTreeEntry where
  kind : EntryKind
  hash : Hash
  mode : UInt32
deriving DecidableEq

/-- The whiteout `remove_locked` stores. -/
def whiteout : WorkingTreeEntry := ⟨.deleted, zeroHash, 0⟩

/-- `std::map<std::string, WorkingTreeEntry>`. -/
abbrev EntryMap := ExtTreeMap FsPath WorkingTreeEntry

structure WorkingTree where
  base : Option EntryMap := none
  delta : EntryMap := ∅
  sourceOriginPaths : ExtTreeSet FsPath := ∅
  baseAuthoritative : Bool := false

/-- The path as the source spells it. -/
def pathString (path : FsPath) : Bytes := path.flatMap fun name => 47 :: name

namespace WorkingTree

/-- The base map, empty when there is none. -/
def baseMap (wt : WorkingTree) : EntryMap := wt.base.getD ∅

/-- `lookup_raw_locked`: the overlay first. -/
def lookupRaw (wt : WorkingTree) (path : FsPath) : Option WorkingTreeEntry :=
  match wt.delta[path]? with
  | some e => some e
  | none => wt.baseMap[path]?

/-- `lookup`: whiteouts are misses. -/
def lookup (wt : WorkingTree) (path : FsPath) : Option WorkingTreeEntry :=
  match wt.lookupRaw path with
  | none => none
  | some e => if e.kind = .deleted then none else some e

def insert (wt : WorkingTree) (path : FsPath) (entry : WorkingTreeEntry) : WorkingTree :=
  { wt with delta := wt.delta.insert path entry }

/-- `insert_source`: once the base is authoritative the path is marked as still present in
the source directory. -/
def insertSource (wt : WorkingTree) (path : FsPath) (entry : WorkingTreeEntry) : WorkingTree :=
  { wt with
    delta := wt.delta.insert path entry
    sourceOriginPaths :=
      if wt.baseAuthoritative then wt.sourceOriginPaths.insert path else wt.sourceOriginPaths }

/-- `in_base` of `remove_locked`. -/
def inBase (wt : WorkingTree) (path : FsPath) : Bool :=
  match wt.baseMap[path]? with
  | none => false
  | some e => e.kind ≠ .deleted

/-- `remove_locked`: with an authoritative base, a path absent from the base and from the
source needs no whiteout. -/
def remove (wt : WorkingTree) (path : FsPath) : WorkingTree :=
  if wt.baseAuthoritative && !wt.inBase path && !wt.sourceOriginPaths.contains path then
    { wt with delta := wt.delta.erase path }
  else
    { wt with delta := wt.delta.insert path whiteout }

/-- `rename_entry`. -/
def renameEntry (wt : WorkingTree) (oldPath newPath : FsPath) : WorkingTree :=
  match wt.lookupRaw oldPath with
  | none => wt
  | some entry =>
      let wt := wt.remove oldPath
      if entry.kind = .deleted then wt.remove newPath else wt.insert newPath entry

/-- `for_each_including_deleted`: what the merged iteration visits, in order. -/
def entries (wt : WorkingTree) : List (FsPath × WorkingTreeEntry) :=
  Lib.mergeSorted wt.baseMap.toList wt.delta.toList

/-- `for_each`. -/
def liveEntries (wt : WorkingTree) : List (FsPath × WorkingTreeEntry) :=
  wt.entries.filter fun pe => pe.2.kind ≠ .deleted

def size (wt : WorkingTree) : Nat := wt.liveEntries.length

/-- One step of `rename_dir`: the collected entry leaves `path` for its place below the new
prefix, a whiteout through `remove_locked` as in `rename_entry`. -/
def moveEntry (oldPrefix newPrefix : FsPath) (wt : WorkingTree)
    (pe : FsPath × WorkingTreeEntry) : WorkingTree :=
  let wt := wt.remove pe.1
  let newPath := newPrefix ++ pe.1.drop oldPrefix.length
  if pe.2.kind = .deleted then wt.remove newPath else wt.insert newPath pe.2

/-- `rename_dir`: everything at or below the old prefix is collected first and then moved in
the order of the path strings. -/
def renameDir (wt : WorkingTree) (oldPrefix newPrefix : FsPath) : WorkingTree :=
  let toMove := (wt.entries.filter fun pe => oldPrefix <+: pe.1).insertionSort
    fun a b => compare (pathString a.1) (pathString b.1) ≠ .gt
  toMove.foldl (moveEntry oldPrefix newPrefix) wt

/-- `list_dir`: the live direct children, merged from the two levels in order. -/
def listDir (wt : WorkingTree) (dirPath : FsPath) : List (FsPath × WorkingTreeEntry) :=
  let inPrefix := fun (pe : FsPath × WorkingTreeEntry) => decide (dirPath <+: pe.1)
  (Lib.mergeSorted (wt.baseMap.toList.filter inPrefix) (wt.delta.toList.filter inPrefix)).filter
    fun pe => pe.2.kind ≠ .deleted ∧ pe.1.dropLast = dirPath

/-- `clone`: the base is shared, the rest copied. -/
def clone (wt : WorkingTree) : WorkingTree :=
  { base := wt.base
    delta := wt.delta
    sourceOriginPaths := wt.sourceOriginPaths
    baseAuthoritative := wt.baseAuthoritative }

/-- `set_base`. -/
def setBase (_ : WorkingTree) (entries : EntryMap) : WorkingTree :=
  { base := some entries, delta := ∅, sourceOriginPaths := ∅, baseAuthoritative := true }

/-- `fold_into_base`. -/
def foldIntoBase (wt : WorkingTree) : WorkingTree :=
  { base :=
      if wt.baseMap.isEmpty then some wt.delta
      else some (wt.delta.toList.foldl (fun merged kv => merged.insert kv.1 kv.2) wt.baseMap)
    delta := ∅
    sourceOriginPaths := ∅
    baseAuthoritative := true }

/-- `begin_source_walk`. -/
def beginSourceWalk (wt : WorkingTree) : WorkingTree := { wt with baseAuthoritative := false }

/-! ## What a lookup finds after each operation -/

@[simp] theorem lookupRaw_empty (path : FsPath) : lookupRaw {} path = none := by
  simp [lookupRaw, baseMap]

theorem lookup_eq_some {wt : WorkingTree} {path : FsPath} {e : WorkingTreeEntry} :
    wt.lookup path = some e ↔ wt.lookupRaw path = some e ∧ e.kind ≠ .deleted := by
  unfold lookup
  cases wt.lookupRaw path with
  | none => simp
  | some x =>
      by_cases hx : x.kind = .deleted
      · simp only [hx, if_true]
        constructor
        · intro h
          cases h
        · rintro ⟨h, hne⟩
          cases h
          exact absurd hx hne
      · simp only [hx, if_false]
        constructor
        · intro h
          cases h
          exact ⟨rfl, hx⟩
        · exact fun h => h.1

/-- The live view is a function of the raw one. -/
theorem lookup_congr {wt wt' : WorkingTree} {path path' : FsPath}
    (h : wt.lookupRaw path = wt'.lookupRaw path') : wt.lookup path = wt'.lookup path' := by
  unfold lookup
  rw [h]

@[simp] theorem baseMap_insert (wt : WorkingTree) (p : FsPath) (e : WorkingTreeEntry) :
    (wt.insert p e).baseMap = wt.baseMap := rfl

theorem lookupRaw_insert (wt : WorkingTree) (p q : FsPath) (e : WorkingTreeEntry) :
    (wt.insert p e).lookupRaw q = if p = q then some e else wt.lookupRaw q := by
  by_cases hpq : p = q
  · subst hpq
    simp [lookupRaw, insert]
  · simp [lookupRaw, insert, baseMap, ExtTreeMap.getElem?_insert, hpq]

theorem lookup_insert (wt : WorkingTree) (p q : FsPath) (e : WorkingTreeEntry)
    (he : e.kind ≠ .deleted) :
    (wt.insert p e).lookup q = if p = q then some e else wt.lookup q := by
  unfold lookup
  rw [lookupRaw_insert]
  by_cases hpq : p = q
  · simp [hpq, he]
  · simp [hpq]

@[simp] theorem lookupRaw_insertSource (wt : WorkingTree) (p q : FsPath)
    (e : WorkingTreeEntry) :
    (wt.insertSource p e).lookupRaw q = (wt.insert p e).lookupRaw q := rfl

theorem lookupRaw_remove_of_ne (wt : WorkingTree) {p q : FsPath} (h : p ≠ q) :
    (wt.remove p).lookupRaw q = wt.lookupRaw q := by
  unfold remove
  split
  · simp [lookupRaw, baseMap, ExtTreeMap.getElem?_erase, h]
  · simp [lookupRaw, baseMap, ExtTreeMap.getElem?_insert, h]

/-- Where hygiene drops the overlay entry the base has at most a whiteout there. -/
theorem lookupRaw_remove_self (wt : WorkingTree) (p : FsPath) :
    (wt.remove p).lookupRaw p = none ∨
      ∃ e, (wt.remove p).lookupRaw p = some e ∧ e.kind = .deleted := by
  unfold remove
  split
  · rename_i hyg
    have hbase : wt.inBase p = false := by
      cases hb : wt.inBase p
      · rfl
      · simp [hb] at hyg
    unfold inBase at hbase
    cases hb : wt.baseMap[p]? with
    | none =>
        left
        simp [lookupRaw, baseMap] at hb ⊢
        exact hb
    | some e =>
        right
        rw [hb] at hbase
        refine ⟨e, ?_, by simpa using hbase⟩
        simp [lookupRaw, baseMap] at hb ⊢
        exact hb
  · exact Or.inr ⟨whiteout, by simp [lookupRaw], rfl⟩

@[simp] theorem lookup_remove_self (wt : WorkingTree) (p : FsPath) :
    (wt.remove p).lookup p = none := by
  unfold lookup
  rcases lookupRaw_remove_self wt p with h | ⟨e, h, hk⟩
  · rw [h]
  · simp [h, hk]

theorem lookup_remove (wt : WorkingTree) (p q : FsPath) :
    (wt.remove p).lookup q = if p = q then none else wt.lookup q := by
  by_cases hpq : p = q
  · subst hpq
    simp
  · rw [if_neg hpq]
    exact lookup_congr (lookupRaw_remove_of_ne wt hpq)

theorem lookup_renameEntry (wt : WorkingTree) (old new q : FsPath) :
    (wt.renameEntry old new).lookup q =
      match wt.lookupRaw old with
      | none => wt.lookup q
      | some _ =>
          if new = q then wt.lookup old else if old = q then none else wt.lookup q := by
  unfold renameEntry
  cases hraw : wt.lookupRaw old with
  | none => rfl
  | some e =>
      by_cases hk : e.kind = .deleted
      · have hold : wt.lookup old = none := by
          unfold lookup
          simp [hraw, hk]
        simp only [hk, if_true, lookup_remove, hold]
      · have hold : wt.lookup old = some e := lookup_eq_some.2 ⟨hraw, hk⟩
        simp only [hk, if_false, lookup_insert _ _ _ _ hk, lookup_remove, hold]

@[simp] theorem clone_eq (wt : WorkingTree) : wt.clone = wt := rfl

@[simp] theorem lookupRaw_setBase (wt : WorkingTree) (m : EntryMap) (p : FsPath) :
    (wt.setBase m).lookupRaw p = m[p]? := by
  simp [lookupRaw, setBase, baseMap]

@[simp] theorem lookupRaw_beginSourceWalk (wt : WorkingTree) (p : FsPath) :
    wt.beginSourceWalk.lookupRaw p = wt.lookupRaw p := rfl

/-! ## The merged iteration -/

theorem mem_toList_iff {m : EntryMap} {p : FsPath} {e : WorkingTreeEntry} :
    (p, e) ∈ m.toList ↔ m[p]? = some e :=
  ExtTreeMap.mem_toList_iff_getElem?_eq_some

theorem sortedKeys_entries (wt : WorkingTree) : Lib.SortedKeys wt.entries :=
  Lib.sortedKeys_mergeSorted (Lib.sortedKeys_toList _) (Lib.sortedKeys_toList _)

/-- The iteration visits exactly the raw view. -/
theorem mem_entries {wt : WorkingTree} {p : FsPath} {e : WorkingTreeEntry} :
    (p, e) ∈ wt.entries ↔ wt.lookupRaw p = some e := by
  unfold entries
  rw [Lib.mem_mergeSorted (Lib.sortedKeys_toList _) (Lib.sortedKeys_toList _), mem_toList_iff,
    mem_toList_iff]
  unfold lookupRaw
  cases hd : wt.delta[p]? with
  | some d =>
      constructor
      · rintro (h | ⟨-, hall⟩)
        · exact h
        · exact absurd rfl (hall (p, d) (mem_toList_iff.2 hd))
      · exact fun h => Or.inl h
  | none =>
      constructor
      · rintro (h | ⟨h, -⟩)
        · cases h
        · exact h
      · refine fun h => Or.inr ⟨h, ?_⟩
        rintro ⟨q, d⟩ hq rfl
        rw [mem_toList_iff.1 hq] at hd
        cases hd

theorem mem_liveEntries {wt : WorkingTree} {p : FsPath} {e : WorkingTreeEntry} :
    (p, e) ∈ wt.liveEntries ↔ wt.lookup p = some e := by
  rw [lookup_eq_some, liveEntries, List.mem_filter, mem_entries]
  simp

/-- The paths of the raw view, in increasing order. -/
theorem nodup_entries (wt : WorkingTree) : (wt.entries.map Prod.fst).Nodup := by
  rw [List.nodup_map_iff_inj_on]
  · rintro ⟨p, e⟩ hp ⟨q, f⟩ hq rfl
    exact Prod.ext rfl ((sortedKeys_entries wt).value_unique hp hq)
  · refine (sortedKeys_entries wt).imp ?_
    rintro a b hlt rfl
    simp at hlt

theorem mem_listDir {wt : WorkingTree} {dir p : FsPath} {e : WorkingTreeEntry} :
    (p, e) ∈ wt.listDir dir ↔ wt.lookup p = some e ∧ p.dropLast = dir := by
  have hsub : ∀ m : EntryMap, Lib.SortedKeys
      (m.toList.filter fun pe => decide (dir <+: pe.1)) :=
    fun m => (Lib.sortedKeys_toList m).filter _
  have hprefix : p.dropLast = dir → dir <+: p := by
    rintro rfl
    exact List.dropLast_prefix p
  unfold listDir
  rw [List.mem_filter, Lib.mem_mergeSorted (hsub _) (hsub _), lookup_eq_some,
    ← mem_entries, entries,
    Lib.mem_mergeSorted (Lib.sortedKeys_toList _) (Lib.sortedKeys_toList _)]
  simp only [List.mem_filter, decide_eq_true_eq]
  constructor
  · rintro ⟨hmem, hk, hdir⟩
    refine ⟨⟨?_, hk⟩, hdir⟩
    rcases hmem with ⟨h, -⟩ | ⟨⟨h, hp⟩, hall⟩
    · exact Or.inl h
    · refine Or.inr ⟨h, fun d hd hdp => ?_⟩
      exact hall d ⟨hd, hdp ▸ hp⟩ hdp
  · rintro ⟨⟨hmem, hk⟩, hdir⟩
    refine ⟨?_, hk, hdir⟩
    rcases hmem with h | ⟨h, hall⟩
    · exact Or.inl ⟨h, hprefix hdir⟩
    · exact Or.inr ⟨⟨h, hprefix hdir⟩, fun d hd => hall d hd.1⟩

/-! ## Folding and moving -/

theorem getElem?_foldl_insert (l : List (FsPath × WorkingTreeEntry)) (m : EntryMap) (p : FsPath)
    (hl : Lib.SortedKeys l) :
    (l.foldl (fun merged kv => merged.insert kv.1 kv.2) m)[p]? =
      match l.find? fun kv => kv.1 = p with
      | some kv => some kv.2
      | none => m[p]? := by
  induction l generalizing m with
  | nil => rfl
  | cons a l ih =>
      rw [List.foldl_cons, ih _ (List.pairwise_cons.1 hl).2]
      by_cases hap : a.1 = p
      · have hnone : l.find? (fun kv => kv.1 = p) = none := by
          rw [List.find?_eq_none]
          intro x hx
          simpa [← hap] using (hl.fst_ne_of_mem hx).symm
        simp [hap, hnone]
      · simp [hap, ExtTreeMap.getElem?_insert]

@[simp] theorem lookupRaw_foldIntoBase (wt : WorkingTree) (p : FsPath) :
    wt.foldIntoBase.lookupRaw p = wt.lookupRaw p := by
  unfold foldIntoBase
  by_cases hempty : wt.baseMap.isEmpty
  · have hbase : wt.baseMap = ∅ := ExtTreeMap.isEmpty_iff.1 hempty
    simp only [hempty, if_true, lookupRaw]
    simp only [baseMap, Option.getD_some, ExtTreeMap.getElem?_empty] at hbase ⊢
    rw [hbase]
    cases wt.delta[p]? <;> simp
  · simp only [hempty, lookupRaw]
    simp only [baseMap, Bool.false_eq_true, if_false, Option.getD_some,
      ExtTreeMap.getElem?_empty]
    rw [getElem?_foldl_insert _ _ _ (Lib.sortedKeys_toList _)]
    cases hf : wt.delta.toList.find? fun kv => kv.1 = p with
    | some kv =>
        obtain ⟨k, v⟩ := kv
        have hk : k = p := by simpa using List.find?_some hf
        subst hk
        have hmem := mem_toList_iff.1 (List.mem_of_find?_eq_some hf)
        rw [hmem]
    | none =>
        have hd : wt.delta[p]? = none := by
          cases hd : wt.delta[p]? with
          | none => rfl
          | some v =>
              have := List.find?_eq_none.1 hf _ (mem_toList_iff.2 hd)
              simp at this
        rw [hd]

theorem not_both_below {old new q : FsPath} (hon : ¬ old <+: new) (hno : ¬ new <+: old)
    (ho : old <+: q) (hn : new <+: q) : False := by
  rcases List.prefix_or_prefix_of_prefix ho hn with h | h
  · exact hon h
  · exact hno h

theorem lookup_moveEntry (wt : WorkingTree) (old new q : FsPath)
    (pe : FsPath × WorkingTreeEntry) :
    (moveEntry old new wt pe).lookup q =
      if new ++ pe.1.drop old.length = q then
        (if pe.2.kind = .deleted then none else some pe.2)
      else if pe.1 = q then none else wt.lookup q := by
  unfold moveEntry
  by_cases hk : pe.2.kind = .deleted
  · simp only [hk, if_true, lookup_remove]
  · simp only [hk, if_false, lookup_insert _ _ _ _ hk, lookup_remove]

/-- Every live entry after a rename, of whatever directory to wherever, was a live entry
before. -/
theorem exists_lookup_of_lookup_renameDir {wt : WorkingTree} {old new q : FsPath}
    {e : WorkingTreeEntry} (h : (wt.renameDir old new).lookup q = some e) :
    ∃ p, wt.lookup p = some e := by
  have hfold : ∀ (l : List (FsPath × WorkingTreeEntry)) (wt' : WorkingTree),
      (∀ pe ∈ l, wt.lookupRaw pe.1 = some pe.2) →
      (∀ q e, wt'.lookup q = some e → ∃ p, wt.lookup p = some e) →
      ∀ q e, (l.foldl (moveEntry old new) wt').lookup q = some e → ∃ p, wt.lookup p = some e := by
    intro l
    induction l with
    | nil => exact fun wt' _ h => h
    | cons a l ih =>
        intro wt' hl hwt'
        rw [List.foldl_cons]
        refine ih _ (fun pe hpe => hl pe (List.mem_cons_of_mem a hpe)) fun q e hq => ?_
        rw [lookup_moveEntry] at hq
        split at hq
        · split at hq
          · cases hq
          · rename_i hk
            cases hq
            exact ⟨a.1, lookup_eq_some.2 ⟨hl a List.mem_cons_self, hk⟩⟩
        · split at hq
          · cases hq
          · exact hwt' q e hq
  refine hfold _ wt (fun pe hpe => ?_) (fun q e hq => ⟨q, hq⟩) q e h
  rw [List.mem_insertionSort, List.mem_filter] at hpe
  exact mem_entries.1 hpe.1

theorem exists_lookup_of_lookup_renameEntry {wt : WorkingTree} {old new q : FsPath}
    {e : WorkingTreeEntry} (h : (wt.renameEntry old new).lookup q = some e) :
    ∃ p, wt.lookup p = some e := by
  rw [lookup_renameEntry] at h
  split at h
  · exact ⟨q, h⟩
  · split at h
    · exact ⟨old, h⟩
    · split at h
      · cases h
      · exact ⟨q, h⟩

section RenameDir

variable {old new : FsPath} (hon : ¬ old <+: new) (hno : ¬ new <+: old)

/-- A path below the new prefix that no collected entry moves to, and any path outside both
prefixes, keeps its entry. -/
theorem lookup_foldl_moveEntry_of_forall_ne (l : List (FsPath × WorkingTreeEntry))
    (hl : ∀ pe ∈ l, old <+: pe.1) (wt : WorkingTree) {q : FsPath} (hq : ¬ old <+: q)
    (hne : ∀ pe ∈ l, new ++ pe.1.drop old.length ≠ q) :
    (l.foldl (moveEntry old new) wt).lookup q = wt.lookup q := by
  induction l generalizing wt with
  | nil => rfl
  | cons a l ih =>
      have hrest := fun pe hpe => hl pe (List.mem_cons_of_mem a hpe)
      rw [List.foldl_cons, ih hrest _ fun pe hpe => hne pe (List.mem_cons_of_mem a hpe),
        lookup_moveEntry, if_neg (hne a List.mem_cons_self), if_neg]
      rintro rfl
      exact hq (hl a List.mem_cons_self)

include hon hno in
/-- A collected entry is found below the new prefix. -/
theorem lookup_foldl_moveEntry_of_mem (l : List (FsPath × WorkingTreeEntry))
    (hl : ∀ pe ∈ l, old <+: pe.1) (hnd : (l.map Prod.fst).Nodup) (wt : WorkingTree)
    {pe : FsPath × WorkingTreeEntry} (hpe : pe ∈ l) :
    (l.foldl (moveEntry old new) wt).lookup (new ++ pe.1.drop old.length) =
      if pe.2.kind = .deleted then none else some pe.2 := by
  induction l generalizing wt with
  | nil => simp at hpe
  | cons a l ih =>
      have hrest := fun x hx => hl x (List.mem_cons_of_mem a hx)
      rw [List.map_cons, List.nodup_cons] at hnd
      rcases List.mem_cons.1 hpe with rfl | hmem
      · rw [List.foldl_cons, lookup_foldl_moveEntry_of_forall_ne l hrest,
          lookup_moveEntry, if_pos rfl]
        · intro h
          exact not_both_below hon hno h (List.prefix_append _ _)
        · intro x hx heq
          refine hnd.1 (List.mem_map.2 ⟨x, hx, ?_⟩)
          calc x.1 = old ++ x.1.drop old.length := List.prefix_append_drop (hrest x hx)
            _ = old ++ pe.1.drop old.length := by rw [List.append_cancel_left heq]
            _ = pe.1 := (List.prefix_append_drop (hl pe List.mem_cons_self)).symm
      · rw [List.foldl_cons]
        exact ih hrest hnd.2 _ hmem

include hon hno in
/-- Nothing is left below the old prefix. -/
theorem lookup_foldl_moveEntry_old (l : List (FsPath × WorkingTreeEntry))
    (hl : ∀ pe ∈ l, old <+: pe.1) (wt : WorkingTree) {q : FsPath} (hq : old <+: q)
    (hmem : q ∈ l.map Prod.fst ∨ wt.lookup q = none) :
    (l.foldl (moveEntry old new) wt).lookup q = none := by
  induction l generalizing wt with
  | nil => simpa using hmem
  | cons a l ih =>
      have hnew : new ++ a.1.drop old.length ≠ q := by
        rintro rfl
        exact not_both_below hon hno hq (List.prefix_append _ _)
      rw [List.foldl_cons]
      refine ih (fun pe hpe => hl pe (List.mem_cons_of_mem a hpe)) _ ?_
      rw [lookup_moveEntry, if_neg hnew]
      by_cases haq : a.1 = q
      · exact Or.inr (if_pos haq)
      · rw [if_neg haq]
        rcases hmem with h | h
        · rw [List.map_cons] at h
          rcases List.mem_cons.1 h with rfl | h
          · exact absurd rfl haq
          · exact Or.inl h
        · exact Or.inr h

include hon hno in
/-- `rename_dir` between two prefixes neither of which contains the other: the old subtree is
gone, the entries collected from it are found below the new prefix, and everything else is
where it was (what the destination held under a name that nothing moves to included). -/
theorem lookup_renameDir (wt : WorkingTree) (q : FsPath) :
    (wt.renameDir old new).lookup q =
      if old <+: q then none
      else if new <+: q ∧ wt.lookupRaw (old ++ q.drop new.length) ≠ none then
        wt.lookup (old ++ q.drop new.length)
      else wt.lookup q := by
  have hperm := List.perm_insertionSort
    (fun (a b : FsPath × WorkingTreeEntry) => compare (pathString a.1) (pathString b.1) ≠ .gt)
    (wt.entries.filter fun pe => old <+: pe.1)
  have hmem : ∀ p e, (p, e) ∈ (wt.entries.filter fun pe => old <+: pe.1).insertionSort
      (fun a b => compare (pathString a.1) (pathString b.1) ≠ .gt) ↔
        wt.lookupRaw p = some e ∧ old <+: p := by
    intro p e
    rw [hperm.mem_iff, List.mem_filter, mem_entries]
    simp
  unfold renameDir
  generalize hl : (wt.entries.filter fun pe => old <+: pe.1).insertionSort
      (fun a b => compare (pathString a.1) (pathString b.1) ≠ .gt) = l at hmem hperm ⊢
  have hprefix : ∀ pe ∈ l, old <+: pe.1 := fun pe hpe => ((hmem pe.1 pe.2).1 hpe).2
  have hnd : (l.map Prod.fst).Nodup := by
    refine ((hperm.map Prod.fst).nodup_iff).2 ?_
    exact (nodup_entries wt).sublist (List.Sublist.map _ List.filter_sublist)
  by_cases hold : old <+: q
  · rw [if_pos hold]
    refine lookup_foldl_moveEntry_old hon hno l hprefix wt hold ?_
    cases hraw : wt.lookupRaw q with
    | none =>
        right
        unfold lookup
        rw [hraw]
    | some e => exact Or.inl (List.mem_map.2 ⟨(q, e), (hmem q e).2 ⟨hraw, hold⟩, rfl⟩)
  · rw [if_neg hold]
    by_cases hnew : new <+: q ∧ wt.lookupRaw (old ++ q.drop new.length) ≠ none
    · rw [if_pos hnew]
      obtain ⟨⟨rest, rfl⟩, hraw⟩ := hnew
      obtain ⟨e, hraw⟩ := Option.ne_none_iff_exists'.1 hraw
      rw [List.drop_left] at hraw ⊢
      have hin := (hmem _ e).2 ⟨hraw, List.prefix_append _ _⟩
      have hmoved := lookup_foldl_moveEntry_of_mem hon hno l hprefix hnd wt hin
      rw [List.drop_left] at hmoved
      rw [hmoved]
      unfold lookup
      rw [hraw]
    · rw [if_neg hnew]
      refine lookup_foldl_moveEntry_of_forall_ne l hprefix wt hold ?_
      rintro ⟨p, e⟩ hpe heq
      obtain ⟨hraw, rest, rfl⟩ := (hmem p e).1 hpe
      refine hnew ⟨heq ▸ List.prefix_append _ _, ?_⟩
      rw [← heq, List.drop_left, List.drop_left, hraw]
      exact Option.some_ne_none e

end RenameDir

end WorkingTree
end ContextFS
