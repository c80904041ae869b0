import ContextFS.Tree.Rebuild

/-!
# Serialising a working tree

`serialize_working_tree` groups the raw entries by their parent, adds every live directory, and
writes one tree object for each of these directories, the longest path first, so that a
directory's hash is known when its parent is written.  An entry reaches the root object only
through parents that are themselves recorded as directories; `Shown` says which ones do.
-/

namespace ContextFS

open Std ObjectStore WorkingTree

/-- The last component, empty for the root. -/
def nameOf (path : FsPath) : Name := path.getLastD []

namespace WorkingTreeEntry

/-- A leaf: its hash names an object of the store that is not a tree. -/
def isLeaf (e : WorkingTreeEntry) : Bool := e.kind = .blob || e.kind = .symlink

/-- A leaf without content, which the serialiser drops. -/
def isNullLeaf (e : WorkingTreeEntry) : Bool := e.isLeaf && e.hash = zeroHash

end WorkingTreeEntry

/-- The entries that go into tree objects. -/
def serializedEntries (wt : WorkingTree) : List (FsPath × WorkingTreeEntry) :=
  wt.entries.filter fun pe => !pe.2.isNullLeaf && nameOf pe.1 ≠ []

/-- What `serialize_working_tree` appends to `referenced_leaf_hashes`. -/
def referencedLeafHashes (wt : WorkingTree) : List Hash :=
  (serializedEntries wt).filterMap fun pe => if pe.2.isLeaf then some pe.2.hash else none

/-- `dirs[parent].push_back({name, entry})` for each entry in turn. -/
def groupByParent (es : List (FsPath × WorkingTreeEntry)) : ExtTreeMap FsPath (List DirEntry) :=
  es.foldl (fun dirs pe =>
    dirs.insert pe.1.dropLast (dirs.getD pe.1.dropLast [] ++ [(nameOf pe.1, pe.2)])) ∅

/-- `dir_paths`: every parent and every live directory, the longest path first. -/
def dirPaths (wt : WorkingTree) : List FsPath :=
  let dirs := groupByParent (serializedEntries wt)
  let empty := wt.liveEntries.filter fun pe => pe.2.kind = .tree && !dirs.contains pe.1
  (dirs.keys ++ empty.map Prod.fst).insertionSort
    fun a b => (pathString b).length ≤ (pathString a).length

/-- A subdirectory that has been written is recorded under its new hash. -/
def resolveChild (dirHashes : ExtTreeMap FsPath Hash) (dir : FsPath) (child : DirEntry) : DirEntry :=
  if child.2.kind = .tree then
    match dirHashes[dir ++ [child.1]]? with
    | some h => (child.1, { child.2 with hash := h })
    | none => child
  else child

structure SerializeState where
  store : ObjectStore
  dirHashes : ExtTreeMap FsPath Hash := ∅
  written : List Hash := []

/-- The tree object of `dir` has been written under `w.2`. -/
def SerializeState.record (st : SerializeState) (dir : FsPath) (w : ObjectStore × Hash) :
    SerializeState :=
  { store := w.1
    dirHashes := st.dirHashes.insert dir w.2
    written := st.written ++ [w.2] }

section Serialize

variable [Blake3]

/-- The loop over `dir_paths`; it stops at the first tree object that cannot be written. -/
def serializeDirs (dirs : ExtTreeMap FsPath (List DirEntry)) :
    List FsPath → SerializeState → Option String × SerializeState
  | [], st => (none, st)
  | dir :: rest, st =>
      let children := (dirs.getD dir []).map (resolveChild st.dirHashes dir)
      let w := st.store.writeTree (serializeTreeEntries children)
      if w.2 = zeroHash then
        let text := "failed to write tree object for " ++ bytesText (pathString dir) ++
          " (" ++ toString children.length ++ " entries)"
        let storeError := w.1.lastError
        (some (if storeError = "" then text else text ++ ": " ++ storeError), { st with store := w.1 })
      else serializeDirs dirs rest (st.record dir w)

/-- What `serialize_working_tree` returns and fills in; `root` is null when it failed. -/
structure SerializeResult where
  store : ObjectStore
  root : Hash
  written : List Hash
  error : String

/-- `serialize_working_tree`. -/
def serializeWorkingTree (wt : WorkingTree) (store : ObjectStore) : SerializeResult :=
  match serializeDirs (groupByParent (serializedEntries wt)) (dirPaths wt) { store := store } with
  | (some err, st) => ⟨st.store, zeroHash, st.written, err⟩
  | (none, st) =>
      match st.dirHashes[([] : FsPath)]? with
      | some h => ⟨st.store, h, st.written, ""⟩
      | none =>
          let w := st.store.writeTree (serializeTreeEntries [])
          if w.2 = zeroHash then
            let text := "failed to write empty root tree object"
            let storeError := w.1.lastError
            ⟨w.1, zeroHash, st.written,
              if storeError = "" then text else text ++ ": " ++ storeError⟩
          else ⟨w.1, w.2, st.written ++ [w.2], ""⟩

end Serialize

/-! ## The directories and their children -/

/-- The children recorded for a directory, as a function of the raw view. -/
def childrenOf (wt : WorkingTree) (dir : FsPath) : List DirEntry :=
  (serializedEntries wt).filterMap fun pe =>
    if pe.1.dropLast = dir then some (nameOf pe.1, pe.2) else none

theorem getElem?_groupByParent (es : List (FsPath × WorkingTreeEntry)) (dir : FsPath) :
    (groupByParent es).getD dir [] =
        es.filterMap (fun pe => if pe.1.dropLast = dir then some (nameOf pe.1, pe.2) else none) ∧
      (dir ∈ groupByParent es ↔ ∃ pe ∈ es, pe.1.dropLast = dir) := by
  suffices h : ∀ m : ExtTreeMap FsPath (List DirEntry),
      (es.foldl (fun dirs pe => dirs.insert pe.1.dropLast
        (dirs.getD pe.1.dropLast [] ++ [(nameOf pe.1, pe.2)])) m).getD dir [] =
          m.getD dir [] ++
            es.filterMap (fun pe => if pe.1.dropLast = dir then some (nameOf pe.1, pe.2) else none) ∧
      (dir ∈ es.foldl (fun dirs pe => dirs.insert pe.1.dropLast
        (dirs.getD pe.1.dropLast [] ++ [(nameOf pe.1, pe.2)])) m ↔
          dir ∈ m ∨ ∃ pe ∈ es, pe.1.dropLast = dir) by
    simpa [groupByParent] using h ∅
  induction es with
  | nil => simp
  | cons pe es ih =>
      intro m
      obtain ⟨hget, hmem⟩ := ih (m.insert pe.1.dropLast
        (m.getD pe.1.dropLast [] ++ [(nameOf pe.1, pe.2)]))
      refine ⟨?_, ?_⟩
      · rw [List.foldl_cons, hget]
        by_cases hdir : pe.1.dropLast = dir
        · simp [hdir]
        · simp [hdir, ExtTreeMap.getD_insert]
      · rw [List.foldl_cons, hmem, ExtTreeMap.mem_insert]
        simp only [Std.compare_eq_iff_eq, List.mem_cons, exists_eq_or_imp]
        tauto

theorem getD_groupByParent (wt : WorkingTree) (dir : FsPath) :
    (groupByParent (serializedEntries wt)).getD dir [] = childrenOf wt dir :=
  (getElem?_groupByParent _ _).1

/-- A path with a last component is its parent extended by that component. -/
theorem dropLast_append_nameOf {p : FsPath} (hp : nameOf p ≠ []) : p.dropLast ++ [nameOf p] = p := by
  have hne : p ≠ [] := by
    rintro rfl
    exact hp rfl
  have hlast : nameOf p = p.getLast hne := by
    rw [nameOf, List.getLastD_eq_getLast?, List.getLast?_eq_some_getLast hne]
    rfl
  rw [hlast, List.dropLast_append_getLast]

@[simp] theorem nameOf_append (dir : FsPath) (n : Name) : nameOf (dir ++ [n]) = n := by
  simp [nameOf, List.getLastD_eq_getLast?]

theorem mem_serializedEntries {wt : WorkingTree} {p : FsPath} {e : WorkingTreeEntry} :
    (p, e) ∈ serializedEntries wt ↔
      wt.lookupRaw p = some e ∧ e.isNullLeaf = false ∧ nameOf p ≠ [] := by
  simp [serializedEntries, mem_entries]

theorem mem_childrenOf {wt : WorkingTree} {dir : FsPath} {c : DirEntry} :
    c ∈ childrenOf wt dir ↔
      wt.lookupRaw (dir ++ [c.1]) = some c.2 ∧ c.2.isNullLeaf = false ∧ c.1 ≠ [] := by
  simp only [childrenOf, List.mem_filterMap, Prod.exists]
  constructor
  · rintro ⟨p, e, hpe, hif⟩
    obtain ⟨hraw, hnull, hname⟩ := mem_serializedEntries.1 hpe
    split at hif
    · rename_i hdir
      simp only [Option.some.injEq] at hif
      subst hif
      refine ⟨?_, hnull, hname⟩
      rw [← hdir]
      rw [dropLast_append_nameOf hname]
      exact hraw
    · cases hif
  · rintro ⟨hraw, hnull, hname⟩
    refine ⟨dir ++ [c.1], c.2, mem_serializedEntries.2 ⟨hraw, hnull, by simpa using hname⟩, ?_⟩
    simp

theorem mem_referencedLeafHashes {wt : WorkingTree} {h : Hash} :
    h ∈ referencedLeafHashes wt ↔ ∃ p e, wt.lookupRaw p = some e ∧ nameOf p ≠ [] ∧
      e.isLeaf = true ∧ e.hash = h ∧ h ≠ zeroHash := by
  simp only [referencedLeafHashes, List.mem_filterMap, Prod.exists, mem_serializedEntries]
  constructor
  · rintro ⟨p, e, ⟨hraw, hnull, hname⟩, hif⟩
    split at hif
    · rename_i hleaf
      simp only [Option.some.injEq] at hif
      refine ⟨p, e, hraw, hname, hleaf, hif, ?_⟩
      rintro rfl
      simp [WorkingTreeEntry.isNullLeaf, hleaf, hif] at hnull
    · cases hif
  · rintro ⟨p, e, hraw, hname, hleaf, rfl, hne⟩
    exact ⟨p, e, ⟨hraw, by simp [WorkingTreeEntry.isNullLeaf, hne], hname⟩, by simp [hleaf]⟩

/-- Every recorded subdirectory and every parent of an entry gets a tree object. -/
theorem mem_dirPaths {wt : WorkingTree} {dir : FsPath} :
    dir ∈ dirPaths wt ↔ childrenOf wt dir ≠ [] ∨ ∃ e, wt.lookupRaw dir = some e ∧ e.kind = .tree := by
  have hgroup := (getElem?_groupByParent (serializedEntries wt) dir).2
  have hchildren : (∃ pe ∈ serializedEntries wt, pe.1.dropLast = dir) ↔ childrenOf wt dir ≠ [] := by
    rw [Ne, List.eq_nil_iff_forall_not_mem]
    push Not
    constructor
    · rintro ⟨pe, hpe, hdir⟩
      exact ⟨(nameOf pe.1, pe.2), List.mem_filterMap.2 ⟨pe, hpe, by simp [hdir]⟩⟩
    · rintro ⟨c, hc⟩
      obtain ⟨pe, hpe, hif⟩ := List.mem_filterMap.1 hc
      refine ⟨pe, hpe, ?_⟩
      by_contra hne
      simp [hne] at hif
  rw [hchildren] at hgroup
  simp only [dirPaths, (List.perm_insertionSort _ _).mem_iff, List.mem_append, ExtTreeMap.mem_keys,
    hgroup, List.mem_map, List.mem_filter, Prod.exists, exists_and_right, exists_eq_right]
  constructor
  · rintro (h | ⟨e, hlive, hcond⟩)
    · exact Or.inl h
    · simp only [Bool.and_eq_true, decide_eq_true_eq] at hcond
      exact Or.inr ⟨e, (lookup_eq_some.1 (mem_liveEntries.1 hlive)).1, hcond.1⟩
  · rintro (h | ⟨e, hraw, hk⟩)
    · exact Or.inl h
    · by_cases hin : dir ∈ groupByParent (serializedEntries wt)
      · exact Or.inl (hgroup.1 hin)
      · right
        refine ⟨e, mem_liveEntries.2 (lookup_eq_some.2 ⟨hraw, by simp [hk]⟩), ?_⟩
        simp only [Bool.and_eq_true, decide_eq_true_eq, hk, true_and, Bool.not_eq_true']
        rw [← Bool.not_eq_true, ExtTreeMap.contains_iff_mem]
        exact hin

theorem sorted_dirPaths (wt : WorkingTree) :
    (dirPaths wt).Pairwise fun a b => (pathString b).length ≤ (pathString a).length := by
  exact List.pairwise_insertionSort _ _

theorem pathString_length_lt (dir : FsPath) {n : Name} (hn : n ≠ []) :
    (pathString dir).length < (pathString (dir ++ [n])).length := by
  have hpos : 0 < n.length := List.length_pos_iff.2 hn
  unfold pathString
  simp only [List.flatMap_append, List.length_append, List.flatMap_cons, List.flatMap_nil,
    List.length_cons, List.length_nil]
  omega

/-! ## What the root object shows of the raw view -/

/-- The two entries agree up to the hash of a directory. -/
def SameView (e e' : WorkingTreeEntry) : Prop :=
  e.kind = e'.kind ∧ e.mode = e'.mode ∧ (e.kind ≠ .tree → e.hash = e'.hash)

@[refl] theorem SameView.refl (e : WorkingTreeEntry) : SameView e e := ⟨rfl, rfl, fun _ => rfl⟩

theorem SameView.symm {e e' : WorkingTreeEntry} (h : SameView e e') : SameView e' e :=
  ⟨h.1.symm, h.2.1.symm, fun hk => (h.2.2 (h.1 ▸ hk)).symm⟩

theorem SameView.trans {e₁ e₂ e₃ : WorkingTreeEntry} (h : SameView e₁ e₂) (h' : SameView e₂ e₃) :
    SameView e₁ e₃ :=
  ⟨h.1.trans h'.1, h.2.1.trans h'.2.1, fun hk => (h.2.2 hk).trans (h'.2.2 (h.1 ▸ hk))⟩

/-- The entry of `wt` at `p` below `dir` is linked to `dir`: every component on the way is a
recorded directory. -/
inductive Linked (wt : WorkingTree) : FsPath → FsPath → WorkingTreeEntry → Prop
  | here {dir : FsPath} {c : DirEntry} (hc : c ∈ childrenOf wt dir) : Linked wt dir [c.1] c.2
  | inside {dir : FsPath} {c : DirEntry} {p : FsPath} {e : WorkingTreeEntry}
      (hc : c ∈ childrenOf wt dir) (hk : c.2.kind = .tree) (hp : Linked wt (dir ++ [c.1]) p e) :
      Linked wt dir (c.1 :: p) e

theorem Linked.lookupRaw_eq {wt : WorkingTree} {dir p : FsPath} {e : WorkingTreeEntry}
    (hl : Linked wt dir p e) : wt.lookupRaw (dir ++ p) = some e := by
  induction hl with
  | here hc => exact (mem_childrenOf.1 hc).1
  | inside hc hk _ ih => simpa using ih

/-- Names and directory sizes fit their fields in a tree object. -/
def FitsTreeFormat (wt : WorkingTree) : Prop :=
  (∀ p e, wt.lookupRaw p = some e → ∀ n ∈ p, n.length < 2 ^ 16) ∧
    ∀ dir, (childrenOf wt dir).length < 2 ^ 32

/-- What the loop over `dir_paths` has established for a directory it has written. -/
structure DirWritten (wt : WorkingTree) (st : SerializeState) (dir : FsPath) (h : Hash) :
    Prop where
  mem_written : h ∈ st.written
  readable : Readable st.store h
  tree_mem : ∀ {p : FsPath} {e : WorkingTreeEntry}, InTree st.store h p e → e.kind = .tree →
    e.hash ∈ st.written
  leaf_mem : ∀ {p : FsPath} {e : WorkingTreeEntry}, InTree st.store h p e → e.isLeaf = true →
    e.hash ∈ referencedLeafHashes wt
  found_of_linked : FitsTreeFormat wt → ∀ {p : FsPath} {e : WorkingTreeEntry},
    Linked wt dir p e → ∃ e', InTree st.store h p e' ∧ SameView e e'
  linked_of_found : FitsTreeFormat wt → ∀ {p : FsPath} {e' : WorkingTreeEntry},
    InTree st.store h p e' → ∃ e, Linked wt dir p e ∧ SameView e e'
  single : FitsTreeFormat wt → SingleValued st.store h

theorem DirWritten.mono {wt : WorkingTree} {st st' : SerializeState} {dir : FsPath} {h : Hash}
    (hd : DirWritten wt st dir h) (he : Extends st.store st'.store)
    (hw : ∀ x ∈ st.written, x ∈ st'.written) : DirWritten wt st' dir h where
  mem_written := hw _ hd.mem_written
  readable := hd.readable.mono he
  tree_mem := fun hin hk => hw _ (hd.tree_mem ((hd.readable.inTree_iff he).1 hin) hk)
  leaf_mem := fun hin hk => hd.leaf_mem ((hd.readable.inTree_iff he).1 hin) hk
  found_of_linked := by
    intro hfit p e hl
    obtain ⟨e', hin, hs⟩ := hd.found_of_linked hfit hl
    exact ⟨e', hin.mono he, hs⟩
  linked_of_found := fun hfit _ _ hin => hd.linked_of_found hfit ((hd.readable.inTree_iff he).1 hin)
  single := fun hfit _ _ _ h₁ h₂ =>
    hd.single hfit ((hd.readable.inTree_iff he).1 h₁) ((hd.readable.inTree_iff he).1 h₂)

/-- The directories written so far have the property, and all the longer ones are among them. -/
structure SerializeInv (P : SerializeState → FsPath → Hash → Prop) (wt : WorkingTree)
    (rest : List FsPath) (st : SerializeState) : Prop where
  written : ∀ {dir : FsPath} {h : Hash}, st.dirHashes[dir]? = some h → P st dir h
  covered : ∀ dir ∈ dirPaths wt, dir ∈ rest ∨ ∃ h, st.dirHashes[dir]? = some h

@[simp] theorem resolveChild_fst (m : ExtTreeMap FsPath Hash) (dir : FsPath) (c : DirEntry) :
    (resolveChild m dir c).1 = c.1 := by
  unfold resolveChild
  split
  · split <;> rfl
  · rfl

theorem sameView_resolveChild (m : ExtTreeMap FsPath Hash) (dir : FsPath) (c : DirEntry) :
    SameView c.2 (resolveChild m dir c).2 := by
  unfold resolveChild
  split
  · rename_i hk
    split
    · exact ⟨rfl, rfl, fun hne => absurd hk hne⟩
    · rfl
  · rfl

theorem resolveChild_hash {m : ExtTreeMap FsPath Hash} {dir : FsPath} {c : DirEntry} {h : Hash}
    (hk : c.2.kind = .tree) (hm : m[dir ++ [c.1]]? = some h) :
    (resolveChild m dir c).2.hash = h := by
  simp [resolveChild, hk, hm]

theorem resolveChild_of_ne {m : ExtTreeMap FsPath Hash} {dir : FsPath} {c : DirEntry}
    (hk : c.2.kind ≠ .tree) : resolveChild m dir c = c := by
  simp [resolveChild, hk]

theorem isLeaf_kind_ne_tree {e : WorkingTreeEntry} (h : e.isLeaf = true) : e.kind ≠ .tree := by
  intro hk
  simp [WorkingTreeEntry.isLeaf, hk] at h

/-- The children of one directory have different names. -/
theorem childrenOf_unique {wt : WorkingTree} {dir : FsPath} {c d : DirEntry}
    (hc : c ∈ childrenOf wt dir) (hd : d ∈ childrenOf wt dir) (h : c.1 = d.1) : c = d := by
  have hraw := (mem_childrenOf.1 hc).1
  rw [h, (mem_childrenOf.1 hd).1, Option.some.injEq] at hraw
  exact Prod.ext h hraw.symm

/-- The entries `es` of the object `h` are the children of `dir`, each with the object that was
written for it before. -/
structure EntriesWritten (wt : WorkingTree) (st st' : SerializeState) (dir : FsPath) (h : Hash)
    (es : List DirEntry) : Prop where
  dirEntries : st'.store.dirEntries h = some es
  child : ∀ d ∈ es, ∃ c ∈ childrenOf wt dir, d.2 = (resolveChild st.dirHashes dir c).2
  mem_iff : FitsTreeFormat wt →
    ∀ d, d ∈ es ↔ ∃ c ∈ childrenOf wt dir, d = resolveChild st.dirHashes dir c
  subdir : ∀ c ∈ childrenOf wt dir, c.2.kind = .tree →
    DirWritten wt st' (dir ++ [c.1]) (resolveChild st.dirHashes dir c).2.hash

section EntriesWritten

theorem resolveChild_kind (m : ExtTreeMap FsPath Hash) (dir : FsPath) (c : DirEntry) :
    (resolveChild m dir c).2.kind = c.2.kind :=
  (sameView_resolveChild m dir c).1.symm

variable {wt : WorkingTree} {st st' : SerializeState} {dir : FsPath} {h : Hash}
  {es : List DirEntry} (he : EntriesWritten wt st st' dir h es)
include he

theorem EntriesWritten.readable : Readable st'.store h := by
  refine .dir he.dirEntries fun d hd hk => ?_
  obtain ⟨c, hcc, hdc⟩ := he.child d hd
  rw [hdc] at hk ⊢
  exact (he.subdir c hcc (resolveChild_kind _ _ c ▸ hk)).readable

theorem EntriesWritten.tree_mem {p : FsPath} {e : WorkingTreeEntry} (hin : InTree st'.store h p e)
    (hk : e.kind = .tree) : e.hash ∈ st'.written := by
  obtain ⟨d, hd, ⟨-, rfl⟩ | ⟨rest, -, hkd, hrest⟩⟩ :=
    (inTree_iff_of_dirEntries he.dirEntries).1 hin
  · obtain ⟨c, hcc, hdc⟩ := he.child d hd
    rw [hdc] at hk ⊢
    exact (he.subdir c hcc (resolveChild_kind _ _ c ▸ hk)).mem_written
  · obtain ⟨c, hcc, hdc⟩ := he.child d hd
    rw [hdc] at hkd hrest
    exact (he.subdir c hcc (resolveChild_kind _ _ c ▸ hkd)).tree_mem hrest hk

theorem EntriesWritten.leaf_mem {p : FsPath} {e : WorkingTreeEntry} (hin : InTree st'.store h p e)
    (hleaf : e.isLeaf = true) : e.hash ∈ referencedLeafHashes wt := by
  obtain ⟨d, hd, ⟨-, rfl⟩ | ⟨rest, -, hkd, hrest⟩⟩ :=
    (inTree_iff_of_dirEntries he.dirEntries).1 hin
  · obtain ⟨c, hcc, hdc⟩ := he.child d hd
    have hnt : c.2.kind ≠ .tree := by
      have hne := isLeaf_kind_ne_tree hleaf
      rwa [hdc, resolveChild_kind] at hne
    rw [resolveChild_of_ne hnt] at hdc
    obtain ⟨hraw, hnull, hname⟩ := mem_childrenOf.1 hcc
    rw [hdc] at hleaf ⊢
    refine mem_referencedLeafHashes.2 ⟨_, _, hraw, by simpa using hname, hleaf, rfl, ?_⟩
    intro hz
    simp [WorkingTreeEntry.isNullLeaf, hleaf, hz] at hnull
  · obtain ⟨c, hcc, hdc⟩ := he.child d hd
    rw [hdc] at hkd hrest
    exact (he.subdir c hcc (resolveChild_kind _ _ c ▸ hkd)).leaf_mem hrest hleaf

theorem EntriesWritten.found_of_linked (hfit : FitsTreeFormat wt) {p : FsPath}
    {e : WorkingTreeEntry} (hl : Linked wt dir p e) :
    ∃ e', InTree st'.store h p e' ∧ SameView e e' := by
  cases hl with
  | @here _ c hcc =>
      refine ⟨(resolveChild st.dirHashes dir c).2, ?_, sameView_resolveChild _ _ c⟩
      have hin := InTree.here he.dirEntries ((he.mem_iff hfit _).2 ⟨c, hcc, rfl⟩)
      rwa [resolveChild_fst] at hin
  | @inside _ c rest _ hcc hk hrest =>
      obtain ⟨e', hin, hs⟩ := (he.subdir c hcc hk).found_of_linked hfit hrest
      have hin' := InTree.inside he.dirEntries ((he.mem_iff hfit _).2 ⟨c, hcc, rfl⟩)
        ((resolveChild_kind _ _ c).trans hk) hin
      rw [resolveChild_fst] at hin'
      exact ⟨e', hin', hs⟩

theorem EntriesWritten.linked_of_found (hfit : FitsTreeFormat wt) {p : FsPath}
    {e' : WorkingTreeEntry} (hin : InTree st'.store h p e') :
    ∃ e, Linked wt dir p e ∧ SameView e e' := by
  obtain ⟨d, hd, ⟨rfl, rfl⟩ | ⟨rest, rfl, hkd, hrest⟩⟩ :=
    (inTree_iff_of_dirEntries he.dirEntries).1 hin
  · obtain ⟨c, hcc, rfl⟩ := (he.mem_iff hfit d).1 hd
    rw [resolveChild_fst]
    exact ⟨c.2, .here hcc, sameView_resolveChild _ _ c⟩
  · obtain ⟨c, hcc, rfl⟩ := (he.mem_iff hfit d).1 hd
    have hk : c.2.kind = .tree := (resolveChild_kind _ _ c).symm.trans hkd
    obtain ⟨e, hl, hs⟩ := (he.subdir c hcc hk).linked_of_found hfit hrest
    rw [resolveChild_fst]
    exact ⟨e, .inside hcc hk hl, hs⟩

theorem EntriesWritten.single (hfit : FitsTreeFormat wt) {p : FsPath} {e e' : WorkingTreeEntry}
    (hin : InTree st'.store h p e) (hin' : InTree st'.store h p e') : e = e' := by
  obtain ⟨d, hd, hcase⟩ := (inTree_iff_of_dirEntries he.dirEntries).1 hin
  obtain ⟨d', hd', hcase'⟩ := (inTree_iff_of_dirEntries he.dirEntries).1 hin'
  obtain ⟨c, hcc, rfl⟩ := (he.mem_iff hfit d).1 hd
  obtain ⟨c', hcc', rfl⟩ := (he.mem_iff hfit d').1 hd'
  simp only [resolveChild_fst] at hcase hcase'
  rcases hcase with ⟨rfl, rfl⟩ | ⟨rest, rfl, hkd, hrest⟩ <;>
    rcases hcase' with ⟨hp, rfl⟩ | ⟨rest', hp, hkd', hrest'⟩
  · rw [childrenOf_unique hcc hcc' (List.cons.inj hp).1]
  · rw [← (List.cons.inj hp).2] at hrest'
    exact absurd rfl hrest'.ne_nil
  · rw [(List.cons.inj hp).2] at hrest
    exact absurd rfl hrest.ne_nil
  · obtain rfl := childrenOf_unique hcc hcc' (List.cons.inj hp).1
    rw [← (List.cons.inj hp).2] at hrest'
    exact (he.subdir c hcc ((resolveChild_kind _ _ c).symm.trans hkd)).single hfit hrest hrest'

end EntriesWritten

section Loop

variable [Blake3]

theorem dirEntries_writeTree {s : ObjectStore} {children : List DirEntry}
    (hne : (s.writeTree (serializeTreeEntries children)).2 ≠ zeroHash)
    (hc : (s.writeTree (serializeTreeEntries children)).1.collided = false) :
    (s.writeTree (serializeTreeEntries children)).1.dirEntries
        (s.writeTree (serializeTreeEntries children)).2 =
      deserializeTreeEntries (serializeTreeEntries children) := by
  have hr := readObject_writeObject s .tree (serializeTreeEntries children) hne hc
  unfold ObjectStore.dirEntries ObjectStore.readTree
  rw [show (s.writeTree (serializeTreeEntries children)).1.readObject
    (s.writeTree (serializeTreeEntries children)).2 .tree =
      some (serializeTreeEntries children) from hr]

/-- The object just written for `dir` shows what is linked to `dir`, given the same of the
objects of its subdirectories. -/
theorem dirWritten_writeTree {wt : WorkingTree} {st : SerializeState} {dir : FsPath}
    (hinv : ∀ {d : FsPath} {h : Hash}, st.dirHashes[d]? = some h → DirWritten wt st d h)
    (hsub : ∀ c ∈ childrenOf wt dir, c.2.kind = .tree → ∃ h, st.dirHashes[dir ++ [c.1]]? = some h)
    (st' : SerializeState) {w : ObjectStore × Hash}
    (hw : w = st.store.writeTree
      (serializeTreeEntries ((childrenOf wt dir).map (resolveChild st.dirHashes dir))))
    (hne : w.2 ≠ zeroHash) (hc : w.1.collided = false)
    (hst' : st'.store = w.1) (hwr : st'.written = st.written ++ [w.2]) :
    DirWritten wt st' dir w.2 := by
  have he : Extends st.store st'.store := by
    rw [hst', hw]
    exact extends_writeObject _ _ _
  -- the object as it is read back
  obtain ⟨es, hdes⟩ : ∃ es, deserializeTreeEntries (serializeTreeEntries
      ((childrenOf wt dir).map (resolveChild st.dirHashes dir))) = some es :=
    ⟨_, deserializeTreeEntries_serializeTreeEntries _⟩
  have hentries : EntriesWritten wt st st' dir w.2 es := by
    constructor
    case dirEntries =>
      rw [hst', ← hdes]
      subst hw
      exact dirEntries_writeTree hne hc
    case child =>
      intro d hd
      obtain ⟨x, hx, hxd⟩ := exists_of_mem_deserializeTreeEntries hdes hd
      obtain ⟨c, hcc, rfl⟩ := List.mem_map.1 hx
      exact ⟨c, hcc, hxd.symm⟩
    case mem_iff =>
      intro hfit d
      rw [mem_deserializeTreeEntries ?_ (by simpa using hfit.2 dir) hdes, List.mem_map]
      · simp only [eq_comm]
      · intro x hx
        obtain ⟨c, hcc, rfl⟩ := List.mem_map.1 hx
        rw [resolveChild_fst]
        exact hfit.1 _ _ (mem_childrenOf.1 hcc).1 c.1 (by simp)
    case subdir =>
      intro c hcc hk
      obtain ⟨h, hh⟩ := hsub c hcc hk
      rw [resolveChild_hash hk hh]
      refine (hinv hh).mono he fun x hx => ?_
      rw [hwr]
      exact List.mem_append_left _ hx
  exact
    { mem_written := by simp [hwr]
      readable := hentries.readable
      tree_mem := fun hin hk => hentries.tree_mem hin hk
      leaf_mem := fun hin hleaf => hentries.leaf_mem hin hleaf
      found_of_linked := fun hfit _ _ hl => hentries.found_of_linked hfit hl
      linked_of_found := fun hfit _ _ hin => hentries.linked_of_found hfit hin
      single := fun hfit _ _ _ hin hin' => hentries.single hfit hin hin' }

/-- The loop publishes objects and changes nothing else in the store. -/
theorem published_serializeDirs (dirs : ExtTreeMap FsPath (List DirEntry)) (rest : List FsPath)
    (st : SerializeState) : Published st.store (serializeDirs dirs rest st).2.store := by
  induction rest generalizing st with
  | nil => exact .refl _
  | cons dir rest ih =>
      unfold serializeDirs
      simp only
      split
      · exact published_writeObject _ _ _
      · have hw := published_writeObject st.store .tree
          (serializeTreeEntries ((dirs.getD dir []).map (resolveChild st.dirHashes dir)))
        exact hw.trans (ih (st.record dir _))

/-- The loop writes the children of the directories, with some directory hashes replaced. -/
theorem contents_serializeDirs {P : Bytes → Prop} {dirs : ExtTreeMap FsPath (List DirEntry)}
    (hdirs : ∀ (dir : FsPath) (m : ExtTreeMap FsPath Hash), P (ObjectTag.tree.bytes ++
      serializeTreeEntries ((dirs.getD dir []).map (resolveChild m dir))))
    (rest : List FsPath) {st : SerializeState} (hst : Contents P st.store) :
    Contents P (serializeDirs dirs rest st).2.store := by
  induction rest generalizing st with
  | nil => exact hst
  | cons dir rest ih =>
      unfold serializeDirs
      simp only
      split
      · exact hst.writeObject (hdirs dir st.dirHashes)
      · have hnext : Contents P (st.record dir _).store :=
          hst.writeObject (hdirs dir st.dirHashes)
        exact ih hnext

/-- Every hash the loop reports is in the store. -/
theorem mem_objects_of_mem_written (dirs : ExtTreeMap FsPath (List DirEntry)) (rest : List FsPath)
    (st : SerializeState) (hst : ∀ h ∈ st.written, h ∈ st.store.objects) :
    ∀ h ∈ (serializeDirs dirs rest st).2.written, h ∈ (serializeDirs dirs rest st).2.store.objects := by
  induction rest generalizing st with
  | nil => exact hst
  | cons dir rest ih =>
      unfold serializeDirs
      simp only
      split
      · exact fun h hh => (extends_writeObject _ _ _).mem (hst h hh)
      · rename_i hne
        refine ih _ fun h hh => ?_
        rcases List.mem_append.1 hh with hh | hh
        · exact (extends_writeObject _ _ _).mem (hst h hh)
        · rw [List.mem_singleton.1 hh]
          exact mem_objects_writeObject hne

/-- A property of the directories that the loop establishes for each of them: later writes keep
it, and a directory has it once its object is written after those of its subdirectories. -/
structure WriteRule (wt : WorkingTree) (P : SerializeState → FsPath → Hash → Prop) : Prop where
  mono : ∀ {st st' : SerializeState} {dir : FsPath} {h : Hash}, P st dir h →
    Extends st.store st'.store → (∀ x ∈ st.written, x ∈ st'.written) → P st' dir h
  writeTree : ∀ {st : SerializeState} {dir : FsPath},
    (∀ {d : FsPath} {h : Hash}, st.dirHashes[d]? = some h → P st d h) →
    (∀ c ∈ childrenOf wt dir, c.2.kind = .tree → ∃ h, st.dirHashes[dir ++ [c.1]]? = some h) →
    ∀ (st' : SerializeState) {w : ObjectStore × Hash},
      w = st.store.writeTree
        (serializeTreeEntries ((childrenOf wt dir).map (resolveChild st.dirHashes dir))) →
      w.2 ≠ zeroHash → st'.store = w.1 → st'.written = st.written ++ [w.2] → P st' dir w.2

/-- As long as no two contents collide, each directory has been written. -/
theorem writeRule_dirWritten (wt : WorkingTree) :
    WriteRule wt fun st dir h => st.store.collided = false → DirWritten wt st dir h where
  mono := fun hd he hw hc => (hd (he.collided_eq hc)).mono he hw
  writeTree := by
    intro st dir hinv hsub st' w hw hne hst' hwr hc
    have he : Extends st.store st'.store := by
      rw [hst', hw]
      exact extends_writeObject _ _ _
    exact dirWritten_writeTree (fun hd => hinv hd (he.collided_eq hc)) hsub st' hw hne
      (hst' ▸ hc) hst' hwr

/-- A loop that ends without error has established the property of every directory. -/
theorem WriteRule.serializeDirs {wt : WorkingTree} {P : SerializeState → FsPath → Hash → Prop}
    (hP : WriteRule wt P) {rest : List FsPath} {st : SerializeState}
    (hinv : SerializeInv P wt rest st)
    (hsorted : rest.Pairwise fun a b => (pathString b).length ≤ (pathString a).length)
    (hok : (serializeDirs (groupByParent (serializedEntries wt)) rest st).1 = none) :
    SerializeInv P wt [] (serializeDirs (groupByParent (serializedEntries wt)) rest st).2 := by
  induction rest generalizing st with
  | nil => exact hinv
  | cons dir rest ih =>
      unfold ContextFS.serializeDirs at hok ⊢
      simp only [getD_groupByParent] at hok ⊢
      split
      · rename_i hz
        rw [if_pos hz] at hok
        cases hok
      · rename_i hz
        rw [if_neg hz] at hok
        refine ih ?_ (List.pairwise_cons.1 hsorted).2 hok
        have hsub : ∀ c ∈ childrenOf wt dir, c.2.kind = .tree →
            ∃ h, st.dirHashes[dir ++ [c.1]]? = some h := by
          intro c hcc hk
          obtain ⟨hraw, -, hname⟩ := mem_childrenOf.1 hcc
          have hlong := pathString_length_lt dir hname
          rcases hinv.covered _ (mem_dirPaths.2 (Or.inr ⟨c.2, hraw, hk⟩)) with hmem | hh
          · rcases List.mem_cons.1 hmem with heq | hmem
            · rw [heq] at hlong
              omega
            · have hle := (List.pairwise_cons.1 hsorted).1 _ hmem
              omega
          · exact hh
        have hnew := hP.writeTree hinv.written hsub (st.record dir _) rfl hz rfl rfl
        refine ⟨fun {d h} hd => ?_, fun d hd => ?_⟩
        · rw [SerializeState.record, ExtTreeMap.getElem?_insert] at hd
          split at hd
          · rename_i hcmp
            cases hd
            rw [← LawfulEqCmp.eq_of_compare hcmp]
            exact hnew
          · exact hP.mono (hinv.written hd) (extends_writeObject _ _ _)
              fun x hx => List.mem_append_left _ hx
        · rcases hinv.covered d hd with hmem | ⟨h, hh⟩
          · rcases List.mem_cons.1 hmem with rfl | hmem
            · right
              exact ⟨_, ExtTreeMap.getElem?_insert_self⟩
            · exact Or.inl hmem
          · right
            rw [SerializeState.record, ExtTreeMap.getElem?_insert]
            split
            · exact ⟨_, rfl⟩
            · exact ⟨h, hh⟩

/-! ## The whole serialisation -/

theorem published_serializeWorkingTree (wt : WorkingTree) (s : ObjectStore) :
    Published s (serializeWorkingTree wt s).store := by
  have hloop := published_serializeDirs (groupByParent (serializedEntries wt)) (dirPaths wt)
    { store := s }
  unfold serializeWorkingTree
  generalize serializeDirs (groupByParent (serializedEntries wt)) (dirPaths wt) { store := s } = r
    at hloop ⊢
  obtain ⟨_ | err, st⟩ := r
  · simp only
    split
    · exact hloop
    · split
      · exact hloop.trans (published_writeObject _ _ _)
      · exact hloop.trans (published_writeObject _ _ _)
  · exact hloop

theorem contents_serializeWorkingTree {P : Bytes → Prop} {wt : WorkingTree} {s : ObjectStore}
    (hdirs : ∀ (dir : FsPath) (m : ExtTreeMap FsPath Hash), P (ObjectTag.tree.bytes ++
      serializeTreeEntries ((childrenOf wt dir).map (resolveChild m dir))))
    (hempty : P (ObjectTag.tree.bytes ++ serializeTreeEntries []))
    (hs : Contents P s) : Contents P (serializeWorkingTree wt s).store := by
  have hloop : Contents P (serializeDirs (groupByParent (serializedEntries wt)) (dirPaths wt)
      { store := s }).2.store :=
    contents_serializeDirs (fun dir m => getD_groupByParent wt dir ▸ hdirs dir m) _ hs
  unfold serializeWorkingTree
  generalize serializeDirs (groupByParent (serializedEntries wt)) (dirPaths wt) { store := s } = r
    at hloop ⊢
  obtain ⟨_ | err, st⟩ := r
  · simp only
    split
    · exact hloop
    · split
      · exact hloop.writeObject hempty
      · exact hloop.writeObject hempty
  · exact hloop

theorem mem_objects_of_mem_serialize_written (wt : WorkingTree) (s : ObjectStore) :
    ∀ h ∈ (serializeWorkingTree wt s).written, h ∈ (serializeWorkingTree wt s).store.objects := by
  have hloop := mem_objects_of_mem_written (groupByParent (serializedEntries wt)) (dirPaths wt)
    { store := s } (by simp)
  unfold serializeWorkingTree
  generalize serializeDirs (groupByParent (serializedEntries wt)) (dirPaths wt) { store := s } = r
    at hloop ⊢
  obtain ⟨_ | err, st⟩ := r
  · simp only
    split
    · exact hloop
    · split
      · exact fun h hh => (extends_writeObject _ _ _).mem (hloop h hh)
      · rename_i hne
        intro h hh
        rcases List.mem_append.1 hh with hh | hh
        · exact (extends_writeObject _ _ _).mem (hloop h hh)
        · rw [List.mem_singleton.1 hh]
          exact mem_objects_writeObject hne
  · exact hloop

/-- A serialisation that succeeds has established the property of the root. -/
theorem WriteRule.serializeWorkingTree {wt : WorkingTree}
    {P : SerializeState → FsPath → Hash → Prop} (hP : WriteRule wt P) {s : ObjectStore}
    (hne : (serializeWorkingTree wt s).root ≠ zeroHash) :
    P ⟨(serializeWorkingTree wt s).store, ∅, (serializeWorkingTree wt s).written⟩ []
      (serializeWorkingTree wt s).root := by
  have hstart : SerializeInv P wt (dirPaths wt) { store := s } :=
    ⟨fun h => by simp at h, fun _ hd => Or.inl hd⟩
  have hloop := hP.serializeDirs hstart (sorted_dirPaths wt)
  unfold ContextFS.serializeWorkingTree at hne ⊢
  generalize ContextFS.serializeDirs (groupByParent (serializedEntries wt)) (dirPaths wt)
    { store := s } = r at hloop hne ⊢
  obtain ⟨_ | err, st⟩ := r
  · cases hroot : st.dirHashes[([] : FsPath)]? with
    | some h =>
        simp only [hroot] at hne ⊢
        exact hP.mono ((hloop rfl).written hroot) (.refl st.store) fun _ hx => hx
    | none =>
        simp only [hroot] at hne ⊢
        generalize hw : st.store.writeTree (serializeTreeEntries []) = w at hne ⊢
        by_cases hz : w.2 = zeroHash
        · simp only [hz, if_true] at hne
          exact absurd rfl hne
        · simp only [hz, if_false]
          have hinv := hloop rfl
          have hnochild : childrenOf wt [] = [] := by
            by_contra hne
            rcases hinv.covered [] (mem_dirPaths.2 (Or.inl hne)) with h | ⟨h, hh⟩
            · cases h
            · rw [hroot] at hh
              cases hh
          refine hP.writeTree hinv.written ?_ _ ?_ hz rfl rfl
          · rw [hnochild]
            intro c hcc
            cases hcc
          · rw [hnochild]
            exact hw.symm
  · exact absurd rfl hne

/-- A serialisation that succeeds returns a root object that shows exactly the raw entries
linked to the root. -/
theorem dirWritten_serializeWorkingTree {wt : WorkingTree} {s : ObjectStore}
    (hne : (serializeWorkingTree wt s).root ≠ zeroHash)
    (hc : (serializeWorkingTree wt s).store.collided = false) :
    DirWritten wt ⟨(serializeWorkingTree wt s).store, ∅, (serializeWorkingTree wt s).written⟩ []
      (serializeWorkingTree wt s).root :=
  (writeRule_dirWritten wt).serializeWorkingTree hne hc

end Loop

end ContextFS
