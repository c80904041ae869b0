import ContextFS.Lib.PathTree
import ContextFS.Tree.Serialize

/-!
# Closed working trees

A working tree is closed when every live path has live directories above it.  No mutator looks
at the parent of its path, so whether the tree stays closed depends on what the caller passes;
here is the condition for each of them.  What a closed tree has live is linked to the root, so
its serialisation shows all of it.
-/

namespace ContextFS

open Std Lib ObjectStore

/-- The entry of a directory. -/
def WorkingTreeEntry.IsDir (e : WorkingTreeEntry) : Prop := e.kind = .tree

/-- A component the tree format keeps: not empty, and short enough for its length field. -/
def GoodName (n : Name) : Prop := n ≠ [] ∧ n.length < 2 ^ 16

def GoodPath (p : FsPath) : Prop := ∀ n ∈ p, GoodName n

instance (n : Name) : Decidable (GoodName n) :=
  inferInstanceAs (Decidable (n ≠ [] ∧ n.length < 2 ^ 16))

instance (p : FsPath) : Decidable (GoodPath p) := inferInstanceAs (Decidable (∀ n ∈ p, GoodName n))

namespace WorkingTree

/-- Every live path has live directories above it. -/
def Closed (wt : WorkingTree) : Prop := PathClosed WorkingTreeEntry.IsDir wt.lookup

/-- The path is a live directory. -/
def IsDirAt (wt : WorkingTree) (p : FsPath) : Prop := DirAt WorkingTreeEntry.IsDir wt.lookup p

/-- The parent of the path is the root or a live directory. -/
def HasParent (wt : WorkingTree) (p : FsPath) : Prop :=
  ParentDir WorkingTreeEntry.IsDir wt.lookup p

/-- Nothing is live strictly below the path. -/
def BareBelow (wt : WorkingTree) (p : FsPath) : Prop := NothingBelow wt.lookup p

/-- A leaf can be put at the path. -/
structure LeafFits (wt : WorkingTree) (p : FsPath) : Prop where
  parent : wt.HasParent p
  bare : wt.BareBelow p

/-- A subtree can be moved: not into itself nor onto one of its ancestors; the new parent is a
directory, and what stays at the destination has directories above it after the move. -/
structure SubtreeFits (wt : WorkingTree) (old new : FsPath) : Prop where
  not_into : ¬ old <+: new
  not_onto : ¬ new <+: old
  parent : wt.HasParent new
  kept : ∀ r, wt.lookup (new ++ r) ≠ none → wt.lookupRaw (old ++ r) = none →
    ∀ a, a <+: r → a ≠ [] → a ≠ r → wt.lookupRaw (old ++ a) ≠ none → wt.IsDirAt (old ++ a)

instance decidableHasParent (wt : WorkingTree) (p : FsPath) : Decidable (wt.HasParent p) :=
  decidable_of_iff (p.dropLast = [] ∨ ∃ d ∈ wt.lookup p.dropLast, d.kind = .tree) Iff.rfl

theorem bareBelow_iff_liveEntries {wt : WorkingTree} {p : FsPath} :
    wt.BareBelow p ↔ ∀ pe ∈ wt.liveEntries, p <+: pe.1 → pe.1 = p := by
  constructor
  · intro h pe hpe hp
    by_contra hne
    have hlive := mem_liveEntries.1 hpe
    rw [h pe.1 hp hne] at hlive
    cases hlive
  · intro h q hq hne
    cases hlive : wt.lookup q with
    | none => rfl
    | some e => exact absurd (h (q, e) (mem_liveEntries.2 hlive) hq) hne

instance decidableLeafFits (wt : WorkingTree) (p : FsPath) : Decidable (wt.LeafFits p) :=
  decidable_of_iff (wt.HasParent p ∧ ∀ pe ∈ wt.liveEntries, p <+: pe.1 → pe.1 = p)
    ⟨fun h => ⟨h.1, bareBelow_iff_liveEntries.2 h.2⟩,
      fun h => ⟨h.1, bareBelow_iff_liveEntries.1 h.2⟩⟩

/-- A subtree can be moved to where nothing is live. -/
theorem SubtreeFits.of_bare {wt : WorkingTree} {old new : FsPath} (hinto : ¬ old <+: new)
    (honto : ¬ new <+: old) (hparent : wt.HasParent new)
    (hbare : ∀ pe ∈ wt.liveEntries, ¬ new <+: pe.1) : wt.SubtreeFits old new where
  not_into := hinto
  not_onto := honto
  parent := hparent
  kept := by
    intro r hr
    obtain ⟨e, he⟩ := Option.ne_none_iff_exists'.1 hr
    exact absurd (List.prefix_append new r) (hbare _ (mem_liveEntries.2 he))

/-- Every recorded path, whiteouts included, has components the tree format keeps. -/
def WellNamed (wt : WorkingTree) : Prop := ∀ p, wt.lookupRaw p ≠ none → GoodPath p

theorem lookup_ne_none_of_mem {wt : WorkingTree} {p : FsPath} (h : wt.lookup p ≠ none) :
    wt.lookupRaw p ≠ none := by
  obtain ⟨e, he⟩ := Option.ne_none_iff_exists'.1 h
  rw [(lookup_eq_some.1 he).1]
  exact Option.some_ne_none e

theorem closed_congr {wt wt' : WorkingTree} (h : wt.Closed)
    (heq : ∀ p, wt'.lookup p = wt.lookup p) : wt'.Closed :=
  PathClosed.congr h heq

theorem closed_empty : Closed {} := by
  intro p e hp
  have hnone : lookup {} p = none := by
    unfold lookup
    rw [lookupRaw_empty]
  rw [hnone] at hp
  cases hp

theorem wellNamed_empty : WellNamed {} := fun p hp => absurd (lookupRaw_empty p) hp

theorem wellNamed_congr {wt wt' : WorkingTree} (h : wt.WellNamed)
    (heq : ∀ p, wt'.lookupRaw p = wt.lookupRaw p) : wt'.WellNamed :=
  fun p hp => h p (heq p ▸ hp)

/-! ## Insertions -/

section Insert

variable {wt : WorkingTree} {p : FsPath} {e : WorkingTreeEntry}

theorem lookup_insert_spec (he : e.kind ≠ .deleted) (q : FsPath) :
    (q = p → (wt.insert p e).lookup q = some e) ∧
      (q ≠ p → (wt.insert p e).lookup q = wt.lookup q) := by
  rw [lookup_insert _ _ _ _ he]
  exact ⟨fun h => if_pos h.symm, fun h => if_neg (Ne.symm h)⟩

theorem Closed.insert_iff (h : wt.Closed) (hp : p ≠ []) (he : e.kind ≠ .deleted) :
    (wt.insert p e).Closed ↔ wt.HasParent p ∧ (e.kind = .tree ∨ wt.BareBelow p) :=
  PathClosed.put_iff h hp (lookup_insert_spec he)

/-- An entry put at the root itself is above everything and below nothing. -/
theorem Closed.insert_root (h : wt.Closed) (he : e.kind ≠ .deleted) :
    (wt.insert [] e).Closed :=
  PathClosed.of_eq_off_root h fun q hq => (lookup_insert_spec he q).2 hq

theorem Closed.insert_leaf (h : wt.Closed) (he : e.kind ≠ .deleted) (hfit : wt.LeafFits p) :
    (wt.insert p e).Closed := by
  by_cases hp : p = []
  · subst hp
    exact h.insert_root he
  · exact (h.insert_iff hp he).2 ⟨hfit.parent, Or.inr hfit.bare⟩

theorem Closed.insert_dir (h : wt.Closed) (hk : e.kind = .tree) (hparent : wt.HasParent p) :
    (wt.insert p e).Closed := by
  have he : e.kind ≠ .deleted := by simp [hk]
  by_cases hp : p = []
  · subst hp
    exact h.insert_root he
  · exact (h.insert_iff hp he).2 ⟨hparent, Or.inl hk⟩

/-- Where nothing is live, nothing is live below either. -/
theorem Closed.leafFits_of_absent (h : wt.Closed) (hp : p ≠ []) (hnone : wt.lookup p = none)
    (hparent : wt.HasParent p) : wt.LeafFits p := by
  refine ⟨hparent, PathClosed.nothingBelow h hp ?_⟩
  rintro ⟨d, hd, -⟩
  rw [hnone] at hd
  cases hd

/-- The place of a live leaf can be taken by another one. -/
theorem Closed.leafFits_of_leaf (h : wt.Closed) {d : WorkingTreeEntry}
    (hd : wt.lookup p = some d) (hk : d.kind ≠ .tree) (hp : p ≠ []) : wt.LeafFits p := by
  refine ⟨pathClosed_iff_parentDir.1 h p d hd, PathClosed.nothingBelow h hp ?_⟩
  rintro ⟨d', hd', hdir⟩
  rw [hd, Option.some.injEq] at hd'
  exact hk (hd' ▸ hdir)

/-- A live entry can be replaced by one of the same kind. -/
theorem Closed.insert_same (h : wt.Closed) {d : WorkingTreeEntry} (hd : wt.lookup p = some d)
    (hk : e.kind = d.kind) : (wt.insert p e).Closed := by
  have he : e.kind ≠ .deleted := hk ▸ (lookup_eq_some.1 hd).2
  by_cases htree : d.kind = .tree
  · exact h.insert_dir (hk.trans htree) (pathClosed_iff_parentDir.1 h p d hd)
  · by_cases hp : p = []
    · subst hp
      exact h.insert_root he
    · exact h.insert_leaf he (h.leafFits_of_leaf hd htree hp)

theorem WellNamed.insert (h : wt.WellNamed) (hp : GoodPath p) : (wt.insert p e).WellNamed := by
  intro q hq
  rw [lookupRaw_insert] at hq
  by_cases hpq : p = q
  · exact hpq ▸ hp
  · rw [if_neg hpq] at hq
    exact h q hq

end Insert

/-! ## Removals and moves -/

section Remove

variable {wt : WorkingTree} {p : FsPath}

theorem lookup_remove_spec (wt : WorkingTree) (p q : FsPath) :
    (q = p → (wt.remove p).lookup q = none) ∧
      (q ≠ p → (wt.remove p).lookup q = wt.lookup q) := by
  rw [lookup_remove]
  exact ⟨fun h => if_pos h.symm, fun h => if_neg (Ne.symm h)⟩

theorem Closed.remove (h : wt.Closed) (hbare : p ≠ [] → wt.BareBelow p) :
    (wt.remove p).Closed := by
  by_cases hp : p = []
  · subst hp
    exact PathClosed.of_eq_off_root h fun q hq => (lookup_remove_spec wt [] q).2 hq
  · exact (PathClosed.erase_iff h hp (lookup_remove_spec wt p)).2 (hbare hp)

/-- A leaf can always be taken away. -/
theorem Closed.remove_leaf (h : wt.Closed) {e : WorkingTreeEntry} (he : wt.lookup p = some e)
    (hk : e.kind ≠ .tree) : (wt.remove p).Closed :=
  h.remove fun hp => (h.leafFits_of_leaf he hk hp).bare

/-- A directory that lists nothing has nothing live at any depth. -/
theorem Closed.bareBelow_of_listDir (h : wt.Closed) (hempty : wt.listDir p = []) :
    wt.BareBelow p := by
  rintro q ⟨rest, rfl⟩ hne
  cases rest with
  | nil => exact absurd (List.append_nil p) hne
  | cons n rest =>
      -- the child of `p` on the way to `q` would be listed
      have hchild : wt.lookup (p ++ [n]) = none := by
        cases hc : wt.lookup (p ++ [n]) with
        | none => rfl
        | some c =>
            have hmem := mem_listDir.2 ⟨hc, List.dropLast_concat⟩
            rw [hempty] at hmem
            cases hmem
      cases hq : wt.lookup (p ++ n :: rest) with
      | none => rfl
      | some e =>
          by_cases hrest : rest = []
          · subst hrest
            rw [hchild] at hq
            cases hq
          · obtain ⟨d, hd, -⟩ := h _ e hq (p ++ [n]) ⟨rest, by simp⟩ (by simp)
              (by simpa using Ne.symm hrest)
            rw [hchild] at hd
            cases hd

theorem WellNamed.remove (h : wt.WellNamed) (hp : GoodPath p) : (wt.remove p).WellNamed := by
  intro q hq
  by_cases hpq : p = q
  · exact hpq ▸ hp
  · rw [lookupRaw_remove_of_ne wt hpq] at hq
    exact h q hq

end Remove

section Rename

variable {wt : WorkingTree} {old new : FsPath}

theorem Closed.renameEntry (h : wt.Closed) {e : WorkingTreeEntry} (he : wt.lookup old = some e)
    (hk : e.kind ≠ .tree) (hfit : (wt.remove old).LeafFits new) :
    (wt.renameEntry old new).Closed := by
  obtain ⟨hraw, hlive⟩ := lookup_eq_some.1 he
  have heq : wt.renameEntry old new = (wt.remove old).insert new e := by
    simp only [WorkingTree.renameEntry, hraw, hlive, if_false]
  rw [heq]
  exact (h.remove_leaf he hk).insert_leaf hlive hfit

theorem WellNamed.renameEntry (h : wt.WellNamed) (hnew : GoodPath new) :
    (wt.renameEntry old new).WellNamed := by
  cases hraw : wt.lookupRaw old with
  | none =>
      simp only [WorkingTree.renameEntry, hraw]
      exact h
  | some e =>
      have hold : GoodPath old := h old (by simp [hraw])
      simp only [WorkingTree.renameEntry, hraw]
      split
      · exact (h.remove hold).remove hnew
      · exact (h.remove hold).insert hnew

/-- `lookup_renameDir`, as a move of the live view. -/
theorem moves_renameDir (hon : ¬ old <+: new) (hno : ¬ new <+: old) :
    Moves old new (fun r => wt.lookupRaw (old ++ r) ≠ none) wt.lookup
      (wt.renameDir old new).lookup where
  not_into := hon
  not_onto := hno
  at_old := fun q hq => by rw [lookup_renameDir hon hno, if_pos hq]
  at_new := by
    intro r hr
    have hnot : ¬ old <+: new ++ r := by
      intro hold
      exact not_both_below hon hno hold (List.prefix_append new r)
    rw [lookup_renameDir hon hno, if_neg hnot, List.drop_left,
      if_pos ⟨List.prefix_append new r, hr⟩]
  kept := by
    intro q hq hnew
    rw [lookup_renameDir hon hno, if_neg hq, if_neg]
    rintro ⟨⟨r, rfl⟩, hraw⟩
    rw [List.drop_left] at hraw
    exact hnew r rfl hraw
  moved_of_some := by
    intro r e hr
    rw [(lookup_eq_some.1 hr).1]
    exact Option.some_ne_none e

theorem Closed.renameDir_iff (h : wt.Closed) (hdir : wt.IsDirAt old) (hon : ¬ old <+: new)
    (hno : ¬ new <+: old) : (wt.renameDir old new).Closed ↔ wt.SubtreeFits old new := by
  rw [Closed, PathClosed.move_iff h (moves_renameDir hon hno) hdir]
  constructor
  · rintro ⟨hparent, hkept⟩
    exact ⟨hon, hno, hparent, fun r hr hraw => hkept r hr (not_not.2 hraw)⟩
  · intro hfit
    exact ⟨hfit.parent, fun r hr hraw => hfit.kept r hr (not_not.1 hraw)⟩

theorem Closed.renameDir (h : wt.Closed) (hdir : wt.IsDirAt old) (hfit : wt.SubtreeFits old new) :
    (wt.renameDir old new).Closed :=
  (h.renameDir_iff hdir hfit.not_into hfit.not_onto).2 hfit

theorem WellNamed.renameDir (h : wt.WellNamed) (hnew : GoodPath new) :
    (wt.renameDir old new).WellNamed := by
  have hfold : ∀ (l : List (FsPath × WorkingTreeEntry)) (wt' : WorkingTree),
      (∀ pe ∈ l, GoodPath pe.1) → wt'.WellNamed →
        (l.foldl (moveEntry old new) wt').WellNamed := by
    intro l
    induction l with
    | nil => exact fun _ _ hwt => hwt
    | cons a l ih =>
        intro wt' hl hwt
        have ha := hl a List.mem_cons_self
        have hdest : GoodPath (new ++ a.1.drop old.length) := by
          intro n hn
          rcases List.mem_append.1 hn with hn | hn
          · exact hnew n hn
          · exact ha n (List.mem_of_mem_drop hn)
        refine ih _ (fun pe hpe => hl pe (List.mem_cons_of_mem a hpe)) ?_
        unfold moveEntry
        split
        · exact (hwt.remove ha).remove hdest
        · exact (hwt.remove ha).insert hdest
  refine hfold _ wt (fun pe hpe => ?_) h
  rw [List.mem_insertionSort, List.mem_filter] at hpe
  refine h pe.1 ?_
  rw [mem_entries.1 hpe.1]
  exact Option.some_ne_none _

end Rename

/-! ## What is linked to the root -/

/-- In a closed tree every live entry with content is linked to the root. -/
theorem Closed.linked {wt : WorkingTree} (h : wt.Closed) {dir p : FsPath}
    {e : WorkingTreeEntry} (hp : p ≠ []) (he : wt.lookup (dir ++ p) = some e)
    (hnull : e.isNullLeaf = false) (hnames : ∀ n ∈ p, n ≠ []) : Linked wt dir p e := by
  induction p generalizing dir with
  | nil => exact absurd rfl hp
  | cons n rest ih =>
      have hn := hnames n List.mem_cons_self
      by_cases hrest : rest = []
      · subst hrest
        have hchild : (n, e) ∈ childrenOf wt dir :=
          mem_childrenOf.2 ⟨(lookup_eq_some.1 he).1, hnull, hn⟩
        exact .here hchild
      · have hbelow : dir ++ [n] ++ rest = dir ++ n :: rest := by simp
        obtain ⟨d, hd, hdir⟩ := h _ e he (dir ++ [n]) ⟨rest, hbelow⟩ (by simp)
          (by simpa using Ne.symm hrest)
        have hk : d.kind = .tree := hdir
        have hchild : (n, d) ∈ childrenOf wt dir :=
          mem_childrenOf.2 ⟨(lookup_eq_some.1 hd).1, by simp [WorkingTreeEntry.isNullLeaf,
            WorkingTreeEntry.isLeaf, hk], hn⟩
        exact .inside hchild hk
          (ih hrest (hbelow ▸ he) fun x hx => hnames x (List.mem_cons_of_mem n hx))

end WorkingTree

/-! ## Trees rebuilt from the store -/

/-- The names in one directory are distinct and good. -/
def GoodDirectory (es : List DirEntry) : Prop :=
  (es.map Prod.fst).Nodup ∧ ∀ c ∈ es, GoodName c.1

/-- An object file that decodes as a tree object holds a good directory. -/
def GoodTreeFile (raw : Bytes) : Prop :=
  ∀ body es, raw = ObjectTag.tree.bytes ++ body → deserializeTreeEntries body = some es →
    GoodDirectory es

theorem goodTreeFile_of_tag_ne {tag : ObjectTag} (htag : tag ≠ .tree) (body : Bytes) :
    GoodTreeFile (tag.bytes ++ body) := by
  intro body' es hraw _
  cases tag with
  | tree => exact absurd rfl htag
  | blob => simp [ObjectTag.bytes] at hraw
  | commit => simp [ObjectTag.bytes] at hraw

/-- The children of a directory with good names are written as a good directory, whatever is
cut off the count. -/
theorem goodTreeFile_serializeTreeEntries {children : List DirEntry}
    (h : GoodDirectory children) :
    GoodTreeFile (ObjectTag.tree.bytes ++ serializeTreeEntries children) := by
  intro body es hraw hes
  have hbody : body = serializeTreeEntries children := (List.append_cancel_left hraw).symm
  rw [hbody, deserializeTreeEntries_serializeTreeEntries, Option.some.injEq] at hes
  have hperm : (sortByName children).Perm children := List.perm_insertionSort _ _
  have hsub : ∀ c ∈ (sortByName children).take (children.length % 2 ^ 32), GoodName c.1 :=
    fun c hc => h.2 c (hperm.mem_iff.1 (List.mem_of_mem_take hc))
  have hnarrow : ((sortByName children).take (children.length % 2 ^ 32)).map narrowName =
      ((sortByName children).take (children.length % 2 ^ 32)).map id :=
    List.map_congr_left fun c hc => narrowName_of_lt (hsub c hc).2
  rw [hnarrow, List.map_id] at hes
  subst hes
  refine ⟨?_, hsub⟩
  have hnodup : ((sortByName children).map Prod.fst).Nodup :=
    ((hperm.map Prod.fst).nodup_iff).2 h.1
  exact hnodup.sublist (List.Sublist.map _ (List.take_sublist _ _))

theorem nodup_childrenOf (wt : WorkingTree) (dir : FsPath) :
    ((childrenOf wt dir).map Prod.fst).Nodup := by
  have hpaths : (serializedEntries wt).Pairwise fun a b => a.1 ≠ b.1 := by
    have hnodup : ((serializedEntries wt).map Prod.fst).Nodup :=
      wt.nodup_entries.sublist (List.Sublist.map Prod.fst List.filter_sublist)
    exact List.pairwise_map.1 hnodup
  rw [List.Nodup, List.pairwise_map, childrenOf, List.pairwise_filterMap]
  refine hpaths.imp_of_mem ?_
  rintro ⟨p, e⟩ ⟨q, f⟩ hp hq hne c hc d hd hcd
  -- entries with one parent and one name have one path
  simp only [Option.ite_none_right_eq_some, Option.some.injEq] at hc hd
  obtain ⟨hpd, rfl⟩ := hc
  obtain ⟨hqd, rfl⟩ := hd
  refine hne ?_
  calc p = p.dropLast ++ [nameOf p] :=
        (dropLast_append_nameOf (mem_serializedEntries.1 hp).2.2).symm
    _ = q.dropLast ++ [nameOf q] := by rw [hpd, hqd, show nameOf p = nameOf q from hcd]
    _ = q := dropLast_append_nameOf (mem_serializedEntries.1 hq).2.2

/-- A well-named tree gives every directory good children. -/
theorem goodDirectory_childrenOf {wt : WorkingTree} (h : wt.WellNamed) (dir : FsPath)
    (m : ExtTreeMap FsPath Hash) :
    GoodDirectory ((childrenOf wt dir).map (resolveChild m dir)) := by
  constructor
  · have hfst : ((childrenOf wt dir).map (resolveChild m dir)).map Prod.fst =
        (childrenOf wt dir).map Prod.fst := by
      rw [List.map_map]
      exact List.map_congr_left fun c _ => resolveChild_fst m dir c
    rw [hfst]
    exact nodup_childrenOf wt dir
  · intro c hc
    obtain ⟨d, hd, rfl⟩ := List.mem_map.1 hc
    rw [resolveChild_fst]
    have hraw := (mem_childrenOf.1 hd).1
    exact h (dir ++ [d.1]) (by simp [hraw]) d.1 (by simp)

/-- Serialising a well-named tree keeps the tree objects of the store good. -/
theorem contents_goodTreeFile_serialize [Blake3] {wt : WorkingTree} {s : ObjectStore}
    (h : wt.WellNamed) (hs : Contents GoodTreeFile s) :
    Contents GoodTreeFile (serializeWorkingTree wt s).store := by
  have hempty : GoodDirectory [] := ⟨List.nodup_nil, fun c hc => by cases hc⟩
  exact contents_serializeWorkingTree
    (fun dir m => goodTreeFile_serializeTreeEntries (goodDirectory_childrenOf h dir m))
    (goodTreeFile_serializeTreeEntries hempty) hs

theorem goodDirectory_of_dirEntries {s : ObjectStore} (hs : Contents GoodTreeFile s) {h : Hash}
    {es : List DirEntry} (hes : s.dirEntries h = some es) : GoodDirectory es := by
  unfold ObjectStore.dirEntries ObjectStore.readTree ObjectStore.readObject at hes
  cases hf : s.objects[h]? with
  | none => simp [hf] at hes
  | some f =>
      rw [hf] at hes
      by_cases hpre : ObjectTag.tree.bytes.isPrefixOf f.raw
      · simp only [hpre, if_true] at hes
        refine hs.stored hf _ es ?_ hes
        exact List.prefix_append_drop (List.isPrefixOf_iff_prefix.1 hpre)
      · simp [hpre] at hes

/-- What a store with good tree objects has at a path is unique. -/
theorem singleValued_of_contents {s : ObjectStore} (hs : Contents GoodTreeFile s) (h : Hash) :
    SingleValued s h := by
  intro p e e' hin hin'
  induction hin with
  | @here h es c hes hc =>
      have hnodup := (goodDirectory_of_dirEntries hs hes).1
      rw [inTree_iff_of_dirEntries hes] at hin'
      obtain ⟨c', hc', ⟨hp, rfl⟩ | ⟨rest, hp, -, hrest⟩⟩ := hin'
      · have hname : c.1 = c'.1 := (List.cons.inj hp).1
        rw [List.inj_on_of_nodup_map hnodup hc hc' hname]
      · exact absurd (List.cons.inj hp).2.symm hrest.ne_nil
  | @inside h es c rest e hes hc hk hrest ih =>
      have hnodup := (goodDirectory_of_dirEntries hs hes).1
      rw [inTree_iff_of_dirEntries hes] at hin'
      obtain ⟨c', hc', ⟨hp, rfl⟩ | ⟨rest', hp, -, hrest'⟩⟩ := hin'
      · exact absurd (List.cons.inj hp).2 hrest.ne_nil
      · obtain ⟨hname, rfl⟩ := List.cons.inj hp
        obtain rfl := List.inj_on_of_nodup_map hnodup hc hc' hname
        exact ih hrest'

/-- Above every entry of a stored tree there are directories. -/
theorem InTree.exists_dir {s : ObjectStore} {h : Hash} {p : FsPath} {e : WorkingTreeEntry}
    (hin : InTree s h p e) {q : FsPath} (hq : q <+: p) (hq0 : q ≠ []) (hqp : q ≠ p) :
    ∃ d, InTree s h q d ∧ d.kind = .tree := by
  induction hin generalizing q with
  | @here h es c hes hc =>
      rcases List.prefix_cons_iff.1 hq with rfl | ⟨q', rfl, hq'⟩
      · exact absurd rfl hq0
      · rw [List.prefix_nil.1 hq'] at hqp
        exact absurd rfl hqp
  | @inside h es c rest e hes hc hk hrest ih =>
      rcases List.prefix_cons_iff.1 hq with rfl | ⟨q', rfl, hq'⟩
      · exact absurd rfl hq0
      · by_cases hq'0 : q' = []
        · subst hq'0
          exact ⟨c.2, .here hes hc, hk⟩
        · obtain ⟨d, hd, hdk⟩ := ih hq' hq'0 (fun heq => hqp (by rw [heq]))
          exact ⟨d, .inside hes hc hk hd, hdk⟩

theorem InTree.goodPath {s : ObjectStore} (hs : Contents GoodTreeFile s) {h : Hash} {p : FsPath}
    {e : WorkingTreeEntry} (hin : InTree s h p e) : GoodPath p := by
  induction hin with
  | here hes hc =>
      intro n hn
      rw [List.mem_singleton.1 hn]
      exact (goodDirectory_of_dirEntries hs hes).2 _ hc
  | inside hes hc _ _ ih =>
      intro n hn
      rcases List.mem_cons.1 hn with rfl | hn
      · exact (goodDirectory_of_dirEntries hs hes).2 _ hc
      · exact ih n hn

/-- A tree rebuilt from a good store is closed and well named. -/
theorem closed_rebuildWorkingTree {s : ObjectStore} (hs : Contents GoodTreeFile s) {h : Hash}
    {wt wt' : WorkingTree} {fuel : Nat} (hok : rebuildWorkingTree fuel h s wt = some (.ok wt')) :
    wt'.Closed ∧ wt'.WellNamed := by
  have hraw := lookupRaw_rebuildWorkingTree hok (singleValued_of_contents hs h)
  constructor
  · intro p e hp q hq hq0 hqp
    obtain ⟨d, hd, hk⟩ := ((hraw p e).1 (WorkingTree.lookup_eq_some.1 hp).1).exists_dir hq hq0 hqp
    exact ⟨d, WorkingTree.lookup_eq_some.2 ⟨(hraw q d).2 hd, by simp [hk]⟩, hk⟩
  · intro p hp
    obtain ⟨e, he⟩ := Option.ne_none_iff_exists'.1 hp
    exact ((hraw p e).1 he).goodPath hs

/-- The serialisation of a closed tree loses nothing: its root object shows every live entry with
content. -/
theorem WorkingTree.Closed.exists_inTree_serialize [Blake3] {wt : WorkingTree} {s : ObjectStore}
    (h : wt.Closed) (hnames : wt.WellNamed) (hsize : ∀ dir, (childrenOf wt dir).length < 2 ^ 32)
    (hok : (serializeWorkingTree wt s).root ≠ zeroHash)
    (hc : (serializeWorkingTree wt s).store.collided = false) {p : FsPath}
    {e : WorkingTreeEntry} (hp : p ≠ []) (he : wt.lookup p = some e)
    (hnull : e.isNullLeaf = false) :
    ∃ e', InTree (serializeWorkingTree wt s).store (serializeWorkingTree wt s).root p e' ∧
      SameView e e' := by
  have hraw := (WorkingTree.lookup_eq_some.1 he).1
  have hgood : GoodPath p := hnames p (by simp [hraw])
  have hfit : FitsTreeFormat wt := by
    refine ⟨fun q d hq n hn => ?_, hsize⟩
    exact (hnames q (by simp [hq]) n hn).2
  have hlinked : Linked wt [] p e := h.linked hp (List.nil_append p ▸ he) hnull fun n hn => (hgood n hn).1
  exact (dirWritten_serializeWorkingTree hok hc).found_of_linked hfit hlinked

end ContextFS
