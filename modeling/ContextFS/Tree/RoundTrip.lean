import ContextFS.Tree.Closure
import ContextFS.Tree.TreeReader

/-!
# What survives a serialisation

The hash `serialize_working_tree` returns is a function of what is linked to the root: neither
the split between base and overlay nor the store matters, and the hashes an entry of kind tree
carried before are written over.  An object is written with one `write` for its body and read with
one `read` for its tag and body, and either call moves no more than the kernel lets it; so what
was written comes back unless an object is too long for the one call by its tag.
-/

namespace ContextFS

open Std Lib ObjectStore WorkingTree

/-! ## The object of a directory -/

/-- The record of a child: a subdirectory goes in under the hash of its own object. -/
def recordOf (sub : DirEntry → Hash) (c : DirEntry) : DirEntry :=
  if c.2.kind = .tree then (c.1, { c.2 with hash := sub c }) else c

@[simp] theorem recordOf_fst (sub : DirEntry → Hash) (c : DirEntry) : (recordOf sub c).1 = c.1 := by
  unfold recordOf
  split <;> rfl

@[simp] theorem recordOf_kind (sub : DirEntry → Hash) (c : DirEntry) :
    (recordOf sub c).2.kind = c.2.kind := by
  unfold recordOf
  split <;> rfl

theorem recordOf_hash {sub : DirEntry → Hash} {c : DirEntry} (hk : c.2.kind = .tree) :
    (recordOf sub c).2.hash = sub c := by
  simp [recordOf, hk]

theorem sameView_recordOf (sub : DirEntry → Hash) (c : DirEntry) :
    SameView c.2 (recordOf sub c).2 := by
  unfold recordOf
  split
  · rename_i hk
    exact ⟨rfl, rfl, fun hne => absurd hk hne⟩
  · rfl

/-- The loop replaces the hash of a subdirectory and nothing else. -/
theorem resolveChild_eq_recordOf (m : ExtTreeMap FsPath Hash) (dir : FsPath) (c : DirEntry) :
    resolveChild m dir c = recordOf (fun d => (resolveChild m dir d).2.hash) c := by
  by_cases hk : c.2.kind = .tree
  · cases hm : m[dir ++ [c.1]]? with
    | none =>
        simp only [resolveChild, recordOf, hk, hm, if_true]
        rw [← hk]
    | some h => simp [resolveChild, recordOf, hk, hm]
  · simp [resolveChild, recordOf, hk]

section Objects

variable [Blake3]

/-- `h` is the hash of the object written for `dir`, and unless two contents collided the store
holds that object. -/
inductive DirObject (wt : WorkingTree) (s : ObjectStore) : FsPath → Hash → Prop
  | dir {dir : FsPath} {h : Hash} (sub : DirEntry → Hash)
      (hhash : h = objectHash .tree
        (serializeTreeEntries ((childrenOf wt dir).map (recordOf sub))))
      (hread : s.collided = false → s.readTree h =
        some (serializeTreeEntries ((childrenOf wt dir).map (recordOf sub))))
      (hsub : ∀ c ∈ childrenOf wt dir, c.2.kind = .tree → DirObject wt s (dir ++ [c.1]) (sub c)) :
      DirObject wt s dir h

theorem DirObject.mono {wt : WorkingTree} {s s' : ObjectStore} (he : Extends s s') {dir : FsPath}
    {h : Hash} (hd : DirObject wt s dir h) : DirObject wt s' dir h := by
  induction hd with
  | dir sub hhash hread _ ih =>
      exact .dir sub hhash (fun hc => he.readTree (hread (he.collided_eq hc))) ih

/-- The loop over `dir_paths` gives every directory its object. -/
theorem writeRule_dirObject (wt : WorkingTree) :
    WriteRule wt fun st dir h => DirObject wt st.store dir h where
  mono := fun hd he _ => hd.mono he
  writeTree := by
    intro st dir hinv hsub st' w hw hne hst' _
    have hmap : (childrenOf wt dir).map (resolveChild st.dirHashes dir) =
        (childrenOf wt dir).map (recordOf fun d => (resolveChild st.dirHashes dir d).2.hash) :=
      List.map_congr_left fun c _ => resolveChild_eq_recordOf _ _ c
    rw [hmap] at hw
    subst hw
    refine .dir _ (writeObject_hash hne) (fun hc => ?_) fun c hcc hk => ?_
    · rw [hst'] at hc ⊢
      exact readObject_writeObject _ .tree _ hne hc
    · obtain ⟨h, hh⟩ := hsub c hcc hk
      rw [resolveChild_hash hk hh, hst']
      exact (hinv hh).mono (extends_writeObject _ _ _)

end Objects

/-! ## The hash depends on what is linked to the root -/

/-- The order of the children does not show in their object. -/
theorem serializeTreeEntries_perm {xs ys : List DirEntry} (hperm : xs.Perm ys)
    (hnd : (xs.map Prod.fst).Nodup) : serializeTreeEntries xs = serializeTreeEntries ys := by
  have hxs := isSortOf_sortByName xs
  have hys := isSortOf_sortByName ys
  have hsorted : sortByName xs = sortByName ys := by
    refine List.Perm.eq_of_pairwise ?_ hxs.2 hys.2 (hxs.1.trans (hperm.trans hys.1.symm))
    intro a b ha hb hab hba
    -- two children of one name are the same child
    have hlt : ¬ compare a.1 b.1 = .lt := by
      rw [← OrientedCmp.gt_iff_lt]
      exact hba
    have heq : compare a.1 b.1 = .eq := by
      cases hcmp : compare a.1 b.1 with
      | lt => exact absurd hcmp hlt
      | eq => rfl
      | gt => exact absurd hcmp hab
    have ha' : a ∈ xs := hxs.1.mem_iff.1 ha
    have hb' : b ∈ xs := hperm.mem_iff.2 (hys.1.mem_iff.1 hb)
    exact List.inj_on_of_nodup_map hnd ha' hb' (LawfulEqCmp.eq_of_compare heq)
  rw [serializeTreeEntries, serializeTreeEntries, hsorted, hperm.length_eq]

theorem Linked.ne_nil {wt : WorkingTree} {dir p : FsPath} {e : WorkingTreeEntry}
    (hl : Linked wt dir p e) : p ≠ [] := by
  cases hl <;> simp

theorem linked_singleton_iff {wt : WorkingTree} {dir : FsPath} {n : Name} {e : WorkingTreeEntry} :
    Linked wt dir [n] e ↔ (n, e) ∈ childrenOf wt dir := by
  constructor
  · intro hl
    cases hl with
    | here hc => exact hc
    | inside _ _ hp => exact absurd rfl hp.ne_nil
  · exact fun hc => .here hc

theorem linked_cons_iff {wt : WorkingTree} {dir p : FsPath} {n : Name} {e : WorkingTreeEntry}
    (hp : p ≠ []) : Linked wt dir (n :: p) e ↔
      ∃ d, (n, d) ∈ childrenOf wt dir ∧ d.kind = .tree ∧ Linked wt (dir ++ [n]) p e := by
  constructor
  · intro hl
    cases hl with
    | here _ => exact absurd rfl hp
    | @inside _ c _ _ hc hk hrest => exact ⟨c.2, hc, hk, hrest⟩
  · rintro ⟨d, hd, hk, hrest⟩
    have hl : Linked wt dir ((n, d).1 :: p) e := .inside hd hk hrest
    exact hl

/-- Whatever is linked to `dir` in the one tree is linked to it in the other, up to the hashes of
directories. -/
def LinksInto (wt wt' : WorkingTree) (dir : FsPath) : Prop :=
  ∀ p e, Linked wt dir p e → ∃ e', Linked wt' dir p e' ∧ SameView e e'

theorem LinksInto.inside {wt wt' : WorkingTree} {dir : FsPath} (h : LinksInto wt wt' dir)
    {c : DirEntry} (hc : c ∈ childrenOf wt dir) (hk : c.2.kind = .tree) :
    LinksInto wt wt' (dir ++ [c.1]) := by
  intro p e hl
  obtain ⟨e', hl', hview⟩ := h (c.1 :: p) e (.inside hc hk hl)
  obtain ⟨d, -, -, hrest⟩ := (linked_cons_iff hl.ne_nil).1 hl'
  exact ⟨e', hrest, hview⟩

theorem LinksInto.child {wt wt' : WorkingTree} {dir : FsPath} (h : LinksInto wt wt' dir)
    {c : DirEntry} (hc : c ∈ childrenOf wt dir) :
    ∃ e', (c.1, e') ∈ childrenOf wt' dir ∧ SameView c.2 e' := by
  obtain ⟨e', hl', hview⟩ := h [c.1] c.2 (.here hc)
  exact ⟨e', linked_singleton_iff.1 hl', hview⟩

/-- Equal raw views link the same. -/
theorem linksInto_of_lookupRaw_eq {wt wt' : WorkingTree} (h : ∀ p, wt.lookupRaw p = wt'.lookupRaw p)
    (dir : FsPath) : LinksInto wt wt' dir := by
  intro p e hl
  refine ⟨e, ?_, .refl e⟩
  induction hl with
  | here hc =>
      refine .here (mem_childrenOf.2 ?_)
      rw [← h]
      exact mem_childrenOf.1 hc
  | inside hc hk _ ih =>
      refine .inside (mem_childrenOf.2 ?_) hk ih
      rw [← h]
      exact mem_childrenOf.1 hc

/-- Two records of the same name and view with the same directory hash are one record. -/
theorem recordOf_eq {sub sub' : DirEntry → Hash} {c c' : DirEntry} (hname : c.1 = c'.1)
    (hview : SameView c.2 c'.2) (hsub : c.2.kind = .tree → sub c = sub' c') :
    recordOf sub c = recordOf sub' c' := by
  obtain ⟨n, k, h, m⟩ := c
  obtain ⟨n', k', h', m'⟩ := c'
  obtain ⟨hkind, hmode, hhash⟩ := hview
  simp only at hname hkind hmode hhash hsub
  subst hname hkind hmode
  by_cases hk : k = .tree
  · simp only [recordOf, hk, if_true]
    rw [← hk, hsub hk]
  · simp [recordOf, hk, hhash hk]

/-- Two trees that link the same to a directory give it the same hash. -/
theorem DirObject.hash_eq [Blake3] {wt wt' : WorkingTree} {s s' : ObjectStore} {dir : FsPath}
    {h h' : Hash} (hd : DirObject wt s dir h) (hd' : DirObject wt' s' dir h')
    (hto : LinksInto wt wt' dir) (hfrom : LinksInto wt' wt dir) : h = h' := by
  induction hd generalizing h' with
  | @dir dir h sub hhash _ hsub ih =>
      obtain ⟨sub', hhash', -, hsub'⟩ := hd'
      have hnodup : ∀ (t : WorkingTree) (f : DirEntry → Hash),
          (((childrenOf t dir).map (recordOf f)).map Prod.fst).Nodup := by
        intro t f
        have hfst : ((childrenOf t dir).map (recordOf f)).map Prod.fst =
            (childrenOf t dir).map Prod.fst := by
          rw [List.map_map]
          exact List.map_congr_left fun c _ => recordOf_fst f c
        rw [hfst]
        exact nodup_childrenOf t dir
      -- a child of the one and the child of that name of the other leave the same record
      have hrecord : ∀ c ∈ childrenOf wt dir, ∀ c' ∈ childrenOf wt' dir, c.1 = c'.1 →
          SameView c.2 c'.2 → recordOf sub c = recordOf sub' c' := by
        intro c hc c' hc' hname hview
        refine recordOf_eq hname hview fun hk => ?_
        have hk' : c'.2.kind = .tree := hview.1 ▸ hk
        have hobj := hsub' c' hc' hk'
        have hback := hfrom.inside hc' hk'
        rw [← hname] at hobj hback
        exact ih c hc hk hobj (hto.inside hc hk) hback
      have hmem : ∀ x, x ∈ (childrenOf wt dir).map (recordOf sub) ↔
          x ∈ (childrenOf wt' dir).map (recordOf sub') := by
        intro x
        rw [List.mem_map, List.mem_map]
        constructor
        · rintro ⟨c, hc, rfl⟩
          obtain ⟨e', hc', hview⟩ := hto.child hc
          exact ⟨(c.1, e'), hc', (hrecord c hc (c.1, e') hc' rfl hview).symm⟩
        · rintro ⟨c', hc', rfl⟩
          obtain ⟨e, hc, hview⟩ := hfrom.child hc'
          exact ⟨(c'.1, e), hc, hrecord (c'.1, e) hc c' hc' rfl hview.symm⟩
      have hperm : ((childrenOf wt dir).map (recordOf sub)).Perm
          ((childrenOf wt' dir).map (recordOf sub')) :=
        (List.perm_ext_iff_of_nodup (hnodup wt sub).of_map (hnodup wt' sub').of_map).2 hmem
      rw [hhash, hhash', serializeTreeEntries_perm hperm (hnodup wt sub)]

/-! ## What one call moves -/

/-- The bytes one `read` or `write` moves at most. -/
def maxRwCount : Nat := 0x7ffff000

/-- The store as `read_object` sees it: of a longer file its one `read` gets a part only, and the
part is refused. -/
def ObjectStore.cutReads (s : ObjectStore) : ObjectStore :=
  { s with
    objects := s.objects.map fun _ f => if maxRwCount < f.raw.length then { f with raw := [] } else f }

/-- The size of the body of a directory's object. -/
def bodySize (wt : WorkingTree) (dir : FsPath) : Nat :=
  (serializeTreeEntries (childrenOf wt dir)).length

/-- Every body goes out with one `write`; `write_object` refuses a longer one. -/
def WorkingTree.WritesFit (wt : WorkingTree) : Prop := ∀ dir, bodySize wt dir ≤ maxRwCount

/-- The objects of the root and of the live directories come in with one `read`, tag included. -/
def WorkingTree.ReadsFit (wt : WorkingTree) : Prop :=
  ∀ dir, dir = [] ∨ wt.IsDirAt dir → ObjectTag.tree.bytes.length + bodySize wt dir ≤ maxRwCount

theorem readTree_cutReads {s : ObjectStore} {h : Hash} {body : Bytes} (hb : s.readTree h = some body) :
    s.cutReads.readTree h =
      if ObjectTag.tree.bytes.length + body.length ≤ maxRwCount then some body else none := by
  unfold readTree readObject at hb ⊢
  have hget : s.cutReads.objects[h]? = (s.objects[h]?).map fun f =>
      if maxRwCount < f.raw.length then { f with raw := [] } else f := ExtTreeMap.getElem?_map
  rw [hget]
  cases hobj : s.objects[h]? with
  | none =>
      rw [hobj] at hb
      cases hb
  | some f =>
      rw [hobj] at hb
      simp only at hb
      split at hb
      · rename_i hpre
        cases hb
        have hlen := (List.isPrefixOf_iff_prefix.1 hpre).length_le
        have hsize : ObjectTag.tree.bytes.length + (f.raw.drop ObjectTag.tree.bytes.length).length =
            f.raw.length := by
          rw [List.length_drop]
          omega
        rw [hsize, Option.map_some]
        by_cases hfit : f.raw.length ≤ maxRwCount
        · rw [if_pos hfit, if_neg (Nat.not_lt.2 hfit)]
          simp only [if_pos hpre]
        · rw [if_neg hfit, if_pos (Nat.lt_of_not_le hfit)]
          rfl
      · cases hb

theorem length_serializeEntry (c : DirEntry) :
    (serializeEntry c).length = 39 + c.1.length % 2 ^ 16 := by
  have hname : (c.1.take (c.1.length % 2 ^ 16)).length = c.1.length % 2 ^ 16 :=
    List.length_take_of_le (Nat.mod_le _ _)
  simp only [serializeEntry, List.length_append, length_encodeLe, hname, List.length_cons,
    List.length_nil, c.2.hash.length_eq]
  omega

/-- The size of a tree object, entry by entry. -/
theorem length_serializeTreeEntries (children : List DirEntry) :
    (serializeTreeEntries children).length =
      4 + (children.map fun c => 39 + c.1.length % 2 ^ 16).sum := by
  rw [serializeTreeEntries, List.length_append, length_encodeLe, List.length_flatMap]
  have hperm := (isSortOf_sortByName children).1
  have hsum := (hperm.map fun c => (serializeEntry c).length).sum_eq
  rw [hsum]
  simp only [length_serializeEntry]

theorem length_serializeTreeEntries_recordOf (children : List DirEntry) (sub : DirEntry → Hash) :
    (serializeTreeEntries (children.map (recordOf sub))).length =
      (serializeTreeEntries children).length := by
  rw [length_serializeTreeEntries, length_serializeTreeEntries, List.map_map]
  simp only [Function.comp_def, recordOf_fst]

/-- A body that goes out with one `write` has room for its count. -/
theorem WorkingTree.WritesFit.count_lt {wt : WorkingTree} (h : wt.WritesFit) (dir : FsPath) :
    (childrenOf wt dir).length < 2 ^ 32 := by
  have hsize := h dir
  rw [bodySize, length_serializeTreeEntries] at hsize
  have hle : ∀ children : List DirEntry, children.length ≤
      (children.map fun c => 39 + c.1.length % 2 ^ 16).sum := by
    intro children
    induction children with
    | nil => exact Nat.le_refl _
    | cons c children ih =>
        rw [List.map_cons, List.sum_cons, List.length_cons]
        omega
  have hcount := hle (childrenOf wt dir)
  unfold maxRwCount at hsize
  omega

/-- What the decoder makes of the object of a directory. -/
theorem deserializeTreeEntries_records {wt : WorkingTree} (hnamed : wt.WellNamed)
    (hfit : wt.WritesFit) (dir : FsPath) (sub : DirEntry → Hash) :
    deserializeTreeEntries (serializeTreeEntries ((childrenOf wt dir).map (recordOf sub))) =
      some ((sortByName (childrenOf wt dir)).map (recordOf sub)) := by
  have hlen := (isSortOf_sortByName (childrenOf wt dir)).1.length_eq
  have hsort : sortByName ((childrenOf wt dir).map (recordOf sub)) =
      (sortByName (childrenOf wt dir)).map (recordOf sub) := by
    refine (List.map_insertionSort _ _ (recordOf sub) _ ?_).symm
    intro a _ b _
    rw [recordOf_fst, recordOf_fst]
  have hshort : ∀ c ∈ (sortByName (childrenOf wt dir)).map (recordOf sub), narrowName c = c := by
    intro c hc
    obtain ⟨d, hd, rfl⟩ := List.mem_map.1 hc
    obtain ⟨hraw, -, -⟩ := mem_childrenOf.1 ((isSortOf_sortByName _).1.mem_iff.1 hd)
    have hgood : GoodPath (dir ++ [d.1]) := hnamed _ (by simp [hraw])
    refine narrowName_of_lt ?_
    rw [recordOf_fst]
    exact (hgood d.1 (by simp)).2
  rw [deserializeTreeEntries_serializeTreeEntries, hsort, List.length_map,
    Nat.mod_eq_of_lt (hfit.count_lt dir), ← hlen, ← List.length_map (recordOf sub),
    List.take_length]
  exact congrArg some ((List.map_congr_left hshort).trans (List.map_id _))

/-! ## What is read back -/

section ReadBack

variable [Blake3] {wt : WorkingTree} {s : ObjectStore} (hnamed : wt.WellNamed)
  (hfit : wt.WritesFit) (hc : s.collided = false)
include hnamed hfit hc

/-- The object of a directory holds the records of its children. -/
theorem DirObject.dirEntries {dir : FsPath} {h : Hash} (hd : DirObject wt s dir h) :
    ∃ sub, s.dirEntries h = some ((sortByName (childrenOf wt dir)).map (recordOf sub)) ∧
      ∀ c ∈ sortByName (childrenOf wt dir), c ∈ childrenOf wt dir ∧
        (c.2.kind = .tree → DirObject wt s (dir ++ [c.1]) (sub c)) := by
  obtain ⟨sub, -, hread, hsub⟩ := hd
  refine ⟨sub, ?_, fun c hcc => ?_⟩
  · unfold ObjectStore.dirEntries
    rw [hread hc]
    exact deserializeTreeEntries_records hnamed hfit dir sub
  · have hmem := (isSortOf_sortByName _).1.mem_iff.1 hcc
    exact ⟨hmem, hsub c hmem⟩

theorem DirObject.readable {dir : FsPath} {h : Hash} (hd : DirObject wt s dir h) :
    Readable s h := by
  induction hd with
  | @dir dir h sub _ hread _ ih =>
      have hes : s.dirEntries h = some ((sortByName (childrenOf wt dir)).map (recordOf sub)) := by
        unfold ObjectStore.dirEntries
        rw [hread hc]
        exact deserializeTreeEntries_records hnamed hfit dir sub
      refine .dir hes fun x hx hk => ?_
      obtain ⟨c, hcc, rfl⟩ := List.mem_map.1 hx
      rw [recordOf_kind] at hk
      rw [recordOf_hash hk]
      exact ih c ((isSortOf_sortByName _).1.mem_iff.1 hcc) hk

/-- What an object shows is linked. -/
theorem DirObject.linked_of_inTree {dir p : FsPath} {h : Hash} {e' : WorkingTreeEntry}
    (hd : DirObject wt s dir h) (hin : InTree s h p e') :
    ∃ e, Linked wt dir p e ∧ SameView e e' := by
  induction hin generalizing dir with
  | here hes hx =>
      obtain ⟨sub, hes', hall⟩ := hd.dirEntries hnamed hfit hc
      rw [hes', Option.some.injEq] at hes
      subst hes
      obtain ⟨c, hcc, rfl⟩ := List.mem_map.1 hx
      rw [recordOf_fst]
      exact ⟨c.2, .here (hall c hcc).1, sameView_recordOf sub c⟩
  | inside hes hx hk _ ih =>
      obtain ⟨sub, hes', hall⟩ := hd.dirEntries hnamed hfit hc
      rw [hes', Option.some.injEq] at hes
      subst hes
      obtain ⟨c, hcc, rfl⟩ := List.mem_map.1 hx
      rw [recordOf_kind] at hk
      rw [recordOf_hash hk] at ih
      obtain ⟨e, hlinked, hview⟩ := ih ((hall c hcc).2 hk)
      rw [recordOf_fst]
      exact ⟨e, .inside (hall c hcc).1 hk hlinked, hview⟩

/-- What is linked is shown. -/
theorem DirObject.inTree_of_linked {dir p : FsPath} {h : Hash} {e : WorkingTreeEntry}
    (hd : DirObject wt s dir h) (hl : Linked wt dir p e) :
    ∃ e', InTree s h p e' ∧ SameView e e' := by
  induction hl generalizing h with
  | @here dir c hcc =>
      obtain ⟨sub, hes, -⟩ := hd.dirEntries hnamed hfit hc
      have hmem := (isSortOf_sortByName _).1.mem_iff.2 hcc
      have hin := InTree.here hes (List.mem_map_of_mem hmem)
      rw [recordOf_fst] at hin
      exact ⟨_, hin, sameView_recordOf sub c⟩
  | @inside dir c p e hcc hkind _ ih =>
      obtain ⟨sub, hes, hall⟩ := hd.dirEntries hnamed hfit hc
      have hmem := (isSortOf_sortByName _).1.mem_iff.2 hcc
      obtain ⟨e', hin, hview⟩ := ih ((hall c hmem).2 hkind)
      have hhash : (recordOf sub c).2.hash = sub c := recordOf_hash hkind
      rw [← hhash] at hin
      have hin' := InTree.inside hes (List.mem_map_of_mem hmem) ((recordOf_kind sub c).trans hkind) hin
      rw [recordOf_fst] at hin'
      exact ⟨e', hin', hview⟩

theorem DirObject.singleValued {dir : FsPath} {h : Hash} (hd : DirObject wt s dir h) :
    SingleValued s h := by
  intro p e e' hin hin'
  induction hin generalizing dir with
  | @here h es x hes hx =>
      obtain ⟨sub, hes', hall⟩ := hd.dirEntries hnamed hfit hc
      rw [hes', Option.some.injEq] at hes
      subst hes
      obtain ⟨c, hcc, rfl⟩ := List.mem_map.1 hx
      obtain ⟨y, hy, ⟨hname, rfl⟩ | ⟨rest, hname, -, hrest⟩⟩ := (inTree_iff_of_dirEntries hes').1 hin'
      · obtain ⟨d, hdd, rfl⟩ := List.mem_map.1 hy
        simp only [recordOf_fst, List.cons.injEq, and_true] at hname
        rw [childrenOf_unique (hall c hcc).1 (hall d hdd).1 hname]
      · rw [← (List.cons.inj hname).2] at hrest
        exact absurd rfl hrest.ne_nil
  | @inside h es x p e hes hx hk hp ih =>
      obtain ⟨sub, hes', hall⟩ := hd.dirEntries hnamed hfit hc
      rw [hes', Option.some.injEq] at hes
      subst hes
      obtain ⟨c, hcc, rfl⟩ := List.mem_map.1 hx
      obtain ⟨y, hy, ⟨hname, -⟩ | ⟨rest, hname, hk', hrest⟩⟩ :=
        (inTree_iff_of_dirEntries hes').1 hin'
      · exact absurd (List.cons.inj hname).2 hp.ne_nil
      · obtain ⟨d, hdd, rfl⟩ := List.mem_map.1 hy
        obtain ⟨hcd, rfl⟩ := List.cons.inj hname
        rw [recordOf_fst, recordOf_fst] at hcd
        obtain rfl := childrenOf_unique (hall c hcc).1 (hall d hdd).1 hcd
        rw [recordOf_kind] at hk
        rw [recordOf_hash hk] at hrest ih
        exact ih ((hall c hcc).2 hk) hrest

/-- A directory whose object can be read with one call: it is short enough, and the objects of its
subdirectories can be read too. -/
theorem DirObject.fits_of_readable {dir : FsPath} {h : Hash} (hd : DirObject wt s dir h)
    (hr : Readable s.cutReads h) :
    ObjectTag.tree.bytes.length + bodySize wt dir ≤ maxRwCount ∧
      ∀ c ∈ childrenOf wt dir, c.2.kind = .tree →
        ∃ h', DirObject wt s (dir ++ [c.1]) h' ∧ Readable s.cutReads h' := by
  obtain ⟨sub, -, hread, hsub⟩ := hd
  obtain ⟨hes, hall⟩ := hr
  rename_i es
  have hcut := readTree_cutReads (hread hc)
  rw [length_serializeTreeEntries_recordOf] at hcut
  unfold ObjectStore.dirEntries at hes
  rw [hcut] at hes
  show ObjectTag.tree.bytes.length + (serializeTreeEntries (childrenOf wt dir)).length ≤ _ ∧ _
  split at hes
  · cases hes
  · rename_i body hbody
    split at hbody
    · rename_i hshort
      cases hbody
      refine ⟨hshort, fun c hcc hk => ⟨sub c, hsub c hcc hk, ?_⟩⟩
      rw [deserializeTreeEntries_records hnamed hfit, Option.some_inj] at hes
      have hmem : recordOf sub c ∈ es := by
        rw [← hes]
        exact List.mem_map_of_mem ((isSortOf_sortByName _).1.mem_iff.2 hcc)
      have hrest := hall _ hmem ((recordOf_kind sub c).trans hk)
      rwa [recordOf_hash hk] at hrest
    · cases hbody

end ReadBack

/-- Where the objects of all live directories are short enough, one call reads them. -/
theorem DirObject.cutReads [Blake3] {wt : WorkingTree} {s : ObjectStore} (hfit : wt.ReadsFit)
    {dir : FsPath} {h : Hash} (hd : DirObject wt s dir h) (hdir : dir = [] ∨ wt.IsDirAt dir) :
    DirObject wt s.cutReads dir h := by
  induction hd with
  | @dir dir h sub hhash hread _ ih =>
      refine .dir sub hhash (fun hc => ?_) fun c hcc hk => ih c hcc hk (Or.inr ?_)
      · rw [readTree_cutReads (hread hc), length_serializeTreeEntries_recordOf]
        exact if_pos (hfit dir hdir)
      · refine ⟨c.2, lookup_eq_some.2 ⟨(mem_childrenOf.1 hcc).1, ?_⟩, hk⟩
        rw [hk]
        exact EntryKind.noConfusion

/-- A walk that ends with a map could read all that is below its stack. -/
theorem readable_of_rebuildLoop {s : ObjectStore} {fuel : Nat} {stack : List (Hash × FsPath)}
    {scratch m : EntryMap} (h : rebuildLoop s fuel stack scratch = some (.ok m)) :
    ∀ x ∈ stack, Readable s x.1 := by
  induction fuel generalizing stack scratch with
  | zero => cases h
  | succ fuel ih =>
      cases stack with
      | nil => exact fun x hx => (by cases hx)
      | cons top stack =>
          obtain ⟨hash, pre⟩ := top
          obtain ⟨es, hes, hrest⟩ := exists_dirEntries_of_rebuildLoop_ok h
          have hall := ih hrest
          intro x hx
          rcases List.mem_cons.1 hx with rfl | hx
          · refine .dir hes fun c hc hk => ?_
            exact hall (c.2.hash, pre ++ [c.1]) (mem_pushDirs.2 (Or.inr ⟨c, hc, hk, rfl⟩))
          · exact hall x (mem_pushDirs.2 (Or.inl hx))

theorem readable_of_rebuildWorkingTree {s : ObjectStore} {fuel : Nat} {root : Hash}
    {wt wt' : WorkingTree} (h : rebuildWorkingTree fuel root s wt = some (.ok wt')) :
    Readable s root := by
  unfold rebuildWorkingTree at h
  split at h
  · cases h
  · cases h
  · rename_i m hloop
    exact readable_of_rebuildLoop hloop (root, []) List.mem_cons_self

/-! ## The round trip -/

/-- `wt'` is what a round trip of `wt` should give: the same live paths with the same kind, mode
and leaf hash, and in the root and in every live directory the same records, tombstones
included. -/
structure RoundTrips (wt wt' : WorkingTree) : Prop where
  live : ∀ p, Option.Rel SameView (wt.lookup p) (wt'.lookup p)
  recorded : ∀ p, p ≠ [] → wt.HasParent p → Option.Rel SameView (wt.lookupRaw p) (wt'.lookupRaw p)

/-- What is linked to a linked directory is linked. -/
theorem Linked.append {wt : WorkingTree} {dir p q : FsPath} {d e : WorkingTreeEntry}
    (hp : Linked wt dir p d) (hk : d.kind = .tree) (hq : Linked wt (dir ++ p) q e) :
    Linked wt dir (p ++ q) e := by
  induction hp with
  | here hc => exact .inside hc hk hq
  | inside hc hkc _ ih => exact .inside hc hkc (ih hk (by simpa using hq))

section RoundTrip

variable {wt : WorkingTree} (hclosed : wt.Closed) (hnamed : wt.WellNamed)
  (hfull : ∀ p e, wt.lookup p = some e → e.isNullLeaf = false)
include hclosed hnamed hfull

/-- In a closed tree everything recorded in a live directory is linked to the root. -/
theorem linked_of_hasParent {p : FsPath} {e : WorkingTreeEntry} (hp : p ≠ [])
    (hparent : wt.HasParent p) (hraw : wt.lookupRaw p = some e) : Linked wt [] p e := by
  have hsplit : p.dropLast ++ [p.getLast hp] = p := List.dropLast_append_getLast hp
  have hgood : GoodPath p := hnamed p (by simp [hraw])
  have hnull : e.isNullLeaf = false := by
    by_cases hk : e.kind = .deleted
    · simp [WorkingTreeEntry.isNullLeaf, WorkingTreeEntry.isLeaf, hk]
    · exact hfull p e (lookup_eq_some.2 ⟨hraw, hk⟩)
  have hchild : (p.getLast hp, e) ∈ childrenOf wt p.dropLast :=
    mem_childrenOf.2 ⟨by rw [hsplit]; exact hraw, hnull, (hgood _ (List.getLast_mem hp)).1⟩
  have hlast : Linked wt p.dropLast [p.getLast hp] e := .here hchild
  rcases hparent with hroot | ⟨d, hd, hdir⟩
  · rw [hroot] at hlast hsplit
    rw [← hsplit]
    exact hlast
  · by_cases hroot : p.dropLast = []
    · rw [hroot] at hlast hsplit
      rw [← hsplit]
      exact hlast
    · have hk : d.kind = .tree := hdir
      have hgood' : ∀ n ∈ p.dropLast, n ≠ [] := fun n hn => (hgood n (List.mem_of_mem_dropLast hn)).1
      have hl : Linked wt [] p.dropLast d :=
        hclosed.linked hroot (by simpa using hd) (hfull _ _ hd) hgood'
      have happ := hl.append hk (by simpa using hlast)
      rwa [hsplit] at happ

variable [Blake3] {s : ObjectStore} (hfit : wt.WritesFit) (hc : s.collided = false) {root : Hash}
  (hobj : DirObject wt s [] root)
include hfit hc hobj

/-- What is read back is the tree. -/
theorem roundTrips_of_inTree {wt' : WorkingTree} (hroot : wt.lookup [] = none)
    (hraw' : ∀ p e, wt'.lookupRaw p = some e ↔ InTree s root p e) : RoundTrips wt wt' := by
  -- what is found in the rebuilt tree was in this one
  have hback : ∀ {p : FsPath} {e' : WorkingTreeEntry}, wt'.lookupRaw p = some e' →
      ∃ e, wt.lookupRaw p = some e ∧ SameView e e' := by
    intro p e' hp
    obtain ⟨e, hlinked, hview⟩ := hobj.linked_of_inTree hnamed hfit hc ((hraw' p e').1 hp)
    exact ⟨e, by simpa using hlinked.lookupRaw_eq, hview⟩
  have hrecorded : ∀ p, p ≠ [] → wt.HasParent p →
      Option.Rel SameView (wt.lookupRaw p) (wt'.lookupRaw p) := by
    intro p hp hparent
    cases hraw : wt.lookupRaw p with
    | some e =>
        have hl := linked_of_hasParent hclosed hnamed hfull hp hparent hraw
        obtain ⟨e', hin, hview⟩ := hobj.inTree_of_linked hnamed hfit hc hl
        rw [(hraw' p e').2 hin]
        exact .some hview
    | none =>
        cases hp' : wt'.lookupRaw p with
        | none => exact .none
        | some e' =>
            obtain ⟨e, he, -⟩ := hback hp'
            rw [hraw] at he
            cases he
  refine ⟨fun p => ?_, hrecorded⟩
  cases hlive : wt.lookup p with
  | some e =>
      obtain ⟨hraw, hk⟩ := lookup_eq_some.1 hlive
      have hp : p ≠ [] := by
        rintro rfl
        rw [hroot] at hlive
        cases hlive
      have hrel := hrecorded p hp (pathClosed_iff_parentDir.1 hclosed p e hlive)
      rw [hraw] at hrel
      cases hp' : wt'.lookupRaw p with
      | none =>
          rw [hp'] at hrel
          cases hrel
      | some e' =>
          rw [hp'] at hrel
          obtain hview : SameView e e' := by
            cases hrel with
            | some hview => exact hview
          rw [lookup_eq_some.2 ⟨hp', hview.1 ▸ hk⟩]
          exact .some hview
  | none =>
      cases hlive' : wt'.lookup p with
      | none => exact .none
      | some e' =>
          obtain ⟨hp', hk'⟩ := lookup_eq_some.1 hlive'
          obtain ⟨e, he, hview⟩ := hback hp'
          rw [lookup_eq_some.2 ⟨he, hview.1 ▸ hk'⟩] at hlive
          cases hlive

/-- A tree that can be read back has no directory with an object that is too long. -/
theorem readsFit_of_readable (hr : Readable s.cutReads root) : wt.ReadsFit := by
  have hbelow : ∀ {dir p : FsPath} {d : WorkingTreeEntry} {h : Hash}, DirObject wt s dir h →
      Readable s.cutReads h → Linked wt dir p d → d.kind = .tree →
        ObjectTag.tree.bytes.length + bodySize wt (dir ++ p) ≤ maxRwCount := by
    intro dir p d h hd hread hl hk
    induction hl generalizing h with
    | here hcc =>
        obtain ⟨h', hd', hr'⟩ := (hd.fits_of_readable hnamed hfit hc hread).2 _ hcc hk
        exact (hd'.fits_of_readable hnamed hfit hc hr').1
    | @inside dir c p e hcc hkc _ ih =>
        obtain ⟨h', hd', hr'⟩ := (hd.fits_of_readable hnamed hfit hc hread).2 _ hcc hkc
        have hrest := ih hd' hr' hk
        rwa [List.append_assoc, List.singleton_append] at hrest
  rintro dir (rfl | ⟨d, hd, hk⟩)
  · exact (hobj.fits_of_readable hnamed hfit hc hr).1
  · by_cases hroot : dir = []
    · rw [hroot]
      exact (hobj.fits_of_readable hnamed hfit hc hr).1
    · have hgood : GoodPath dir := hnamed dir (by simp [(lookup_eq_some.1 hd).1])
      have hl : Linked wt [] dir d :=
        hclosed.linked hroot hd (hfull _ _ hd) fun n hn => (hgood n hn).1
      have hsize := hbelow hobj hr hl hk
      rwa [List.nil_append] at hsize

end RoundTrip

/-- Serialising and rebuilding.  A closed tree with good paths and no live leaf without content,
all of whose objects could be written, comes back from its root hash exactly when the objects of its
live directories can be read with one call each; and the root hash is the same for any two trees
with the same raw view. -/
theorem serializeWorkingTree_roundTrip [Blake3] :
    (∀ (wt wt₀ : WorkingTree) (s s' : ObjectStore), wt.Closed → wt.WellNamed →
      wt.lookupRaw [] = none → (∀ p e, wt.lookup p = some e → e.isNullLeaf = false) →
      wt.WritesFit → (serializeWorkingTree wt s).root ≠ zeroHash →
      Extends (serializeWorkingTree wt s).store s' → s'.collided = false →
      ((∃ n wt', (∀ fuel ≥ n, rebuildWorkingTree fuel (serializeWorkingTree wt s).root s'.cutReads
          wt₀ = some (.ok wt')) ∧ RoundTrips wt wt') ↔ wt.ReadsFit)) ∧
    ∀ (wt₁ wt₂ : WorkingTree) (s₁ s₂ : ObjectStore), (∀ p, wt₁.lookupRaw p = wt₂.lookupRaw p) →
      (serializeWorkingTree wt₁ s₁).root ≠ zeroHash →
      (serializeWorkingTree wt₂ s₂).root ≠ zeroHash →
      (serializeWorkingTree wt₁ s₁).root = (serializeWorkingTree wt₂ s₂).root := by
  constructor
  · intro wt wt₀ s s' hclosed hnamed hroot hfull hfit hok he hc
    have hobj : DirObject wt s' [] (serializeWorkingTree wt s).root :=
      ((writeRule_dirObject wt).serializeWorkingTree hok).mono he
    constructor
    · rintro ⟨n, wt', hrebuild, -⟩
      exact readsFit_of_readable hclosed hnamed hfull hfit hc hobj
        (readable_of_rebuildWorkingTree (hrebuild n (Nat.le_refl n)))
    · intro hreads
      have hcut := hobj.cutReads hreads (Or.inl rfl)
      have hc' : s'.cutReads.collided = false := hc
      obtain ⟨n, m, hm⟩ := (hcut.readable hnamed hfit hc').exists_rebuildWorkingTree wt₀
      have hraw' := lookupRaw_rebuildWorkingTree (hm n (Nat.le_refl n))
        (hcut.singleValued hnamed hfit hc')
      have hlive : wt.lookup [] = none := by
        unfold WorkingTree.lookup
        rw [hroot]
      exact ⟨n, wt₀.setBase m, hm,
        roundTrips_of_inTree hclosed hnamed hfull hfit hc' hcut hlive hraw'⟩
  · intro wt₁ wt₂ s₁ s₂ hraw hok₁ hok₂
    have hobj₁ := (writeRule_dirObject wt₁).serializeWorkingTree hok₁
    have hobj₂ := (writeRule_dirObject wt₂).serializeWorkingTree hok₂
    exact hobj₁.hash_eq hobj₂ (linksInto_of_lookupRaw_eq hraw [])
      (linksInto_of_lookupRaw_eq (fun p => (hraw p).symm) [])

/-! ## A split tree -/

section Split

local instance splitDigest : Blake3 := foldDigest

def storedDir : WorkingTreeEntry := ⟨.tree, zeroHash, 0o40755⟩

def storedFile : WorkingTreeEntry := ⟨.blob, Hash.ofBytes (List.replicate 32 1), 0o100644⟩

/-- `/a`, `/a.b` and a tombstone for `/a/x` over a base that has the file. -/
def overBase : WorkingTree :=
  ((({} : WorkingTree).insert [[97]] storedDir).insert [[97], [120]] storedFile).insert
    [[97, 46, 98]] storedFile |>.foldIntoBase.remove [[97], [120]]

/-- The same entries without a base, recorded in another order. -/
def overNothing : WorkingTree :=
  ((({} : WorkingTree).remove [[97], [120]]).insert [[97, 46, 98]] storedFile).insert
    [[97]] storedDir

theorem lookupRaw_overBase (p : FsPath) : overBase.lookupRaw p =
    if p = [[97], [120]] then some whiteout
    else if p = [[97, 46, 98]] then some storedFile
    else if p = [[97]] then some storedDir else none := by
  by_cases hx : p = [[97], [120]]
  · subst hx
    decide +kernel
  · rw [overBase, lookupRaw_remove_of_ne _ (Ne.symm hx), lookupRaw_foldIntoBase, lookupRaw_insert,
      lookupRaw_insert, lookupRaw_insert, lookupRaw_empty]
    simp [eq_comm, hx]

theorem lookupRaw_overNothing (p : FsPath) : overNothing.lookupRaw p = overBase.lookupRaw p := by
  rw [lookupRaw_overBase]
  by_cases hx : p = [[97], [120]]
  · subst hx
    decide +kernel
  · rw [overNothing, lookupRaw_insert, lookupRaw_insert, lookupRaw_remove_of_ne _ (Ne.symm hx),
      lookupRaw_empty]
    by_cases ha : p = [[97]]
    · subst ha
      rfl
    · simp [eq_comm, hx, ha]

/-- No entry is longer than its name can be. -/
theorem bodySize_le (wt : WorkingTree) (dir : FsPath) :
    bodySize wt dir ≤ 4 + wt.entries.length * 65574 := by
  have hentry : ∀ x ∈ (childrenOf wt dir).map (fun c => 39 + c.1.length % 2 ^ 16), x ≤ 65574 := by
    intro x hx
    obtain ⟨c, -, rfl⟩ := List.mem_map.1 hx
    omega
  have hsum := List.sum_le_card_nsmul _ _ hentry
  have hcount : (childrenOf wt dir).length ≤ wt.entries.length :=
    (List.length_filterMap_le _ _).trans (List.length_filter_le _ _)
  rw [List.length_map, smul_eq_mul] at hsum
  rw [bodySize, length_serializeTreeEntries]
  exact Nat.add_le_add_left (hsum.trans (Nat.mul_le_mul_right _ hcount)) 4

theorem serializeWorkingTree_roundTrip_split :
    (∃ n wt', (∀ fuel ≥ n, rebuildWorkingTree fuel (serializeWorkingTree overBase {}).root
        (serializeWorkingTree overBase {}).store.cutReads {} = some (.ok wt')) ∧
        RoundTrips overBase wt') ∧
      (serializeWorkingTree overBase {}).root = (serializeWorkingTree overNothing {}).root := by
  have hlive : ∀ p e, overBase.lookup p = some e →
      p = [[97, 46, 98]] ∧ e = storedFile ∨ p = [[97]] ∧ e = storedDir := by
    intro p e hp
    obtain ⟨hraw, hk⟩ := lookup_eq_some.1 hp
    rw [lookupRaw_overBase] at hraw
    split_ifs at hraw with hx hab ha
    · cases hraw
      exact absurd rfl hk
    · exact Or.inl ⟨hab, (Option.some.inj hraw).symm⟩
    · exact Or.inr ⟨ha, (Option.some.inj hraw).symm⟩
  have hclosed : overBase.Closed := by
    refine pathClosed_iff_parentDir.2 fun p e hp => Or.inl ?_
    rcases hlive p e hp with ⟨rfl, -⟩ | ⟨rfl, -⟩
    · rfl
    · rfl
  have hnamed : overBase.WellNamed := by
    intro p hp
    rw [lookupRaw_overBase] at hp
    split_ifs at hp with hx hab ha
    · subst hx
      simp [GoodPath, GoodName]
    · subst hab
      simp [GoodPath, GoodName]
    · subst ha
      simp [GoodPath, GoodName]
    · exact absurd rfl hp
  have hfull : ∀ p e, overBase.lookup p = some e → e.isNullLeaf = false := by
    intro p e hp
    rcases hlive p e hp with ⟨-, rfl⟩ | ⟨-, rfl⟩
    · decide
    · decide
  -- three records make no long object
  have hsmall : ∀ dir, bodySize overBase dir ≤ 200000 := by
    intro dir
    have hle := bodySize_le overBase dir
    have hlen : overBase.entries.length = 3 := by decide +kernel
    rw [hlen] at hle
    exact hle.trans (by norm_num)
  have hwrites : overBase.WritesFit := fun dir => (hsmall dir).trans (by decide)
  have hreads : overBase.ReadsFit := fun dir _ =>
    (Nat.add_le_add_left (hsmall dir) _).trans (by decide)
  have hok : (serializeWorkingTree overBase {}).root ≠ zeroHash := by decide +kernel
  have hiff := serializeWorkingTree_roundTrip.1 overBase {} {} _ hclosed hnamed (by decide +kernel)
    hfull hwrites hok (.refl _) (by decide +kernel)
  refine ⟨hiff.2 hreads, ?_⟩
  exact serializeWorkingTree_roundTrip.2 overBase overNothing {} {}
    (fun p => (lookupRaw_overNothing p).symm) hok (by decide +kernel)

end Split

/-! ## A directory with an object too long to read -/

section Long

/-- A name for each number below `2 ^ 30`: one letter for each bit. -/
def bitName (i : Nat) : Name := (List.range 30).map fun k => if i.testBit k then 98 else 97

/-- Files with the first `n` of these names. -/
def filesBelow (n : Nat) : EntryMap :=
  (List.range n).foldl (fun m i => m.insert [bitName i] storedFile) ∅

/-- The root of the tree holds `n` files. -/
def wideTree (n : Nat) : WorkingTree := ({} : WorkingTree).setBase (filesBelow n)

theorem bitName_inj {i j : Nat} (hi : i < 2 ^ 30) (hj : j < 2 ^ 30) (h : bitName i = bitName j) :
    i = j := by
  refine Nat.eq_of_testBit_eq fun k => ?_
  by_cases hk : k < 30
  · have hbit := congrArg (fun l => l[k]?) h
    simp only [bitName, List.getElem?_map, List.getElem?_range hk, Option.map_some,
      Option.some.injEq] at hbit
    cases hik : i.testBit k <;> cases hjk : j.testBit k <;> simp [hik, hjk] at hbit ⊢
  · have hle : 2 ^ 30 ≤ 2 ^ k := Nat.pow_le_pow_right (by norm_num) (by omega)
    rw [Nat.testBit_lt_two_pow (hi.trans_le hle), Nat.testBit_lt_two_pow (hj.trans_le hle)]

@[simp] theorem length_bitName (i : Nat) : (bitName i).length = 30 := by
  simp [bitName]

theorem goodName_bitName (i : Nat) : GoodName (bitName i) := by
  refine ⟨fun h => ?_, ?_⟩
  · have hlen := length_bitName i
    rw [h] at hlen
    cases hlen
  · rw [length_bitName]
    norm_num

theorem lookupRaw_wideTree {n : Nat} {p : FsPath} {e : WorkingTreeEntry} :
    (wideTree n).lookupRaw p = some e ↔ e = storedFile ∧ ∃ i < n, p = [bitName i] := by
  rw [wideTree, lookupRaw_setBase]
  induction n with
  | zero => simp [filesBelow]
  | succ n ih =>
      have hstep : filesBelow (n + 1) = (filesBelow n).insert [bitName n] storedFile := by
        rw [filesBelow, List.range_succ, List.foldl_append]
        rfl
      rw [hstep, ExtTreeMap.getElem?_insert]
      simp only [Std.compare_eq_iff_eq]
      by_cases hp : [bitName n] = p
      · rw [if_pos hp]
        constructor
        · intro he
          exact ⟨(Option.some.inj he).symm, n, Nat.lt_succ_self n, hp.symm⟩
        · rintro ⟨rfl, -⟩
          rfl
      · rw [if_neg hp, ih]
        constructor
        · rintro ⟨he, i, hi, hpi⟩
          exact ⟨he, i, by omega, hpi⟩
        · rintro ⟨he, i, hi, hpi⟩
          refine ⟨he, i, ?_, hpi⟩
          have hin : i ≠ n := by
            rintro rfl
            exact hp hpi.symm
          omega

theorem mem_childrenOf_wideTree {n : Nat} {dir : FsPath} {c : DirEntry} :
    c ∈ childrenOf (wideTree n) dir ↔ dir = [] ∧ ∃ i < n, c = (bitName i, storedFile) := by
  rw [mem_childrenOf, lookupRaw_wideTree]
  constructor
  · rintro ⟨⟨he, i, hi, hp⟩, -, -⟩
    obtain ⟨hdir, hname⟩ := List.append_eq_singleton_iff.1 hp |>.resolve_right (by simp)
    exact ⟨hdir, i, hi, Prod.ext (List.cons.inj hname).1 he⟩
  · rintro ⟨rfl, i, hi, rfl⟩
    exact ⟨⟨rfl, i, hi, rfl⟩, rfl, (goodName_bitName i).1⟩

/-- The root has `n` children as long as there are names for them. -/
theorem length_childrenOf_wideTree {n : Nat} (hn : n ≤ 2 ^ 30) :
    (childrenOf (wideTree n) []).length = n := by
  have hinj : ∀ i ∈ List.range n, ∀ j ∈ List.range n,
      (bitName i, storedFile) = (bitName j, storedFile) → i = j := by
    intro i hi j hj heq
    exact bitName_inj ((List.mem_range.1 hi).trans_le hn) ((List.mem_range.1 hj).trans_le hn)
      (Prod.mk.inj heq).1
  have hnodup : ((List.range n).map fun i => (bitName i, storedFile)).Nodup :=
    List.Nodup.map_on hinj List.nodup_range
  have hperm : (childrenOf (wideTree n) []).Perm
      ((List.range n).map fun i => (bitName i, storedFile)) := by
    refine (List.perm_ext_iff_of_nodup (nodup_childrenOf _ _).of_map hnodup).2 fun c => ?_
    rw [mem_childrenOf_wideTree, List.mem_map]
    constructor
    · rintro ⟨-, i, hi, rfl⟩
      exact ⟨i, List.mem_range.2 hi, rfl⟩
    · rintro ⟨i, hi, rfl⟩
      exact ⟨rfl, i, List.mem_range.1 hi, rfl⟩
  rw [hperm.length_eq, List.length_map, List.length_range]

theorem dirPaths_wideTree {n : Nat} (hn : 0 < n) : dirPaths (wideTree n) = [[]] := by
  have hmem : ∀ dir, dir ∈ dirPaths (wideTree n) ↔ dir = [] := by
    intro dir
    rw [mem_dirPaths]
    constructor
    · rintro (hne | ⟨e, hraw, hk⟩)
      · obtain ⟨c, hcc⟩ := List.exists_mem_of_ne_nil _ hne
        exact (mem_childrenOf_wideTree.1 hcc).1
      · obtain ⟨rfl, -⟩ := lookupRaw_wideTree.1 hraw
        cases hk
    · rintro rfl
      exact Or.inl (List.ne_nil_of_mem (mem_childrenOf_wideTree.2 ⟨rfl, 0, hn, rfl⟩))
  have hempty : (wideTree n).liveEntries.filter (fun pe => pe.2.kind = .tree &&
      !(groupByParent (serializedEntries (wideTree n))).contains pe.1) = [] := by
    refine List.filter_eq_nil_iff.2 fun pe hpe => ?_
    obtain ⟨hraw, -⟩ := lookup_eq_some.1 (mem_liveEntries.1 hpe)
    obtain ⟨he, -⟩ := lookupRaw_wideTree.1 hraw
    simp [he, storedFile]
  have hnodup : (dirPaths (wideTree n)).Nodup := by
    rw [dirPaths, hempty, List.map_nil, List.append_nil, (List.perm_insertionSort _ _).nodup_iff]
    exact ExtTreeMap.nodup_keys
  have hrep := List.eq_replicate_of_mem fun dir hdir => (hmem dir).1 hdir
  have hlen : (dirPaths (wideTree n)).length ≤ 1 := by
    rw [hrep] at hnodup
    exact List.nodup_replicate.1 hnodup
  have hpos : 0 < (dirPaths (wideTree n)).length :=
    List.length_pos_of_mem ((hmem []).2 rfl)
  rw [hrep, show (dirPaths (wideTree n)).length = 1 by omega]
  rfl

/-- A digest that tells no contents apart; with a single object there is nothing to tell apart. -/
local instance constDigest : Blake3 := ⟨fun _ => storedFile.hash⟩

theorem serialize_wideTree {n : Nat} (hn : 0 < n) :
    (serializeWorkingTree (wideTree n) {}).root = storedFile.hash ∧
      (serializeWorkingTree (wideTree n) {}).store.collided = false := by
  have hwrite : ∀ body, (({} : ObjectStore).writeTree body).2 = storedFile.hash ∧
      (({} : ObjectStore).writeTree body).1.collided = false := by
    intro body
    simp [writeTree, writeObject, startWrite, nextFault, interleave, adopt, publish, objectHash,
      digest]
  have hne : storedFile.hash ≠ zeroHash := by decide
  unfold serializeWorkingTree
  rw [dirPaths_wideTree hn]
  simp [ContextFS.serializeDirs, SerializeState.record, hwrite, hne]

theorem wellNamed_wideTree (n : Nat) : (wideTree n).WellNamed := by
  intro p hp
  obtain ⟨e, hraw⟩ := Option.ne_none_iff_exists'.1 hp
  obtain ⟨-, i, -, rfl⟩ := lookupRaw_wideTree.1 hraw
  intro m hm
  rw [List.mem_singleton.1 hm]
  exact goodName_bitName i

theorem closed_wideTree (n : Nat) : (wideTree n).Closed := by
  refine pathClosed_iff_parentDir.2 fun p e hp => Or.inl ?_
  obtain ⟨-, i, -, rfl⟩ := lookupRaw_wideTree.1 (lookup_eq_some.1 hp).1
  rfl

theorem lookup_wideTree (n : Nat) : (wideTree n).lookupRaw [] = none ∧
    ∀ p e, (wideTree n).lookup p = some e → e.isNullLeaf = false := by
  constructor
  · cases hraw : (wideTree n).lookupRaw [] with
    | none => rfl
    | some e =>
        obtain ⟨-, i, -, hp⟩ := lookupRaw_wideTree.1 hraw
        cases hp
  · intro p e hp
    obtain ⟨rfl, -⟩ := lookupRaw_wideTree.1 (lookup_eq_some.1 hp).1
    rfl

theorem bodySize_wideTree_root {n : Nat} (hn : n ≤ 2 ^ 30) :
    bodySize (wideTree n) [] = 4 + n * 69 := by
  have hsize : ∀ c ∈ childrenOf (wideTree n) [], 39 + c.1.length % 2 ^ 16 = 69 := by
    intro c hc
    obtain ⟨-, i, -, rfl⟩ := mem_childrenOf_wideTree.1 hc
    simp
  rw [bodySize, length_serializeTreeEntries, List.map_congr_left hsize, List.map_const',
    List.sum_replicate, length_childrenOf_wideTree hn, smul_eq_mul]

theorem bodySize_wideTree_of_ne {n : Nat} {dir : FsPath} (hdir : dir ≠ []) :
    bodySize (wideTree n) dir = 4 := by
  have hnil : childrenOf (wideTree n) dir = [] :=
    List.eq_nil_iff_forall_not_mem.2 fun c hc => hdir (mem_childrenOf_wideTree.1 hc).1
  rw [bodySize, length_serializeTreeEntries, hnil]
  rfl

/-- A root object that is written but not read whole leaves nothing to rebuild from. -/
theorem rebuild_wideTree {n : Nat} (hn : 0 < n) (hwrites : (wideTree n).WritesFit)
    (hlong : maxRwCount < ObjectTag.tree.bytes.length + bodySize (wideTree n) []) :
    (serializeWorkingTree (wideTree n) {}).root ≠ zeroHash ∧
      ∀ fuel wt wt', rebuildWorkingTree fuel (serializeWorkingTree (wideTree n) {}).root
        (serializeWorkingTree (wideTree n) {}).store.cutReads wt ≠ some (.ok wt') := by
  obtain ⟨hhash, hc⟩ := serialize_wideTree hn
  have hok : (serializeWorkingTree (wideTree n) {}).root ≠ zeroHash := by
    rw [hhash]
    decide
  refine ⟨hok, fun fuel wt wt' hrebuild => ?_⟩
  have hobj := (writeRule_dirObject (wideTree n)).serializeWorkingTree hok
  have hshort := (hobj.fits_of_readable (wellNamed_wideTree n) hwrites hc
    (readable_of_rebuildWorkingTree hrebuild)).1
  exact absurd hshort (Nat.not_le.2 hlong)

/-- So many files that the body of the root object is as long as one `write` can move. -/
def longCount : Nat := 31122892

/-- The root object of so many files is written and can not be read: the tag makes it too long. -/
theorem longDirectory_not_roundTrips :
    (wideTree longCount).Closed ∧ (wideTree longCount).WellNamed ∧
      (wideTree longCount).lookupRaw [] = none ∧
      (∀ p e, (wideTree longCount).lookup p = some e → e.isNullLeaf = false) ∧
      (wideTree longCount).WritesFit ∧
      (serializeWorkingTree (wideTree longCount) {}).root ≠ zeroHash ∧
      (serializeWorkingTree (wideTree longCount) {}).store.collided = false ∧
      ∀ fuel wt wt', rebuildWorkingTree fuel (serializeWorkingTree (wideTree longCount) {}).root
        (serializeWorkingTree (wideTree longCount) {}).store.cutReads wt ≠ some (.ok wt') := by
  have hn : 0 < longCount := by decide
  have hroot : bodySize (wideTree longCount) [] = maxRwCount :=
    bodySize_wideTree_root (by decide)
  have hwrites : (wideTree longCount).WritesFit := by
    intro dir
    by_cases hdir : dir = []
    · rw [hdir, hroot]
    · rw [bodySize_wideTree_of_ne hdir]
      decide
  have hlong : maxRwCount < ObjectTag.tree.bytes.length + bodySize (wideTree longCount) [] := by
    rw [hroot]
    decide
  obtain ⟨hraw, hfull⟩ := lookup_wideTree longCount
  obtain ⟨hok, hlost⟩ := rebuild_wideTree hn hwrites hlong
  exact ⟨closed_wideTree _, wellNamed_wideTree _, hraw, hfull, hwrites, hok,
    (serialize_wideTree hn).2, hlost⟩

end Long

end ContextFS
