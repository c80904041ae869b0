import ContextFS.Lib.Ancestry
import ContextFS.Tree.Rebuild

/-!
# When rebuilding a tree ends

The walk of `rebuild_working_tree` keeps no set of what it has read, unlike the mark phase of the
collector over the same objects.  The last subdirectory of a directory is walked first, so the
walk comes to a subdirectory when everything below those behind it could be read.  Such a step is
*open*; the walk ends exactly when open steps lead from the root to no cycle of open steps.
-/

namespace ContextFS

open Std Lib

/-- `child` is a subdirectory in the tree object at `h`. -/
def SubdirOf (s : ObjectStore) (h child : Hash) : Prop :=
  ∃ es, s.dirEntries h = some es ∧ ∃ c ∈ es, c.2.kind = .tree ∧ c.2.hash = child

/-- Everything below `h` reads as a tree object and nothing below it is inside itself. -/
def Sound (s : ObjectStore) (h : Hash) : Prop :=
  ∀ below, Relation.ReflTransGen (SubdirOf s) h below →
    s.dirEntries below ≠ none ∧ ¬ Relation.TransGen (SubdirOf s) below below

/-- A step down that the walk takes: the subdirectories that are listed behind are sound. -/
def OpenStep (s : ObjectStore) (h child : Hash) : Prop :=
  ∃ es before c after, s.dirEntries h = some es ∧ es = before ++ c :: after ∧ c.2.kind = .tree ∧
    c.2.hash = child ∧ ∀ d ∈ after, d.2.kind = .tree → Sound s d.2.hash

/-! ## Sound trees are the readable ones -/

theorem finite_dirEntries (s : ObjectStore) : {h | s.dirEntries h ≠ none}.Finite := by
  refine (List.finite_toSet s.objects.keys).subset ?_
  intro h hdir
  refine ExtTreeMap.mem_keys.2 ?_
  by_contra hmem
  have hnone : s.objects[h]? = none := ExtTreeMap.getElem?_eq_none hmem
  refine hdir ?_
  simp [ObjectStore.dirEntries, ObjectStore.readTree, ObjectStore.readObject, hnone]

theorem SubdirOf.dirEntries {s : ObjectStore} {h child : Hash} (hsub : SubdirOf s h child) :
    s.dirEntries h ≠ none := by
  obtain ⟨es, hes, -⟩ := hsub
  rw [hes]
  exact Option.some_ne_none es

theorem readable_iff_sound {s : ObjectStore} {h : Hash} : Readable s h ↔ Sound s h := by
  constructor
  · intro hr
    have hacc : Acc (fun x y => SubdirOf s y x) h := by
      induction hr with
      | @dir h es hes _ ih =>
          refine .intro h fun child hchild => ?_
          obtain ⟨es', hes', c, hc, hk, rfl⟩ := hchild
          rw [hes, Option.some_inj] at hes'
          subst hes'
          exact ih c hc hk
    intro below hbelow
    refine ⟨?_, not_transGen_of_acc (acc_of_reflTransGen hacc hbelow)⟩
    induction hbelow using Relation.ReflTransGen.head_induction_on with
    | refl =>
        cases hr with
        | dir hes _ =>
            rw [hes]
            exact Option.some_ne_none _
    | head hstep _ ih =>
        obtain ⟨es', hes', c, hc, hk, rfl⟩ := hstep
        cases hr with
        | dir hes hsub =>
            rw [hes, Option.some_inj] at hes'
            subst hes'
            exact ih (hsub c hc hk) (hacc.inv ⟨_, hes, c, hc, hk, rfl⟩)
  · intro hs
    have hacc : Acc (fun x y => SubdirOf s y x) h :=
      (acc_iff_no_cycle (finite_dirEntries s) (fun _ _ hsub => hsub.dirEntries) h).2
        fun below hbelow => (hs below hbelow).2
    induction hacc with
    | intro h _ ih =>
        obtain ⟨es, hes⟩ := Option.ne_none_iff_exists'.1 (hs h .refl).1
        refine .dir hes fun c hc hk => ?_
        have hsub : SubdirOf s h c.2.hash := ⟨es, hes, c, hc, hk, rfl⟩
        exact ih c.2.hash hsub fun below hbelow => hs below (.head hsub hbelow)

/-! ## The order of the walk -/

theorem pushDirs_append (pre : FsPath) (front back : List DirEntry) (stack : List (Hash × FsPath)) :
    pushDirs pre (front ++ back) stack = pushDirs pre back (pushDirs pre front stack) :=
  List.foldl_append

theorem pushDirs_tree {pre : FsPath} {front : List DirEntry} {c : DirEntry}
    {stack : List (Hash × FsPath)} (hk : c.2.kind = .tree) :
    pushDirs pre (front ++ [c]) stack = (c.2.hash, pre ++ [c.1]) :: pushDirs pre front stack := by
  rw [pushDirs_append]
  exact if_pos hk

theorem pushDirs_not_tree {pre : FsPath} {front : List DirEntry} {c : DirEntry}
    {stack : List (Hash × FsPath)} (hk : c.2.kind ≠ .tree) :
    pushDirs pre (front ++ [c]) stack = pushDirs pre front stack := by
  rw [pushDirs_append]
  exact if_neg hk

/-- The walk over a stack ends. -/
def WalkEnds (s : ObjectStore) (stack : List (Hash × FsPath)) : Prop :=
  ∀ scratch, ∃ fuel r, rebuildLoop s fuel stack scratch = some r

/-- An object that does not read as a tree ends the walk with an error. -/
theorem rebuildLoop_of_none {s : ObjectStore} {h : Hash} (hes : s.dirEntries h = none) (fuel : Nat)
    (pre : FsPath) (stack : List (Hash × FsPath)) (scratch : EntryMap) :
    ∃ err, rebuildLoop s (fuel + 1) ((h, pre) :: stack) scratch = some (.error err) := by
  unfold ObjectStore.dirEntries at hes
  cases hbody : s.readTree h with
  | none =>
      simp only [rebuildLoop, hbody]
      split
      · exact ⟨_, rfl⟩
      · exact ⟨_, rfl⟩
  | some body =>
      rw [hbody] at hes
      simp only [rebuildLoop, hbody]
      rw [show deserializeTreeEntries body = none from hes]
      exact ⟨_, rfl⟩

/-- A walk that reads no cycle ends; the rest of the stack only matters when all below the top
could be read. -/
theorem walkEnds_of_acc {s : ObjectStore} {h : Hash} (hacc : Acc (fun x y => OpenStep s y x) h)
    (pre : FsPath) {stack : List (Hash × FsPath)} (hstack : Readable s h → WalkEnds s stack) :
    WalkEnds s ((h, pre) :: stack) := by
  induction hacc generalizing pre stack with
  | intro h _ ih =>
      intro scratch
      cases hes : s.dirEntries h with
      | none =>
          obtain ⟨err, herr⟩ := rebuildLoop_of_none hes 0 pre stack scratch
          exact ⟨1, .error err, herr⟩
      | some es =>
          -- the subdirectories not yet walked, while all those behind them could be read
          have hpush : ∀ front back, es = front ++ back →
              (∀ d ∈ back, d.2.kind = .tree → Readable s d.2.hash) →
              WalkEnds s (pushDirs pre front stack) := by
            intro front
            induction front using List.reverseRecOn with
            | nil =>
                intro back hback hread
                exact hstack (.dir hes fun c hc hk => hread c (by rwa [hback] at hc) hk)
            | append_singleton front c ihfront =>
                intro back hback hread
                rw [List.append_assoc, List.singleton_append] at hback
                by_cases hk : c.2.kind = .tree
                · rw [pushDirs_tree hk]
                  have hopen : OpenStep s h c.2.hash := ⟨es, front, c, back, hes, hback, hk, rfl,
                    fun d hd hdk => readable_iff_sound.1 (hread d hd hdk)⟩
                  refine ih c.2.hash hopen _ fun hc => ihfront (c :: back) hback ?_
                  intro d hd hdk
                  rcases List.mem_cons.1 hd with rfl | hd
                  · exact hc
                  · exact hread d hd hdk
                · rw [pushDirs_not_tree hk]
                  refine ihfront (c :: back) hback ?_
                  intro d hd hdk
                  rcases List.mem_cons.1 hd with rfl | hd
                  · exact absurd hdk hk
                  · exact hread d hd hdk
          obtain ⟨fuel, r, hr⟩ :=
            hpush es [] (List.append_nil es).symm (fun d hd => (by cases hd)) (recordEntries pre es scratch)
          exact ⟨fuel + 1, r, by rw [rebuildLoop_succ hes, hr]⟩

/-- A walk with `h` on top that ends comes to what lies under it on the stack. -/
def WalkedOver (s : ObjectStore) (h : Hash) : Prop :=
  ∀ fuel pre stack scratch r, rebuildLoop s fuel ((h, pre) :: stack) scratch = some r →
    ∃ fuel' ≤ fuel, ∃ scratch', rebuildLoop s fuel' stack scratch' = some r

theorem rest_of_pushDirs {s : ObjectStore} {back : List DirEntry}
    (hread : ∀ d ∈ back, d.2.kind = .tree → WalkedOver s d.2.hash) {fuel : Nat} {pre : FsPath}
    {stack : List (Hash × FsPath)} {scratch : EntryMap} {r : Except String EntryMap}
    (hloop : rebuildLoop s fuel (pushDirs pre back stack) scratch = some r) :
    ∃ fuel' ≤ fuel, ∃ scratch', rebuildLoop s fuel' stack scratch' = some r := by
  induction back using List.reverseRecOn generalizing fuel scratch with
  | nil => exact ⟨fuel, Nat.le_refl _, scratch, hloop⟩
  | append_singleton back c ih =>
      have hback : ∀ d ∈ back, d.2.kind = .tree → WalkedOver s d.2.hash :=
        fun d hd => hread d (List.mem_append_left _ hd)
      by_cases hk : c.2.kind = .tree
      · rw [pushDirs_tree hk] at hloop
        have hc := hread c (List.mem_append_right _ List.mem_cons_self) hk
        obtain ⟨fuel₁, hle₁, scratch₁, hrun₁⟩ := hc _ _ _ _ _ hloop
        obtain ⟨fuel₂, hle₂, scratch₂, hrun₂⟩ := ih hback hrun₁
        exact ⟨fuel₂, hle₂.trans hle₁, scratch₂, hrun₂⟩
      · rw [pushDirs_not_tree hk] at hloop
        exact ih hback hloop

theorem Readable.walkedOver {s : ObjectStore} {h : Hash} (hr : Readable s h) : WalkedOver s h := by
  induction hr with
  | @dir h es hes _ ih =>
      intro fuel pre stack scratch r hloop
      cases fuel with
      | zero => cases hloop
      | succ fuel =>
          rw [rebuildLoop_succ hes] at hloop
          obtain ⟨fuel', hle, scratch', hrun⟩ := rest_of_pushDirs ih hloop
          exact ⟨fuel', hle.trans (Nat.le_succ fuel), scratch', hrun⟩

/-- A walk that ends has read no cycle. -/
theorem acc_of_rebuildLoop {s : ObjectStore} {fuel : Nat} {h : Hash} {pre : FsPath}
    {stack : List (Hash × FsPath)} {scratch : EntryMap} {r : Except String EntryMap}
    (hloop : rebuildLoop s fuel ((h, pre) :: stack) scratch = some r) :
    Acc (fun x y => OpenStep s y x) h := by
  induction fuel using Nat.strong_induction_on generalizing h pre stack scratch with
  | _ fuel ih =>
      refine .intro h fun child hchild => ?_
      obtain ⟨es, before, c, after, hes, hsplit, hk, rfl, hafter⟩ := hchild
      cases fuel with
      | zero => cases hloop
      | succ fuel =>
          have hparts : es = (before ++ [c]) ++ after := by rw [hsplit]; simp
          rw [rebuildLoop_succ hes, hparts, pushDirs_append, pushDirs_tree hk] at hloop
          obtain ⟨fuel', hle, scratch', hrun⟩ := rest_of_pushDirs
            (fun d hd hdk => (readable_iff_sound.2 (hafter d hd hdk)).walkedOver) hloop
          exact ih fuel' (Nat.lt_succ_of_le hle) hrun

theorem rebuildWorkingTree_isSome_iff_acc (s : ObjectStore) (rootTree : Hash) (wt : WorkingTree) :
    (∃ fuel r, rebuildWorkingTree fuel rootTree s wt = some r) ↔
      Acc (fun x y => OpenStep s y x) rootTree := by
  constructor
  · rintro ⟨fuel, r, hr⟩
    unfold rebuildWorkingTree at hr
    cases hloop : rebuildLoop s fuel [(rootTree, [])] ∅ with
    | none =>
        rw [hloop] at hr
        cases hr
    | some outcome => exact acc_of_rebuildLoop hloop
  · intro hacc
    have hnil : WalkEnds s [] := fun scratch => ⟨1, .ok scratch, rfl⟩
    obtain ⟨fuel, outcome, hloop⟩ := walkEnds_of_acc hacc [] (fun _ => hnil) ∅
    refine ⟨fuel, ?_⟩
    unfold rebuildWorkingTree
    rw [hloop]
    cases outcome with
    | error err => exact ⟨_, rfl⟩
    | ok scratch => exact ⟨_, rfl⟩

/-- Rebuilding a tree ends, with a tree or an error, exactly when open steps from the root come to
no tree object that open steps lead back to itself. -/
theorem rebuildWorkingTree_ends_iff (s : ObjectStore) (rootTree : Hash) (wt : WorkingTree) :
    (∃ fuel r, rebuildWorkingTree fuel rootTree s wt = some r) ↔
      ∀ h, Relation.ReflTransGen (OpenStep s) rootTree h → ¬ Relation.TransGen (OpenStep s) h h := by
  rw [rebuildWorkingTree_isSome_iff_acc]
  refine acc_iff_no_cycle (finite_dirEntries s) ?_ rootTree
  rintro h child ⟨es, before, c, after, hes, -⟩
  show s.dirEntries h ≠ none
  rw [hes]
  exact Option.some_ne_none es

/-- A tree object under the zero hash whose one entry is the directory itself. -/
def selfTree : ObjectStore where
  objects := (∅ : ExtTreeMap Hash ObjectFile).insert zeroHash
    ⟨ObjectTag.tree.bytes ++ serializeTreeEntries [([97], ⟨.tree, zeroHash, 0o755⟩)], 0⟩

/-- Nothing ends the walk of a tree object that names itself. -/
theorem rebuildWorkingTree_hangs :
    ¬ ∀ s rootTree wt, ∃ fuel r, rebuildWorkingTree fuel rootTree s wt = some r := by
  intro h
  have hentries : selfTree.dirEntries zeroHash = some [([97], ⟨.tree, zeroHash, 0o755⟩)] := by
    decide +kernel
  have hself : OpenStep selfTree zeroHash zeroHash :=
    ⟨_, [], _, [], hentries, rfl, rfl, rfl, fun d hd => (by cases hd)⟩
  have hacc := (rebuildWorkingTree_isSome_iff_acc selfTree zeroHash {}).1 (h selfTree zeroHash {})
  exact not_transGen_of_acc hacc (.single hself)

end ContextFS
