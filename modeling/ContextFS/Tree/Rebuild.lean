import ContextFS.Tree.TreeObject

/-!
# Rebuilding a working tree from its root object

`rebuild_working_tree` walks the tree objects below a root with an explicit stack and collects
every record in a scratch map, which replaces the base only when the whole walk succeeded.  The
loop has no visited set, so its fuel is the number of directories the root unfolds to.

`InTree` says what a stored tree contains and `Readable` that all of it can be read.
-/

namespace ContextFS

open Std ObjectStore

/-- A path the way an error text shows it. -/
def bytesText (b : Bytes) : String := String.ofList (b.map fun c => Char.ofNat c.toNat)

namespace ObjectStore

/-- The decoded tree object at `h`. -/
def dirEntries (s : ObjectStore) (h : Hash) : Option (List DirEntry) :=
  match s.readTree h with
  | none => none
  | some body => deserializeTreeEntries body

end ObjectStore

/-- `scratch[path] = entry` for every record of one directory. -/
def recordEntries (pre : FsPath) (es : List DirEntry) (scratch : EntryMap) : EntryMap :=
  es.foldl (fun m c => m.insert (pre ++ [c.1]) c.2) scratch

/-- The subdirectories of one directory go on the stack, the last one on top. -/
def pushDirs (pre : FsPath) (es : List DirEntry) (stack : List (Hash × FsPath)) :
    List (Hash × FsPath) :=
  es.foldl (fun st c => if c.2.kind = .tree then (c.2.hash, pre ++ [c.1]) :: st else st) stack

/-- The loop of `rebuild_working_tree`; `none` when the fuel runs out. -/
def rebuildLoop (store : ObjectStore) :
    Nat → List (Hash × FsPath) → EntryMap → Option (Except String EntryMap)
  | 0, _, _ => none
  | _ + 1, [], scratch => some (.ok scratch)
  | fuel + 1, (hash, pre) :: stack, scratch =>
      match store.readTree hash with
      | none =>
          if store.objects.contains hash then
            some (.error ("tree object unreadable: " ++ bytesText (hashToHex hash)))
          else some (.error ("tree object missing: " ++ bytesText (hashToHex hash)))
      | some body =>
          match deserializeTreeEntries body with
          | none => some (.error ("corrupt tree object: " ++ bytesText (hashToHex hash)))
          | some es => rebuildLoop store fuel (pushDirs pre es stack) (recordEntries pre es scratch)

/-- `rebuild_working_tree`: `wt` is left alone unless the walk succeeds. -/
def rebuildWorkingTree (fuel : Nat) (rootTree : Hash) (store : ObjectStore) (wt : WorkingTree) :
    Option (Except String WorkingTree) :=
  match rebuildLoop store fuel [(rootTree, [])] ∅ with
  | none => none
  | some (.error err) => some (.error err)
  | some (.ok scratch) => some (.ok (wt.setBase scratch))

/-! ## The content of a stored tree -/

/-- The tree object at `h` has an entry `e` at the path `p` below it. -/
inductive InTree (s : ObjectStore) : Hash → FsPath → WorkingTreeEntry → Prop
  | here {h : Hash} {es : List DirEntry} {c : DirEntry} (hes : s.dirEntries h = some es)
      (hc : c ∈ es) : InTree s h [c.1] c.2
  | inside {h : Hash} {es : List DirEntry} {c : DirEntry} {p : FsPath} {e : WorkingTreeEntry}
      (hes : s.dirEntries h = some es) (hc : c ∈ es) (hk : c.2.kind = .tree)
      (hp : InTree s c.2.hash p e) : InTree s h (c.1 :: p) e

/-- Every tree object at or below `h` is present and well formed. -/
inductive Readable (s : ObjectStore) : Hash → Prop
  | dir {h : Hash} {es : List DirEntry} (hes : s.dirEntries h = some es)
      (hsub : ∀ c ∈ es, c.2.kind = .tree → Readable s c.2.hash) : Readable s h

theorem ObjectStore.Extends.dirEntries {s s' : ObjectStore} (he : Extends s s') {h : Hash}
    {es : List DirEntry} (hes : s.dirEntries h = some es) : s'.dirEntries h = some es := by
  unfold ObjectStore.dirEntries at hes ⊢
  cases hb : s.readTree h with
  | none => simp [hb] at hes
  | some body =>
      rw [he.readTree hb]
      simpa [hb] using hes

theorem Readable.mono {s s' : ObjectStore} (he : Extends s s') {h : Hash} (hr : Readable s h) :
    Readable s' h := by
  induction hr with
  | dir hes _ ih => exact .dir (he.dirEntries hes) ih

theorem InTree.mono {s s' : ObjectStore} (he : Extends s s') {h : Hash} {p : FsPath}
    {e : WorkingTreeEntry} (hp : InTree s h p e) : InTree s' h p e := by
  induction hp with
  | here hes hc => exact .here (he.dirEntries hes) hc
  | inside hes hc hk _ ih => exact .inside (he.dirEntries hes) hc hk ih

/-- Objects added to the store do not change the content of a tree that was readable. -/
theorem Readable.inTree_iff {s s' : ObjectStore} (he : Extends s s') {h : Hash}
    (hr : Readable s h) {p : FsPath} {e : WorkingTreeEntry} :
    InTree s' h p e ↔ InTree s h p e := by
  refine ⟨fun hp => ?_, InTree.mono he⟩
  induction hr generalizing p with
  | dir hes _ ih =>
      have hes' := he.dirEntries hes
      cases hp with
      | here hes₂ hc =>
          rw [hes', Option.some.injEq] at hes₂
          subst hes₂
          exact .here hes hc
      | inside hes₂ hc hk hp =>
          rw [hes', Option.some.injEq] at hes₂
          subst hes₂
          exact .inside hes hc hk (ih _ hc hk hp)

/-- The content of a tree, one directory at a time. -/
theorem inTree_iff_of_dirEntries {s : ObjectStore} {h : Hash} {es : List DirEntry}
    (hes : s.dirEntries h = some es) {p : FsPath} {e : WorkingTreeEntry} :
    InTree s h p e ↔ ∃ c ∈ es, (p = [c.1] ∧ e = c.2) ∨
      ∃ rest, p = c.1 :: rest ∧ c.2.kind = .tree ∧ InTree s c.2.hash rest e := by
  constructor
  · intro hp
    cases hp with
    | @here _ _ c hes₂ hc =>
        rw [hes, Option.some.injEq] at hes₂
        subst hes₂
        exact ⟨c, hc, Or.inl ⟨rfl, rfl⟩⟩
    | @inside _ _ c rest _ hes₂ hc hk hp =>
        rw [hes, Option.some.injEq] at hes₂
        subst hes₂
        exact ⟨c, hc, Or.inr ⟨rest, rfl, hk, hp⟩⟩
  · rintro ⟨c, hc, ⟨rfl, rfl⟩ | ⟨rest, rfl, hk, hp⟩⟩
    · exact .here hes hc
    · exact .inside hes hc hk hp

theorem InTree.ne_nil {s : ObjectStore} {h : Hash} {p : FsPath} {e : WorkingTreeEntry}
    (hp : InTree s h p e) : p ≠ [] := by
  cases hp <;> simp

/-! ## The walk -/

theorem mem_pushDirs {pre : FsPath} {es : List DirEntry} {stack : List (Hash × FsPath)}
    {x : Hash × FsPath} :
    x ∈ pushDirs pre es stack ↔
      x ∈ stack ∨ ∃ c ∈ es, c.2.kind = .tree ∧ x = (c.2.hash, pre ++ [c.1]) := by
  induction es generalizing stack with
  | nil => simp [pushDirs]
  | cons c es ih =>
      have hstep : pushDirs pre (c :: es) stack = pushDirs pre es
          (if c.2.kind = .tree then (c.2.hash, pre ++ [c.1]) :: stack else stack) := rfl
      rw [hstep, ih]
      by_cases hk : c.2.kind = .tree
      · simp only [hk, if_true, List.mem_cons, exists_eq_or_imp, true_and]
        tauto
      · simp [hk]

/-- A recorded path holds one of the records made for it. -/
theorem getElem?_recordEntries (pre : FsPath) (es : List DirEntry) (scratch : EntryMap)
    (p : FsPath) :
    (∃ c ∈ es, pre ++ [c.1] = p ∧ (recordEntries pre es scratch)[p]? = some c.2) ∨
      ((∀ c ∈ es, pre ++ [c.1] ≠ p) ∧ (recordEntries pre es scratch)[p]? = scratch[p]?) := by
  induction es generalizing scratch with
  | nil => exact Or.inr ⟨by simp, rfl⟩
  | cons c es ih =>
      have hstep : recordEntries pre (c :: es) scratch =
          recordEntries pre es (scratch.insert (pre ++ [c.1]) c.2) := rfl
      rw [hstep]
      rcases ih (scratch.insert (pre ++ [c.1]) c.2) with ⟨d, hd, hdp, hval⟩ | ⟨hne, hval⟩
      · exact Or.inl ⟨d, List.mem_cons_of_mem c hd, hdp, hval⟩
      · by_cases hc : pre ++ [c.1] = p
        · left
          refine ⟨c, List.mem_cons_self, hc, ?_⟩
          rw [hval, ExtTreeMap.getElem?_insert]
          simp [hc]
        · right
          refine ⟨List.forall_mem_cons.2 ⟨hc, hne⟩, ?_⟩
          rw [hval, ExtTreeMap.getElem?_insert]
          simp [hc]

theorem rebuildLoop_succ {store : ObjectStore} {fuel : Nat} {hash : Hash} {pre : FsPath}
    {stack : List (Hash × FsPath)} {scratch : EntryMap} {es : List DirEntry}
    (hes : store.dirEntries hash = some es) :
    rebuildLoop store (fuel + 1) ((hash, pre) :: stack) scratch =
      rebuildLoop store fuel (pushDirs pre es stack) (recordEntries pre es scratch) := by
  unfold ObjectStore.dirEntries at hes
  cases hb : store.readTree hash with
  | none => simp [hb] at hes
  | some body =>
      rw [hb] at hes
      simp only [rebuildLoop, hb]
      rw [show deserializeTreeEntries body = some es from hes]

/-- A walk that ends with a map could read the object on top of its stack. -/
theorem exists_dirEntries_of_rebuildLoop_ok {store : ObjectStore} {fuel : Nat} {hash : Hash}
    {pre : FsPath} {stack : List (Hash × FsPath)} {scratch m : EntryMap}
    (h : rebuildLoop store (fuel + 1) ((hash, pre) :: stack) scratch = some (.ok m)) :
    ∃ es, store.dirEntries hash = some es ∧
      rebuildLoop store fuel (pushDirs pre es stack) (recordEntries pre es scratch) =
        some (.ok m) := by
  cases hes : store.dirEntries hash with
  | some es => exact ⟨es, rfl, by rwa [rebuildLoop_succ hes] at h⟩
  | none =>
      unfold ObjectStore.dirEntries at hes
      cases hb : store.readTree hash with
      | none =>
          simp only [rebuildLoop, hb] at h
          split at h <;> cases h
      | some body =>
          rw [hb] at hes
          simp only [rebuildLoop, hb] at h
          rw [show deserializeTreeEntries body = none from hes] at h
          cases h

/-- More fuel does not change the outcome. -/
theorem rebuildLoop_mono {store : ObjectStore} {fuel fuel' : Nat} (hle : fuel ≤ fuel')
    {stack : List (Hash × FsPath)} {scratch : EntryMap} {r : Except String EntryMap}
    (h : rebuildLoop store fuel stack scratch = some r) :
    rebuildLoop store fuel' stack scratch = some r := by
  induction fuel generalizing fuel' stack scratch with
  | zero => cases h
  | succ fuel ih =>
      obtain ⟨fuel', rfl⟩ : ∃ k, fuel' = k + 1 := ⟨fuel' - 1, by omega⟩
      have hle' : fuel ≤ fuel' := by omega
      cases stack with
      | nil => exact h
      | cons top stack =>
          obtain ⟨hash, pre⟩ := top
          cases hb : store.readTree hash with
          | none => simpa [rebuildLoop, hb] using h
          | some body =>
              cases hd : deserializeTreeEntries body with
              | none => simpa [rebuildLoop, hb, hd] using h
              | some es =>
                  simp only [rebuildLoop, hb, hd] at h ⊢
                  exact ih hle' h

/-- What the walk has recorded when it ends: what was in the scratch map and what lies below
the stack. -/
theorem getElem?_of_rebuildLoop {store : ObjectStore} {fuel : Nat}
    {stack : List (Hash × FsPath)} {scratch m : EntryMap}
    (h : rebuildLoop store fuel stack scratch = some (.ok m)) {p : FsPath}
    {e : WorkingTreeEntry} (hp : m[p]? = some e) :
    scratch[p]? = some e ∨
      ∃ x ∈ stack, ∃ rest, p = x.2 ++ rest ∧ InTree store x.1 rest e := by
  induction fuel generalizing stack scratch with
  | zero => cases h
  | succ fuel ih =>
      cases stack with
      | nil =>
          cases h
          exact Or.inl hp
      | cons top stack =>
          obtain ⟨hash, pre⟩ := top
          obtain ⟨es, hes, h⟩ := exists_dirEntries_of_rebuildLoop_ok h
          rcases ih h with hrec | ⟨x, hx, rest, rfl, hin⟩
          · rcases getElem?_recordEntries pre es scratch p with
              ⟨c, hc, rfl, hval⟩ | ⟨-, hval⟩
            · right
              rw [hval, Option.some.injEq] at hrec
              subst hrec
              exact ⟨(hash, pre), List.mem_cons_self, [c.1], rfl, .here hes hc⟩
            · exact Or.inl (hval ▸ hrec)
          · right
            rcases mem_pushDirs.1 hx with hx | ⟨c, hc, hk, rfl⟩
            · exact ⟨x, List.mem_cons_of_mem _ hx, rest, rfl, hin⟩
            · exact ⟨(hash, pre), List.mem_cons_self, c.1 :: rest, by simp,
                .inside hes hc hk hin⟩

/-- Nothing below the stack and nothing recorded is missing when the walk ends. -/
theorem isSome_of_rebuildLoop {store : ObjectStore} {fuel : Nat}
    {stack : List (Hash × FsPath)} {scratch m : EntryMap}
    (h : rebuildLoop store fuel stack scratch = some (.ok m)) {p : FsPath}
    (hp : scratch[p]? ≠ none ∨
      ∃ x ∈ stack, ∃ rest e, p = x.2 ++ rest ∧ InTree store x.1 rest e) :
    m[p]? ≠ none := by
  induction fuel generalizing stack scratch with
  | zero => cases h
  | succ fuel ih =>
      cases stack with
      | nil =>
          cases h
          rcases hp with hp | ⟨x, hx, -⟩
          · exact hp
          · simp at hx
      | cons top stack =>
          obtain ⟨hash, pre⟩ := top
          obtain ⟨es, hes, h⟩ := exists_dirEntries_of_rebuildLoop_ok h
          refine ih h ?_
          have hkept : scratch[p]? ≠ none → (recordEntries pre es scratch)[p]? ≠ none := by
            intro hs
            rcases getElem?_recordEntries pre es scratch p with
              ⟨c, -, -, hval⟩ | ⟨-, hval⟩
            · rw [hval]
              exact Option.some_ne_none _
            · rwa [hval]
          rcases hp with hp | ⟨x, hx, rest, e, rfl, hin⟩
          · exact Or.inl (hkept hp)
          · rcases List.mem_cons.1 hx with rfl | hx
            · rw [inTree_iff_of_dirEntries hes] at hin
              obtain ⟨c, hc, ⟨rfl, rfl⟩ | ⟨rest, rfl, hk, hin⟩⟩ := hin
              · left
                rcases getElem?_recordEntries pre es scratch
                  (pre ++ [c.1]) with ⟨d, -, -, hval⟩ | ⟨hne, -⟩
                · rw [hval]
                  exact Option.some_ne_none _
                · exact absurd rfl (hne c hc)
              · exact Or.inr ⟨(c.2.hash, pre ++ [c.1]), mem_pushDirs.2 (Or.inr ⟨c, hc, hk, rfl⟩),
                  rest, e, by simp, hin⟩
            · exact Or.inr ⟨x, mem_pushDirs.2 (Or.inl hx), rest, e, rfl, hin⟩

/-- The walk below a stack of readable trees ends. -/
theorem Readable.exists_fuel {s : ObjectStore} {h : Hash} (hr : Readable s h) (pre : FsPath)
    {stack : List (Hash × FsPath)}
    (hstack : ∀ scratch, ∃ fuel m, rebuildLoop s fuel stack scratch = some (.ok m))
    (scratch : EntryMap) :
    ∃ fuel m, rebuildLoop s fuel ((h, pre) :: stack) scratch = some (.ok m) := by
  induction hr generalizing pre stack scratch with
  | @dir h es hes _ ih =>
      have hpush : ∀ (l : List DirEntry), (∀ c ∈ l, c ∈ es) → ∀ stack,
          (∀ scratch, ∃ fuel m, rebuildLoop s fuel stack scratch = some (.ok m)) →
          ∀ scratch, ∃ fuel m, rebuildLoop s fuel (pushDirs pre l stack) scratch = some (.ok m) := by
        intro l
        induction l with
        | nil => exact fun _ stack hst => hst
        | cons c l ihl =>
            intro hl stack hst
            refine ihl (fun d hd => hl d (List.mem_cons_of_mem c hd)) _ ?_
            by_cases hk : c.2.kind = .tree
            · simp only [hk, if_true]
              exact ih c (hl c List.mem_cons_self) hk _ hst
            · simpa only [hk, if_false] using hst
      obtain ⟨fuel, m, hm⟩ := hpush es (fun _ hc => hc) stack hstack (recordEntries pre es scratch)
      exact ⟨fuel + 1, m, by rw [rebuildLoop_succ hes, hm]⟩

/-- Any two entries a stored tree has at one path are equal. -/
def SingleValued (s : ObjectStore) (h : Hash) : Prop :=
  ∀ {p : FsPath} {e e' : WorkingTreeEntry}, InTree s h p e → InTree s h p e' → e = e'

/-- Rebuilding a readable tree succeeds once there is enough fuel, whatever the tree was. -/
theorem Readable.exists_rebuildWorkingTree {s : ObjectStore} {h : Hash} (hr : Readable s h)
    (wt : WorkingTree) : ∃ n m, ∀ fuel ≥ n,
      rebuildWorkingTree fuel h s wt = some (.ok (wt.setBase m)) := by
  have hnil : ∀ scratch, ∃ fuel m, rebuildLoop s fuel [] scratch = some (.ok m) :=
    fun scratch => ⟨1, scratch, rfl⟩
  obtain ⟨n, m, hm⟩ := hr.exists_fuel [] hnil ∅
  refine ⟨n, m, fun fuel hfuel => ?_⟩
  simp only [rebuildWorkingTree, rebuildLoop_mono hfuel hm]

/-- The rebuilt tree holds exactly the entries of the stored one. -/
theorem lookupRaw_rebuildWorkingTree {s : ObjectStore} {h : Hash} {wt wt' : WorkingTree}
    {fuel : Nat} (hok : rebuildWorkingTree fuel h s wt = some (.ok wt'))
    (hsv : SingleValued s h) (p : FsPath) (e : WorkingTreeEntry) :
    wt'.lookupRaw p = some e ↔ InTree s h p e := by
  unfold rebuildWorkingTree at hok
  cases hloop : rebuildLoop s fuel [(h, [])] ∅ with
  | none => simp [hloop] at hok
  | some r =>
      cases r with
      | error err => simp [hloop] at hok
      | ok m =>
          simp only [hloop, Option.some.injEq, Except.ok.injEq] at hok
          subst hok
          rw [WorkingTree.lookupRaw_setBase]
          have hfound : ∀ e, m[p]? = some e → InTree s h p e := by
            intro e hm
            rcases getElem?_of_rebuildLoop hloop hm with hempty | ⟨x, hx, rest, rfl, hin⟩
            · simp at hempty
            · rw [List.mem_singleton.1 hx] at hin ⊢
              exact hin
          refine ⟨hfound e, fun hin => ?_⟩
          have hsome : m[p]? ≠ none := isSome_of_rebuildLoop hloop
            (Or.inr ⟨(h, []), List.mem_singleton_self _, p, e, rfl, hin⟩)
          obtain ⟨e', he'⟩ := Option.ne_none_iff_exists'.1 hsome
          rw [he', hsv hin (hfound e' he')]

end ContextFS
