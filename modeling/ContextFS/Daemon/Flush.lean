import ContextFS.Daemon.HandleStep

/-!
# What a flush does to the tree

The flush before a checkpoint puts the content of dirty handles at the paths of these handles, one
after the other, and stops at the first content that cannot be written.
-/

namespace ContextFS

open Std Lib ObjectStore WorkingTree

section Flush

variable [Blake3]

/-- `wt'` is `wt` after the contents of some handles of the branch, all dirty, were put at their
paths. -/
inductive Applied (d : Daemon) (b : Nat) : List Nat → WorkingTree → WorkingTree → Prop
  | nil {wt : WorkingTree} : Applied d b [] wt wt
  | cons {fh : Nat} {fhs : List Nat} {s : FhState} {store : ObjectStore} {wt wt' : WorkingTree}
      (hs : d.getFh fh = some s) (hdirty : s.needsFlush b = true) (hstore : Extends d.store store)
      (hrest : Applied d b fhs
        (insertFlushed wt s.path (objectHash .blob (blobBody (s.flushData store)))) wt') :
      Applied d b (fh :: fhs) wt wt'

/-- Every handle of the branch that was dirty is in the list, once. -/
def AllDirty (d : Daemon) (b : Nat) (fhs : List Nat) : Prop :=
  fhs.Nodup ∧ ∀ fh s, d.getFh fh = some s → s.needsFlush b = true → fh ∈ fhs

theorem Applied.of_same {d d' : Daemon} {b : Nat} {fhs : List Nat} {wt wt' : WorkingTree}
    (h : Applied d' b fhs wt wt') (he : Extends d.store d'.store)
    (hfh : ∀ fh s, d'.getFh fh = some s → s.needsFlush b = true → d.getFh fh = some s) :
    Applied d b fhs wt wt' := by
  induction h with
  | nil => exact .nil
  | cons hs hdirty hstore _ ih => exact .cons (hfh _ _ hs hdirty) hdirty (he.trans hstore) ih

/-- A flush applies the contents of handles that were dirty; when it succeeds, of all of them that
it visits. -/
theorem applied_flushFhs {d : Daemon} {b : Nat} (order : List Nat) {store : ObjectStore}
    {fhs : FhTable} (wt : WorkingTree) (he : Extends d.store store)
    (hfh : ∀ (fh : Nat) (s : FhState), fhs[fh]? = some s → s.needsFlush b = true →
      d.getFh fh = some s) :
    let f := flushFhs b order (store, fhs, wt)
    ∃ applied, Applied d b applied wt f.2.2.2 ∧ applied.Nodup ∧
      (∀ fh ∈ applied, ∃ s, fhs[fh]? = some s ∧ s.needsFlush b = true) ∧
      (f.1 = true → ∀ fh ∈ order, ∀ s, fhs[fh]? = some s → s.needsFlush b = true →
        fh ∈ applied) := by
  -- along the order of the handles; what is done so far is only added to
  induction order generalizing store fhs wt with
  | nil => exact ⟨[], .nil, List.nodup_nil, fun _ h => (by cases h), fun _ _ h => (by cases h)⟩
  | cons fh order ih =>
      cases hs : fhs[fh]? with
      | none =>
          simp only [flushFhs, hs]
          obtain ⟨applied, happ, hnd, hmem, hall⟩ := ih wt he hfh
          refine ⟨applied, happ, hnd, hmem, fun hok k hk s hks hdirty => ?_⟩
          rcases List.mem_cons.1 hk with rfl | hk
          · rw [hs] at hks
            cases hks
          · exact hall hok k hk s hks hdirty
      | some s =>
          cases hneeds : s.needsFlush b with
          | false =>
              simp only [flushFhs, hs, hneeds, Bool.false_eq_true, if_false]
              obtain ⟨applied, happ, hnd, hmem, hall⟩ := ih wt he hfh
              refine ⟨applied, happ, hnd, hmem, fun hok k hk s' hks hdirty => ?_⟩
              rcases List.mem_cons.1 hk with rfl | hk
              · rw [hs] at hks
                cases hks
                rw [hneeds] at hdirty
                cases hdirty
              · exact hall hok k hk s' hks hdirty
          | true =>
              by_cases hz : (store.writeBlob (s.flushData store)).2 = zeroHash
              -- the write of the blob failed, and the loop ends there
              · simp only [flushFhs, hs, hneeds, hz, if_true]
                exact ⟨[], .nil, List.nodup_nil, fun _ h => (by cases h), fun h => (by cases h)⟩
              · have hhash : (store.writeBlob (s.flushData store)).2 =
                    objectHash .blob (blobBody (s.flushData store)) := writeObject_hash hz
                simp only [flushFhs, hs, hneeds, hz, if_true, if_false]
                -- the flushed handle is clean, the others are what they were
                have hclean : ∀ (k : Nat) (s' : FhState),
                    (fhs.insert fh (s.flushed (store.writeBlob (s.flushData store)).2
                      (s.flushData store)))[k]? = some s' → s'.needsFlush b = true →
                    k ≠ fh ∧ fhs[k]? = some s' := by
                  intro k s' hk hdirty
                  rw [ExtTreeMap.getElem?_insert] at hk
                  split at hk
                  · cases hk
                    simp at hdirty
                  · rename_i hne
                    exact ⟨fun heq => hne (by simp [heq]), hk⟩
                obtain ⟨applied, happ, hnd, hmem, hall⟩ := ih
                  (insertFlushed wt s.path (store.writeBlob (s.flushData store)).2)
                  (he.trans (published_writeObject store .blob _).extends_)
                  (fun k s' hk hdirty => hfh k s' (hclean k s' hk hdirty).2 hdirty)
                refine ⟨fh :: applied, ?_, ?_, ?_, ?_⟩
                · refine .cons (hfh fh s hs hneeds) hneeds he ?_
                  rw [← hhash]
                  exact happ
                · refine List.nodup_cons.2 ⟨fun hin => ?_, hnd⟩
                  obtain ⟨s', hs', hdirty⟩ := hmem fh hin
                  exact (hclean fh s' hs' hdirty).1 rfl
                · intro k hk
                  rcases List.mem_cons.1 hk with rfl | hk
                  · exact ⟨s, hs, hneeds⟩
                  · obtain ⟨s', hs', hdirty⟩ := hmem k hk
                    exact ⟨s', (hclean k s' hs' hdirty).2, hdirty⟩
                · intro hok k hk s' hks hdirty
                  by_cases hkf : k = fh
                  · subst hkf
                    exact List.mem_cons_self
                  · rcases List.mem_cons.1 hk with rfl | hk
                    · exact absurd rfl hkf
                    · refine List.mem_cons_of_mem _ (hall hok k hk s' ?_ hdirty)
                      rw [ExtTreeMap.getElem?_insert, if_neg (by simpa using Ne.symm hkf)]
                      exact hks

end Flush
end ContextFS
