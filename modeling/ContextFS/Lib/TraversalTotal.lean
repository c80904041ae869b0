import ContextFS.Lib.Traversal
import Mathlib.Algebra.BigOperators.Group.Finset.Basic
import Mathlib.Algebra.Order.BigOperators.Group.Finset

/-!
# Traversals of finite graphs finish

Where all actions of the reachable nodes succeed and these nodes lie in a finite set, a traversal
with enough fuel succeeds.  A walk pays one unit of depth for each node of the set that it has not
seen.  A worklist pays for every node on its stack and for every push that is still to come, and a
node is expanded only once.
-/

namespace ContextFS
namespace Lib

variable {α σ ε : Type*}

namespace Walk

variable {W : Walk α σ ε} {le : σ → σ → Prop}

/-- The nodes of a finite set that are still to be seen. -/
def unseen (W : Walk α σ ε) (U : Finset α) (s : σ) : Finset α := U.filter fun x => ¬W.seen x s

theorem unseen_card_mono (hW : W.Laws le) {s s' : σ} (h : le s s') (U : Finset α) :
    (W.unseen U s').card ≤ (W.unseen U s).card := by
  refine Finset.card_le_card fun x hx => ?_
  obtain ⟨hin, hno⟩ := Finset.mem_filter.1 hx
  exact Finset.mem_filter.2 ⟨hin, fun hseen => hno (hW.seen_mono h hseen)⟩

theorem unseen_card_note (hW : W.Laws le) {U : Finset α} {a : α} {s : σ} (ha : a ∈ U)
    (hs : ¬W.seen a s) : (W.unseen U (W.note a s)).card < (W.unseen U s).card := by
  refine Finset.card_lt_card (Finset.ssubset_iff_of_subset ?_ |>.2 ⟨a, ?_, ?_⟩)
  · intro x hx
    obtain ⟨hin, hno⟩ := Finset.mem_filter.1 hx
    exact Finset.mem_filter.2 ⟨hin, fun hseen => hno (hW.seen_mono (hW.le_note a s) hseen)⟩
  · exact Finset.mem_filter.2 ⟨ha, hs⟩
  · intro hx
    exact (Finset.mem_filter.1 hx).2 (hW.seen_note.2 (Or.inl rfl))

/-- With more fuel than there are nodes to see, a walk over good nodes succeeds. -/
theorem run_total (hW : W.Laws le) (Good : α → Prop) {U : Finset α} (hU : ∀ a, Good a → a ∈ U)
    (hvisit : ∀ a b, Good a → W.Leads a b → Good b)
    (hact : ∀ a f s, Good a → .act f ∈ W.tasks a → ∃ s', f s = .ok s') {fuel : Nat} {a : α} {s : σ}
    (ha : Good a) (hfuel : (W.unseen U s).card < fuel) : ∃ s', W.run fuel a s = .ok s' := by
  induction fuel generalizing a s with
  | zero => omega
  | succ fuel ih =>
      have htasks : ∀ ts : List (Task α σ ε), (∀ t ∈ ts, t ∈ W.tasks a) → ∀ u,
          (W.unseen U u).card < fuel → ∃ s', runTasks (W.run fuel) ts u = .ok s' := by
        intro ts
        induction ts with
        | nil => exact fun _ u _ => ⟨u, rfl⟩
        | cons t ts ihts =>
            intro hts u hu
            have hrest : ∀ t ∈ ts, t ∈ W.tasks a := fun t ht => hts t (List.mem_cons_of_mem _ ht)
            have hmem := hts t List.mem_cons_self
            cases t with
            | visit b =>
                obtain ⟨u', hb⟩ := ih (hvisit a b ha hmem) hu
                have hle := unseen_card_mono hW (run_spec hW hb).1.grew U
                simp only [runTasks, hb]
                exact ihts hrest u' (by omega)
            | act f =>
                obtain ⟨u', hf⟩ := hact a f u ha hmem
                have hle := unseen_card_mono hW (hW.le_act hmem hf) U
                simp only [runTasks, hf]
                exact ihts hrest u' (by omega)
      simp only [run]
      split
      · exact ⟨s, rfl⟩
      · rename_i hs
        have hlt := unseen_card_note hW (hU a ha) hs
        exact htasks _ (fun _ ht => ht) _ (by omega)

end Walk

namespace Worklist

variable [DecidableEq α] {L : Worklist α σ ε}

/-- A property that expanding keeps, on the nodes that can be reached. -/
theorem run_keeps (Good : α → Prop) {P : σ → Prop}
    (hexp : ∀ a s ns s', Good a → L.expand a s = .ok (ns, s') → P s → P s' ∧ ∀ b ∈ ns, Good b)
    {fuel : Nat} {stack done : List α} {s s' : σ} (h : L.run fuel stack done s = .ok s')
    (hstack : ∀ a ∈ stack, Good a) (hs : P s) : P s' := by
  induction fuel generalizing stack done s with
  | zero => cases h
  | succ fuel ih =>
      cases stack with
      | nil =>
          cases h
          exact hs
      | cons a stack =>
          have hrest : ∀ b ∈ stack, Good b := fun b hb => hstack b (List.mem_cons_of_mem _ hb)
          simp only [run] at h
          split at h
          · exact ih h hrest hs
          · cases hx : L.expand a s with
            | error e => simp [hx] at h
            | ok r =>
                rw [hx] at h
                obtain ⟨hp, hns⟩ := hexp a s r.1 r.2 (hstack a List.mem_cons_self) hx hs
                refine ih h (fun b hb => ?_) hp
                rcases List.mem_append.1 hb with hb | hb
                · exact hns b (List.mem_reverse.1 hb)
                · exact hrest b hb

/-- The pushes still to come. -/
def pushes (next : α → List α) (U : Finset α) (done : List α) : Nat :=
  ∑ a ∈ U \ done.toFinset, (next a).length

theorem pushes_cons (next : α → List α) {U : Finset α} {done : List α} {a : α} (ha : a ∈ U) (hno : a ∉ done) :
    pushes next U (a :: done) + (next a).length = pushes next U done := by
  have hin : a ∈ U \ done.toFinset := Finset.mem_sdiff.2 ⟨ha, fun h => hno (List.mem_toFinset.1 h)⟩
  have herase : U \ (a :: done).toFinset = (U \ done.toFinset).erase a := by
    rw [List.toFinset_cons, Finset.sdiff_insert]
  rw [pushes, pushes, herase, Finset.sum_erase_add _ _ hin]

/-- A worklist over good nodes ends within one step for each node that is or will be pushed. -/
theorem run_total (Good : α → Prop) (next : α → List α) {U : Finset α} (hU : ∀ a, Good a → a ∈ U)
    (hnext : ∀ a b, Good a → b ∈ next a → Good b)
    (hexp : ∀ a s, Good a → ∃ s', L.expand a s = .ok (next a, s')) {fuel : Nat}
    {stack done : List α} {s : σ} (hstack : ∀ a ∈ stack, Good a)
    (hfuel : stack.length + pushes next U done < fuel) : ∃ s', L.run fuel stack done s = .ok s' := by
  induction fuel generalizing stack done s with
  | zero => omega
  | succ fuel ih =>
      cases stack with
      | nil => exact ⟨s, rfl⟩
      | cons a stack =>
          have hrest : ∀ b ∈ stack, Good b := fun b hb => hstack b (List.mem_cons_of_mem _ hb)
          have ha := hstack a List.mem_cons_self
          rw [List.length_cons] at hfuel
          simp only [run]
          split
          · exact ih hrest (by omega)
          · rename_i hno
            obtain ⟨s', hx⟩ := hexp a s ha
            have hpush := pushes_cons next (hU a ha) hno
            simp only [hx]
            refine ih (fun b hb => ?_) ?_
            · rcases List.mem_append.1 hb with hb | hb
              · exact hnext a b ha (List.mem_reverse.1 hb)
              · exact hrest b hb
            · rw [List.length_append, List.length_reverse]
              omega

end Worklist
end Lib
end ContextFS
