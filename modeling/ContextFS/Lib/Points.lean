import Mathlib.Tactic.TypeStar

/-!
# Points of a run

A run of a step function through a list of events.  An event that happens at some point of the
list finds the state the events before it lead to.
-/

namespace ContextFS
namespace Lib

variable {σ ε : Type*} {step : σ → ε → σ}

/-- What every step keeps, a run keeps. -/
theorem foldl_keeps {S : σ → Prop} (hkeep : ∀ s e, S s → S (step s e)) (evs : List ε) {s : σ}
    (h : S s) : S (evs.foldl step s) := by
  induction evs generalizing s with
  | nil => exact h
  | cons e evs ih => exact ih (hkeep s e h)

/-- Two points of one list are the same point, or one of them is later. -/
theorem points_cases {evs before after before' after' : List ε} {e e' : ε}
    (h : evs = before ++ e :: after) (h' : evs = before' ++ e' :: after') :
    before = before' ∨ (∃ mid, before' = before ++ e :: mid) ∨
      ∃ mid, before = before' ++ e' :: mid := by
  rcases List.append_eq_append_iff.1 (h.symm.trans h') with ⟨mid, hb, hmid⟩ | ⟨mid, hb, hmid⟩
  · cases mid with
    | nil => exact Or.inl (by simpa using hb.symm)
    | cons x mid =>
        obtain ⟨rfl, -⟩ := List.cons.inj hmid
        exact Or.inr (Or.inl ⟨mid, hb⟩)
  · cases mid with
    | nil => exact Or.inl (by simpa using hb)
    | cons x mid =>
        obtain ⟨rfl, -⟩ := List.cons.inj hmid
        exact Or.inr (Or.inr ⟨mid, hb⟩)

/-- No two points of the run are as `P` says. -/
def AtMostOnce (step : σ → ε → σ) (s₀ : σ) (evs : List ε) (P : σ → ε → Prop) : Prop :=
  ∀ before e after before' e' after', evs = before ++ e :: after → evs = before' ++ e' :: after' →
    P (before.foldl step s₀) e → P (before'.foldl step s₀) e' → before = before'

/-- What leads to a state that excludes it for good happens at most once. -/
theorem AtMostOnce.of_stable {s₀ : σ} {evs : List ε} {P : σ → ε → Prop} (S : σ → Prop)
    (hset : ∀ (before : List ε) e, P (before.foldl step s₀) e → S (step (before.foldl step s₀) e))
    (hkeep : ∀ s e, S s → S (step s e)) (hnot : ∀ s e, S s → ¬ P s e) :
    AtMostOnce step s₀ evs P := by
  -- after the first point the excluding state lasts up to the second
  have hlater : ∀ before e mid e', P (before.foldl step s₀) e →
      ¬ P ((before ++ e :: mid).foldl step s₀) e' := by
    intro before e mid e' hP
    rw [List.foldl_append, List.foldl_cons]
    exact hnot _ e' (foldl_keeps hkeep mid (hset before e hP))
  intro before e after before' e' after' h h' hP hP'
  rcases points_cases h h' with heq | ⟨mid, rfl⟩ | ⟨mid, rfl⟩
  · exact heq
  · exact absurd hP' (hlater before e mid e' hP)
  · exact absurd hP (hlater before' e' mid e hP')

end Lib
end ContextFS
