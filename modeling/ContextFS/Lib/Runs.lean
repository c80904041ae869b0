import Mathlib.Tactic.TypeStar

/-!
# Runs of a transition system

A system is a predicate on start states and a relation `step s e s'`: in state `s` the event
`e` can happen and leads to `s'`.  A statement about every state a system `Reaches` holds for
every order of events.
-/

namespace ContextFS
namespace Lib

variable {σ ε : Type*}

/-- The states reached from a start state by any number of steps. -/
inductive Reaches (init : σ → Prop) (step : σ → ε → σ → Prop) : σ → Prop
  | start {s : σ} (h : init s) : Reaches init step s
  | step {s s' : σ} {e : ε} (hr : Reaches init step s) (hs : step s e s') : Reaches init step s'

/-- The steps of a system that also meet a condition. -/
def Restrict (step cond : σ → ε → σ → Prop) : σ → ε → σ → Prop :=
  fun s e s' => step s e s' ∧ cond s e s'

variable {init : σ → Prop} {step cond : σ → ε → σ → Prop}

/-- A property of the start states that every step keeps holds in every state reached. -/
theorem Reaches.invariant {I : σ → Prop} (hinit : ∀ s, init s → I s)
    (hstep : ∀ s e s', I s → step s e s' → I s') {s : σ} (h : Reaches init step s) : I s := by
  induction h with
  | start h => exact hinit _ h
  | step _ hs ih => exact hstep _ _ _ ih hs

/-- A run of a restricted system is a run of the system. -/
theorem Reaches.of_restrict {s : σ} (h : Reaches init (Restrict step cond) s) :
    Reaches init step s := by
  induction h with
  | start h => exact .start h
  | step _ hs ih => exact .step ih hs.1

/-- Running a list of events through a step function. -/
theorem Reaches.run {next : σ → ε → Option σ} (evs : List ε) {s s' : σ}
    (hnext : ∀ e ∈ evs, ∀ s s', next s e = some s' → step s e s') (hr : Reaches init step s)
    (hrun : evs.foldlM next s = some s') : Reaches init step s' := by
  induction evs generalizing s with
  | nil =>
      cases hrun
      exact hr
  | cons e evs ih =>
      rw [List.foldlM_cons, Option.bind_eq_bind, Option.bind_eq_some_iff] at hrun
      obtain ⟨s₁, hs, hrun⟩ := hrun
      exact ih (fun e he => hnext e (List.mem_cons_of_mem _ he))
        (.step hr (hnext e List.mem_cons_self s s₁ hs)) hrun

end Lib
end ContextFS
