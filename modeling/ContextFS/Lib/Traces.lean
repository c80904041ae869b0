import Mathlib.Data.List.Forall2

/-!
# Traces and simulation

A machine that is called and answers, one call after the other.  When every step of it is one of
a plainer machine, with answers that mean the same, so is every run.
-/

namespace ContextFS
namespace Lib

variable {σ ι ο α ω : Type*}

/-- The calls of a run with the answers they got. -/
inductive Trace (step : σ → ι → ο → σ → Prop) : σ → List (ι × ο) → σ → Prop
  | nil (s : σ) : Trace step s [] s
  | cons {s s' s'' : σ} {i : ι} {o : ο} {t : List (ι × ο)} (hs : step s i o s')
      (ht : Trace step s' t s'') : Trace step s ((i, o) :: t) s''

variable (next : α → ι → ω × α)

/-- The answers of a machine whose every step is determined. -/
def outputs (a : α) : List ι → List ω
  | [] => []
  | i :: is => (next a i).1 :: outputs (next a i).2 is

/-- Where the calls lead to. -/
def final (a : α) (is : List ι) : α := is.foldl (fun a i => (next a i).2) a

/-- Every call is allowed when it is made. -/
def AllAllowed (allowed : α → ι → Prop) (a : α) : List ι → Prop
  | [] => True
  | i :: is => allowed a i ∧ AllAllowed allowed (next a i).2 is

variable {next}

/-- A simulation of single steps is one of whole runs. -/
theorem Trace.simulated {step : σ → ι → ο → σ → Prop} {allowed : α → ι → Prop}
    {R : σ → α → Prop} {means : ο → ω → Prop}
    (hstep : ∀ s a i o s', R s a → step s i o s' → allowed a i →
      means o (next a i).1 ∧ R s' (next a i).2)
    {s s' : σ} {t : List (ι × ο)} (ht : Trace step s t s') {a : α} (hR : R s a)
    (hallowed : AllAllowed next allowed a (t.map Prod.fst)) :
    List.Forall₂ means (t.map Prod.snd) (outputs next a (t.map Prod.fst)) ∧
      R s' (final next a (t.map Prod.fst)) := by
  induction ht generalizing a with
  | nil s => exact ⟨.nil, hR⟩
  | cons hs _ ih =>
      obtain ⟨hnow, hlater⟩ := hallowed
      obtain ⟨hmeans, hR'⟩ := hstep _ _ _ _ _ hR hs hnow
      obtain ⟨houts, hfinal⟩ := ih hR' hlater
      exact ⟨.cons hmeans houts, hfinal⟩

end Lib
end ContextFS
