import ContextFS.Lib.Runs

/-!
# Threads that share a state

A thread asks and goes on with the answer, or is done.  A question is answered in one step on the
shared state, and between two questions of one thread the others step as they like.  So whatever a
thread has learnt must outlast the steps of the others: it is kept along an order that every step
of the system follows.
-/

namespace ContextFS
namespace Lib

/-- A thread that asks questions from `E`, each answered in `R`, and ends with an `α`. -/
inductive Thread (E : Type) (R : E → Type) (α : Type)
  | done (a : α)
  | ask (e : E) (next : R e → Thread E R α)

/-- How questions are answered, with the help of what only the outside knows, or have to wait; what
all states satisfy, and how they follow one another. -/
structure Service (S E O : Type) (R : E → Type) where
  serve : S → O → (e : E) → Option (R e × S)
  Inv : S → Prop
  Later : S → S → Prop
  refl : ∀ s, Later s s
  trans : ∀ {s s' s'' : S}, Later s s' → Later s' s'' → Later s s''

namespace Service

variable {S E O : Type} {R : E → Type} (V : Service S E O R)

/-- Now and whatever happens. -/
def Always (P : S → Prop) (s : S) : Prop := ∀ s', V.Later s s' → V.Inv s' → P s'

variable {V} {P : S → Prop} {s s' : S}

theorem Always.now (h : V.Always P s) (hinv : V.Inv s) : P s := h s (V.refl s) hinv

theorem Always.later (h : V.Always P s) (hs : V.Later s s') : V.Always P s' :=
  fun t ht => h t (V.trans hs ht)

end Service

namespace Thread

variable {E : Type} {R : E → Type} {α β : Type} {S O : Type}

/-- One thread and then another. -/
def andThen : Thread E R α → (α → Thread E R β) → Thread E R β
  | .done a, f => f a
  | .ask e next, f => .ask e fun r => (next r).andThen f

instance : Monad (Thread E R) where
  pure := .done
  bind := andThen

/-- A single question. -/
def query (e : E) : Thread E R (R e) := .ask e .done

/-! ## What a thread keeps to -/

variable (V : Service S E O R)

/-- From this state on, whatever the others do, the thread keeps the invariant and the order, and
what it ends with satisfies `Q`. -/
def Safe (Q : α → S → Prop) : Thread E R α → S → Prop
  | .done a, s => V.Always (Q a) s
  | .ask e next, s => ∀ s' o r s'', V.Later s s' → V.Inv s' → V.serve s' o e = some (r, s'') →
      V.Inv s'' ∧ V.Later s' s'' ∧ (next r).Safe Q s''

variable {V} {Q : α → S → Prop} {Q' : β → S → Prop} {s s' : S}

/-- The others' steps do no harm. -/
theorem Safe.later {p : Thread E R α} (h : p.Safe V Q s) (hs : V.Later s s') : p.Safe V Q s' := by
  cases p with
  | done a => exact Service.Always.later h hs
  | ask e next =>
      intro t o r t' ht hinv hserve
      exact h t o r t' (V.trans hs ht) hinv hserve

/-- A question that the service answers well. -/
theorem safe_query {e : E} {Q : R e → S → Prop}
    (h : ∀ s' o r s'', V.Later s s' → V.Inv s' → V.serve s' o e = some (r, s'') →
      V.Inv s'' ∧ V.Later s' s'' ∧ V.Always (Q r) s'') :
    (query e : Thread E R (R e)).Safe V Q s := h

theorem Safe.bind {p : Thread E R α} {f : α → Thread E R β} (h : p.Safe V Q s)
    (hinv : V.Inv s)
    (hf : ∀ a s', V.Later s s' → V.Inv s' → V.Always (Q a) s' → (f a).Safe V Q' s') :
    (p >>= f).Safe V Q' s := by
  induction p generalizing s with
  | done a => exact hf a s (V.refl s) hinv h
  | ask e next ih =>
      intro s' o r s'' hlater hinv' hserve
      obtain ⟨hinv'', hlater', hnext⟩ := h s' o r s'' hlater hinv' hserve
      refine ⟨hinv'', hlater', ih r hnext hinv'' ?_⟩
      intro a t ht
      exact hf a t (V.trans hlater (V.trans hlater' ht))

/-- Less is asked of what the thread ends with. -/
theorem Safe.imp {Q' : α → S → Prop} {p : Thread E R α} (h : p.Safe V Q s)
    (himp : ∀ a t, V.Later s t → V.Inv t → Q a t → Q' a t) : p.Safe V Q' s := by
  induction p generalizing s with
  | done a =>
      intro t ht hinv
      exact himp a t ht hinv (h t ht hinv)
  | ask e next ih =>
      intro s' o r s'' hlater hinv hserve
      obtain ⟨hinv', hlater', hnext⟩ := h s' o r s'' hlater hinv hserve
      refine ⟨hinv', hlater', ih r hnext ?_⟩
      intro a t ht
      exact himp a t (V.trans hlater (V.trans hlater' ht))

end Thread

/-! ## Threads that can fail -/

/-- A thread that may end early, with a message. -/
abbrev Attempt (E : Type) (R : E → Type) := ExceptT String (Thread E R)

namespace Attempt

open Thread

variable {E : Type} {R : E → Type} {α β : Type} {S O : Type} {V : Service S E O R}

/-- The thread is safe, and unless it fails what it ends with satisfies `Q`. -/
def Passes (V : Service S E O R) (Q : α → S → Prop) (p : Attempt E R α) (s : S) : Prop :=
  p.run.Safe V (fun r s => ∀ a, r = .ok a → Q a s) s

variable {Q : α → S → Prop} {Q' : β → S → Prop} {s s' : S}

theorem passes_pure {a : α} (h : V.Always (Q a) s) : (pure a : Attempt E R α).Passes V Q s := by
  intro t ht hinv b hb
  cases hb
  exact h t ht hinv

theorem passes_throw {message : String} : (throw message : Attempt E R α).Passes V Q s := by
  intro t ht hinv b hb
  cases hb

theorem passes_lift {p : Thread E R α} (h : p.Safe V Q s) (hinv : V.Inv s) :
    (liftM p : Attempt E R α).Passes V Q s := by
  refine Safe.bind h hinv fun a s' hlater hinv' ha => ?_
  intro t ht hinv'' b hb
  cases hb
  exact ha t ht hinv''

theorem Passes.imp {Q' : α → S → Prop} {p : Attempt E R α} (h : p.Passes V Q s)
    (himp : ∀ a t, V.Later s t → V.Inv t → Q a t → Q' a t) : p.Passes V Q' s :=
  Safe.imp h fun _ t ht hinv hq a ha => himp a t ht hinv (hq a ha)

theorem Passes.bind {p : Attempt E R α} {f : α → Attempt E R β} (h : p.Passes V Q s)
    (hinv : V.Inv s)
    (hf : ∀ a s', V.Later s s' → V.Inv s' → V.Always (Q a) s' → (f a).Passes V Q' s') :
    (p >>= f).Passes V Q' s := by
  refine Safe.bind h hinv fun r s' hlater hinv' hr => ?_
  cases r with
  | error message =>
      intro t ht hinv'' b hb
      cases hb
  | ok a => exact hf a s' hlater hinv' fun t ht hinv'' => hr t ht hinv'' a rfl

end Attempt

/-! ## All threads together -/

/-- A shared state and the threads that were started. -/
structure Pool (S E : Type) (R : E → Type) (α : Type) where
  state : S
  threads : List (Thread E R α) := []

/-- What happens in a pool: the outside world moves, a thread starts, the question of a thread is
answered. -/
inductive PoolEvent (E O U : Type) (R : E → Type) (α : Type)
  | world (u : U)
  | start (p : Thread E R α)
  | answer (i : Nat) (o : O)

namespace Pool

variable {S E O U : Type} {R : E → Type} {α : Type}

/-- The pool after an event. -/
def next (serve : S → O → (e : E) → Option (R e × S)) (move : S → U → S) (x : Pool S E R α) :
    PoolEvent E O U R α → Option (Pool S E R α)
  | .world u => some { x with state := move x.state u }
  | .start p => some { x with threads := x.threads ++ [p] }
  | .answer i o =>
      match x.threads[i]? with
      | some (.ask e next) =>
          (serve x.state o e).map fun p => {
            state := p.2
            threads := x.threads.set i (next p.1) }
      | _ => none

/-- Steps in which only threads from `Starts` begin. -/
def Step (serve : S → O → (e : E) → Option (R e × S)) (move : S → U → S) (Starts : Thread E R α → Prop)
    (x : Pool S E R α) (ev : PoolEvent E O U R α) (x' : Pool S E R α) : Prop :=
  x.next serve move ev = some x' ∧ ∀ p, ev = .start p → Starts p

/-- A pool in its first state, without threads. -/
def Init (P : S → Prop) (x : Pool S E R α) : Prop := P x.state ∧ x.threads = []

/-- If every thread is safe when it starts, and the world keeps the invariant and the order, then
the invariant holds all the time and every thread is safe. -/
theorem safe_of_reaches {V : Service S E O R} {move : S → U → S} {Starts : Thread E R α → Prop}
    {Q : α → S → Prop} {P : S → Prop} (hinit : ∀ s, P s → V.Inv s)
    (hmove : ∀ s u, V.Inv s → V.Inv (move s u) ∧ V.Later s (move s u))
    (hstarts : ∀ p s, Starts p → V.Inv s → p.Safe V Q s) {x : Pool S E R α}
    (h : Reaches (Init P) (Step V.serve move Starts) x) :
    V.Inv x.state ∧ ∀ p ∈ x.threads, p.Safe V Q x.state := by
  refine h.invariant (I := fun x => V.Inv x.state ∧ ∀ p ∈ x.threads, p.Safe V Q x.state) ?_ ?_
  · rintro x ⟨hx, hnone⟩
    refine ⟨hinit _ hx, ?_⟩
    intro p hp
    rw [hnone] at hp
    cases hp
  · rintro x ev x' ⟨hinv, hsafe⟩ ⟨hnext, hstart⟩
    cases ev with
    | world u =>
        cases hnext
        obtain ⟨hinv', hlater⟩ := hmove x.state u hinv
        exact ⟨hinv', fun p hp => (hsafe p hp).later hlater⟩
    | start p =>
        cases hnext
        refine ⟨hinv, ?_⟩
        intro q hq
        rcases List.mem_append.1 hq with hq | hq
        · exact hsafe q hq
        · cases List.mem_singleton.1 hq
          exact hstarts p _ (hstart p rfl) hinv
    | answer i o =>
        simp only [next] at hnext
        split at hnext
        · rename_i e next hi
          obtain ⟨⟨r, s⟩, hserve, rfl⟩ := Option.map_eq_some_iff.1 hnext
          obtain ⟨hinv', hlater, hthread⟩ :=
            hsafe _ (List.mem_of_getElem? hi) _ o r s (V.refl _) hinv hserve
          refine ⟨hinv', ?_⟩
          intro q hq
          rcases List.mem_or_eq_of_mem_set hq with hq | rfl
          · exact (hsafe q hq).later hlater
          · exact hthread
        · cases hnext

end Pool
end Lib
end ContextFS
