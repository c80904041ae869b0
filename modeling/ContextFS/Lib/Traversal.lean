import Mathlib.Logic.Relation

/-!
# Traversals that remember where they have been

Two shapes of graph traversal over a state that only grows.

A `Walk` recurses: a node not seen before is noted and its tasks are done in order, each one
either another node or an action on the state.  `Walk.run_spec` says what a walk that succeeds
leaves behind: its root is seen, and for every node it has seen for the first time all tasks
are done.  A node noted by an outer call and not finished yet is no exception, because the
statement is about the state at the end.

A `Worklist` iterates: nodes wait on a stack, and expanding a node acts on the state and pushes
the nodes it leads to.
-/

namespace ContextFS
namespace Lib

variable {α σ ε : Type*}

/-- One thing to do at a node. -/
inductive Task (α σ ε : Type*)
  | visit (a : α)
  | act (f : σ → Except ε σ)

/-- A recursive traversal; `stuck` is the error of a run that is out of fuel. -/
structure Walk (α σ ε : Type*) where
  seen : α → σ → Bool
  note : α → σ → σ
  tasks : α → List (Task α σ ε)
  stuck : ε

namespace Walk

/-- The tasks of one node, with `rec` for the nodes among them. -/
def runTasks (rec : α → σ → Except ε σ) : List (Task α σ ε) → σ → Except ε σ
  | [], s => .ok s
  | .visit b :: ts, s =>
      match rec b s with
      | .error e => .error e
      | .ok s' => runTasks rec ts s'
  | .act f :: ts, s =>
      match f s with
      | .error e => .error e
      | .ok s' => runTasks rec ts s'

def run (W : Walk α σ ε) : Nat → α → σ → Except ε σ
  | 0, _, _ => .error W.stuck
  | fuel + 1, a, s => if W.seen a s then .ok s else runTasks (W.run fuel) (W.tasks a) (W.note a s)

/-- The state grows along `le`, nodes stay seen, and only noting a node makes it seen. -/
structure Laws (W : Walk α σ ε) (le : σ → σ → Prop) : Prop where
  refl : ∀ s, le s s
  trans : ∀ {s₁ s₂ s₃}, le s₁ s₂ → le s₂ s₃ → le s₁ s₃
  seen_mono : ∀ {a s s'}, le s s' → W.seen a s → W.seen a s'
  le_note : ∀ a s, le s (W.note a s)
  seen_note : ∀ {a b s}, W.seen b (W.note a s) ↔ b = a ∨ W.seen b s
  le_act : ∀ {a f s s'}, .act f ∈ W.tasks a → f s = .ok s' → le s s'
  seen_act : ∀ {a f s s' b}, .act f ∈ W.tasks a → f s = .ok s' → W.seen b s' → W.seen b s

/-- A task is done in `s`: its node is seen, its action was performed on the way to `s`. -/
def TaskDone (W : Walk α σ ε) (le : σ → σ → Prop) (s : σ) : Task α σ ε → Prop
  | .visit b => W.seen b s
  | .act f => ∃ u u', f u = .ok u' ∧ le u' s

/-- All tasks of a node are done. -/
def Done (W : Walk α σ ε) (le : σ → σ → Prop) (s : σ) (a : α) : Prop :=
  ∀ t ∈ W.tasks a, W.TaskDone le s t

/-- What a successful step from `s` to `s'` may rely on and guarantees. -/
structure Progress (W : Walk α σ ε) (le : σ → σ → Prop) (s s' : σ) : Prop where
  grew : le s s'
  done : ∀ x, W.seen x s' → W.seen x s ∨ W.Done le s' x

variable {W : Walk α σ ε} {le : σ → σ → Prop}

theorem TaskDone.mono (hW : W.Laws le) {s s' : σ} (h : le s s') {t : Task α σ ε}
    (ht : W.TaskDone le s t) : W.TaskDone le s' t := by
  cases t with
  | visit b => exact hW.seen_mono h ht
  | act f =>
      obtain ⟨u, u', hf, hu⟩ := ht
      exact ⟨u, u', hf, hW.trans hu h⟩

theorem Done.mono (hW : W.Laws le) {s s' : σ} (h : le s s') {a : α} (ha : W.Done le s a) :
    W.Done le s' a :=
  fun t ht => (ha t ht).mono hW h

theorem Progress.trans (hW : W.Laws le) {s₁ s₂ s₃ : σ} (h₁₂ : W.Progress le s₁ s₂)
    (h₂₃ : W.Progress le s₂ s₃) : W.Progress le s₁ s₃ := by
  refine ⟨hW.trans h₁₂.grew h₂₃.grew, fun x hx => ?_⟩
  rcases h₂₃.done x hx with hx | hx
  · rcases h₁₂.done x hx with hx | hx
    · exact Or.inl hx
    · exact Or.inr (hx.mono hW h₂₃.grew)
  · exact Or.inr hx

/-- Where every seen node was done, every seen node is done after further progress. -/
theorem Progress.done_all (hW : W.Laws le) {s s' : σ} (h : W.Progress le s s')
    (hall : ∀ x, W.seen x s → W.Done le s x) : ∀ x, W.seen x s' → W.Done le s' x := by
  intro x hx
  rcases h.done x hx with hx | hx
  · exact (hall x hx).mono hW h.grew
  · exact hx

/-- The tasks of a node, given what the recursive calls guarantee. -/
theorem runTasks_spec (hW : W.Laws le) {rec : α → σ → Except ε σ}
    (hrec : ∀ b s s', rec b s = .ok s' → W.Progress le s s' ∧ W.seen b s')
    {a : α} {ts : List (Task α σ ε)} (hts : ∀ t ∈ ts, t ∈ W.tasks a) {s s' : σ}
    (h : runTasks rec ts s = .ok s') :
    W.Progress le s s' ∧ ∀ t ∈ ts, W.TaskDone le s' t := by
  induction ts generalizing s with
  | nil =>
      cases h
      exact ⟨⟨hW.refl _, fun _ hx => Or.inl hx⟩, by simp⟩
  | cons t ts ih =>
      have hrest : ∀ t ∈ ts, t ∈ W.tasks a := fun t ht => hts t (List.mem_cons_of_mem _ ht)
      cases t with
      | visit b =>
          simp only [runTasks] at h
          cases hb : rec b s with
          | error e => simp [hb] at h
          | ok s₁ =>
              rw [hb] at h
              obtain ⟨hprog, hseen⟩ := hrec b s s₁ hb
              obtain ⟨hprog', hdone⟩ := ih hrest h
              refine ⟨hprog.trans hW hprog', List.forall_mem_cons.2 ⟨?_, hdone⟩⟩
              exact hW.seen_mono hprog'.grew hseen
      | act f =>
          simp only [runTasks] at h
          cases hf : f s with
          | error e => simp [hf] at h
          | ok s₁ =>
              rw [hf] at h
              have hmem := hts _ List.mem_cons_self
              obtain ⟨hprog', hdone⟩ := ih hrest h
              have hprog : W.Progress le s s₁ :=
                ⟨hW.le_act hmem hf, fun _ hx => Or.inl (hW.seen_act hmem hf hx)⟩
              refine ⟨hprog.trans hW hprog', List.forall_mem_cons.2 ⟨?_, hdone⟩⟩
              exact ⟨s, s₁, hf, hprog'.grew⟩

/-- A walk that succeeds has seen its root, and has done all tasks of every node it has seen
for the first time. -/
theorem run_spec (hW : W.Laws le) {fuel : Nat} {a : α} {s s' : σ} (h : W.run fuel a s = .ok s') :
    W.Progress le s s' ∧ W.seen a s' := by
  induction fuel generalizing a s s' with
  | zero => cases h
  | succ fuel ih =>
      simp only [run] at h
      by_cases hseen : W.seen a s
      · simp only [hseen, if_true, Except.ok.injEq] at h
        subst h
        exact ⟨⟨hW.refl s, fun _ hx => Or.inl hx⟩, hseen⟩
      · simp only [hseen, Bool.false_eq_true, if_false] at h
        obtain ⟨hprog, hdone⟩ := runTasks_spec hW (fun b s s' hb => ih hb) (fun _ ht => ht) h
        have ha : W.seen a s' := hW.seen_mono hprog.grew (hW.seen_note.2 (Or.inl rfl))
        refine ⟨⟨hW.trans (hW.le_note a s) hprog.grew, fun x hx => ?_⟩, ha⟩
        rcases hprog.done x hx with hx | hx
        · rcases hW.seen_note.1 hx with rfl | hx
          · exact Or.inr hdone
          · exact Or.inl hx
        · exact Or.inr hx

/-- One node leads to another. -/
def Leads (W : Walk α σ ε) (a b : α) : Prop := .visit b ∈ W.tasks a

/-- A property that noting and acting keep, on the nodes that can be reached. -/
theorem run_keeps (Good : α → Prop) {P : σ → Prop} (hvisit : ∀ a b, Good a → W.Leads a b → Good b)
    (hnote : ∀ a s, P s → P (W.note a s))
    (hact : ∀ a f s s', Good a → .act f ∈ W.tasks a → f s = .ok s' → P s → P s') {fuel : Nat} {a : α}
    {s s' : σ} (h : W.run fuel a s = .ok s') (ha : Good a) (hs : P s) : P s' := by
  induction fuel generalizing a s s' with
  | zero => cases h
  | succ fuel ih =>
      have htasks : ∀ ts : List (Task α σ ε), (∀ t ∈ ts, t ∈ W.tasks a) → ∀ u, P u →
          runTasks (W.run fuel) ts u = .ok s' → P s' := by
        intro ts
        induction ts with
        | nil =>
            intro _ u hu hrun
            cases hrun
            exact hu
        | cons t ts ihts =>
            intro hts u hu hrun
            have hrest : ∀ t ∈ ts, t ∈ W.tasks a := fun t ht => hts t (List.mem_cons_of_mem _ ht)
            have hmem := hts t List.mem_cons_self
            cases t with
            | visit b =>
                simp only [runTasks] at hrun
                cases hb : W.run fuel b u with
                | error e => simp [hb] at hrun
                | ok u' =>
                    rw [hb] at hrun
                    exact ihts hrest u' (ih hb (hvisit a b ha hmem) hu) hrun
            | act f =>
                simp only [runTasks] at hrun
                cases hf : f u with
                | error e => simp [hf] at hrun
                | ok u' =>
                    rw [hf] at hrun
                    exact ihts hrest u' (hact a f u u' ha hmem hf hu) hrun
      simp only [run] at h
      split at h
      · cases h
        exact hs
      · exact htasks _ (fun _ ht => ht) _ (hnote a s hs) h

/-- A property that noting and acting keep is kept by a walk. -/
theorem run_invariant {P : σ → Prop} (hnote : ∀ a s, P s → P (W.note a s))
    (hact : ∀ {a f s s'}, .act f ∈ W.tasks a → f s = .ok s' → P s → P s') {fuel : Nat} {a : α}
    {s s' : σ} (h : W.run fuel a s = .ok s') (hs : P s) : P s' :=
  run_keeps (fun _ => True) (fun _ _ _ _ => trivial) hnote
    (fun _ _ _ _ _ hmem hf => hact hmem hf) h trivial hs

/-- Where every seen node is done, everything reachable from a seen node is seen. -/
theorem seen_of_reachable {s : σ} (hdone : ∀ x, W.seen x s → W.Done le s x) {a b : α}
    (ha : W.seen a s) (hab : Relation.ReflTransGen W.Leads a b) : W.seen b s := by
  induction hab with
  | refl => exact ha
  | tail _ hlead ih => exact hdone _ ih _ hlead

end Walk

/-! ## Worklists -/

/-- An iterative traversal: `expand` acts on the state and names the nodes to push. -/
structure Worklist (α σ ε : Type*) where
  expand : α → σ → Except ε (List α × σ)
  stuck : ε

namespace Worklist

variable [DecidableEq α]

/-- The node on top of the stack is dropped if it is among `done` and expanded if not; the last
node pushed is the next one taken. -/
def run (L : Worklist α σ ε) : Nat → List α → List α → σ → Except ε σ
  | 0, _, _, _ => .error L.stuck
  | _ + 1, [], _, s => .ok s
  | fuel + 1, a :: stack, done, s =>
      if a ∈ done then L.run fuel stack done s
      else
        match L.expand a s with
        | .error e => .error e
        | .ok (next, s') => L.run fuel (next.reverse ++ stack) (a :: done) s'

structure Laws (L : Worklist α σ ε) (le : σ → σ → Prop) : Prop where
  refl : ∀ s, le s s
  trans : ∀ {s₁ s₂ s₃}, le s₁ s₂ → le s₂ s₃ → le s₁ s₃
  le_expand : ∀ {a s next s'}, L.expand a s = .ok (next, s') → le s s'

/-- `a` was expanded on the way to `s`, and every node it leads to is in `done`. -/
def Expanded (L : Worklist α σ ε) (le : σ → σ → Prop) (s : σ) (done : List α) (a : α) : Prop :=
  ∃ u next u', L.expand a u = .ok (next, u') ∧ le u' s ∧ ∀ b ∈ next, b ∈ done

variable {L : Worklist α σ ε} {le : σ → σ → Prop}

/-- The nodes done at the end contain the stack and are closed under expansion. -/
theorem run_spec (hL : L.Laws le) {fuel : Nat} {stack done : List α} {s s' : σ}
    (h : L.run fuel stack done s = .ok s') :
    le s s' ∧ ∃ all : List α, (∀ a ∈ stack, a ∈ all) ∧ (∀ a ∈ done, a ∈ all) ∧
      ∀ a ∈ all, a ∈ done ∨ L.Expanded le s' all a := by
  induction fuel generalizing stack done s with
  | zero => cases h
  | succ fuel ih =>
      cases stack with
      | nil =>
          cases h
          exact ⟨hL.refl _, done, by simp, fun _ ha => ha, fun _ ha => Or.inl ha⟩
      | cons a stack =>
          simp only [run] at h
          by_cases hin : a ∈ done
          · rw [if_pos hin] at h
            obtain ⟨hle, all, hstack, hdone, hall⟩ := ih h
            exact ⟨hle, all, List.forall_mem_cons.2 ⟨hdone a hin, hstack⟩, hdone, hall⟩
          · rw [if_neg hin] at h
            cases hx : L.expand a s with
            | error e => simp [hx] at h
            | ok r =>
                obtain ⟨next, s₁⟩ := r
                rw [hx] at h
                obtain ⟨hle, all, hstack, hdone, hall⟩ := ih h
                refine ⟨hL.trans (hL.le_expand hx) hle, all, ?_, ?_, ?_⟩
                · refine List.forall_mem_cons.2 ⟨hdone a List.mem_cons_self, fun b hb => ?_⟩
                  exact hstack b (List.mem_append_right _ hb)
                · exact fun b hb => hdone b (List.mem_cons_of_mem a hb)
                · intro b hb
                  rcases hall b hb with hb | hb
                  · rcases List.mem_cons.1 hb with rfl | hb
                    · right
                      refine ⟨s, next, s₁, hx, hle, fun c hc => ?_⟩
                      exact hstack c (List.mem_append_left _ (List.mem_reverse.2 hc))
                    · exact Or.inl hb
                  · exact Or.inr hb

end Worklist
end Lib
end ContextFS
