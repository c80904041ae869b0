import Mathlib.Algebra.BigOperators.Group.Finset.Basic
import Mathlib.Algebra.Order.BigOperators.Group.Finset
import Mathlib.Logic.Relation
import Mathlib.Data.Fintype.EquivFin
import Mathlib.Order.Preorder.Finite
import Mathlib.Order.WellFounded

/-!
# Ancestors in a finite graph

`next a` lists the parents of a node.  A search that keeps a queue and the nodes it has seen is
described by `Frontier`, which its two steps keep: dropping a node already seen and expanding a
new one.  When the queue is empty the nodes seen are exactly the ancestors of the start, and
`searchCost` says how many steps that takes.  In an acyclic graph two nodes with a common ancestor
have one that is a proper ancestor of no other.
-/

namespace ContextFS
namespace Lib

variable {α : Type*} (next : α → List α)

/-- `a` is an ancestor of `d`, or `d` itself. -/
def Ancestor (a d : α) : Prop := Relation.ReflTransGen (fun x y => y ∈ next x) d a

/-- At least one link leads from `d` up to `a`. -/
def ProperAncestor (a d : α) : Prop := Relation.TransGen (fun x y => y ∈ next x) d a

theorem Ancestor.refl (a : α) : Ancestor next a a := Relation.ReflTransGen.refl

variable {next}

theorem Ancestor.proper {a d : α} (h : Ancestor next a d) (hne : a ≠ d) :
    ProperAncestor next a d := by
  rcases Relation.reflTransGen_iff_eq_or_transGen.1 h with heq | hproper
  · exact absurd heq hne
  · exact hproper

theorem ProperAncestor.ancestor {a d : α} (h : ProperAncestor next a d) : Ancestor next a d :=
  Relation.TransGen.to_reflTransGen h

/-- A set that contains the parents of its nodes contains their ancestors. -/
theorem Ancestor.mem {U : Finset α} (hU : ∀ a ∈ U, ∀ b ∈ next a, b ∈ U) {a d : α}
    (h : Ancestor next a d) (hd : d ∈ U) : a ∈ U := by
  induction h with
  | refl => exact hd
  | tail _ hlink ih => exact hU _ ih _ hlink

/-- Where every link leads to a smaller number there is no cycle. -/
theorem acyclic_of_rank {U : Finset α} (hU : ∀ a ∈ U, ∀ b ∈ next a, b ∈ U) (rank : α → Nat)
    (hrank : ∀ a ∈ U, ∀ b ∈ next a, rank b < rank a) : ∀ a ∈ U, ¬ ProperAncestor next a a := by
  have hlt : ∀ a d, ProperAncestor next a d → d ∈ U → a ∈ U ∧ rank a < rank d := by
    intro a d h hd
    induction h with
    | single hlink => exact ⟨hU _ hd _ hlink, hrank _ hd _ hlink⟩
    | tail _ hlink ih =>
        obtain ⟨hmem, hless⟩ := ih
        exact ⟨hU _ hmem _ hlink, (hrank _ hmem _ hlink).trans hless⟩
  intro a ha hcycle
  exact absurd (hlt a a hcycle ha).2 (Nat.lt_irrefl _)

/-! ## Searching -/

/-- A search from `start` that has seen some nodes and still has a queue: the start and the parents
of every node seen are covered, and only ancestors are. -/
structure Frontier (next : α → List α) (start : α) (seen : α → Prop) (queue : List α) : Prop where
  start_mem : seen start ∨ start ∈ queue
  closed : ∀ a, seen a → ∀ b ∈ next a, seen b ∨ b ∈ queue
  sound : ∀ a, seen a ∨ a ∈ queue → Ancestor next a start

namespace Frontier

variable {start : α} {seen : α → Prop} {queue : List α}

theorem init (start : α) (hseen : ∀ a, ¬ seen a) : Frontier next start seen [start] where
  start_mem := Or.inr (List.mem_singleton_self start)
  closed a ha := absurd ha (hseen a)
  sound a ha := by
    rcases ha with ha | ha
    · exact absurd ha (hseen a)
    · rw [List.mem_singleton.1 ha]
      exact .refl next start

/-- A node seen already is dropped from the queue. -/
theorem skip {a : α} (h : Frontier next start seen (a :: queue)) (ha : seen a) :
    Frontier next start seen queue where
  start_mem := by
    rcases h.start_mem with hs | hs
    · exact Or.inl hs
    · rcases List.mem_cons.1 hs with rfl | hs
      · exact Or.inl ha
      · exact Or.inr hs
  closed b hb c hc := by
    rcases h.closed b hb c hc with hs | hs
    · exact Or.inl hs
    · rcases List.mem_cons.1 hs with rfl | hs
      · exact Or.inl ha
      · exact Or.inr hs
  sound b hb := h.sound b (hb.imp_right (List.mem_cons_of_mem a))

/-- A new node is noted and its parents join the queue. -/
theorem expand {a : α} {seen' : α → Prop} (h : Frontier next start seen (a :: queue))
    (hseen : ∀ b, seen' b ↔ b = a ∨ seen b) :
    Frontier next start seen' (queue ++ next a) where
  start_mem := by
    rw [hseen]
    rcases h.start_mem with hs | hs
    · exact Or.inl (Or.inr hs)
    · rcases List.mem_cons.1 hs with rfl | hs
      · exact Or.inl (Or.inl rfl)
      · exact Or.inr (List.mem_append_left _ hs)
  closed b hb c hc := by
    rw [hseen]
    rcases (hseen b).1 hb with rfl | hb
    · exact Or.inr (List.mem_append_right _ hc)
    · rcases h.closed b hb c hc with hs | hs
      · exact Or.inl (Or.inr hs)
      · rcases List.mem_cons.1 hs with rfl | hs
        · exact Or.inl (Or.inl rfl)
        · exact Or.inr (List.mem_append_left _ hs)
  sound b hb := by
    have ha : Ancestor next a start := h.sound a (Or.inr List.mem_cons_self)
    rw [hseen] at hb
    rcases hb with (rfl | hb) | hb
    · exact ha
    · exact h.sound b (Or.inl hb)
    · rcases List.mem_append.1 hb with hb | hb
      · exact h.sound b (Or.inr (List.mem_cons_of_mem a hb))
      · exact Relation.ReflTransGen.tail ha hb

/-- When nothing is left to do, exactly the ancestors were seen. -/
theorem seen_iff (h : Frontier next start seen []) (a : α) : seen a ↔ Ancestor next a start := by
  constructor
  · intro ha
    exact h.sound a (Or.inl ha)
  · intro hreach
    induction hreach with
    | refl => simpa using h.start_mem
    | @tail b c _ hlink ih => simpa using h.closed b ih c hlink

end Frontier

/-- The steps a search has left: its queue and the parents of the nodes not seen yet. -/
def searchCost (next : α → List α) (U : Finset α) (seen : α → Prop) [DecidablePred seen]
    (queue : List α) : Nat :=
  queue.length + ∑ a ∈ U.filter (fun a => ¬ seen a), (next a).length

theorem searchCost_skip {U : Finset α} {seen : α → Prop} [DecidablePred seen] {a : α}
    {queue : List α} : searchCost next U seen queue + 1 = searchCost next U seen (a :: queue) := by
  simp only [searchCost, List.length_cons]
  omega

theorem searchCost_expand {U : Finset α} {seen seen' : α → Prop} [DecidablePred seen]
    [DecidablePred seen'] {a : α} {queue : List α} (hU : a ∈ U) (ha : ¬ seen a)
    (hseen : ∀ b, seen' b ↔ b = a ∨ seen b) :
    searchCost next U seen' (queue ++ next a) + 1 = searchCost next U seen (a :: queue) := by
  classical
  have hin : a ∈ U.filter fun b => ¬ seen b := Finset.mem_filter.2 ⟨hU, ha⟩
  have herase : U.filter (fun b => ¬ seen' b) = (U.filter fun b => ¬ seen b).erase a := by
    ext b
    simp only [Finset.mem_filter, Finset.mem_erase, hseen, not_or]
    tauto
  have hsum := Finset.sum_erase_add _ (fun b => (next b).length) hin
  simp only [searchCost, herase, List.length_append, List.length_cons]
  omega

/-! ## Best common ancestors -/

/-- An ancestor of both. -/
def CommonAncestor (next : α → List α) (first second a : α) : Prop :=
  Ancestor next a first ∧ Ancestor next a second

/-- A common ancestor that is a proper ancestor of no other one. -/
def MaximalCommon (next : α → List α) (first second a : α) : Prop :=
  CommonAncestor next first second a ∧
    ∀ b, CommonAncestor next first second b → ¬ ProperAncestor next a b

theorem CommonAncestor.symm {first second a : α} (h : CommonAncestor next first second a) :
    CommonAncestor next second first a :=
  ⟨h.2, h.1⟩

theorem MaximalCommon.symm {first second a : α} (h : MaximalCommon next first second a) :
    MaximalCommon next second first a :=
  ⟨h.1.symm, fun b hb => h.2 b hb.symm⟩

/-- A graph in which no node is its own proper ancestor orders a finite set of nodes: some node of
it is a proper ancestor of no other. -/
theorem exists_maximal {U : Finset α} (hacyclic : ∀ a ∈ U, ¬ ProperAncestor next a a)
    {P : α → Prop} (hP : ∀ a, P a → a ∈ U) (hne : ∃ a, P a) :
    ∃ a, P a ∧ ∀ b, P b → ¬ ProperAncestor next a b := by
  let above : U → U → Prop := fun x y => ProperAncestor next y.1 x.1
  have htrans : IsTrans U above := ⟨fun x y z hxy hyz => Relation.TransGen.trans hxy hyz⟩
  have hirrefl : Std.Irrefl above := ⟨fun x => hacyclic x.1 x.2⟩
  have hwf : WellFounded above := Finite.wellFounded_of_trans_of_irrefl above
  obtain ⟨a₀, ha₀⟩ := hne
  obtain ⟨m, hm, hmin⟩ := hwf.has_min {x : U | P x.1} ⟨⟨a₀, hP a₀ ha₀⟩, ha₀⟩
  refine ⟨m.1, hm, fun b hb habove => ?_⟩
  exact hmin ⟨b, hP b hb⟩ hb habove

/-! ## Endless walks -/

theorem acc_of_reflTransGen {r : α → α → Prop} {a b : α} (h : Acc (fun x y => r y x) a)
    (hab : Relation.ReflTransGen r a b) : Acc (fun x y => r y x) b := by
  induction hab with
  | refl => exact h
  | tail _ hstep ih => exact ih.inv hstep

/-- An accessible node is on no cycle. -/
theorem not_transGen_of_acc {r : α → α → Prop} {a : α} (h : Acc (fun x y => r y x) a) :
    ¬ Relation.TransGen r a a := by
  induction h with
  | intro a _ ih =>
      intro hcycle
      obtain ⟨b, hstep, hback⟩ := Relation.TransGen.head'_iff.1 hcycle
      exact ih b hstep (Relation.TransGen.tail' hback hstep)

/-- When only finitely many nodes have a link, every walk from a node ends exactly when no cycle
is reached from it. -/
theorem acc_iff_no_cycle {r : α → α → Prop} {S : Set α} (hfinite : S.Finite)
    (hS : ∀ a b, r a b → a ∈ S) (a : α) :
    Acc (fun x y => r y x) a ↔ ∀ b, Relation.ReflTransGen r a b → ¬ Relation.TransGen r b b := by
  refine ⟨fun h b hb => not_transGen_of_acc (acc_of_reflTransGen h hb), fun hno => ?_⟩
  by_contra hacc
  obtain ⟨f, rfl, hf⟩ := not_acc_iff_exists_descending_chain.1 hacc
  have hlater : ∀ m k, Relation.TransGen r (f m) (f (m + k + 1)) := by
    intro m k
    induction k with
    | zero => exact .single (hf m)
    | succ k ih => exact ih.tail (hf (m + k + 1))
  have hreach : ∀ m, Relation.ReflTransGen r (f 0) (f m) := by
    intro m
    induction m with
    | zero => exact .refl
    | succ m ih => exact ih.tail (hf m)
  obtain ⟨m, n, hlt, heq⟩ :=
    Set.Finite.exists_lt_map_eq_of_forall_mem (fun n => hS _ _ (hf n)) hfinite
  obtain ⟨k, rfl⟩ := Nat.exists_eq_add_of_lt hlt
  have hcycle := hlater m k
  rw [← heq] at hcycle
  exact hno (f m) (hreach m) hcycle

end Lib
end ContextFS
