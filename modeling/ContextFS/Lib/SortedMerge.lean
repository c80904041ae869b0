import Mathlib

/-!
# Merging two sorted association lists

Two lists of pairs in strictly increasing key order are merged by two pointers; where both
have a key, the second list wins.  The result is again in strictly increasing order and holds
exactly the pairs of the second list and those of the first whose key the second lacks.
-/

namespace ContextFS
namespace Lib

open Std

variable {κ ν : Type*} [Ord κ]

/-- The keys increase strictly. -/
def SortedKeys (l : List (κ × ν)) : Prop :=
  l.Pairwise fun a b => compare a.1 b.1 = .lt

/-- The first pointer waits at `b` while the second moves; `rest` merges what follows `b`. -/
def mergeFrom (b : κ × ν) (rest : List (κ × ν) → List (κ × ν)) : List (κ × ν) → List (κ × ν)
  | [] => b :: rest []
  | d :: ds =>
      match compare d.1 b.1 with
      | .lt => d :: mergeFrom b rest ds
      | .gt => b :: rest (d :: ds)
      | .eq => d :: rest ds

/-- The two-pointer merge; `ds` wins on equal keys. -/
def mergeSorted : List (κ × ν) → List (κ × ν) → List (κ × ν)
  | [], ds => ds
  | b :: bs, ds => mergeFrom b (mergeSorted bs) ds

variable [LawfulEqOrd κ]

theorem SortedKeys.fst_ne_of_mem {b : κ × ν} {bs : List (κ × ν)} (h : SortedKeys (b :: bs))
    {x : κ × ν} (hx : x ∈ bs) : b.1 ≠ x.1 := by
  intro heq
  have hlt := (List.pairwise_cons.1 h).1 x hx
  rw [heq] at hlt
  simp at hlt

variable [TransOrd κ]

/-- Entries in front of every base key are not base keys. -/
theorem fst_ne_of_lt {b d : κ × ν} {bs : List (κ × ν)} (h : SortedKeys (b :: bs))
    (hlt : compare d.1 b.1 = .lt) {x : κ × ν} (hx : x ∈ b :: bs) : d.1 ≠ x.1 := by
  have hdx : compare d.1 x.1 = .lt := by
    rcases List.mem_cons.1 hx with rfl | hx
    · exact hlt
    · exact TransCmp.lt_trans hlt ((List.pairwise_cons.1 h).1 x hx)
  intro heq
  rw [heq] at hdx
  simp at hdx

theorem mem_mergeSorted {bs ds : List (κ × ν)} (hb : SortedKeys bs) (hd : SortedKeys ds)
    (x : κ × ν) :
    x ∈ mergeSorted bs ds ↔ x ∈ ds ∨ (x ∈ bs ∧ ∀ d ∈ ds, d.1 ≠ x.1) := by
  -- on both lists, as the merge takes the smaller head of the two
  induction bs generalizing ds with
  | nil => simp [mergeSorted]
  | cons b bs ihb =>
      have hbs : SortedKeys bs := (List.pairwise_cons.1 hb).2
      induction ds with
      | nil => simp [mergeSorted, mergeFrom, ihb hbs List.Pairwise.nil]
      | cons d ds ihd =>
          have hds : SortedKeys ds := (List.pairwise_cons.1 hd).2
          cases hcmp : compare d.1 b.1 with
          | lt =>
              have hstep : mergeSorted (b :: bs) (d :: ds) = d :: mergeSorted (b :: bs) ds := by
                simp [mergeSorted, mergeFrom, hcmp]
              have ihx : x ∈ mergeSorted (b :: bs) ds ↔
                  x ∈ ds ∨ (x ∈ b :: bs ∧ ∀ d ∈ ds, d.1 ≠ x.1) := ihd hds
              rw [hstep, List.mem_cons, ihx]
              have hne : ∀ y ∈ b :: bs, d.1 ≠ y.1 := fun y hy => fst_ne_of_lt hb hcmp hy
              constructor
              · rintro (rfl | hx | ⟨hx, hall⟩)
                · exact Or.inl List.mem_cons_self
                · exact Or.inl (List.mem_cons_of_mem _ hx)
                · exact Or.inr ⟨hx, List.forall_mem_cons.2 ⟨hne x hx, hall⟩⟩
              · rintro (hx | ⟨hx, hall⟩)
                · rcases List.mem_cons.1 hx with rfl | hx
                  · exact Or.inl rfl
                  · exact Or.inr (Or.inl hx)
                · exact Or.inr (Or.inr ⟨hx, (List.forall_mem_cons.1 hall).2⟩)
          | gt =>
              have hstep : mergeSorted (b :: bs) (d :: ds) = b :: mergeSorted bs (d :: ds) := by
                simp [mergeSorted, mergeFrom, hcmp]
              have hbd : compare b.1 d.1 = .lt := OrientedCmp.lt_of_gt hcmp
              have hne : ∀ y ∈ d :: ds, b.1 ≠ y.1 := fun y hy => fst_ne_of_lt hd hbd hy
              rw [hstep, List.mem_cons, ihb hbs hd]
              constructor
              · rintro (rfl | hx | ⟨hx, hall⟩)
                · exact Or.inr ⟨List.mem_cons_self, fun y hy => (hne y hy).symm⟩
                · exact Or.inl hx
                · exact Or.inr ⟨List.mem_cons_of_mem _ hx, hall⟩
              · rintro (hx | ⟨hx, hall⟩)
                · exact Or.inr (Or.inl hx)
                · rcases List.mem_cons.1 hx with rfl | hx
                  · exact Or.inl rfl
                  · exact Or.inr (Or.inr ⟨hx, hall⟩)
          | eq =>
              -- equal keys: the second list wins
              have hkey : d.1 = b.1 := LawfulEqCmp.eq_of_compare hcmp
              have hstep : mergeSorted (b :: bs) (d :: ds) = d :: mergeSorted bs ds := by
                simp [mergeSorted, mergeFrom, hcmp]
              have hne : ∀ y ∈ bs, d.1 ≠ y.1 := fun y hy => hkey ▸ hb.fst_ne_of_mem hy
              rw [hstep, List.mem_cons, ihb hbs hds]
              constructor
              · rintro (rfl | hx | ⟨hx, hall⟩)
                · exact Or.inl List.mem_cons_self
                · exact Or.inl (List.mem_cons_of_mem _ hx)
                · exact Or.inr ⟨List.mem_cons_of_mem _ hx,
                    List.forall_mem_cons.2 ⟨hne x hx, hall⟩⟩
              · rintro (hx | ⟨hx, hall⟩)
                · rcases List.mem_cons.1 hx with rfl | hx
                  · exact Or.inl rfl
                  · exact Or.inr (Or.inl hx)
                · obtain ⟨hdx, hall⟩ := List.forall_mem_cons.1 hall
                  rcases List.mem_cons.1 hx with rfl | hx
                  · exact absurd hkey hdx
                  · exact Or.inr (Or.inr ⟨hx, hall⟩)

theorem sortedKeys_mergeSorted {bs ds : List (κ × ν)} (hb : SortedKeys bs) (hd : SortedKeys ds) :
    SortedKeys (mergeSorted bs ds) := by
  induction bs generalizing ds with
  | nil => exact hd
  | cons b bs ihb =>
      have hbs : SortedKeys bs := (List.pairwise_cons.1 hb).2
      induction ds with
      | nil =>
          refine List.pairwise_cons.2 ⟨fun x hx => ?_, ihb hbs List.Pairwise.nil⟩
          rcases (mem_mergeSorted hbs List.Pairwise.nil x).1 hx with hx | ⟨hx, -⟩
          · simp at hx
          · exact (List.pairwise_cons.1 hb).1 x hx
      | cons d ds ihd =>
          have hds : SortedKeys ds := (List.pairwise_cons.1 hd).2
          cases hcmp : compare d.1 b.1 with
          | lt =>
              have hstep : mergeSorted (b :: bs) (d :: ds) = d :: mergeSorted (b :: bs) ds := by
                simp [mergeSorted, mergeFrom, hcmp]
              rw [hstep]
              refine List.pairwise_cons.2 ⟨fun x hx => ?_, ihd hds⟩
              rcases (mem_mergeSorted hb hds x).1 hx with hx | ⟨hx, -⟩
              · exact (List.pairwise_cons.1 hd).1 x hx
              · rcases List.mem_cons.1 hx with rfl | hx
                · exact hcmp
                · exact TransCmp.lt_trans hcmp ((List.pairwise_cons.1 hb).1 x hx)
          | gt =>
              have hstep : mergeSorted (b :: bs) (d :: ds) = b :: mergeSorted bs (d :: ds) := by
                simp [mergeSorted, mergeFrom, hcmp]
              have hbd : compare b.1 d.1 = .lt := OrientedCmp.lt_of_gt hcmp
              rw [hstep]
              refine List.pairwise_cons.2 ⟨fun x hx => ?_, ihb hbs hd⟩
              rcases (mem_mergeSorted hbs hd x).1 hx with hx | ⟨hx, -⟩
              · rcases List.mem_cons.1 hx with rfl | hx
                · exact hbd
                · exact TransCmp.lt_trans hbd ((List.pairwise_cons.1 hd).1 x hx)
              · exact (List.pairwise_cons.1 hb).1 x hx
          | eq =>
              have hkey : d.1 = b.1 := LawfulEqCmp.eq_of_compare hcmp
              have hstep : mergeSorted (b :: bs) (d :: ds) = d :: mergeSorted bs ds := by
                simp [mergeSorted, mergeFrom, hcmp]
              rw [hstep]
              refine List.pairwise_cons.2 ⟨fun x hx => ?_, ihb hbs hds⟩
              rcases (mem_mergeSorted hbs hds x).1 hx with hx | ⟨hx, -⟩
              · exact (List.pairwise_cons.1 hd).1 x hx
              · rw [hkey]
                exact (List.pairwise_cons.1 hb).1 x hx

omit [TransOrd κ] in
/-- A sorted list has one value for each key. -/
theorem SortedKeys.value_unique {l : List (κ × ν)} (h : SortedKeys l) {k : κ} {v w : ν}
    (hv : (k, v) ∈ l) (hw : (k, w) ∈ l) : v = w := by
  induction l with
  | nil => simp at hv
  | cons a l ih =>
      have htail : SortedKeys l := (List.pairwise_cons.1 h).2
      rcases List.mem_cons.1 hv with hva | hvl
      · rcases List.mem_cons.1 hw with hwa | hwl
        · exact (Prod.mk.inj (hva.trans hwa.symm)).2
        · exact absurd (by rw [← hva]) (h.fst_ne_of_mem hwl)
      · rcases List.mem_cons.1 hw with hwa | hwl
        · exact absurd (by rw [← hwa]) (h.fst_ne_of_mem hvl)
        · exact ih htail hvl hwl

/-- A sorted list is determined by its pairs. -/
theorem SortedKeys.eq_of_mem_iff {l l' : List (κ × ν)} (h : SortedKeys l) (h' : SortedKeys l')
    (hmem : ∀ x, x ∈ l ↔ x ∈ l') : l = l' := by
  have hnodup : ∀ {l : List (κ × ν)}, SortedKeys l → l.Nodup := by
    intro l hl
    refine hl.imp ?_
    rintro a b hlt rfl
    simp at hlt
  have hperm : l.Perm l' := (List.perm_ext_iff_of_nodup (hnodup h) (hnodup h')).2 hmem
  refine List.Perm.eq_of_pairwise ?_ h h' hperm
  intro a b _ _ hab hba
  exact absurd hba (OrientedCmp.not_lt_of_lt hab)

omit [TransOrd κ] [LawfulEqOrd κ] in
theorem SortedKeys.filter {l : List (κ × ν)} (h : SortedKeys l) (p : κ × ν → Bool) :
    SortedKeys (l.filter p) :=
  List.Pairwise.filter p h

omit [LawfulEqOrd κ] in
theorem sortedKeys_toList (m : ExtTreeMap κ ν) : SortedKeys m.toList :=
  m.ordered_keys_toList

end Lib
end ContextFS
