import Mathlib.Data.List.Basic

/-!
# Association lists

Finite maps as lists of pairs.  The first pair with a key counts.
-/

namespace ContextFS
namespace Lib
namespace AssocList

variable {κ α : Type*} [DecidableEq κ]

/-- The value of a key. -/
def find (k : κ) (l : List (κ × α)) : Option α := (l.find? fun e => decide (e.1 = k)).map (·.2)

/-- The map without a key. -/
def remove (k : κ) (l : List (κ × α)) : List (κ × α) := l.filter fun e => decide (e.1 ≠ k)

/-- Insert or overwrite. -/
def assign (k : κ) (a : α) (l : List (κ × α)) : List (κ × α) := (k, a) :: remove k l

variable {k k' : κ} {a : α} {l : List (κ × α)}

@[simp] theorem find_nil (k : κ) : find k ([] : List (κ × α)) = none := rfl

theorem find_cons (k : κ) (e : κ × α) (l : List (κ × α)) :
    find k (e :: l) = if e.1 = k then some e.2 else find k l := by
  unfold find
  rw [List.find?_cons]
  by_cases h : e.1 = k <;> simp [h]

theorem mem_of_find (h : find k l = some a) : (k, a) ∈ l := by
  obtain ⟨e, he, rfl⟩ := Option.map_eq_some_iff.1 h
  have hk : e.1 = k := by simpa using List.find?_some he
  subst hk
  exact List.mem_of_find?_eq_some he

theorem find_remove (k k' : κ) (l : List (κ × α)) :
    find k' (remove k l) = if k' = k then none else find k' l := by
  induction l with
  | nil => simp [remove]
  | cons e l ih =>
      by_cases he : e.1 = k
      · have hskip : remove k (e :: l) = remove k l := by simp [remove, he]
        rw [hskip, ih, find_cons, he]
        split
        · rfl
        · rename_i hk
          rw [if_neg (Ne.symm hk)]
      · have hkeep : remove k (e :: l) = e :: remove k l := by simp [remove, he]
        rw [hkeep, find_cons, ih, find_cons]
        by_cases hk : e.1 = k'
        · rw [if_pos hk, if_pos hk, if_neg (hk ▸ he)]
        · rw [if_neg hk, if_neg hk]

theorem remove_of_find_none (h : find k l = none) : remove k l = l := by
  refine List.filter_eq_self.2 fun e he => ?_
  have hnot := List.find?_eq_none.1 (Option.map_eq_none_iff.1 h) e he
  simpa using hnot

theorem find_assign (k k' : κ) (a : α) (l : List (κ × α)) :
    find k' (assign k a l) = if k' = k then some a else find k' l := by
  rw [assign, find_cons, find_remove]
  by_cases h : k' = k
  · simp [h]
  · simp [h, Ne.symm h]

theorem mem_assign {e : κ × α} (h : e ∈ assign k a l) : e = (k, a) ∨ e ∈ l := by
  rcases List.mem_cons.1 h with h | h
  · exact Or.inl h
  · exact Or.inr (List.mem_filter.1 h).1

end AssocList
end Lib
end ContextFS
