import Mathlib.Data.List.Basic

/-!
# Arithmetic on machine words that stops instead of wrapping

A sum that does not fit a word, or a difference below zero, has no result.  A computation in this
arithmetic that comes to a result is the computation of the machine, and no step of it wraps.
-/

namespace ContextFS
namespace Lib

/-- How many values a 64-bit word has. -/
def word : Nat := UInt64.size

/-- A sum that fits a word. -/
def addWord (a b : Nat) : Option Nat := if a + b < word then some (a + b) else none

/-- A difference that is not negative. -/
def subWord (a b : Nat) : Option Nat := if b ≤ a then some (a - b) else none

theorem addWord_of_lt {a b : Nat} (h : a + b < word) : addWord a b = some (a + b) := if_pos h

theorem subWord_of_le {a b : Nat} (h : b ≤ a) : subWord a b = some (a - b) := if_pos h

variable {α β : Type*}

/-- A fold whose steps all come to a result, as long as an invariant of the accumulator holds. -/
theorem foldlM_eq_some {f : β → α → Option β} {g : β → α → β} {P : β → Prop} {l : List α}
    (h : ∀ a ∈ l, ∀ b, P b → f b a = some (g b a) ∧ P (g b a)) {b : β} (hb : P b) :
    l.foldlM f b = some (l.foldl g b) ∧ P (l.foldl g b) := by
  induction l generalizing b with
  | nil => exact ⟨rfl, hb⟩
  | cons a l ih =>
      obtain ⟨hf, hP⟩ := h a List.mem_cons_self b hb
      rw [List.foldlM_cons, hf]
      exact ih (fun a' ha' => h a' (List.mem_cons_of_mem _ ha')) hP

theorem mapM_eq_some {f : α → Option β} {g : α → β} {l : List α}
    (h : ∀ a ∈ l, f a = some (g a)) : l.mapM f = some (l.map g) := by
  induction l with
  | nil => rfl
  | cons a l ih =>
      rw [List.mapM_cons, h a List.mem_cons_self, ih fun a' ha' => h a' (List.mem_cons_of_mem _ ha')]
      rfl

end Lib
end ContextFS
