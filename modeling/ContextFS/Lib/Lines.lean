import Mathlib.Data.List.Flatten
import Mathlib.Data.List.Infix
import Mathlib.Data.List.TakeWhile

/-!
# Lines in a stream

A stream of marked lines: each line is followed by its end mark, and no line contains the mark.
Whoever has seen a front part of such a stream knows which lines are complete in it.
-/

namespace ContextFS
namespace Lib

variable {α : Type*}

/-- Lines in a row, each with its end mark. -/
def joinLines (mark : α) (lines : List (List α)) : List α := lines.flatMap (· ++ [mark])

@[simp]
theorem joinLines_nil (mark : α) : joinLines mark [] = [] := rfl

@[simp]
theorem joinLines_cons (mark : α) (line : List α) (lines : List (List α)) :
    joinLines mark (line :: lines) = line ++ mark :: joinLines mark lines := by
  simp [joinLines]

@[simp]
theorem joinLines_append (mark : α) (lines more : List (List α)) :
    joinLines mark (lines ++ more) = joinLines mark lines ++ joinLines mark more :=
  List.flatMap_append

/-- A line is cut off at the first mark, so it is determined by what follows. -/
theorem line_eq_of_append {mark : α} {line line' rest rest' : List α} (h : mark ∉ line)
    (h' : mark ∉ line') (heq : line ++ mark :: rest = line' ++ mark :: rest') :
    line = line' ∧ rest = rest' := by
  induction line generalizing line' with
  | nil =>
      cases line' with
      | nil => exact ⟨rfl, (List.cons.inj heq).2⟩
      | cons a line' =>
          obtain ⟨rfl, -⟩ := List.cons.inj heq
          exact absurd List.mem_cons_self h'
  | cons a line ih =>
      cases line' with
      | nil =>
          obtain ⟨rfl, -⟩ := List.cons.inj heq
          exact absurd List.mem_cons_self h
      | cons a' line' =>
          obtain ⟨rfl, hbehind⟩ := List.cons.inj heq
          obtain ⟨rfl, rfl⟩ := ih (fun hm => h (List.mem_cons_of_mem _ hm))
            (fun hm => h' (List.mem_cons_of_mem _ hm)) hbehind
          exact ⟨rfl, rfl⟩

/-- The complete lines of a front part are the first lines of the whole. -/
theorem isPrefix_of_joinLines {mark : α} {lines lines' : List (List α)} {tail : List α}
    (h : ∀ l ∈ lines, mark ∉ l) (h' : ∀ l ∈ lines', mark ∉ l) (htail : mark ∉ tail)
    (hpre : joinLines mark lines <+: joinLines mark lines' ++ tail) : lines <+: lines' := by
  induction lines generalizing lines' with
  | nil => exact List.nil_prefix
  | cons line lines ih =>
      obtain ⟨more, hmore⟩ := hpre
      rw [joinLines_cons, List.append_assoc, List.cons_append] at hmore
      cases lines' with
      | nil =>
          rw [joinLines_nil, List.nil_append] at hmore
          exact absurd (hmore ▸ by simp : mark ∈ tail) htail
      | cons line' lines' =>
          rw [joinLines_cons, List.append_assoc, List.cons_append] at hmore
          obtain ⟨rfl, hrest⟩ := line_eq_of_append (h line List.mem_cons_self)
            (h' line' List.mem_cons_self) hmore
          have hlines := ih (fun l hl => h l (List.mem_cons_of_mem _ hl))
            (fun l hl => h' l (List.mem_cons_of_mem _ hl)) ⟨more, hrest⟩
          exact List.cons_prefix_cons.2 ⟨rfl, hlines⟩

/-- Nothing or everything is complete in a front part of one line. -/
theorem lines_of_prefix_line {mark : α} {lines : List (List α)} {line : List α}
    (h : ∀ l ∈ lines, mark ∉ l) (hline : mark ∉ line)
    (hpre : joinLines mark lines <+: line ++ [mark]) : lines = [] ∨ lines = [line] := by
  have hone : lines <+: [line] :=
    isPrefix_of_joinLines h (by simpa using hline) List.not_mem_nil
      (by simpa using hpre)
  cases lines with
  | nil => exact Or.inl rfl
  | cons l lines =>
      obtain ⟨rfl, hnone⟩ := List.cons_prefix_cons.1 hone
      rw [List.prefix_nil.1 hnone]
      exact Or.inr rfl

variable [DecidableEq α]

/-- A text up to its first mark. -/
def firstLine (mark : α) (text : List α) : List α := text.takeWhile (· ≠ mark)

theorem firstLine_cons_self (mark : α) (text : List α) : firstLine mark (mark :: text) = [] := by
  simp [firstLine]

theorem firstLine_cons_of_ne {mark a : α} (h : a ≠ mark) (text : List α) :
    firstLine mark (a :: text) = a :: firstLine mark text := by
  simp [firstLine, h]

theorem firstLine_of_not_mem {mark : α} {text : List α} (h : mark ∉ text) :
    firstLine mark text = text := by
  refine List.takeWhile_eq_self_iff.2 fun a ha => ?_
  have hne : a ≠ mark := fun heq => h (heq ▸ ha)
  simpa using hne

/-- What was read up to a mark is the first line. -/
theorem eq_firstLine {mark : α} {got text : List α} (h : mark ∉ got)
    (hpre : got ++ [mark] <+: text ++ [mark]) : got = firstLine mark text := by
  induction got generalizing text with
  | nil =>
      cases text with
      | nil => rfl
      | cons a text =>
          obtain ⟨rfl, -⟩ := List.cons_prefix_cons.1 hpre
          exact (firstLine_cons_self _ _).symm
  | cons a got ih =>
      cases text with
      | nil =>
          obtain ⟨rfl, -⟩ := List.cons_prefix_cons.1 hpre
          exact absurd List.mem_cons_self h
      | cons a' text =>
          obtain ⟨rfl, hbehind⟩ := List.cons_prefix_cons.1 hpre
          have hne : a ≠ mark := fun heq => h (heq ▸ List.mem_cons_self)
          rw [firstLine_cons_of_ne hne, ← ih (fun hm => h (List.mem_cons_of_mem _ hm)) hbehind]

/-- What was read without meeting a mark is a front part of the first line. -/
theorem prefix_firstLine {mark : α} {got text : List α} (h : mark ∉ got)
    (hpre : got <+: text ++ [mark]) : got <+: firstLine mark text := by
  induction got generalizing text with
  | nil => exact List.nil_prefix
  | cons a got ih =>
      have hne : a ≠ mark := fun heq => h (heq ▸ List.mem_cons_self)
      cases text with
      | nil => exact absurd (List.cons_prefix_cons.1 hpre).1 hne
      | cons a' text =>
          obtain ⟨rfl, hbehind⟩ := List.cons_prefix_cons.1 hpre
          rw [firstLine_cons_of_ne hne]
          exact List.cons_prefix_cons.2
            ⟨rfl, ih (fun hm => h (List.mem_cons_of_mem _ hm)) hbehind⟩

end Lib
end ContextFS
