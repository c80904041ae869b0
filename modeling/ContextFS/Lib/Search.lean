import Mathlib.Data.List.Infix

/-!
# Searching a text

The first occurrence of a needle in a text, as the text from there on.
-/

namespace ContextFS
namespace Lib

variable {α : Type*}

/-- The text from the first occurrence of the needle on. -/
def find [DecidableEq α] (needle : List α) : List α → Option (List α)
  | [] => if needle = [] then some [] else none
  | c :: rest => if needle.isPrefixOf (c :: rest) then some (c :: rest) else find needle rest

/-- No occurrence starts in `front` when `found` follows it. -/
def NoneBefore (needle front found : List α) : Prop :=
  ∀ a b, front = a ++ b → b ≠ [] → ¬ needle <+: b ++ found

theorem NoneBefore.tail {needle front found : List α} {c : α}
    (h : NoneBefore needle (c :: front) found) : NoneBefore needle front found :=
  fun a b hfront hb => h (c :: a) b (by rw [hfront]; rfl) hb

theorem NoneBefore.cons {needle front found : List α} {c : α}
    (hc : ¬ needle <+: c :: (front ++ found)) (h : NoneBefore needle front found) :
    NoneBefore needle (c :: front) found := by
  intro a b hfront hb
  cases a with
  | nil =>
      rw [List.nil_append] at hfront
      rw [← hfront]
      exact hc
  | cons d a =>
      obtain ⟨-, hfront⟩ := List.cons.inj hfront
      exact h a b hfront hb

theorem prefix_of_not_mem {needle front rest : List α} {c : α} (hc : c ∉ needle)
    (h : needle <+: front ++ c :: rest) : needle <+: front := by
  induction needle generalizing front with
  | nil => exact List.nil_prefix
  | cons a needle ih =>
      cases front with
      | nil =>
          have hac := (List.cons_prefix_cons.1 h).1
          exact absurd (by rw [hac]; exact List.mem_cons_self) hc
      | cons b front =>
          rw [List.cons_append] at h
          obtain ⟨rfl, htail⟩ := List.cons_prefix_cons.1 h
          exact List.cons_prefix_cons.2
            ⟨rfl, ih (fun hin => hc (List.mem_cons_of_mem _ hin)) htail⟩

variable [DecidableEq α]

theorem find_eq_some_iff {needle text found : List α} :
    find needle text = some found ↔
      ∃ front, text = front ++ found ∧ needle <+: found ∧ NoneBefore needle front found := by
  induction text with
  | nil =>
      unfold find
      constructor
      · intro h
        split at h
        · rename_i hnil
          cases h
          exact ⟨[], rfl, by rw [hnil], fun a b hfront hb =>
            absurd (List.append_eq_nil_iff.1 hfront.symm).2 hb⟩
        · cases h
      · rintro ⟨front, htext, hpre, -⟩
        obtain ⟨rfl, rfl⟩ := List.append_eq_nil_iff.1 htext.symm
        rw [if_pos (List.prefix_nil.1 hpre)]
  | cons c text ih =>
      unfold find
      constructor
      · intro h
        split at h
        · rename_i hpre
          cases h
          exact ⟨[], rfl, List.isPrefixOf_iff_prefix.1 hpre, fun a b hfront hb =>
            absurd (List.append_eq_nil_iff.1 hfront.symm).2 hb⟩
        · rename_i hpre
          obtain ⟨front, rfl, hfound, hnone⟩ := ih.1 h
          exact ⟨c :: front, rfl, hfound,
            hnone.cons fun hp => hpre (List.isPrefixOf_iff_prefix.2 hp)⟩
      · rintro ⟨front, htext, hpre, hnone⟩
        cases front with
        | nil =>
            rw [List.nil_append] at htext
            rw [htext, if_pos (List.isPrefixOf_iff_prefix.2 hpre)]
        | cons d front =>
            obtain ⟨rfl, hrest⟩ := List.cons.inj htext
            change text = front ++ found at hrest
            have hhead : ¬ needle.isPrefixOf (c :: text) = true := fun h =>
              hnone [] (c :: front) rfl (List.cons_ne_nil _ _)
                (by rw [List.cons_append, ← hrest]; exact List.isPrefixOf_iff_prefix.1 h)
            rw [if_neg hhead]
            exact ih.2 ⟨front, hrest, hpre, hnone.tail⟩

/-- What follows the text does not matter once the needle is found. -/
theorem find_append {needle text found : List α} (h : find needle text = some found)
    (rest : List α) : find needle (text ++ rest) = some (found ++ rest) := by
  obtain ⟨front, rfl, hpre, hnone⟩ := find_eq_some_iff.1 h
  refine find_eq_some_iff.2 ⟨front, List.append_assoc .., hpre.trans (List.prefix_append _ _), ?_⟩
  intro a b hfront hb hocc
  refine hnone a b hfront hb (List.prefix_of_prefix_length_le hocc ?_ ?_)
  · rw [← List.append_assoc]
    exact List.prefix_append _ _
  · have hle := hpre.length_le
    rw [List.length_append]
    omega

/-- The first occurrence of a single element. -/
theorem find_single {c : α} {front : List α} (hfront : c ∉ front) (rest : List α) :
    find [c] (front ++ c :: rest) = some (c :: rest) := by
  refine find_eq_some_iff.2 ⟨front, rfl, ⟨rest, rfl⟩, ?_⟩
  intro a b hab hb hpre
  cases b with
  | nil => exact hb rfl
  | cons d b =>
      rw [List.cons_append, List.cons_prefix_cons] at hpre
      exact hfront (by rw [hab, hpre.1]; simp)

/-- The first occurrence is no longer than the text. -/
theorem length_find_le {needle text found : List α} (h : find needle text = some found) :
    found.length ≤ text.length := by
  obtain ⟨front, rfl, -, -⟩ := find_eq_some_iff.1 h
  rw [List.length_append]
  omega

/-- Where the head of the needle does not stand, no occurrence starts. -/
theorem find_skip {a : α} {needle front : List α} (hfront : a ∉ front) (rest : List α) :
    find (a :: needle) (front ++ rest) = find (a :: needle) rest := by
  induction front with
  | nil => rfl
  | cons c front ih =>
      have hhead : ¬ (a :: needle).isPrefixOf (c :: (front ++ rest)) = true := fun h => by
        have hac := (List.cons_prefix_cons.1 (List.isPrefixOf_iff_prefix.1 h)).1
        exact hfront (by rw [hac]; exact List.mem_cons_self)
      rw [List.cons_append, find, if_neg hhead]
      exact ih fun h => hfront (List.mem_cons_of_mem _ h)

/-- An element that the needle does not have completes no occurrence. -/
theorem find_concat_of_none {a : α} {needle text : List α} {c : α} (hc : c ∉ a :: needle)
    (h : find (a :: needle) text = none) : find (a :: needle) (text ++ [c]) = none := by
  induction text with
  | nil =>
      have ha : a ∉ [c] := fun h => hc (by rw [List.mem_singleton.1 h]; exact List.mem_cons_self)
      exact find_skip ha []
  | cons d text ih =>
      rw [find] at h
      split at h
      · cases h
      · rename_i hpre
        have hhead : ¬ (a :: needle).isPrefixOf (d :: (text ++ [c])) = true := fun hocc =>
          hpre (List.isPrefixOf_iff_prefix.2 (prefix_of_not_mem hc
            (show a :: needle <+: (d :: text) ++ [c] from List.isPrefixOf_iff_prefix.1 hocc)))
        rw [List.cons_append, find, if_neg hhead]
        exact ih h

/-- No occurrence reaches over an element that the needle does not have. -/
theorem find_append_of_none {a : α} {needle text : List α} {c : α} (hc : c ∉ a :: needle)
    (h : find (a :: needle) (text ++ [c]) = none) (rest : List α) :
    find (a :: needle) (text ++ c :: rest) = find (a :: needle) rest := by
  induction text with
  | nil =>
      have ha : a ∉ [c] := fun h => hc (by rw [List.mem_singleton.1 h]; exact List.mem_cons_self)
      exact find_skip ha rest
  | cons d text ih =>
      rw [List.cons_append, find] at h
      split at h
      · cases h
      · rename_i hpre
        have hhead : ¬ (a :: needle).isPrefixOf (d :: (text ++ c :: rest)) = true := fun hocc => by
          have hshort := prefix_of_not_mem hc
            (show a :: needle <+: (d :: text) ++ c :: rest from List.isPrefixOf_iff_prefix.1 hocc)
          exact hpre (List.isPrefixOf_iff_prefix.2 (hshort.trans (List.prefix_append _ [c])))
        rw [List.cons_append, find, if_neg hhead]
        exact ih h

end Lib
end ContextFS
