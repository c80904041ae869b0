import ContextFS.Lib.PosixFile
import Mathlib.Data.Set.Insert

/-!
# Writes that do not meet

A file after some writes no two of which cover one position: every position covered by a write
shows what that write put there, every other position what was there before, and the file reaches
as far as the longer of the two.  The order of the writes does not matter.
-/

namespace ContextFS
namespace Lib

variable {α : Type*}

/-- The offset and the data of a write. -/
abbrev FileWrite (α : Type*) := Nat × List α

namespace FileWrite

/-- The positions a write puts something at. -/
def Covers (w : FileWrite α) (pos : Nat) : Prop := w.1 ≤ pos ∧ pos < w.1 + w.2.length

/-- No position is covered by both. -/
def Apart (w w' : FileWrite α) : Prop := ∀ pos, w.Covers pos → ¬ w'.Covers pos

theorem Apart.symm {w w' : FileWrite α} (h : w.Apart w') : w'.Apart w :=
  fun pos hpos hpos' => h pos hpos' hpos

theorem Covers.ne_nil {w : FileWrite α} {pos : Nat} (h : w.Covers pos) : w.2 ≠ [] := by
  intro hnil
  obtain ⟨hle, hlt⟩ := h
  rw [hnil, List.length_nil] at hlt
  omega

end FileWrite

/-- `f` is `base` after the writes of a set, no two of which meet. -/
structure Overlaid [Zero α] (W : Set (FileWrite α)) (base f : List α) : Prop where
  written : ∀ w ∈ W, ∀ pos, w.Covers pos → byteAt f pos = byteAt w.2 (pos - w.1)
  kept : ∀ pos, (∀ w ∈ W, ¬ w.Covers pos) → byteAt f pos = byteAt base pos
  size : ∀ n, f.length ≤ n ↔ base.length ≤ n ∧ ∀ w ∈ W, ∀ pos, w.Covers pos → pos < n

namespace Overlaid

variable [Zero α] {W W' : Set (FileWrite α)} {base f f' : List α}

theorem empty (f : List α) : Overlaid ∅ f f where
  written := fun _ hw => absurd hw (Set.notMem_empty _)
  kept := fun _ _ => rfl
  size := fun n => by simp

theorem length_eq (h : Overlaid W base f) (h' : Overlaid W base f') : f.length = f'.length :=
  eq_of_forall_ge_iff fun n => (h.size n).trans (h'.size n).symm

theorem unique (h : Overlaid W base f) (h' : Overlaid W base f') : f = f' := by
  refine ext_byteAt (h.length_eq h') fun pos _ => ?_
  by_cases hcov : ∃ w ∈ W, w.Covers pos
  · obtain ⟨w, hw, hcov⟩ := hcov
    rw [h.written w hw pos hcov, h'.written w hw pos hcov]
  · have hnone : ∀ w ∈ W, ¬ w.Covers pos := fun w hw hpos => hcov ⟨w, hw, hpos⟩
    rw [h.kept pos hnone, h'.kept pos hnone]

/-- More writes, on top of a file that has some already. -/
theorem union (h : Overlaid W base f) (h' : Overlaid W' f f')
    (hapart : ∀ w ∈ W, ∀ w' ∈ W', w.Apart w') : Overlaid (W ∪ W') base f' where
  written := by
    intro w hw pos hpos
    rcases hw with hw | hw
    · rw [h'.kept pos fun w' hw' => hapart w hw w' hw' pos hpos, h.written w hw pos hpos]
    · exact h'.written w hw pos hpos
  kept := by
    intro pos hnone
    rw [h'.kept pos fun w hw => hnone w (Or.inr hw), h.kept pos fun w hw => hnone w (Or.inl hw)]
  size := by
    intro n
    rw [h'.size, h.size]
    constructor
    · rintro ⟨⟨hbase, hin⟩, hin'⟩
      exact ⟨hbase, fun w hw => hw.elim (hin w) (hin' w)⟩
    · rintro ⟨hbase, hin⟩
      exact ⟨⟨hbase, fun w hw => hin w (Or.inl hw)⟩, fun w hw => hin w (Or.inr hw)⟩

/-- Only the positions that are covered count. -/
theorem congr (h : Overlaid W base f) (hsub : ∀ w ∈ W, w ∈ W')
    (hrest : ∀ w ∈ W', w.2 ≠ [] → w ∈ W) : Overlaid W' base f where
  written := fun w hw pos hpos => h.written w (hrest w hw hpos.ne_nil) pos hpos
  kept := fun pos hnone => h.kept pos fun w hw => hnone w (hsub w hw)
  size := by
    intro n
    rw [h.size]
    constructor
    · rintro ⟨hbase, hin⟩
      exact ⟨hbase, fun w hw pos hpos => hin w (hrest w hw hpos.ne_nil) pos hpos⟩
    · rintro ⟨hbase, hin⟩
      exact ⟨hbase, fun w hw => hin w (hsub w hw)⟩

end Overlaid

variable [Zero α]

theorem overlaid_writeAt (f : List α) (offset : Nat) (data : List α) :
    Overlaid {(offset, data)} f (writeAt f offset data) where
  written := by
    intro w hw pos hpos
    obtain rfl : w = (offset, data) := hw
    rw [byteAt_writeAt]
    exact if_pos hpos
  kept := by
    intro pos hnone
    rw [byteAt_writeAt]
    exact if_neg (hnone (offset, data) rfl)
  size := by
    intro n
    rw [length_writeAt]
    constructor
    · intro hle
      refine ⟨by split at hle <;> omega, ?_⟩
      rintro w rfl pos ⟨hstart, hend⟩
      change offset ≤ pos at hstart
      change pos < offset + data.length at hend
      rw [if_neg (by omega)] at hle
      omega
    · rintro ⟨hbase, hin⟩
      split
      · exact hbase
      · rename_i hlen
        -- the last position of the data is covered
        have hlast := hin (offset, data) rfl (offset + data.length - 1)
          ⟨by change offset ≤ _; omega, by change _ < offset + data.length; omega⟩
        omega

/-- Writes one after the other, no two of which meet. -/
theorem overlaid_fileAfter (ws : List (FileWrite α)) (base : List α)
    (h : ws.Pairwise FileWrite.Apart) :
    Overlaid {w | w ∈ ws} base (fileAfter (ws.map fun w => .write w.1 w.2) base) := by
  induction ws generalizing base with
  | nil =>
      exact (Overlaid.empty base).congr
        (fun _ hw => absurd hw (Set.notMem_empty _)) fun _ hw _ => absurd hw List.not_mem_nil
  | cons w ws ih =>
      obtain ⟨hhead, htail⟩ := List.pairwise_cons.1 h
      have hrest := ih (writeAt base w.1 w.2) htail
      have hboth := (overlaid_writeAt base w.1 w.2).union hrest fun w' hw' v hv => by
        obtain rfl : w' = w := hw'
        exact hhead v hv
      refine hboth.congr ?_ ?_
      · rintro v (rfl | hv)
        · exact List.mem_cons_self
        · exact List.mem_cons_of_mem _ hv
      · intro v hv _
        rcases List.mem_cons.1 hv with rfl | hv
        · exact Or.inl rfl
        · exact Or.inr hv

/-! ## Writers that keep their writes back -/

/-- Some writes have reached the file, and every other one that puts something into it is held by
one of the writers.  No two of all these meet. -/
structure Ledger {κ : Type*} (issued : List (FileWrite α)) (landed : Set (FileWrite α))
    (held : κ → Set (FileWrite α)) : Prop where
  landed_issued : ∀ w ∈ landed, w ∈ issued
  held_issued : ∀ k, ∀ w ∈ held k, w ∈ issued
  complete : ∀ w ∈ issued, w.2 ≠ [] → w ∈ landed ∨ ∃ k, w ∈ held k
  landed_apart : ∀ w ∈ landed, ∀ k, ∀ w' ∈ held k, w.Apart w'
  held_apart : ∀ k k', k ≠ k' → ∀ w ∈ held k, ∀ w' ∈ held k', w.Apart w'
  issued_apart : issued.Pairwise FileWrite.Apart

namespace Ledger

variable {κ : Type*} [DecidableEq κ] {issued : List (FileWrite α)} {landed : Set (FileWrite α)}
  {held : κ → Set (FileWrite α)} {k : κ}

omit [Zero α] [DecidableEq κ] in
theorem start : Ledger ([] : List (FileWrite α)) ∅ fun _ : κ => ∅ where
  landed_issued := fun _ hw => absurd hw (Set.notMem_empty _)
  held_issued := fun _ _ hw => absurd hw (Set.notMem_empty _)
  complete := fun _ hw => absurd hw List.not_mem_nil
  landed_apart := fun _ hw => absurd hw (Set.notMem_empty _)
  held_apart := fun _ _ _ _ hw => absurd hw (Set.notMem_empty _)
  issued_apart := List.Pairwise.nil

omit [Zero α] in
theorem mem_update {held : κ → Set (FileWrite α)} {k k' : κ} {W : Set (FileWrite α)}
    {w : FileWrite α} : w ∈ Function.update held k W k' ↔ (k' = k ∧ w ∈ W) ∨ k' ≠ k ∧ w ∈ held k' := by
  by_cases hk : k' = k
  · subst hk
    simp
  · simp [hk]

omit [Zero α] in
/-- A writer takes a new write. -/
theorem issue (h : Ledger issued landed held) {v : FileWrite α} (hv : ∀ w ∈ issued, w.Apart v) :
    Ledger (issued ++ [v]) landed (Function.update held k (insert v (held k))) where
  landed_issued := fun w hw => List.mem_append_left _ (h.landed_issued w hw)
  held_issued := by
    intro k' w hw
    rcases mem_update.1 hw with ⟨-, rfl | hw⟩ | ⟨-, hw⟩
    · simp
    · exact List.mem_append_left _ (h.held_issued k w hw)
    · exact List.mem_append_left _ (h.held_issued k' w hw)
  complete := by
    intro w hw hne
    rcases List.mem_append.1 hw with hw | hw
    · rcases h.complete w hw hne with hland | ⟨k', hk'⟩
      · exact Or.inl hland
      · refine Or.inr ⟨k', mem_update.2 ?_⟩
        by_cases heq : k' = k
        · exact Or.inl ⟨heq, Or.inr (heq ▸ hk')⟩
        · exact Or.inr ⟨heq, hk'⟩
    · rw [List.mem_singleton.1 hw]
      exact Or.inr ⟨k, mem_update.2 (Or.inl ⟨rfl, Or.inl rfl⟩)⟩
  landed_apart := by
    intro w hw k' w' hw'
    rcases mem_update.1 hw' with ⟨-, rfl | hw'⟩ | ⟨-, hw'⟩
    · exact hv w (h.landed_issued w hw)
    · exact h.landed_apart w hw k w' hw'
    · exact h.landed_apart w hw k' w' hw'
  held_apart := by
    intro k₁ k₂ hne w hw w' hw'
    rcases mem_update.1 hw with ⟨rfl, hin⟩ | ⟨-, hin⟩
    · rcases mem_update.1 hw' with ⟨heq, -⟩ | ⟨-, hin'⟩
      · exact absurd heq.symm hne
      · rcases hin with rfl | hin
        · exact (hv w' (h.held_issued k₂ w' hin')).symm
        · exact h.held_apart k₁ k₂ hne w hin w' hin'
    · rcases mem_update.1 hw' with ⟨rfl, rfl | hin'⟩ | ⟨-, hin'⟩
      · exact hv w (h.held_issued k₁ w hin)
      · exact h.held_apart k₁ k₂ hne w hin w' hin'
      · exact h.held_apart k₁ k₂ hne w hin w' hin'
  issued_apart := by
    refine List.pairwise_append.2 ⟨h.issued_apart, List.pairwise_singleton _ _, fun w hw w' hw' => ?_⟩
    rw [List.mem_singleton.1 hw']
    exact hv w hw

omit [Zero α] in
/-- All writes of a writer reach the file. -/
theorem settle (h : Ledger issued landed held) (k : κ) :
    Ledger issued (landed ∪ held k) (Function.update held k ∅) where
  landed_issued := fun w hw => hw.elim (h.landed_issued w) (h.held_issued k w)
  held_issued := by
    intro k' w hw
    rcases mem_update.1 hw with ⟨-, hw⟩ | ⟨-, hw⟩
    · exact absurd hw (Set.notMem_empty _)
    · exact h.held_issued k' w hw
  complete := by
    intro w hw hne
    rcases h.complete w hw hne with hland | ⟨k', hk'⟩
    · exact Or.inl (Or.inl hland)
    · by_cases heq : k' = k
      · exact Or.inl (Or.inr (heq ▸ hk'))
      · exact Or.inr ⟨k', mem_update.2 (Or.inr ⟨heq, hk'⟩)⟩
  landed_apart := by
    intro w hw k' w' hw'
    rcases mem_update.1 hw' with ⟨-, hw'⟩ | ⟨hne, hw'⟩
    · exact absurd hw' (Set.notMem_empty _)
    · rcases hw with hw | hw
      · exact h.landed_apart w hw k' w' hw'
      · exact h.held_apart k k' hne.symm w hw w' hw'
  held_apart := by
    intro k₁ k₂ hne w hw w' hw'
    rcases mem_update.1 hw with ⟨-, hw⟩ | ⟨-, hw⟩
    · exact absurd hw (Set.notMem_empty _)
    · rcases mem_update.1 hw' with ⟨-, hw'⟩ | ⟨-, hw'⟩
      · exact absurd hw' (Set.notMem_empty _)
      · exact h.held_apart k₁ k₂ hne w hw w' hw'
  issued_apart := h.issued_apart

omit [Zero α] in
/-- A writer that holds nothing that counts is done. -/
theorem close (h : Ledger issued landed held) (hk : ∀ w ∈ held k, w.2 = []) :
    Ledger issued landed (Function.update held k ∅) where
  landed_issued := h.landed_issued
  held_issued := (h.settle k).held_issued
  complete := by
    intro w hw hne
    rcases (h.settle k).complete w hw hne with (hland | hheld) | hother
    · exact Or.inl hland
    · exact absurd (hk w hheld) hne
    · exact Or.inr hother
  landed_apart := fun w hw => (h.settle k).landed_apart w (Or.inl hw)
  held_apart := (h.settle k).held_apart
  issued_apart := h.issued_apart

omit [DecidableEq κ] in
/-- When no writer holds anything that counts, the file is the base after all writes in their
order. -/
theorem fileAfter_of_done {base f : List α} (h : Ledger issued landed held)
    (hf : Overlaid landed base f) (hdone : ∀ k, ∀ w ∈ held k, w.2 = []) :
    f = fileAfter (issued.map fun w => .write w.1 w.2) base := by
  have hall : Overlaid {w | w ∈ issued} base f := hf.congr h.landed_issued fun w hw hne =>
    (h.complete w hw hne).resolve_right fun ⟨k, hk⟩ => hne (hdone k w hk)
  exact hall.unique (overlaid_fileAfter issued base h.issued_apart)

end Ledger

end Lib
end ContextFS
