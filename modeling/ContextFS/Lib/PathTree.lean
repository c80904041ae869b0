import Mathlib.Data.List.Infix
import Mathlib.Tactic.Tauto
import Mathlib.Tactic.TypeStar

/-!
# Closed namespaces

A namespace is a partial function from paths, lists of names, to nodes, some of which are
directories.  It is *closed* when every ancestor of a path it has, the root apart, is a
directory it has.  For each way of editing a namespace there is the exact condition under which
a closed one stays closed.
-/

namespace ContextFS
namespace Lib

variable {α β : Type*} (isDir : β → Prop)

/-- The path is a directory. -/
def DirAt (view : List α → Option β) (p : List α) : Prop := ∃ d, view p = some d ∧ isDir d

/-- Every ancestor of a path, the root apart, is a directory. -/
def PathClosed (view : List α → Option β) : Prop :=
  ∀ p e, view p = some e → ∀ q, q <+: p → q ≠ [] → q ≠ p → DirAt isDir view q

/-- The parent of the path is the root or a directory. -/
def ParentDir (view : List α → Option β) (p : List α) : Prop :=
  p.dropLast = [] ∨ DirAt isDir view p.dropLast

/-- There is nothing strictly below the path. -/
def NothingBelow (view : List α → Option β) (p : List α) : Prop :=
  ∀ q, p <+: q → q ≠ p → view q = none

variable {isDir} {view view' : List α → Option β} {p : List α}

theorem dropLast_ne {p : List α} (hp : p ≠ []) : p.dropLast ≠ p := by
  intro h
  have hlen := congrArg List.length h
  have hpos := List.length_pos_iff.2 hp
  rw [List.length_dropLast] at hlen
  omega

/-- A proper prefix is the parent or a prefix of the parent. -/
theorem prefix_dropLast {q p : List α} (h : q <+: p) (hne : q ≠ p) : q <+: p.dropLast := by
  obtain ⟨rest, rfl⟩ := h
  have hrest : rest ≠ [] := by
    rintro rfl
    exact hne (List.append_nil q).symm
  rw [List.dropLast_append_of_ne_nil hrest]
  exact List.prefix_append q _

/-- It is enough that the parent of every path is a directory. -/
theorem pathClosed_iff_parentDir :
    PathClosed isDir view ↔ ∀ p e, view p = some e → ParentDir isDir view p := by
  constructor
  · intro h p e hp
    by_cases hd : p.dropLast = []
    · exact Or.inl hd
    · have hne : p ≠ [] := by
        rintro rfl
        exact hd rfl
      exact Or.inr (h p e hp _ (List.dropLast_prefix p) hd (dropLast_ne hne))
  · intro h p
    -- induction on the length: an ancestor of `p` is its parent or an ancestor of its parent
    induction hlen : p.length using Nat.strong_induction_on generalizing p with
    | _ n ih =>
        intro e hp q hq hq0 hqp
        have hqd := prefix_dropLast hq hqp
        have hd0 : p.dropLast ≠ [] := by
          intro hd
          rw [hd] at hqd
          exact hq0 (List.prefix_nil.1 hqd)
        obtain ⟨d, hd, hdir⟩ := (h p e hp).resolve_left hd0
        by_cases heq : q = p.dropLast
        · exact heq ▸ ⟨d, hd, hdir⟩
        · have hlt : p.dropLast.length < n := by
            have hle := hq.length_le
            have hpos := List.length_pos_iff.2 hq0
            rw [List.length_dropLast]
            omega
          exact ih _ hlt _ rfl d hd q hqd hq0 heq

/-- Below what is not a directory a closed namespace has nothing. -/
theorem PathClosed.nothingBelow (h : PathClosed isDir view) (hp : p ≠ [])
    (hnot : ¬ DirAt isDir view p) : NothingBelow view p := by
  intro q hpq hne
  cases hq : view q with
  | none => rfl
  | some e => exact absurd (h q e hq p hpq hp (Ne.symm hne)) hnot

theorem PathClosed.congr (h : PathClosed isDir view) (heq : ∀ q, view' q = view q) :
    PathClosed isDir view' := by
  rw [funext heq]
  exact h

variable {e : β}

/-- Putting a node at a path keeps a namespace closed exactly when the parent is a directory and
nothing ends up below a leaf. -/
theorem PathClosed.put_iff (h : PathClosed isDir view) (hp : p ≠ [])
    (hput : ∀ q, (q = p → view' q = some e) ∧ (q ≠ p → view' q = view q)) :
    PathClosed isDir view' ↔ ParentDir isDir view p ∧ (isDir e ∨ NothingBelow view p) := by
  have hself : view' p = some e := (hput p).1 rfl
  have hother : ∀ {q}, q ≠ p → view' q = view q := fun {q} hq => (hput q).2 hq
  constructor
  · intro h'
    refine ⟨?_, ?_⟩
    · rcases pathClosed_iff_parentDir.1 h' p e hself with hd | ⟨d, hd, hdir⟩
      · exact Or.inl hd
      · rw [hother (dropLast_ne hp)] at hd
        exact Or.inr ⟨d, hd, hdir⟩
    · by_cases hdir : isDir e
      · exact Or.inl hdir
      · refine Or.inr fun q hpq hne => ?_
        cases hq : view q with
        | none => rfl
        | some d =>
            obtain ⟨d', hd', hdir'⟩ := h' q d ((hother hne).trans hq) p hpq hp (Ne.symm hne)
            rw [hself, Option.some.injEq] at hd'
            exact absurd (hd' ▸ hdir') hdir
  · rintro ⟨hparent, hleaf⟩
    refine pathClosed_iff_parentDir.2 fun q d hq => ?_
    have hkeep : q.dropLast ≠ p → ParentDir isDir view q → ParentDir isDir view' q := by
      rintro hne (hd | ⟨d, hd, hdir⟩)
      · exact Or.inl hd
      · exact Or.inr ⟨d, (hother hne).trans hd, hdir⟩
    by_cases hqp : q = p
    · subst hqp
      exact hkeep (dropLast_ne hp) hparent
    · rw [hother hqp] at hq
      by_cases hdq : q.dropLast = p
      · rcases hleaf with hdir | hnone
        · exact Or.inr ⟨e, hdq ▸ hself, hdir⟩
        · rw [hnone q (hdq ▸ List.dropLast_prefix q) hqp] at hq
          cases hq
      · exact hkeep hdq (pathClosed_iff_parentDir.1 h q d hq)

/-- Taking a node away keeps a namespace closed exactly when nothing is below it. -/
theorem PathClosed.erase_iff (h : PathClosed isDir view) (hp : p ≠ [])
    (herase : ∀ q, (q = p → view' q = none) ∧ (q ≠ p → view' q = view q)) :
    PathClosed isDir view' ↔ NothingBelow view p := by
  have hself : view' p = none := (herase p).1 rfl
  have hother : ∀ {q}, q ≠ p → view' q = view q := fun {q} hq => (herase q).2 hq
  constructor
  · intro h' q hpq hne
    cases hq : view q with
    | none => rfl
    | some d =>
        obtain ⟨d', hd', -⟩ := h' q d ((hother hne).trans hq) p hpq hp (Ne.symm hne)
        rw [hself] at hd'
        cases hd'
  · intro hnone q d hq a haq ha0 hane
    have hqp : q ≠ p := by
      rintro rfl
      rw [hself] at hq
      cases hq
    rw [hother hqp] at hq
    have hap : a ≠ p := by
      rintro rfl
      rw [hnone q haq (Ne.symm hane)] at hq
      cases hq
    obtain ⟨d', hd', hdir⟩ := h q d hq a haq ha0 hane
    exact ⟨d', (hother hap).trans hd', hdir⟩

/-- The root has no place in the closure of a namespace. -/
theorem PathClosed.of_eq_off_root (h : PathClosed isDir view)
    (heq : ∀ q, q ≠ [] → view' q = view q) : PathClosed isDir view' := by
  intro q d hq a haq ha0 hane
  have hq0 : q ≠ [] := by
    rintro rfl
    exact ha0 (List.prefix_nil.1 haq)
  obtain ⟨d', hd', hdir⟩ := h q d (heq q hq0 ▸ hq) a haq ha0 hane
  exact ⟨d', (heq a ha0).trans hd', hdir⟩

section Move

variable {old new : List α} {moved : List α → Prop}

/-- `view'` is `view` with the subtree at `old` moved to `new`: what is not moved from below
`old` stays where it is at the destination. -/
structure Moves (old new : List α) (moved : List α → Prop) (view view' : List α → Option β) :
    Prop where
  not_into : ¬ old <+: new
  not_onto : ¬ new <+: old
  at_old : ∀ q, old <+: q → view' q = none
  at_new : ∀ r, moved r → view' (new ++ r) = view (old ++ r)
  kept : ∀ q, ¬ old <+: q → (∀ r, q = new ++ r → ¬ moved r) → view' q = view q
  moved_of_some : ∀ r e, view (old ++ r) = some e → moved r

theorem Moves.not_old_prefix (hm : Moves old new moved view view') (r : List α) :
    ¬ old <+: new ++ r := by
  intro h
  rcases List.prefix_or_prefix_of_prefix h (List.prefix_append new r) with h | h
  · exact hm.not_into h
  · exact hm.not_onto h

/-- Moving a directory keeps a namespace closed exactly when the new parent is a directory and
no node left at the destination ends up below a moved one that is not a directory. -/
theorem PathClosed.move_iff (h : PathClosed isDir view) (hm : Moves old new moved view view')
    (hdir : DirAt isDir view old) :
    PathClosed isDir view' ↔ ParentDir isDir view new ∧
      ∀ r, view (new ++ r) ≠ none → ¬ moved r → ∀ a, a <+: r → a ≠ [] → a ≠ r → moved a →
        DirAt isDir view (old ++ a) := by
  obtain ⟨d₀, hd₀, hdir₀⟩ := hdir
  have hold0 : old ≠ [] := by
    rintro rfl
    exact hm.not_into (List.nil_prefix)
  have hnew0 : new ≠ [] := by
    rintro rfl
    exact hm.not_onto (List.nil_prefix)
  have hroot : moved [] := hm.moved_of_some [] d₀ (by rwa [List.append_nil])
  have htop : view' new = some d₀ := by
    have hnew := hm.at_new [] hroot
    rw [List.append_nil, List.append_nil] at hnew
    exact hnew.trans hd₀
  have habove : ∀ q, q <+: new → q ≠ new → view' q = view q := by
    intro q hq hne
    refine hm.kept q (fun hold => hm.not_into (hold.trans hq)) ?_
    rintro r rfl
    exact absurd (hq.eq_of_length_le (List.prefix_append new r).length_le) hne
  constructor
  -- closedness after the move gives both conditions
  · intro h'
    refine ⟨?_, fun r hr hnm a har ha0 hane hma => ?_⟩
    · rcases pathClosed_iff_parentDir.1 h' new d₀ htop with hd | ⟨d, hd, hdir⟩
      · exact Or.inl hd
      · rw [habove _ (List.dropLast_prefix new) (dropLast_ne hnew0)] at hd
        exact Or.inr ⟨d, hd, hdir⟩
    · obtain ⟨e, he⟩ := Option.ne_none_iff_exists'.1 hr
      have hstay : view' (new ++ r) = some e := by
        rw [hm.kept _ (hm.not_old_prefix r) ?_, he]
        intro r' hr'
        rwa [← List.append_cancel_left hr']
      obtain ⟨d, hd, hdd⟩ := h' _ e hstay (new ++ a) ((List.prefix_append_right_inj new).2 har)
        (by simp [hnew0]) (fun heq => hane (List.append_cancel_left heq))
      rw [hm.at_new a hma] at hd
      exact ⟨d, hd, hdd⟩
  -- an ancestor of a node is above, at or below the destination
  · rintro ⟨hparent, hstay⟩ q e hq a haq ha0 hane
    have hqold : ¬ old <+: q := by
      intro hold
      rw [hm.at_old q hold] at hq
      cases hq
    have haold : ¬ old <+: a := fun hold => hqold (hold.trans haq)
    by_cases hnq : new <+: q
    · obtain ⟨r, rfl⟩ := hnq
      rcases List.prefix_or_prefix_of_prefix haq (List.prefix_append new r) with han | hna
      · by_cases heq : a = new
        · subst heq
          exact ⟨d₀, htop, hdir₀⟩
        · -- an ancestor of the destination
          rw [DirAt, habove a han heq]
          have hpd : a <+: new.dropLast := prefix_dropLast han heq
          have hd0 : new.dropLast ≠ [] := by
            intro hd
            rw [hd] at hpd
            exact ha0 (List.prefix_nil.1 hpd)
          obtain ⟨d, hd, hdd⟩ := hparent.resolve_left hd0
          by_cases hlast : a = new.dropLast
          · exact hlast ▸ ⟨d, hd, hdd⟩
          · exact h _ d hd a hpd ha0 hlast
      · obtain ⟨b, rfl⟩ := hna
        have hbr : b <+: r := (List.prefix_append_right_inj new).1 haq
        have hbne : b ≠ r := fun heq => hane (by rw [heq])
        by_cases hb0 : b = []
        · subst hb0
          rw [List.append_nil]
          exact ⟨d₀, htop, hdir₀⟩
        · have hpre : (old ++ b) <+: (old ++ r) := (List.prefix_append_right_inj old).2 hbr
          by_cases hmb : moved b
          · rw [DirAt, hm.at_new b hmb]
            -- the ancestor moved: a node that did not is one that was left there
            by_cases hmr : moved r
            · rw [hm.at_new r hmr] at hq
              exact h _ e hq (old ++ b) hpre (by simp [hold0])
                (fun heq => hbne (List.append_cancel_left heq))
            · refine hstay r ?_ hmr b hbr hb0 hbne hmb
              rw [← hm.kept _ (hm.not_old_prefix r) (fun r' hr' => ?_), hq]
              · exact Option.some_ne_none e
              · rwa [← List.append_cancel_left hr']
          -- the ancestor did not move, so there is none at its old place
          · have hmr : ¬ moved r := by
              intro hmr
              rw [hm.at_new r hmr] at hq
              obtain ⟨d, hd, -⟩ := h _ e hq (old ++ b) hpre (by simp [hold0])
                (fun heq => hbne (List.append_cancel_left heq))
              exact hmb (hm.moved_of_some b d hd)
            rw [DirAt, hm.kept _ haold (fun r' hr' => ?_)]
            · rw [hm.kept _ hqold (fun r' hr' => ?_)] at hq
              · exact h _ e hq _ haq ha0 hane
              · rwa [← List.append_cancel_left hr']
            · rwa [← List.append_cancel_left hr']
    -- away from the destination nothing changed
    · have hkeep : ∀ x, x <+: q → view' x = view x := by
        intro x hx
        refine hm.kept x (fun hold => hqold (hold.trans hx)) ?_
        rintro r rfl
        exact absurd ((List.prefix_append new r).trans hx) hnq
      rw [hkeep q (List.prefix_refl q)] at hq
      rw [DirAt, hkeep a haq]
      exact h q e hq a haq ha0 hane

end Move

end Lib
end ContextFS
