import ContextFS.Router.Transparent

/-!
# A router whose leaf check is not switched off

While calls go on the daemon only ever switches the check of the leaf on.  Then what a walk stores
is right even where its process has moved on: a call that checks the leaf began after the switch,
and one that does not reads it after the memo, so that a registration since would have kept it from
storing.
-/

namespace ContextFS

open Lib

namespace ResolvePc

/-- The path and the leaf id of a call that checks the leaf. -/
def checkedLeaf : ResolvePc → Option (CgroupPath × Nat)
  | .read _ path true leafCgroupId => some (path, leafCgroupId)
  | .missed _ path true leafCgroupId _ => some (path, leafCgroupId)
  | .walked _ path true leafCgroupId _ _ => some (path, leafCgroupId)
  | _ => none

/-- The generation of the router when the memo was missed. -/
def missGeneration : ResolvePc → Option Nat
  | .missed _ _ _ _ missGeneration => some missGeneration
  | .walked _ _ _ _ missGeneration _ => some missGeneration
  | _ => none

end ResolvePc

namespace RouterSystem

variable {s s' : RouterSystem} {c c' : Call}

/-- What holds of the calls while the check of the leaf is not switched off. -/
structure Calls (s : RouterSystem) : Prop where
  checked : ∀ k ∈ s.calls, k.pc.checkedLeaf ≠ none → s.router.revalidateLeaf = true
  leaf : ∀ i ∈ s.calls, ∀ k ∈ s.calls, ∀ fence p leaf leaf', i.pc = .read fence p false leaf →
    s.AtHome i p → k.pc.checkedLeaf = some (p, leaf') → s.cgroups.dirs p = some leaf'
  late : ∀ k ∈ s.calls, ∀ fence p leaf missGeneration ids,
    k.pc = .walked fence p false leaf missGeneration ids → s.Trusting p →
      s.router.generation = missGeneration →
      s.FreshFor p (BranchRouter.branchForCgroupIds s.router.cgroupBranchMap ids)
  bound : ∀ k ∈ s.calls, ∀ gen, k.pc.missGeneration = some gen → gen ≤ s.router.generation

structure Settled (s : RouterSystem) : Prop extends Ok s, Calls s

/-- An event that does not switch the check of the leaf off. -/
def KeepsCheck : RouterEvent → Prop
  | .setLeafRevalidation false => False
  | _ => True

/-- Such an event keeps the memo right. -/
theorem Settled.kept (h : s.Settled) {e : RouterEvent} (he : KeepsCheck e) : s.Kept e s' := by
  cases e with
  | setLeafRevalidation on =>
      cases on with
      | true => trivial
      | false => exact he.elim
  | resolve i accepted =>
      intro c fence path checkLeaf leafCgroupId missGeneration ids hc hpc htrust hgen
      have hmem := List.mem_of_getElem? hc
      cases checkLeaf with
      | false => exact h.late c hmem fence path leafCgroupId missGeneration ids hpc htrust hgen
      | true =>
          have hleaf : c.pc.checkedLeaf = some (path, leafCgroupId) := by rw [hpc]; rfl
          have hcall := h.toOk.calls c hmem
          unfold CallOk at hcall
          rw [hpc] at hcall
          rcases htrust with hoff | ⟨i, hi, f, l, hipc, hhome⟩
          · rw [h.checked c hmem (by simp [hleaf])] at hoff
            cases hoff
          · refine Or.inr ?_
            rw [hcall.2.ids (h.leaf i hi c hmem f path l leafCgroupId hipc hhome hleaf)]
  | _ => trivial

/-! ## The host and the registrations -/

theorem Settled.moves (h : s.Settled) {g : Cgroups} (hm : s.cgroups.Moves g)
    (hguard : s.router.revalidateLeaf = false → ∀ e ∈ s.cgroups.unevicted,
      s.cgroups.dirs e.1 = none → g.dirs e.1 = none) :
    Calls { s with cgroups := g } := by
  constructor
  case checked => exact h.checked
  case leaf =>
    intro i hi k hk fence p l l' hpc hhome hleaf
    have hread := h.toOk.calls i hi
    unfold CallOk at hread
    rw [hpc] at hread
    have hold : s.AtHome i p := hm.old hhome hread.1.named.2
    refine hm.same (h.leaf i hi k hk fence p l l' hpc hold hleaf) ?_
    rw [show g.dirs p = some i.homeId from hhome]
    simp
  case late =>
    intro k hk fence p l gen ids hpc htrust hgen
    obtain ⟨htrust', hfresh⟩ := h.moves_fresh hm hguard htrust
    exact hfresh _ (h.late k hk fence p l gen ids hpc htrust' hgen)
  case bound => exact h.bound

/-- The registrations change: either the generation has grown or they are what they were. -/
theorem Settled.reset (h : s.Settled) {r : BranchRouter} {unevicted : List (CgroupPath × Nat)}
    (hleaf : r.revalidateLeaf = s.router.revalidateLeaf)
    (hgen : s.router.generation < r.generation ∨ r.generation = s.router.generation ∧
      r.cgroupBranchMap = s.router.cgroupBranchMap ∧ unevicted = s.cgroups.unevicted) :
    Calls { s with
      cgroups := { s.cgroups with unevicted := unevicted }
      router := r } := by
  constructor
  case checked => exact fun k hk hc => hleaf.trans (h.checked k hk hc)
  case leaf => exact h.leaf
  case late =>
    intro k hk fence p l gen ids hpc htrust hsame
    have hle := h.bound k hk gen (by rw [hpc]; rfl)
    replace hsame : r.generation = gen := hsame
    rcases hgen with hgrown | ⟨hgen, hmap, rfl⟩
    · omega
    · have htrust' : s.Trusting p := by
        rcases htrust with hoff | hread
        · exact Or.inl (hleaf ▸ hoff)
        · exact Or.inr hread
      have hfresh := h.late k hk fence p l gen ids hpc htrust' (hgen.symm.trans hsame)
      unfold FreshFor at hfresh ⊢
      rw [show (_ : BranchRouter).cgroupBranchMap = s.router.cgroupBranchMap from hmap]
      exact hfresh
  case bound =>
    intro k hk gen hk'
    have hle := h.bound k hk gen hk'
    show gen ≤ r.generation
    omega

/-! ## The steps of a call -/

/-- What a step of a call leads to. -/
theorem resolveStep_pc {accepted : Bool} (h : s.resolveStep c accepted = some (s', c')) :
    s'.router.generation = s.router.generation ∧
      s'.router.revalidateLeaf = s.router.revalidateLeaf ∧
      (∀ fence p leaf, c'.pc = .read fence p false leaf → s.router.revalidateLeaf = false) ∧
      (∀ p leaf, c'.pc.checkedLeaf = some (p, leaf) → c.pc.checkedLeaf = some (p, leaf) ∨
        s.router.revalidateLeaf = true ∧ leaf = s.cgroups.cgroupId p) ∧
      (∀ fence p leaf gen ids, c'.pc = .walked fence p false leaf gen ids →
        ids = s.cgroups.walkIds p) ∧
      ∀ gen, c'.pc.missGeneration = some gen →
        c.pc.missGeneration = some gen ∨ gen = s.router.generation := by
  unfold resolveStep at h
  cases hpc : c.pc with
  | called =>
      rw [hpc] at h
      cases h
      split <;> exact ⟨rfl, rfl, fun _ _ _ hr => (by cases hr), fun _ _ hr => (by cases hr),
        fun _ _ _ _ _ hr => (by cases hr), fun _ hr => (by cases hr)⟩
  | sampled gen =>
      rw [hpc] at h
      cases h
      unfold resolveFenced
      split <;> exact ⟨rfl, rfl, fun _ _ _ hr => (by cases hr), fun _ _ hr => (by cases hr),
        fun _ _ _ _ _ hr => (by cases hr), fun _ hr => (by cases hr)⟩
  -- the flag is read here, and the leaf with it
  | uncached =>
      rw [hpc] at h
      unfold resolveRead at h
      obtain ⟨g, htrack, hdirs, -⟩ := track_spec s c.pid accepted
      rcases htr : s.track c.pid accepted with ⟨fence, s₁⟩
      rw [htr] at htrack h
      obtain rfl : s₁ = { s with cgroups := g } := htrack
      simp only at h
      split at h
      · cases h
        exact ⟨rfl, rfl, fun _ _ _ hr => (by cases hr), fun _ _ hr => (by cases hr),
          fun _ _ _ _ _ hr => (by cases hr), fun _ hr => (by cases hr)⟩
      · rename_i path _
        cases h
        refine ⟨rfl, rfl, fun _ _ _ hr => ?_, fun p leaf hr => Or.inr ?_,
          fun _ _ _ _ _ hr => (by cases hr), fun _ hr => (by cases hr)⟩
        · change ResolvePc.read fence path s.router.revalidateLeaf _ = _ at hr
          injection hr
        · change (ResolvePc.read fence path s.router.revalidateLeaf _).checkedLeaf = _ at hr
          cases hl : s.router.revalidateLeaf with
          | false =>
              rw [hl] at hr
              cases hr
          | true =>
              rw [hl] at hr
              simp only [ResolvePc.checkedLeaf, if_true, Option.some.injEq, Prod.mk.injEq] at hr
              obtain ⟨rfl, rfl⟩ := hr
              refine ⟨rfl, ?_⟩
              rw [Cgroups.cgroupId, Cgroups.cgroupId, hdirs]
  | read fence path checkLeaf leafCgroupId =>
      rw [hpc] at h
      simp only [resolveMemo, Option.some.injEq] at h
      split at h
      · cases h
        exact ⟨by simp, by simp, fun _ _ _ hr => (by cases hr), fun _ _ hr => (by cases hr),
          fun _ _ _ _ _ hr => (by cases hr), fun _ hr => (by cases hr)⟩
      · cases h
        refine ⟨rfl, rfl, fun _ _ _ hr => (by cases hr), fun p leaf hr => Or.inl ?_,
          fun _ _ _ _ _ hr => (by cases hr), fun gen hr => Or.inr ?_⟩
        · cases checkLeaf with
          | false => cases hr
          | true => exact hr
        · exact (Option.some.inj hr).symm
  -- without the check the ids are those of this moment
  | missed fence path checkLeaf leafCgroupId missGeneration =>
      rw [hpc] at h
      cases h
      refine ⟨rfl, rfl, fun _ _ _ hr => (by cases hr), fun p leaf hr => Or.inl ?_,
        fun f p leaf gen ids hr => ?_, fun gen hr => Or.inl hr⟩
      · cases checkLeaf with
        | false => cases hr
        | true => exact hr
      · cases checkLeaf with
        | true => cases hr
        | false =>
            cases hr
            rfl
  | walked fence path checkLeaf leafCgroupId missGeneration ids =>
      rw [hpc] at h
      cases h
      obtain ⟨-, -, hgen, hleaf, -, -⟩ :=
        BranchRouter.finishWalk_spec s.router fence c.pid path leafCgroupId missGeneration ids
      exact ⟨hgen, hleaf, fun _ _ _ hr => (by cases hr), fun _ _ hr => (by cases hr),
        fun _ _ _ _ _ hr => (by cases hr), fun _ hr => (by cases hr)⟩
  | returned b =>
      rw [hpc] at h
      cases h

theorem Settled.resolve (h : s.Settled) {i : Nat} (hc : s.calls[i]? = some c) {accepted : Bool}
    (hstep : s.resolveStep c accepted = some (s', c')) :
    Calls { s' with calls := s'.calls.set i c' } := by
  obtain ⟨hdirs, hun, hmap, hcalls, -, -, -⟩ := resolveStep_spec hstep
  obtain ⟨hgen, hcheck, hread, hleaf, hwalk, hmiss⟩ := resolveStep_pc hstep
  have hmem := List.mem_of_getElem? hc
  have hback : ∀ k ∈ s'.calls.set i c', k ∈ s.calls ∨ k = c' := by
    intro k hk
    rcases List.mem_or_eq_of_mem_set hk with hk | hk
    · exact Or.inl (hcalls ▸ hk)
    · exact Or.inr hk
  have hid : s'.cgroups.cgroupId = s.cgroups.cgroupId := by
    funext p
    rw [Cgroups.cgroupId, Cgroups.cgroupId, hdirs]
  -- a path that is trusted afterwards was trusted before
  have htrust : ∀ p, Trusting { s' with calls := s'.calls.set i c' } p → s.Trusting p := by
    intro p hp
    rcases hp with hoff | ⟨k, hk, fence, l, hpc, hhome⟩
    · exact Or.inl (hcheck ▸ hoff)
    · rcases hback k hk with hk | rfl
      · exact Or.inr ⟨k, hk, fence, l, hpc, by
          show s.cgroups.dirs p = some k.homeId
          rw [← hdirs]
          exact hhome⟩
      · exact Or.inl (hread fence p l hpc)
  -- a leaf is held only while the check is on
  have hchecked : ∀ k ∈ s'.calls.set i c', k.pc.checkedLeaf ≠ none →
      s.router.revalidateLeaf = true := by
    intro k hk hne
    rcases hback k hk with hk | rfl
    · exact h.checked k hk hne
    · obtain ⟨⟨p, l⟩, hl⟩ := Option.ne_none_iff_exists'.1 hne
      rcases hleaf p l hl with hold | ⟨hon, -⟩
      · exact h.checked c hmem (by simp [hold])
      · exact hon
  constructor
  case checked => exact fun k hk hne => hcheck.trans (hchecked k hk hne)
  case leaf =>
    intro a ha k hk fence p l l' hpc hhome hl
    replace hhome : s.cgroups.dirs p = some a.homeId := by
      rw [← hdirs]
      exact hhome
    show s'.cgroups.dirs p = some l'
    rw [hdirs]
    rcases hback a ha with ha₀ | rfl
    · rcases hback k hk with hk₀ | rfl
      · exact h.leaf a ha₀ k hk₀ fence p l l' hpc hhome hl
      · rcases hleaf p l' hl with hold | ⟨-, rfl⟩
        · exact h.leaf a ha₀ c hmem fence p l l' hpc hhome hold
        · exact Cgroups.dirs_of_cgroupId (by simp [hhome])
    · have hon := hchecked k hk (by simp [hl])
      rw [hread fence p l hpc] at hon
      cases hon
  -- the ids of a walk are those of its moment, until the generation moves on
  case late =>
    intro k hk fence p l gen ids hpc hp hsame
    replace hsame : s.router.generation = gen := hgen.symm.trans hsame
    have hfresh : s.FreshFor p (BranchRouter.branchForCgroupIds s.router.cgroupBranchMap ids) := by
      rcases hback k hk with hk | rfl
      · exact h.late k hk fence p l gen ids hpc (htrust p hp) hsame
      · refine Or.inr ?_
        rw [hwalk fence p l gen ids hpc]
    rcases hfresh with ⟨q, hq, hnone, hgone⟩ | hright
    · refine Or.inl ⟨q, hq, ?_, ?_⟩
      · show s'.cgroups.dirs q = none
        rw [hdirs]
        exact hnone
      · show ∃ cgId, (q, cgId) ∈ s'.cgroups.unevicted
        rw [hun]
        exact hgone
    · refine Or.inr ?_
      show BranchRouter.branchForCgroupIds s'.router.cgroupBranchMap ids =
        BranchRouter.branchForCgroupIds s'.router.cgroupBranchMap (s'.cgroups.walkIds p)
      rw [hmap, Cgroups.walkIds, hid]
      exact hright
  case bound =>
    intro k hk gen hk'
    show gen ≤ s'.router.generation
    rw [hgen]
    rcases hback k hk with hk | rfl
    · exact h.bound k hk gen hk'
    · rcases hmiss gen hk' with hold | rfl
      · exact h.bound c hmem gen hold
      · exact Nat.le_refl _

/-! ## Every event -/

theorem Settled.effect (h : s.Settled) {e : RouterEvent} (he : s.Effect e s')
    (hkeeps : KeepsCheck e) : s'.Calls := by
  cases he with
  -- a directory is made anew only after its old id was evicted
  | @mkdir p hmake hevicted =>
      refine h.moves (Cgroups.moves_mkdir h.cgroups hmake) fun hoff e he hnone => ?_
      have hne : e.1 ≠ p := hevicted hoff e he
      simpa [Cgroups.mkdir, hne] using hnone
  | @rmdir p hremove =>
      refine h.moves (Cgroups.moves_rmdir h.cgroups hremove) fun _ e _ hnone => ?_
      by_cases hp : e.1 = p
      · simp [Cgroups.rmdir, hp]
      · simpa [Cgroups.rmdir, hp] using hnone
  | spawn hnew hdir => exact h.moves (Cgroups.moves_spawn h.cgroups hnew hdir) fun _ _ _ hn => hn
  | migrate _ hdir => exact h.moves (Cgroups.moves_migrate h.cgroups hdir) fun _ _ _ hn => hn
  | @exit pid => exact h.moves (Cgroups.moves_exit h.cgroups pid) fun _ _ _ hn => hn
  | bump => exact h.moves (Cgroups.moves_bump h.cgroups) fun _ _ _ hn => hn
  | @registerCgroup cgId branchId r hread hr =>
      unfold BranchRouter.registerCgroup at hr
      split at hr
      · cases hr
      · cases hr
        exact h.reset rfl (Or.inl (Nat.lt_succ_self _))
  | @unregisterCgroup cgId =>
      unfold BranchRouter.unregisterCgroup
      split
      · exact h.toCalls
      · cases hf : AssocList.find cgId s.router.cgroupBranchMap with
        | none =>
            refine h.reset rfl (Or.inr ⟨by simp [BranchRouter.clearCaches], ?_, rfl⟩)
            exact AssocList.remove_of_find_none hf
        | some b => exact h.reset rfl (Or.inl (by simp [BranchRouter.clearCaches]))
  | evictCgroupId => exact h.reset rfl (Or.inl (Nat.lt_succ_self _))
  | invalidateBranch => exact h.reset rfl (Or.inl (Nat.lt_succ_self _))
  -- turning the check off is what `hkeeps` excludes
  | @setLeafRevalidation on =>
      cases on with
      | false => exact hkeeps.elim
      | true =>
          refine ⟨fun _ _ _ => rfl, h.leaf, fun k hk fence p l gen ids hpc htrust hgen => ?_, h.bound⟩
          refine h.late k hk fence p l gen ids hpc ?_ hgen
          rcases htrust with hoff | hread
          · cases hoff
          · exact Or.inr hread
  | @call pid =>
      -- the new call has read nothing yet
      have hback : ∀ k ∈ s.calls ++ [{ pid := pid }], k ∈ s.calls ∨ k.pc = .called := by
        intro k hk
        rcases List.mem_append.1 hk with hk | hk
        · exact Or.inl hk
        · cases List.mem_singleton.1 hk
          exact Or.inr rfl
      constructor
      case checked =>
        intro k hk hne
        rcases hback k hk with hk | hpc
        · exact h.checked k hk hne
        · rw [hpc] at hne
          exact absurd rfl hne
      case leaf =>
        intro a ha k hk fence p l l' hpc hhome hl
        rcases hback a ha with ha | hapc
        · rcases hback k hk with hk | hkpc
          · exact h.leaf a ha k hk fence p l l' hpc hhome hl
          · rw [hkpc] at hl
            cases hl
        · rw [hapc] at hpc
          cases hpc
      case late =>
        intro k hk fence p l gen ids hpc htrust hgen
        rcases hback k hk with hk | hkpc
        · refine h.late k hk fence p l gen ids hpc ?_ hgen
          rcases htrust with hoff | ⟨a, ha, f, l', hapc, hhome⟩
          · exact Or.inl hoff
          · rcases hback a ha with ha | hcalled
            · exact Or.inr ⟨a, ha, f, l', hapc, hhome⟩
            · rw [hcalled] at hapc
              cases hapc
        · rw [hkpc] at hpc
          cases hpc
      case bound =>
        intro k hk gen hgen
        rcases hback k hk with hk | hpc
        · exact h.bound k hk gen hgen
        · rw [hpc] at hgen
          cases hgen
  | resolve hc hstep => exact h.resolve hc hstep

/-- The calls have seen the present moment. -/
theorem Calls.seen (h : s.Calls) : s.seen.Calls := by
  have hback : ∀ k ∈ s.seen.calls, ∃ k₀ ∈ s.calls, k.pc = k₀.pc ∧ k.home = k₀.home := by
    intro k hk
    obtain ⟨k₀, hk₀, rfl⟩ := List.mem_map.1 hk
    obtain ⟨hpc, -, hhome, -⟩ := see_eq s k₀
    exact ⟨k₀, hk₀, hpc, hhome⟩
  have hat : ∀ k k₀ : Call, k.home = k₀.home → ∀ p, s.seen.AtHome k p → s.AtHome k₀ p := by
    intro k k₀ hhome p hp
    show s.cgroups.dirs p = some k₀.homeId
    rw [Call.homeId, ← hhome]
    exact hp
  constructor
  case checked =>
    intro k hk hne
    obtain ⟨k₀, hk₀, hpc, -⟩ := hback k hk
    exact h.checked k₀ hk₀ (hpc ▸ hne)
  case leaf =>
    intro a ha k hk fence p l l' hpc hhome hl
    obtain ⟨a₀, ha₀, hapc, hahome⟩ := hback a ha
    obtain ⟨k₀, hk₀, hkpc, -⟩ := hback k hk
    exact h.leaf a₀ ha₀ k₀ hk₀ fence p l l' (hapc ▸ hpc) (hat a a₀ hahome p hhome) (hkpc ▸ hl)
  case late =>
    intro k hk fence p l gen ids hpc htrust hgen
    obtain ⟨k₀, hk₀, hkpc, -⟩ := hback k hk
    refine h.late k₀ hk₀ fence p l gen ids (hkpc ▸ hpc) ?_ hgen
    rcases htrust with hoff | ⟨a, ha, f, l', hapc, hhome⟩
    · exact Or.inl hoff
    · obtain ⟨a₀, ha₀, hapc₀, hahome⟩ := hback a ha
      exact Or.inr ⟨a₀, ha₀, f, l', hapc₀ ▸ hapc, hat a a₀ hahome p hhome⟩
  case bound =>
    intro k hk gen hgen
    obtain ⟨k₀, hk₀, hpc, -⟩ := hback k hk
    exact h.bound k₀ hk₀ gen (hpc ▸ hgen)

theorem Settled.init (h : Init s) : s.Settled := by
  have hok := Ok.init h
  obtain ⟨fenceOn, revalidateLeaf, rfl⟩ := h
  exact { hok with
    checked := fun k hk => (by cases hk)
    leaf := fun i hi => (by cases hi)
    late := fun k hk => (by cases hk)
    bound := fun k hk => (by cases hk) }

theorem Settled.step (h : s.Settled) {e : RouterEvent} (hs : s.Step e s') (hkeeps : KeepsCheck e) :
    s'.Settled := by
  obtain ⟨s₁, heffect, rfl⟩ := hs
  have hok : s₁.seen.Ok := h.toOk.step ⟨⟨s₁, heffect, rfl⟩, h.kept hkeeps⟩
  exact { hok, (h.effect heffect hkeeps).seen with }

end RouterSystem
end ContextFS
