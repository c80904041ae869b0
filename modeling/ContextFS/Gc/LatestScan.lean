import ContextFS.Gc.Roots
import ContextFS.State.AgentStateService

/-!
# The scan of the latest refs

The collector does not look for refs by name.  It takes every regular file below `state/latest` for
a ref, in whatever order the directories list them, and fails at the first one that does not hold
exactly one hash.
-/

namespace ContextFS

open Std Lib ObjectStore

/-- The id in a file of a latest ref. -/
def refFileId (content : Bytes) : Option Hash :=
  match words content with
  | [hex] => hexToHashStrict hex
  | _ => none

/-- A listing of `state/latest` without errors, in any order. -/
structure Shows (l : LatestRefs) (root : LatestRoot) : Prop where
  opened : root.openError = none
  listed : root.incrementError = none
  directory : ∀ {agent : Bytes} {dir : AgentDir}, (agent, dir) ∈ root.agents →
    ∃ files, dir = .directory files none ∧ ∀ name kind, (name, kind) ∈ files →
      ∃ content, kind = .regular content ∧ l.file agent name = some content
  complete : ∀ {agent name content : Bytes}, l.file agent name = some content →
    ∃ files, (agent, .directory files none) ∈ root.agents ∧ (name, .regular content) ∈ files

theorem latestRefId_ok_iff {path : String} {content : Bytes} {id : Hash} :
    latestRefId path content = .ok id ↔ refFileId content = some id := by
  unfold latestRefId refFileId
  split
  · rename_i hwords
    simp only [hwords, markFail]
    exact ⟨fun h => (by cases h), fun h => by cases h⟩
  · rename_i hex hwords
    simp only [hwords]
    cases hexToHashStrict hex with
    | none => exact ⟨fun h => (by cases h), fun h => by cases h⟩
    | some k => simp
  · rename_i hnil hone
    split
    · rename_i hex hwords
      exact absurd hwords (hone hex)
    · exact ⟨fun h => (by cases h), fun h => by cases h⟩

variable {l : LatestRefs} {root : LatestRoot}

/-- The scan raises no error exactly when every file holds an id. -/
theorem Shows.ids_ok_iff (h : Shows l root) : (∀ x ∈ latestIds root, ∃ id, x = .ok id) ↔
    ∀ agent name content, l.file agent name = some content → ∃ id, refFileId content = some id := by
  unfold latestIds
  rw [h.opened, h.listed]
  simp only [Option.toList_none, List.map_nil, List.append_nil]
  constructor
  · intro hall agent name content hfile
    obtain ⟨files, hagent, hin⟩ := h.complete hfile
    obtain ⟨id, hid⟩ := hall _ (List.mem_flatMap.2 ⟨_, hagent,
      List.mem_append_left _ (List.mem_flatMap.2 ⟨_, hin, List.mem_singleton_self _⟩)⟩)
    exact ⟨id, latestRefId_ok_iff.1 hid⟩
  · intro hall x hx
    obtain ⟨⟨agent, dir⟩, hagent, hx⟩ := List.mem_flatMap.1 hx
    obtain ⟨files, rfl, hfiles⟩ := h.directory hagent
    rw [agentLatestIds, Option.toList_none, List.map_nil, List.append_nil] at hx
    obtain ⟨⟨name, kind⟩, hin, hx⟩ := List.mem_flatMap.1 hx
    obtain ⟨content, rfl, hfile⟩ := hfiles name kind hin
    obtain ⟨id, hid⟩ := hall agent name content hfile
    exact ⟨id, (List.mem_singleton.1 hx).trans (latestRefId_ok_iff.2 hid)⟩

/-- The records the collector starts from are those the files name. -/
theorem Shows.latestRecord_iff (h : Shows l root) {id : Hash} : LatestRecord root id ↔
    ∃ agent name content, l.file agent name = some content ∧ refFileId content = some id := by
  constructor
  · rintro ⟨agent, files, err, name, content, hex, hagent, hin, hwords, hhex⟩
    obtain ⟨files', heq, hfiles⟩ := h.directory hagent
    cases heq
    obtain ⟨content', hkind, hfile⟩ := hfiles name _ hin
    cases hkind
    refine ⟨agent, name, content, hfile, ?_⟩
    unfold refFileId
    rw [hwords]
    exact hhex
  · rintro ⟨agent, name, content, hfile, hid⟩
    obtain ⟨files, hagent, hin⟩ := h.complete hfile
    unfold refFileId at hid
    split at hid
    · rename_i hex hwords
      exact ⟨agent, files, none, name, content, hex, hagent, hin, hwords, hid⟩
    · cases hid

/-- The listing in the order in which the files are kept. -/
def LatestRefs.listing (l : LatestRefs) : LatestRoot where
  agents := l.agents.map fun a =>
    (a.1, .directory ((l.filesOf a.1).filterMap fun f =>
      (l.file a.1 f.1).map fun content => (f.1, .regular content)) none)

/-- Every directory can be listed. -/
theorem LatestRefs.shows_listing (l : LatestRefs) : Shows l l.listing := by
  refine ⟨rfl, rfl, fun {agent dir} hdir => ?_, fun {agent name content} hfile => ?_⟩
  · obtain ⟨⟨agent', files⟩, -, heq⟩ := List.mem_map.1 hdir
    cases heq
    refine ⟨_, rfl, fun name kind hin => ?_⟩
    obtain ⟨f, -, hf⟩ := List.mem_filterMap.1 hin
    obtain ⟨content, hcontent, heq⟩ := Option.map_eq_some_iff.1 hf
    cases heq
    exact ⟨content, rfl, hcontent⟩
  · obtain ⟨files, hagent, hname⟩ := Option.bind_eq_some_iff.1 hfile
    have hfiles : l.filesOf agent = files := by
      unfold LatestRefs.filesOf
      rw [hagent, Option.getD_some]
    refine ⟨_, List.mem_map.2 ⟨_, AssocList.mem_of_find hagent, rfl⟩, ?_⟩
    refine List.mem_filterMap.2 ⟨(name, content), ?_, ?_⟩
    · show (name, content) ∈ l.filesOf agent
      rw [hfiles]
      exact AssocList.mem_of_find hname
    · show (l.file agent name).map _ = _
      rw [hfile, Option.map_some]

/-! ## Texts of digits -/

theorem isSpace_of_hexVal {c : UInt8} (hc : (hexVal c).isSome = true) : isSpace c = false := by
  have hscan := scanHex2_isSome hc hc []
  by_contra hs
  rw [Bool.not_eq_false] at hs
  unfold scanHex2 at hscan
  rw [List.dropWhile_cons_of_pos hs, List.dropWhile_cons_of_pos hs] at hscan
  cases hscan

/-- A text of digits is one word. -/
theorem words_digits {text : Bytes} (hne : text ≠ []) (hall : ∀ c ∈ text, (hexVal c).isSome = true) :
    words text = [text] := by
  unfold words
  rw [List.splitOnP_eq_singleton fun c hc => isSpace_of_hexVal (hall c hc)]
  simp [hne]

theorem hexVal_of_mem_hashToHex {h : Hash} {c : UInt8} (hc : c ∈ hashToHex h) :
    (hexVal c).isSome = true :=
  List.all_eq_true.1 (all_hexVal_bytesToHex h.bytes) c hc

theorem length_hashToHex (h : Hash) : (hashToHex h).length = 64 := by
  simp [hashToHex, h.length_eq]

theorem refFileId_hashToHex (h : Hash) : refFileId (hashToHex h) = some h := by
  have hne : hashToHex h ≠ [] := by
    intro hnil
    have hlen := length_hashToHex h
    rw [hnil] at hlen
    cases hlen
  unfold refFileId
  rw [words_digits hne fun c hc => hexVal_of_mem_hashToHex hc]
  exact hexToHashStrict_hashToHex h

theorem words_append_spaces {t : Bytes} (ht : ∀ c ∈ t, isSpace c = true) (text : Bytes) :
    words (text ++ t) = words text := by
  induction t generalizing text with
  | nil => rw [List.append_nil]
  | cons c t ih =>
      have hc := ht c List.mem_cons_self
      have hrest := ih (fun c hc => ht c (List.mem_cons_of_mem _ hc)) []
      unfold words at hrest ⊢
      rw [List.nil_append] at hrest
      rw [List.splitOnP_append_cons _ _ hc, List.filter_append, hrest]
      simp

/-- What `latest` takes for an id the scan takes for it too. -/
theorem refFileId_of_trimTrailing {content : Bytes} {id : Hash}
    (h : hexToHashStrict (trimTrailing content) = some id) : refFileId content = some id := by
  have hhex : isHexHash (trimTrailing content) = true := by
    by_contra hno
    rw [hexToHashStrict, if_neg hno] at h
    cases h
  rw [isHexHash, Bool.and_eq_true, beq_iff_eq] at hhex
  have hne : trimTrailing content ≠ [] := fun hnil => by
    rw [hnil] at hhex
    exact absurd hhex.1 (by decide)
  -- what is cut off is white space
  have hcut : content = trimTrailing content ++ (content.reverse.takeWhile fun c =>
      c == 10 || c == 13 || c == 32 || c == 9).reverse := by
    unfold trimTrailing
    rw [← List.reverse_append, List.takeWhile_append_dropWhile, List.reverse_reverse]
  have hspaces : words content = [trimTrailing content] := by
    rw [hcut, words_append_spaces fun c hc => ?_, ← hcut]
    · exact words_digits hne (List.all_eq_true.1 hhex.2)
    · have hc := List.mem_takeWhile_imp (List.mem_reverse.1 hc)
      simp only [Bool.or_eq_true, beq_iff_eq] at hc
      rcases hc with ((rfl | rfl) | rfl) | rfl <;> decide
  unfold refFileId
  rw [hspaces]
  exact h

/-- A part of an id is no id. -/
theorem refFileId_take {h : Hash} {k : Nat} (hk : k < 64) : refFileId ((hashToHex h).take k) = none := by
  have hlen : ((hashToHex h).take k).length = k := by
    rw [List.length_take, length_hashToHex]
    omega
  unfold refFileId
  by_cases hne : (hashToHex h).take k = []
  · rw [hne]
    rfl
  · rw [words_digits hne fun c hc => hexVal_of_mem_hashToHex (List.mem_of_mem_take hc)]
    have hhex : isHexHash ((hashToHex h).take k) = false := by
      unfold isHexHash
      rw [hlen, show (k == 64) = false from beq_false_of_ne (by omega), Bool.false_and]
    simp [hexToHashStrict, hhex]

end ContextFS
