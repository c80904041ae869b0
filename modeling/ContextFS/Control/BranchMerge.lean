import ContextFS.Control.JsonSpec

/-!
# The request of a branch merge

`parse_branch_merge_request` reads its whole text: one flat object, in which the three names that
it knows have strings.  It accepts exactly the objects of the grammar, and the last member of a
name counts.
-/

namespace ContextFS
namespace ControlProtocol

open Lib Lib.Json

structure BranchMergeRequest where
  source : Bytes := []
  target : Bytes := []
  label : Bytes := []
deriving DecidableEq

/-- The value of a member: a string for the three names, anything flat for others. -/
def parseRequestValue (key json : Bytes) (request : BranchMergeRequest) :
    Option (BranchMergeRequest × Bytes) :=
  if key = ascii "source" then
    (parseJsonString json).map fun r => ({ request with source := r.1 }, r.2)
  else if key = ascii "target" then
    (parseJsonString json).map fun r => ({ request with target := r.1 }, r.2)
  else if key = ascii "label" then
    (parseJsonString json).map fun r => ({ request with label := r.1 }, r.2)
  else (skipFlatJsonValue json).map fun rest => (request, rest)

/-- One round of the loop up to the end of the value. -/
def parseRequestMember (json : Bytes) (request : BranchMergeRequest) :
    Option (BranchMergeRequest × Bytes) := do
  let (key, rest) ← parseJsonString json
  match skipJsonWs rest with
  | [] => none
  | c :: rest => if c ≠ 58 then none else parseRequestValue key (skipJsonWs rest) request

/-- The loop of `parse_branch_merge_request`; every round takes a byte. -/
def parseRequestMembers : Nat → Bytes → BranchMergeRequest → Option BranchMergeRequest
  | 0, _, _ => none
  | fuel + 1, json, request => do
      let (request, rest) ← parseRequestMember json request
      match skipJsonWs rest with
      | [] => none
      | c :: rest =>
          if c = 125 then
            if skipJsonWs rest = [] then some request else none
          else if c ≠ 44 then none
          else if (skipJsonWs rest).head? = none ∨ (skipJsonWs rest).head? = some 125 then none
          else parseRequestMembers fuel (skipJsonWs rest) request

/-- `parse_branch_merge_request`. -/
def parseBranchMergeRequest (json : Bytes) : Option BranchMergeRequest :=
  match skipJsonWs json with
  | [] => none
  | c :: rest =>
      if c ≠ 123 then none
      else if (skipJsonWs rest).head? = some 125 then
        if skipJsonWs (skipJsonWs rest).tail = [] then some {} else none
      else parseRequestMembers json.length (skipJsonWs rest) {}

/-! ## One member -/

/-- The names that need a string. -/
def requestNames : List Bytes := [ascii "source", ascii "target", ascii "label"]

/-- A member with one of the three names has a string. -/
def StringWhereNamed (m : Member) : Prop := m.1 ∈ requestNames → ∃ s, m.2 = .str s

/-- What a member does to the request. -/
def assignMember (request : BranchMergeRequest) (m : Member) : BranchMergeRequest :=
  if m.1 = ascii "source" then { request with source := stringOf (some m.2) }
  else if m.1 = ascii "target" then { request with target := stringOf (some m.2) }
  else if m.1 = ascii "label" then { request with label := stringOf (some m.2) }
  else request

/-- Each of the three strings. -/
theorem parseRequestValue_string {key json out rest : Bytes} {request : BranchMergeRequest}
    (hkey : key ∈ requestNames) (h : parseJsonString json = some (out, rest)) :
    parseRequestValue key json request = some (assignMember request (key, .str out), rest) := by
  simp only [requestNames, List.mem_cons, List.not_mem_nil, or_false] at hkey
  unfold parseRequestValue assignMember
  simp only [h, Option.map_some, stringOf]
  split_ifs with hsource htarget hlabel
  · rfl
  · rfl
  · rfl
  · rcases hkey with hkey | hkey | hkey
    · exact absurd hkey hsource
    · exact absurd hkey htarget
    · exact absurd hkey hlabel

theorem parseRequestValue_other {key json : Bytes} {request : BranchMergeRequest}
    (hkey : key ∉ requestNames) :
    parseRequestValue key json request = (skipFlatJsonValue json).map fun rest => (request, rest) := by
  simp only [requestNames, List.mem_cons, List.not_mem_nil, or_false, not_or] at hkey
  rw [parseRequestValue, if_neg hkey.1, if_neg hkey.2.1, if_neg hkey.2.2]

theorem assignMember_other {m : Member} (hm : m.1 ∉ requestNames) (request : BranchMergeRequest) :
    assignMember request m = request := by
  simp only [requestNames, List.mem_cons, List.not_mem_nil, or_false, not_or] at hm
  rw [assignMember, if_neg hm.1, if_neg hm.2.1, if_neg hm.2.2]

theorem parseRequestMember_complete {text rest : Bytes} {m : Member} (h : MemberText text m)
    (hm : StringWhereNamed m) (hrest : NumberEnds rest) (request : BranchMergeRequest) :
    parseRequestMember (text ++ rest) request = some (assignMember request m, rest) := by
  obtain @⟨name, decoded, w, w', value, v, hname, hw, hw', hv⟩ := h
  have hsplit : name ++ (w ++ 58 :: (w' ++ value)) ++ rest =
      name ++ (w ++ 58 :: (w' ++ (value ++ rest))) := by simp
  have hcolon : skipJsonWs (w ++ 58 :: (w' ++ (value ++ rest))) = 58 :: (w' ++ (value ++ rest)) :=
    skipJsonWs_append hw fun c hc => by
      obtain rfl : 58 = c := Option.some.inj hc
      decide
  obtain ⟨c, more, hvalue, hc, -⟩ := valueText_head hv
  have hstart : skipJsonWs (w' ++ (value ++ rest)) = value ++ rest :=
    skipJsonWs_append hw' fun b hb => by
      rw [hvalue] at hb
      obtain rfl : c = b := Option.some.inj hb
      exact hc
  rw [parseRequestMember, hsplit, parseJsonString_iff.2 ⟨name, hname, rfl⟩]
  simp only [Option.bind_eq_bind, Option.bind_some, hcolon, hstart, ne_eq, not_true_eq_false,
    if_false]
  by_cases hkey : decoded ∈ requestNames
  · obtain ⟨s, rfl⟩ := hm hkey
    cases hv with
    | str htext =>
        exact parseRequestValue_string hkey (parseJsonString_iff.2 ⟨value, htext, rfl⟩)
  · have hskip := skipFlatJsonValue_complete (show Ws [] from fun _ h => (by cases h)) hv hrest
    rw [List.nil_append] at hskip
    rw [parseRequestValue_other hkey, hskip, assignMember_other hkey]
    rfl

theorem parseRequestMember_sound {json rest : Bytes} {request request' : BranchMergeRequest}
    (h : parseRequestMember json request = some (request', rest)) :
    ∃ text m, MemberText text m ∧ json = text ++ rest ∧ StringWhereNamed m ∧
      request' = assignMember request m := by
  simp only [parseRequestMember, Option.bind_eq_bind, Option.bind_eq_some_iff, Prod.exists] at h
  obtain ⟨key, rest₁, hparse, h⟩ := h
  obtain ⟨name, hname, rfl⟩ := parseJsonString_iff.1 hparse
  obtain ⟨w, hw, hsplit, -⟩ := skipJsonWs_split rest₁
  generalize skipJsonWs rest₁ = tail at h hsplit
  cases tail with
  | nil => cases h
  | cons c tail =>
      simp only [ne_eq, ite_not] at h
      split at h
      · rename_i hcolon
        obtain ⟨w', hw', hsplit', -⟩ := skipJsonWs_split tail
        generalize skipJsonWs tail = value at h hsplit'
        have hjson : ∀ piece, value = piece ++ rest →
            name ++ rest₁ = name ++ (w ++ 58 :: (w' ++ piece)) ++ rest := by
          intro piece hpiece
          rw [hsplit, hcolon, hsplit', hpiece]
          simp
        by_cases hkey : key ∈ requestNames
        · cases hstring : parseJsonString value with
          | none =>
              -- without a string there is no result
              simp [parseRequestValue, hstring] at h
              simp only [requestNames, List.mem_cons, List.not_mem_nil, or_false] at hkey
              tauto
          | some r =>
              obtain ⟨out, rest₂⟩ := r
              rw [parseRequestValue_string hkey hstring] at h
              obtain ⟨rfl, rfl⟩ := Prod.mk.inj (Option.some.inj h)
              obtain ⟨piece, hpiece, hvalue⟩ := parseJsonString_iff.1 hstring
              exact ⟨_, (key, .str out), .mk hname hw hw' (.str hpiece), hjson piece hvalue,
                fun _ => ⟨out, rfl⟩, rfl⟩
        · rw [parseRequestValue_other hkey] at h
          obtain ⟨rest₂, hskip, heq⟩ := Option.map_eq_some_iff.1 h
          obtain ⟨rfl, rfl⟩ := Prod.mk.inj heq
          obtain ⟨w'', piece, v, hw'', hpiece, hvalue⟩ := skipFlatJsonValue_sound hskip
          have hws : Ws (w' ++ w'') := by
            intro b hb
            rcases List.mem_append.1 hb with hb | hb
            · exact hw' b hb
            · exact hw'' b hb
          refine ⟨_, (key, v), .mk hname hw hws hpiece, ?_, fun hin => absurd hin hkey,
            (assignMember_other hkey _).symm⟩
          rw [hjson (w'' ++ piece) (by rw [hvalue]; simp)]
          simp
      · cases h

/-! ## All members -/

theorem membersText_head {text : Bytes} {ms : List Member} (h : MembersText text ms) :
    ∃ rest, text = 34 :: rest := by
  have hmember : ∀ {text : Bytes} {m : Member}, MemberText text m → ∃ rest, text = 34 :: rest := by
    intro text m hm
    obtain ⟨⟨body, rfl, -⟩, -, -, -⟩ := hm
    exact ⟨_, rfl⟩
  cases h with
  | last hm hw =>
      obtain ⟨rest, rfl⟩ := hmember hm
      exact ⟨_, rfl⟩
  | cons hm hw hw' hms =>
      obtain ⟨rest, rfl⟩ := hmember hm
      exact ⟨_, rfl⟩

theorem parseRequestMembers_complete {text : Bytes} {ms : List Member} (h : MembersText text ms)
    (hms : ∀ m ∈ ms, StringWhereNamed m) {w : Bytes} (hw : Ws w) {fuel : Nat}
    (hfuel : text.length < fuel) (request : BranchMergeRequest) :
    parseRequestMembers fuel (text ++ 125 :: w) request = some (ms.foldl assignMember request) := by
  have hend := skipJsonWs_of_ws hw
  induction h generalizing fuel request with
  | @last text w' m hm hw' =>
      cases fuel with
      | zero => cases hfuel
      | succ fuel =>
          have hmember := parseRequestMember_complete hm (hms m List.mem_cons_self)
            (numberEnds_append hw' (numberEnds_brace w)) request
          have hbrace : skipJsonWs (w' ++ 125 :: w) = 125 :: w :=
            skipJsonWs_append hw' fun c hc => by
              obtain rfl : 125 = c := Option.some.inj hc
              decide
          rw [List.append_assoc, parseRequestMembers, hmember]
          simp only [Option.bind_eq_bind, Option.bind_some, hbrace, if_true, hend]
          rfl
  | @cons text w₁ w₂ rest m ms hm hw₁ hw₂ hrest ih =>
      cases fuel with
      | zero => cases hfuel
      | succ fuel =>
          obtain ⟨more, hmore⟩ := membersText_head hrest
          have hmember := parseRequestMember_complete hm (hms m List.mem_cons_self)
            (numberEnds_append hw₁ (numberEnds_comma (w₂ ++ (rest ++ 125 :: w)))) request
          have hcomma : skipJsonWs (w₁ ++ 44 :: (w₂ ++ (rest ++ 125 :: w))) =
              44 :: (w₂ ++ (rest ++ 125 :: w)) :=
            skipJsonWs_append hw₁ fun c hc => by
              obtain rfl : 44 = c := Option.some.inj hc
              decide
          have hquote : skipJsonWs (w₂ ++ (rest ++ 125 :: w)) = rest ++ 125 :: w :=
            skipJsonWs_append hw₂ fun c hc => by
              rw [hmore] at hc
              obtain rfl : 34 = c := Option.some.inj hc
              decide
          have hgoes : ¬ ((rest ++ 125 :: w).head? = none ∨ (rest ++ 125 :: w).head? = some 125) := by
            rw [hmore]
            simp
          have hsplit : text ++ (w₁ ++ 44 :: (w₂ ++ rest)) ++ 125 :: w =
              text ++ (w₁ ++ 44 :: (w₂ ++ (rest ++ 125 :: w))) := by simp
          simp only [List.length_append, List.length_cons] at hfuel
          rw [hsplit, parseRequestMembers, hmember]
          simp only [Option.bind_eq_bind, Option.bind_some, hcomma, hquote, if_neg hgoes]
          rw [if_neg (by decide), if_neg (by decide),
            ih (fun m' hm' => hms m' (List.mem_cons_of_mem _ hm')) (by omega)]
          rfl

theorem parseRequestMembers_sound {fuel : Nat} {json : Bytes} {request request' : BranchMergeRequest}
    (h : parseRequestMembers fuel json request = some request') :
    ∃ text ms w, MembersText text ms ∧ json = text ++ 125 :: w ∧ Ws w ∧
      (∀ m ∈ ms, StringWhereNamed m) ∧ request' = ms.foldl assignMember request := by
  induction fuel generalizing json request with
  | zero => cases h
  | succ fuel ih =>
      simp only [parseRequestMembers, Option.bind_eq_bind, Option.bind_eq_some_iff,
        Prod.exists] at h
      obtain ⟨request₁, rest₁, hmember, h⟩ := h
      obtain ⟨text, m, hm, rfl, hstring, rfl⟩ := parseRequestMember_sound hmember
      obtain ⟨w, hw, hsplit, -⟩ := skipJsonWs_split rest₁
      generalize skipJsonWs rest₁ = tail at h hsplit
      subst hsplit
      cases tail with
      | nil => cases h
      | cons c tail =>
          simp only at h
          split at h
          · rename_i hbrace
            split at h
            · rename_i hend
              obtain ⟨w', hw', hsplit', -⟩ := skipJsonWs_split tail
              rw [hend, List.append_nil] at hsplit'
              cases h
              refine ⟨text ++ w, [m], w', .last hm hw, ?_, hw', ?_, rfl⟩
              · rw [hbrace, hsplit']
                simp
              · intro m' hm'
                rw [List.mem_singleton.1 hm']
                exact hstring
            · cases h
          split at h
          · cases h
          rename_i hcomma
          split at h
          · cases h
          obtain ⟨w', hw', hsplit', -⟩ := skipJsonWs_split tail
          generalize skipJsonWs tail = rest at h hsplit'
          obtain ⟨text', ms, w'', hms, rfl, hw'', hstrings, rfl⟩ := ih h
          refine ⟨_, m :: ms, w'', .cons hm hw hw' hms, ?_, hw'', ?_, rfl⟩
          · rw [hsplit', Decidable.of_not_not hcomma]
            simp
          · intro m' hm'
            rcases List.mem_cons.1 hm' with rfl | hm'
            · exact hstring
            · exact hstrings m' hm'

/-! ## The whole request -/

/-- The last member of each name decides. -/
theorem foldl_assignMember (ms : List Member) :
    ms.foldl assignMember {} =
      ⟨stringOf (lastMember ms (ascii "source")), stringOf (lastMember ms (ascii "target")),
        stringOf (lastMember ms (ascii "label"))⟩ := by
  have hnames : ascii "source" ≠ ascii "target" ∧ ascii "source" ≠ ascii "label" ∧
      ascii "target" ≠ ascii "label" := by
    decide +kernel
  induction ms using List.reverseRecOn with
  | nil => rfl
  | append_singleton ms m ih =>
      have hlast : ∀ name, lastMember (ms ++ [m]) name =
          if m.1 = name then some m.2 else lastMember ms name := by
        intro name
        simp only [lastMember, firstMember, List.reverse_append, List.reverse_cons,
          List.reverse_nil, List.nil_append, List.cons_append, List.find?_cons]
        by_cases hname : m.1 = name
        · rw [if_pos hname, beq_iff_eq.2 hname]
          rfl
        · rw [if_neg hname, beq_eq_false_iff_ne.2 hname]
      rw [List.foldl_append, List.foldl_cons, List.foldl_nil, ih, hlast, hlast, hlast]
      unfold assignMember
      split_ifs with hsource htarget hlabel hlabel hlabel <;> simp_all

/-- A request is accepted exactly when it is a flat object, perhaps between white space, in which
every member of the three names has a string; each result is the string of the last member of its
name, or empty. -/
theorem parseBranchMergeRequest_iff (json : Bytes) (request : BranchMergeRequest) :
    parseBranchMergeRequest json = some request ↔
      ∃ ms, DocumentText json ms ∧
        (∀ m ∈ ms, m.1 = ascii "source" ∨ m.1 = ascii "target" ∨ m.1 = ascii "label" →
          ∃ s, m.2 = .str s) ∧
        request.source = stringOf (lastMember ms (ascii "source")) ∧
        request.target = stringOf (lastMember ms (ascii "target")) ∧
        request.label = stringOf (lastMember ms (ascii "label")) := by
  have hnamed : ∀ m : Member, StringWhereNamed m ↔
      (m.1 = ascii "source" ∨ m.1 = ascii "target" ∨ m.1 = ascii "label" → ∃ s, m.2 = .str s) := by
    intro m
    simp [StringWhereNamed, requestNames]
  -- the fold over the members keeps the last string of each name
  have hresult : ∀ ms : List Member, request = ms.foldl assignMember {} ↔
      request.source = stringOf (lastMember ms (ascii "source")) ∧
        request.target = stringOf (lastMember ms (ascii "target")) ∧
        request.label = stringOf (lastMember ms (ascii "label")) := by
    intro ms
    rw [foldl_assignMember]
    obtain ⟨source, target, label⟩ := request
    simp
  simp only [← hnamed, ← hresult]
  constructor
  -- an accepted text is white space, an object and white space
  · intro h
    unfold parseBranchMergeRequest at h
    obtain ⟨w, hw, hsplit, -⟩ := skipJsonWs_split json
    generalize skipJsonWs json = tail at h hsplit
    cases tail with
    | nil => cases h
    | cons c tail =>
        simp only at h
        split at h
        · cases h
        rename_i hopen
        obtain rfl : c = 123 := Decidable.of_not_not hopen
        obtain ⟨w', hw', hsplit', -⟩ := skipJsonWs_split tail
        generalize skipJsonWs tail = rest at h hsplit'
        split at h
        -- the object without members
        · rename_i hempty
          split at h
          · rename_i hend
            cases h
            obtain ⟨w'', hw'', hsplit'', -⟩ := skipJsonWs_split rest.tail
            rw [hend, List.append_nil] at hsplit''
            cases rest with
            | nil => cases hempty
            | cons b rest =>
                obtain rfl : b = 125 := Option.some.inj hempty
                rw [List.tail_cons] at hsplit''
                refine ⟨[], ⟨w, _, w'', ?_, hw, .empty hw', hw''⟩, fun m hm => (by cases hm), rfl⟩
                rw [hsplit, hsplit', hsplit'']
                simp
          · cases h
        · obtain ⟨text, ms, w'', hms, rfl, hw'', hstrings, rfl⟩ := parseRequestMembers_sound h
          refine ⟨ms, ⟨w, _, w'', ?_, hw, .members hw' hms, hw''⟩, hstrings, rfl⟩
          rw [hsplit, hsplit']
          simp
  -- a document is read from its opening brace on
  · rintro ⟨ms, ⟨w, object, w'', rfl, hw, hobject, hw''⟩, hstrings, rfl⟩
    have hopen : ∀ rest, skipJsonWs (w ++ (123 :: rest)) = 123 :: rest := fun rest =>
      skipJsonWs_append hw fun c hc => by
        obtain rfl : 123 = c := Option.some.inj hc
        decide
    have hend := skipJsonWs_of_ws hw''
    unfold parseBranchMergeRequest
    cases hobject with
    | @empty w' hw' =>
        have hclose : skipJsonWs (w' ++ 125 :: w'') = 125 :: w'' :=
          skipJsonWs_append hw' fun c hc => by
            obtain rfl : 125 = c := Option.some.inj hc
            decide
        rw [List.cons_append, List.append_assoc, hopen]
        simp only [List.cons_append, List.nil_append, hclose, List.head?_cons, List.tail_cons,
          hend, if_true, ne_eq, not_true_eq_false, if_false]
        rfl
    | @members w' text _ hw' hms =>
        obtain ⟨more, hmore⟩ := membersText_head hms
        have hquote : skipJsonWs (w' ++ (text ++ 125 :: w'')) = text ++ 125 :: w'' :=
          skipJsonWs_append hw' fun c hc => by
            rw [hmore] at hc
            obtain rfl : 34 = c := Option.some.inj hc
            decide
        have hgoes : ¬ (text ++ 125 :: w'').head? = some 125 := by
          rw [hmore]
          simp
        rw [List.cons_append, List.append_assoc, List.append_assoc, hopen]
        simp only [List.cons_append, List.nil_append, hquote, if_neg hgoes, ne_eq,
          not_true_eq_false, if_false]
        exact parseRequestMembers_complete hms hstrings hw''
          (by simp only [List.length_append, List.length_cons]; omega) {}

end ControlProtocol
end ContextFS
