import ContextFS.Lib.Json

/-!
# Where a byte of an object's text stands

A byte that is no white space, no comma and no outer brace stands in a member: it is the colon, or
it stands in the name or in the value.  The members in front and behind go with the text around.
-/

namespace ContextFS
namespace Lib
namespace Json

/-! ## A byte in an append -/

theorem split_byte {α : Type*} {x y a b : List α} {c : α} (h : x ++ y = a ++ c :: b) :
    (∃ b', x = a ++ c :: b' ∧ b = b' ++ y) ∨ ∃ a', a = x ++ a' ∧ y = a' ++ c :: b := by
  rcases List.append_eq_append_iff.1 h with ⟨a', ha, hy⟩ | ⟨b', hx, hb⟩
  · exact Or.inr ⟨a', ha, hy⟩
  · cases b' with
    | nil => exact Or.inr ⟨[], by rw [hx, List.append_nil, List.append_nil], hb.symm⟩
    | cons d b' =>
        obtain ⟨rfl, rfl⟩ := List.cons.inj hb
        exact Or.inl ⟨b', hx, rfl⟩

/-- The byte stands in the second part. -/
theorem split_byte_right {α : Type*} {x y a b : List α} {c : α} (hx : c ∉ x)
    (h : x ++ y = a ++ c :: b) : ∃ a', a = x ++ a' ∧ y = a' ++ c :: b := by
  rcases split_byte h with ⟨b', rfl, -⟩ | h
  · exact absurd (List.mem_append_right a List.mem_cons_self) hx
  · exact h

/-- The byte stands in the first part. -/
theorem split_byte_left {α : Type*} {x y a b : List α} {c : α} (hy : c ∉ y)
    (h : x ++ y = a ++ c :: b) : ∃ b', x = a ++ c :: b' ∧ b = b' ++ y := by
  rcases split_byte h with h | ⟨a', -, rfl⟩
  · exact h
  · exact absurd (List.mem_append_right a' List.mem_cons_self) hy

/-! ## The members around -/

/-- Whole members, each with the comma behind it. -/
inductive FrontText : Bytes → List Member → Prop
  | nil : FrontText [] []
  | cons {text w w' rest : Bytes} {m : Member} {ms : List Member} (hm : MemberText text m)
      (hw : Ws w) (hw' : Ws w') (hrest : FrontText rest ms) :
      FrontText (text ++ (w ++ 44 :: (w' ++ rest))) (m :: ms)

/-- What stands behind a member: white space, or a comma and more members. -/
inductive BackText : Bytes → List Member → Prop
  | last {w : Bytes} (hw : Ws w) : BackText w []
  | more {w w' rest : Bytes} {ms : List Member} (hw : Ws w) (hw' : Ws w')
      (hms : MembersText rest ms) : BackText (w ++ 44 :: (w' ++ rest)) ms

/-- The member `m` with the text `text`, in the text of members. -/
structure MemberIn (members : Bytes) (ms : List Member) (front text back : Bytes)
    (before : List Member) (m : Member) (after : List Member) : Prop where
  text_eq : members = front ++ (text ++ back)
  members_eq : ms = before ++ m :: after
  front : FrontText front before
  member : MemberText text m
  back : BackText back after

theorem membersText_of_back {text back : Bytes} {m : Member} {ms : List Member}
    (hm : MemberText text m) (hback : BackText back ms) : MembersText (text ++ back) (m :: ms) := by
  cases hback with
  | last hw => exact .last hm hw
  | more hw hw' hms => exact .cons hm hw hw' hms

theorem membersText_of_front {front rest : Bytes} {before ms : List Member}
    (hfront : FrontText front before) (hrest : MembersText rest ms) :
    MembersText (front ++ rest) (before ++ ms) := by
  induction hfront with
  | nil => exact hrest
  | @cons text w w' more m before hm hw hw' _ ih =>
      have hsplit : text ++ (w ++ 44 :: (w' ++ more)) ++ rest =
          text ++ (w ++ 44 :: (w' ++ (more ++ rest))) := by simp
      rw [hsplit]
      exact .cons hm hw hw' ih

/-- Any member may stand in the place of a member. -/
theorem MemberIn.replace {members front text back text' : Bytes} {ms before after : List Member}
    {m m' : Member} (h : MemberIn members ms front text back before m after)
    (hm' : MemberText text' m') : MembersText (front ++ (text' ++ back)) (before ++ m' :: after) :=
  membersText_of_front h.front (membersText_of_back hm' h.back)

/-- The text of members is the text of the first and what is behind it. -/
theorem memberIn_head {members : Bytes} {m : Member} {ms : List Member}
    (h : MembersText members (m :: ms)) :
    ∃ text back, members = text ++ back ∧ MemberText text m ∧ BackText back ms := by
  cases h with
  | last hm hw => exact ⟨_, _, rfl, hm, .last hw⟩
  | cons hm hw hw' hms => exact ⟨_, _, rfl, hm, .more hw hw' hms⟩

/-- A member behind the first stands behind it in the text too. -/
theorem MemberIn.cons {text w w' members front text' back : Bytes} {m₀ m : Member}
    {ms before after : List Member} (hm : MemberText text m₀) (hw : Ws w) (hw' : Ws w')
    (h : MemberIn members ms front text' back before m after) :
    MemberIn (text ++ (w ++ 44 :: (w' ++ members))) (m₀ :: ms) (text ++ (w ++ 44 :: (w' ++ front)))
      text' back (m₀ :: before) m after where
  text_eq := by rw [h.text_eq]; simp
  members_eq := by rw [h.members_eq]; rfl
  front := .cons hm hw hw' h.front
  member := h.member
  back := h.back

theorem exists_memberIn {members : Bytes} {before : List Member} {m : Member} {after : List Member}
    (h : MembersText members (before ++ m :: after)) :
    ∃ front text back, MemberIn members (before ++ m :: after) front text back before m after := by
  induction before generalizing members with
  | nil =>
      obtain ⟨text, back, htext, hm, hback⟩ := memberIn_head h
      exact ⟨[], text, back, htext, rfl, .nil, hm, hback⟩
  | cons m₀ before ih =>
      rw [List.cons_append] at h
      generalize hrest : before ++ m :: after = rest at h
      cases h with
      | last hm hw => exact absurd hrest (by simp)
      | cons hm hw hw' hms =>
          obtain ⟨front, text, back, hin⟩ := ih (hrest ▸ hms)
          exact ⟨_, _, _, hin.cons hm hw hw'⟩

/-- A byte that is no white space and no comma stands in a member. -/
theorem byte_in_member {members a b : Bytes} {ms : List Member} {c : UInt8}
    (h : MembersText members ms) (hsplit : members = a ++ c :: b) (hws : isWs c = false)
    (hcomma : c ≠ 44) :
    ∃ front text back before m after a' b',
      MemberIn members ms front text back before m after ∧
      a = front ++ a' ∧ text = a' ++ c :: b' ∧ b = b' ++ back := by
  have hnot : ∀ {w : Bytes}, Ws w → c ∉ w := fun hw hin => by
    rw [hw c hin] at hws
    cases hws
  induction h generalizing a with
  | @last text w m hm hw =>
      obtain ⟨b', htext, hb⟩ := split_byte_left (hnot hw) hsplit
      exact ⟨[], text, w, [], m, [], a, b', ⟨rfl, rfl, .nil, hm, .last hw⟩, rfl, htext, hb⟩
  | @cons text w w' rest m ms hm hw hw' hms ih =>
      rcases split_byte hsplit with ⟨b', htext, hb⟩ | ⟨a', ha, hrest⟩
      · exact ⟨[], text, _, [], m, ms, a, b', ⟨rfl, rfl, .nil, hm, .more hw hw' hms⟩, rfl, htext, hb⟩
      · have hgap : c ∉ w ++ 44 :: w' := by
          simp only [List.mem_append, List.mem_cons, not_or]
          exact ⟨hnot hw, hcomma, hnot hw'⟩
        have hjoin : w ++ 44 :: (w' ++ rest) = (w ++ 44 :: w') ++ rest := by simp
        rw [hjoin] at hrest
        obtain ⟨a'', ha', hrest⟩ := split_byte_right hgap hrest
        obtain ⟨front, text', back, before, m', after, a₁, b₁, hin, ha₁, htext, hb⟩ := ih hrest
        refine ⟨_, text', back, _, m', after, a₁, b₁, hin.cons hm hw hw', ?_, htext, hb⟩
        rw [ha, ha', ha₁]
        simp

/-- Around the members there is only white space and the braces. -/
theorem byte_in_document {text a b : Bytes} {ms : List Member} {c : UInt8}
    (h : DocumentText text ms) (hsplit : text = a ++ c :: b) (hws : isWs c = false)
    (hopen : c ≠ 123) (hclose : c ≠ 125) :
    ∃ w w' w'' members a' b', text = w ++ 123 :: (w' ++ (members ++ 125 :: w'')) ∧ Ws w ∧ Ws w' ∧
      Ws w'' ∧ MembersText members ms ∧ members = a' ++ c :: b' ∧ a = w ++ 123 :: (w' ++ a') ∧
      b = b' ++ 125 :: w'' := by
  have hnot : ∀ {w : Bytes}, Ws w → c ∉ w := fun hw hin => by
    rw [hw c hin] at hws
    cases hws
  obtain ⟨w, object, w'', rfl, hw, hobject, hw''⟩ := h
  cases hobject with
  | @empty w' hw' =>
      have hno : c ∉ w ++ (123 :: (w' ++ [125]) ++ w'') := by
        simp only [List.mem_append, List.mem_cons, List.not_mem_nil, or_false, not_or]
        exact ⟨hnot hw, ⟨hopen, hnot hw', hclose⟩, hnot hw''⟩
      rw [hsplit] at hno
      exact absurd (List.mem_append_right a List.mem_cons_self) hno
  | @members w' members _ hw' hms =>
      have hjoin : w ++ (123 :: (w' ++ (members ++ [125])) ++ w'') =
          (w ++ 123 :: w') ++ (members ++ 125 :: w'') := by simp
      have hfront : c ∉ w ++ 123 :: w' := by
        simp only [List.mem_append, List.mem_cons, not_or]
        exact ⟨hnot hw, hopen, hnot hw'⟩
      have hback : c ∉ 125 :: w'' := by
        simp only [List.mem_cons, not_or]
        exact ⟨hclose, hnot hw''⟩
      obtain ⟨a', ha, hrest⟩ := split_byte_right hfront (hjoin.symm.trans hsplit)
      obtain ⟨b', hmembers, hb⟩ := split_byte_left hback hrest
      refine ⟨w, w', w'', members, a', b', by simp, hw, hw', hw'', hms, hmembers, ?_, hb⟩
      rw [ha]
      simp

/-! ## In a member -/

/-- The colon, or a byte of the name or of the value. -/
theorem byte_of_member {text a b : Bytes} {m : Member} {c : UInt8} (h : MemberText text m)
    (hsplit : text = a ++ c :: b) (hws : isWs c = false) :
    ∃ name w w' value, text = name ++ (w ++ 58 :: (w' ++ value)) ∧ StringText name m.1 ∧ Ws w ∧
      Ws w' ∧ ValueText value m.2 ∧
      ((c = 58 ∧ a = name ++ w ∧ b = w' ++ value) ∨
        (∃ b', name = a ++ c :: b' ∧ b = b' ++ (w ++ 58 :: (w' ++ value))) ∨
        ∃ a', a = name ++ (w ++ 58 :: (w' ++ a')) ∧ value = a' ++ c :: b) := by
  have hnot : ∀ {w : Bytes}, Ws w → c ∉ w := fun hw hin => by
    rw [hw c hin] at hws
    cases hws
  obtain @⟨name, decoded, w, w', value, v, hname, hw, hw', hv⟩ := h
  refine ⟨name, w, w', value, rfl, hname, hw, hw', hv, ?_⟩
  rcases split_byte hsplit with ⟨b', hn, hb⟩ | ⟨a', ha, hrest⟩
  · exact Or.inr (Or.inl ⟨b', hn, hb⟩)
  obtain ⟨a'', ha', hrest⟩ := split_byte_right (hnot hw) hrest
  cases a'' with
  | nil =>
      obtain ⟨rfl, rfl⟩ := List.cons.inj hrest
      exact Or.inl ⟨rfl, by rw [ha, ha', List.append_nil], rfl⟩
  | cons d a'' =>
      obtain ⟨rfl, hbehind⟩ := List.cons.inj hrest
      obtain ⟨a₃, ha'', hvalue⟩ := split_byte_right (hnot hw') hbehind
      exact Or.inr (Or.inr ⟨a₃, by rw [ha, ha', ha''], hvalue⟩)

/-- The quotes of a string and its characters. -/
theorem byte_of_string {text a b out : Bytes} {c : UInt8} (h : StringText text out)
    (hsplit : text = a ++ c :: b) :
    (a = [] ∧ c = 34 ∧ ∃ body, b = body ++ [34] ∧ StringBody body out) ∨
      (∃ body body', a = 34 :: body ∧ b = body' ++ [34] ∧ StringBody (body ++ c :: body') out) ∨
      ∃ body, a = 34 :: body ∧ c = 34 ∧ b = [] ∧ StringBody body out := by
  obtain ⟨body, rfl, hbody⟩ := h
  cases a with
  | nil =>
      obtain ⟨rfl, rfl⟩ := List.cons.inj hsplit
      exact Or.inl ⟨rfl, rfl, body, rfl, hbody⟩
  | cons d a =>
      obtain ⟨rfl, hbehind⟩ := List.cons.inj hsplit
      rcases split_byte hbehind with ⟨body', hb, rfl⟩ | ⟨a', ha, hlast⟩
      · exact Or.inr (Or.inl ⟨a, body', rfl, rfl, hb ▸ hbody⟩)
      · cases a' with
        | nil =>
            obtain ⟨rfl, rfl⟩ := List.cons.inj hlast
            rw [List.append_nil] at ha
            exact Or.inr (Or.inr ⟨a, rfl, rfl, rfl, ha ▸ hbody⟩)
        | cons e a' =>
            obtain ⟨-, hlast⟩ := List.cons.inj hlast
            exact absurd hlast (by simp)

theorem mem_intPart {int : Bytes} {c : UInt8} (h : IntPart int) (hc : c ∈ int) :
    isDigit c = true := by
  rcases h with rfl | ⟨⟨-, hds⟩, -⟩
  · rw [List.mem_singleton.1 hc]
    decide
  · exact hds c hc

/-- The bytes of a number. -/
theorem mem_number {text : Bytes} {c : UInt8} (h : Number text) (hc : c ∈ text) :
    isDigit c = true ∨ c = 45 ∨ c = 43 ∨ c = 46 ∨ c = 101 ∨ c = 69 := by
  obtain ⟨minus, int, frac, exp, rfl, hminus, hint, hfrac, hexp⟩ := h
  simp only [List.mem_append] at hc
  rcases hc with hc | hc | hc | hc
  · rcases hminus with rfl | rfl
    · cases hc
    · exact Or.inr (Or.inl (List.mem_singleton.1 hc))
  · exact Or.inl (mem_intPart hint hc)
  · rcases hfrac with rfl | ⟨ds, rfl, -, hds⟩
    · cases hc
    rcases List.mem_cons.1 hc with rfl | hc
    · simp
    · exact Or.inl (hds c hc)
  · rcases hexp with rfl | ⟨mark, sign, ds, rfl, hmark, hsign, -, hds⟩
    · cases hc
    rcases List.mem_cons.1 hc with rfl | hc
    · tauto
    rcases List.mem_append.1 hc with hc | hc
    · rcases hsign with rfl | rfl | rfl
      · cases hc
      · rw [List.mem_singleton.1 hc]
        simp
      · rw [List.mem_singleton.1 hc]
        simp
    · exact Or.inl (hds c hc)

/-- A byte that no number and no literal has. -/
def StringOnly (c : UInt8) : Prop :=
  isDigit c = false ∧ c ∉ ([45, 43, 46, 101, 69] : Bytes) ∧ c ∉ litTrue ∧ c ∉ litFalse ∧ c ∉ litNull

instance (c : UInt8) : Decidable (StringOnly c) := inferInstanceAs (Decidable (_ ∧ _))

/-- Only a string has such a byte. -/
theorem string_of_byte {text : Bytes} {v : Value} {c : UInt8} (h : ValueText text v)
    (hc : StringOnly c) (hin : c ∈ text) : ∃ out, v = .str out ∧ StringText text out := by
  obtain ⟨hdigit, hmarks, htrue, hfalse, hnull⟩ := hc
  cases h with
  | str htext => exact ⟨_, rfl, htext⟩
  | num hnumber =>
      rcases mem_number hnumber hin with h | h
      · rw [h] at hdigit
        cases hdigit
      · exact absurd (by simpa using h) hmarks
  | yes => exact absurd hin htrue
  | no => exact absurd hin hfalse
  | null => exact absurd hin hnull

end Json
end Lib
end ContextFS
