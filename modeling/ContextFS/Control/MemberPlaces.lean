import ContextFS.Lib.JsonPlaces
import ContextFS.Control.Lookup

/-!
# The places of the members of a request

A request but for the value of one member, and where the colons of a request stand: every colon is
the one of a member, or it stands in a string.
-/

namespace ContextFS
namespace ControlProtocol

open Lib Lib.Json

/-- A request but for the value of one member: `front` ends where its colon stands. -/
structure MemberPlace where
  name : Bytes
  front : Bytes
  blanks : Bytes
  back : Bytes
  before : List Member
  after : List Member
  wf : ∀ t v, ValueText t v →
    DocumentText (front ++ 58 :: (blanks ++ (t ++ back))) (before ++ (name, v) :: after)
  ws : Ws blanks
  ends : NumberEnds back

/-- The request with the value written in. -/
def MemberPlace.text (q : MemberPlace) (t : Bytes) : Bytes :=
  q.front ++ 58 :: (q.blanks ++ (t ++ q.back))

def MemberPlace.members (q : MemberPlace) (v : Value) : List Member :=
  q.before ++ (q.name, v) :: q.after

/-- The place of the first member of the name. -/
def MemberPlace.IsFirst (q : MemberPlace) (key : Bytes) : Prop :=
  q.name = key ∧ ∀ m ∈ q.before, m.1 ≠ key

theorem numberEnds_back {back rest : Bytes} {ms : List Member} (h : BackText back ms)
    (hrest : NumberEnds rest) : NumberEnds (back ++ rest) := by
  cases h with
  | last hw => exact numberEnds_append hw hrest
  | @more w w' more _ hw hw' hms =>
      have hsplit : w ++ 44 :: (w' ++ more) ++ rest = w ++ 44 :: (w' ++ more ++ rest) := by simp
      rw [hsplit]
      exact numberEnds_append hw (numberEnds_comma _)

/-- The place of a member of an object. -/
theorem exists_place {w w' w'' members front text back name w₁ w₂ value : Bytes}
    {ms before after : List Member} {m : Member} (hw : Ws w) (hw' : Ws w') (hw'' : Ws w'')
    (hin : MemberIn members ms front text back before m after)
    (htext : text = name ++ (w₁ ++ 58 :: (w₂ ++ value))) (hname : StringText name m.1)
    (hw₁ : Ws w₁) (hw₂ : Ws w₂) :
    ∃ q : MemberPlace, q.name = m.1 ∧ q.before = before ∧ q.after = after ∧
      q.front = w ++ 123 :: (w' ++ (front ++ (name ++ w₁))) ∧ q.blanks = w₂ ∧
      q.back = back ++ 125 :: w'' ∧
      q.text value = w ++ 123 :: (w' ++ (members ++ 125 :: w'')) := by
  refine ⟨⟨m.1, w ++ 123 :: (w' ++ (front ++ (name ++ w₁))), w₂, back ++ 125 :: w'', before, after,
    fun t v hv => ?_, hw₂, numberEnds_back hin.back (numberEnds_brace _)⟩,
    rfl, rfl, rfl, rfl, rfl, rfl, ?_⟩
  · have hmembers := hin.replace (.mk hname hw₁ hw₂ hv)
    refine ⟨w, _, w'', ?_, hw, .members hw' hmembers, hw''⟩
    simp
  · have hall : members = front ++ (name ++ (w₁ ++ 58 :: (w₂ ++ value)) ++ back) := by
      rw [← htext]
      exact hin.text_eq
    show w ++ 123 :: (w' ++ (front ++ (name ++ w₁))) ++
      58 :: (w₂ ++ (value ++ (back ++ 125 :: w''))) = _
    simp [hall]

/-- The first member of a name has a place. -/
theorem exists_firstPlace {r : FlatObject} {key : Bytes} {v : Value}
    (h : firstMember r.members key = some v) :
    ∃ (q : MemberPlace) (t : Bytes), q.IsFirst key ∧ ValueText t v ∧ r.text = q.text t ∧
      r.members = q.members v := by
  obtain ⟨⟨name, v'⟩, hfind, rfl⟩ := Option.map_eq_some_iff.1 h
  obtain ⟨hname, before, after, hms, hbefore⟩ := List.find?_eq_some_iff_append.1 hfind
  obtain rfl : name = key := by simpa using hname
  obtain ⟨w, object, w'', hdoc, hw, hobject, hw''⟩ := r.wf
  rw [hms] at hobject
  generalize hsplit : before ++ (name, v') :: after = ms at hobject
  cases hobject with
  | empty => exact absurd hsplit (by simp)
  | @members w' members _ hw' hmembers =>
      obtain ⟨front, text, back, hin⟩ := exists_memberIn (hsplit ▸ hmembers)
      have hmember := hin.member
      generalize hm : (name, v') = m at hmember hin
      obtain @⟨nameText, decoded, w₁, w₂, value, v'', hnameText, hw₁, hw₂, hv⟩ := hmember
      obtain ⟨rfl, rfl⟩ := Prod.mk.inj hm
      obtain ⟨q, hqname, hqbefore, hqafter, -, -, -, hqtext⟩ :=
        exists_place hw hw' hw'' hin rfl hnameText hw₁ hw₂
      refine ⟨q, value, ⟨hqname, fun m hm => ?_⟩, hv, ?_, ?_⟩
      · rw [hqbefore] at hm
        simpa using hbefore m hm
      · rw [hdoc, hqtext]
        simp
      · rw [hms, MemberPlace.members, hqbefore, hqname, hqafter]

/-! ## Colons -/

/-- `behind` stands behind the colon of a member, whose value `v` follows `blanks`. -/
def MemberColon (r : FlatObject) (behind blanks : Bytes) (v : Value) : Prop :=
  ∃ (q : MemberPlace) (t : Bytes), ValueText t v ∧ r.text = q.text t ∧ r.members = q.members v ∧
    q.blanks = blanks ∧ behind = blanks ++ (t ++ q.back)

/-- `behind` stands behind a colon in a string, which goes on with `tail`. -/
def StringColon (r : FlatObject) (behind tail : Bytes) : Prop :=
  ∃ pre body out rest, StringBody (body ++ 58 :: tail) out ∧ behind = tail ++ 34 :: rest ∧
    r.text = pre ++ 34 :: (body ++ 58 :: behind)

theorem stringOnly_colon : StringOnly 58 := by decide

/-- A colon in a string of a request. -/
theorem stringColon_of_string (r : FlatObject) {s a b out : Bytes} (pre rest : Bytes)
    (h : StringText s out) (hs : s = a ++ 58 :: b)
    (htext : r.text = pre ++ (a ++ 58 :: (b ++ rest))) :
    ∃ tail, StringColon r (b ++ rest) tail := by
  rcases byte_of_string h hs with ⟨-, hc, -⟩ | ⟨body, body', rfl, rfl, hbody⟩ | ⟨body, -, hc, -⟩
  · exact absurd hc (by decide)
  · exact ⟨body', pre, body, out, rest, hbody, by simp, htext⟩
  · exact absurd hc (by decide)

/-- Every colon of a request is the one of a member or stands in a string. -/
theorem colon_cases (r : FlatObject) {a behind : Bytes} (h : r.text = a ++ 58 :: behind) :
    (∃ blanks v, MemberColon r behind blanks v) ∨ ∃ tail, StringColon r behind tail := by
  obtain ⟨w, w', w'', members, a₁, b₁, hdoc, hw, hw', hw'', hms, hmembers, rfl, rfl⟩ :=
    byte_in_document r.wf h (by decide) (by decide) (by decide)
  obtain ⟨front, text, back, before, m, after, a₂, b₂, hin, rfl, htext, rfl⟩ :=
    byte_in_member hms hmembers (by decide) (by decide)
  obtain ⟨name, w₁, w₂, value, hmember, hname, hw₁, hw₂, hv, hplace⟩ :=
    byte_of_member hin.member htext (by decide)
  rcases hplace with ⟨-, rfl, rfl⟩ | ⟨b₃, hstring, rfl⟩ | ⟨a₃, rfl, hstring⟩
  · obtain ⟨q, hqname, hqbefore, hqafter, -, hqblanks, hqback, hqtext⟩ :=
      exists_place hw hw' hw'' hin hmember hname hw₁ hw₂
    refine Or.inl ⟨w₂, m.2, q, value, hv, hdoc.trans hqtext.symm, ?_, hqblanks, ?_⟩
    · rw [hin.members_eq, MemberPlace.members, hqbefore, hqname, hqafter]
    · rw [hqback]
      simp
  · refine Or.inr ?_
    have hsplit := stringColon_of_string r (w ++ 123 :: (w' ++ front))
      (w₁ ++ 58 :: (w₂ ++ value) ++ back ++ 125 :: w'') hname hstring (by rw [h]; simp)
    simpa using hsplit
  · obtain ⟨out, -, hvalue⟩ := string_of_byte hv stringOnly_colon
      (by rw [hstring]; exact List.mem_append_right _ List.mem_cons_self)
    refine Or.inr ?_
    have hsplit := stringColon_of_string r
      (w ++ 123 :: (w' ++ (front ++ (name ++ (w₁ ++ 58 :: w₂))))) (back ++ 125 :: w'') hvalue
      hstring (by rw [h]; simp)
    simpa using hsplit

end ControlProtocol
end ContextFS
