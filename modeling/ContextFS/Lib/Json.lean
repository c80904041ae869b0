import ContextFS.Lib.LittleEndian

/-!
# The texts of flat JSON objects

Which bytes are white space, a number, a string, a value that is no container, a member and an
object, and what they stand for.  A string stands for bytes: its plain characters as they are,
its escapes decoded, a code point in UTF-8.  Every predicate is about a whole text; a text and
what follows it is an append.
-/

namespace ContextFS
namespace Lib
namespace Json

/-- Blank, tab, line feed, carriage return. -/
def isWs (c : UInt8) : Bool := c == 32 || c == 9 || c == 10 || c == 13

/-- White space. -/
def Ws (w : Bytes) : Prop := ∀ c ∈ w, isWs c = true

/-! ## Numbers -/

def isDigit (c : UInt8) : Bool := 48 ≤ c && c ≤ 57

/-- One or more digits. -/
def Digits (ds : Bytes) : Prop := ds ≠ [] ∧ ∀ c ∈ ds, isDigit c = true

/-- A zero, or digits that do not start with one. -/
def IntPart (ds : Bytes) : Prop := ds = [48] ∨ (Digits ds ∧ ds.head? ≠ some 48)

/-- Nothing, or a point and digits. -/
def FracPart (text : Bytes) : Prop := text = [] ∨ ∃ ds, text = 46 :: ds ∧ Digits ds

/-- A sign that may be left out. -/
def OptSign (text : Bytes) : Prop := text = [] ∨ text = [43] ∨ text = [45]

/-- Nothing, or the mark of an exponent, a sign and digits. -/
def ExpPart (text : Bytes) : Prop :=
  text = [] ∨ ∃ mark sign ds, text = mark :: (sign ++ ds) ∧ (mark = 101 ∨ mark = 69) ∧
    OptSign sign ∧ Digits ds

/-- A number. -/
def Number (text : Bytes) : Prop :=
  ∃ minus int frac exp, text = minus ++ (int ++ (frac ++ exp)) ∧ (minus = [] ∨ minus = [45]) ∧
    IntPart int ∧ FracPart frac ∧ ExpPart exp

/-! ## Strings -/

/-- The value of a hexadecimal digit. -/
def hexValue (c : UInt8) : Option Nat :=
  if 48 ≤ c ∧ c ≤ 57 then some (c.toNat - 48)
  else if 97 ≤ c ∧ c ≤ 102 then some (c.toNat - 87)
  else if 65 ≤ c ∧ c ≤ 70 then some (c.toNat - 55)
  else none

/-- Four hexadecimal digits and their value. -/
def Hex4 (text : Bytes) (v : Nat) : Prop :=
  ∃ c₁ c₂ c₃ c₄ d₁ d₂ d₃ d₄, text = [c₁, c₂, c₃, c₄] ∧ hexValue c₁ = some d₁ ∧
    hexValue c₂ = some d₂ ∧ hexValue c₃ = some d₃ ∧ hexValue c₄ = some d₄ ∧
      v = ((d₁ * 16 + d₂) * 16 + d₃) * 16 + d₄

/-- The byte that an escape of one character stands for. -/
def simpleEscape (c : UInt8) : Option UInt8 :=
  if c = 34 then some 34
  else if c = 92 then some 92
  else if c = 47 then some 47
  else if c = 98 then some 8
  else if c = 102 then some 12
  else if c = 110 then some 10
  else if c = 114 then some 13
  else if c = 116 then some 9
  else none

/-- The UTF-8 encoding of a code point. -/
def utf8 (v : Nat) : Bytes := String.utf8EncodeChar (Char.ofNat v)

/-- What follows a backslash, and the bytes that the escape stands for. -/
inductive EscapeText : Bytes → Bytes → Prop
  | simple {c b : UInt8} (hc : simpleEscape c = some b) : EscapeText [c] [b]
  | unicode {hex : Bytes} {v : Nat} (hhex : Hex4 hex v) (hv : v < 0xd800 ∨ 0xdfff < v) :
      EscapeText (117 :: hex) (utf8 v)
  | pair {hex hex' : Bytes} {high low : Nat} (hhex : Hex4 hex high)
      (hhigh : 0xd800 ≤ high ∧ high ≤ 0xdbff) (hhex' : Hex4 hex' low)
      (hlow : 0xdc00 ≤ low ∧ low ≤ 0xdfff) :
      EscapeText (117 :: (hex ++ 92 :: 117 :: hex'))
        (utf8 (0x10000 + ((high - 0xd800) * 0x400 + (low - 0xdc00))))

/-- The characters of a string, without its quotes, and the bytes they stand for. -/
inductive StringBody : Bytes → Bytes → Prop
  | nil : StringBody [] []
  | plain {c : UInt8} {text out : Bytes} (hquote : c ≠ 34) (hslash : c ≠ 92) (hlow : ¬ c < 32)
      (h : StringBody text out) : StringBody (c :: text) (c :: out)
  | escape {piece bytes text out : Bytes} (hpiece : EscapeText piece bytes)
      (h : StringBody text out) : StringBody (92 :: (piece ++ text)) (bytes ++ out)

/-- A string with its quotes. -/
def StringText (text out : Bytes) : Prop := ∃ body, text = 34 :: (body ++ [34]) ∧ StringBody body out

/-! ## Values, members, objects -/

/-- A value that is no container; a number is kept as it is written. -/
inductive Value where
  | str (decoded : Bytes)
  | num (text : Bytes)
  | bool (b : Bool)
  | null
deriving DecidableEq

def litTrue : Bytes := [116, 114, 117, 101]
def litFalse : Bytes := [102, 97, 108, 115, 101]
def litNull : Bytes := [110, 117, 108, 108]

inductive ValueText : Bytes → Value → Prop
  | str {text out : Bytes} (h : StringText text out) : ValueText text (.str out)
  | num {text : Bytes} (h : Number text) : ValueText text (.num text)
  | yes : ValueText litTrue (.bool true)
  | no : ValueText litFalse (.bool false)
  | null : ValueText litNull .null

/-- A name and its value. -/
abbrev Member := Bytes × Value

inductive MemberText : Bytes → Member → Prop
  | mk {name decoded w w' text : Bytes} {v : Value} (hname : StringText name decoded) (hw : Ws w)
      (hw' : Ws w') (hv : ValueText text v) :
      MemberText (name ++ (w ++ 58 :: (w' ++ text))) (decoded, v)

/-- Members with a comma between each two, and white space behind the last. -/
inductive MembersText : Bytes → List Member → Prop
  | last {text w : Bytes} {m : Member} (hm : MemberText text m) (hw : Ws w) :
      MembersText (text ++ w) [m]
  | cons {text w w' rest : Bytes} {m : Member} {ms : List Member} (hm : MemberText text m)
      (hw : Ws w) (hw' : Ws w') (hms : MembersText rest ms) :
      MembersText (text ++ (w ++ 44 :: (w' ++ rest))) (m :: ms)

inductive ObjectText : Bytes → List Member → Prop
  | empty {w : Bytes} (hw : Ws w) : ObjectText (123 :: (w ++ [125])) []
  | members {w text : Bytes} {ms : List Member} (hw : Ws w) (hms : MembersText text ms) :
      ObjectText (123 :: (w ++ (text ++ [125]))) ms

/-- An object with white space around it. -/
def DocumentText (text : Bytes) (ms : List Member) : Prop :=
  ∃ w object w', text = w ++ (object ++ w') ∧ Ws w ∧ ObjectText object ms ∧ Ws w'

/-- A text of a flat object. -/
structure FlatObject where
  text : Bytes
  members : List Member
  wf : DocumentText text members

/-- The first member of a name. -/
def firstMember (ms : List Member) (name : Bytes) : Option Value :=
  (ms.find? fun m => m.1 == name).map Prod.snd

/-- The last member of a name. -/
def lastMember (ms : List Member) (name : Bytes) : Option Value := firstMember ms.reverse name

/-- The bytes of a string, nothing for any other value or none. -/
def stringOf : Option Value → Bytes
  | some (.str s) => s
  | _ => []

end Json
end Lib
end ContextFS
