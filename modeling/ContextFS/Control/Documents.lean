import ContextFS.Control.ConflictReport
import ContextFS.Control.Lookup
import ContextFS.Control.Strtol

/-!
# Documents

The daemon writes JSON by appending strings: objects, arrays, escaped texts, decimal numbers and
flags, without any white space.  Such a text is one line, and it can be taken apart again in one
way only, whatever follows it.
-/

namespace ContextFS
namespace ControlProtocol

open Lib

/-- What is written. -/
inductive Document
  | text (s : Bytes)
  | number (n : Int)
  | flag (b : Bool)
  | array (items : List Document)
  | object (members : List (Bytes × Document))

/-- `"true"` or `"false"`. -/
def flagText (b : Bool) : Bytes := if b then Json.litTrue else Json.litFalse

namespace Document

mutual

/-- The text of a document. -/
def print : Document → Bytes
  | .text s => quoted s
  | .number n => decimalInt n
  | .flag b => flagText b
  | .array items => 91 :: (printItems items ++ [93])
  | .object members => 123 :: (printMembers members ++ [125])

/-- The items of an array, the first without a comma. -/
def printItems : List Document → Bytes
  | [] => []
  | d :: ds => d.print ++ printMore ds

/-- The items behind the first. -/
def printMore : List Document → Bytes
  | [] => []
  | d :: ds => 44 :: (d.print ++ printMore ds)

/-- The members of an object, the first without a comma. -/
def printMembers : List (Bytes × Document) → Bytes
  | [] => []
  | (key, d) :: ms => quoted key ++ 58 :: (d.print ++ printMoreMembers ms)

/-- The members behind the first. -/
def printMoreMembers : List (Bytes × Document) → Bytes
  | [] => []
  | (key, d) :: ms => 44 :: (quoted key ++ 58 :: (d.print ++ printMoreMembers ms))

end

example : print (.object [([97], .array [.number (-1), .flag true])]) =
    [123, 34, 97, 34, 58, 91, 45, 49, 44, 116, 114, 117, 101, 93, 125] := by decide +kernel

/-! ## Taking a text apart -/

/-- What stands behind a number: no further digit. -/
def Ends (rest : Bytes) : Prop := ∀ c, rest.head? = some c → isDigit c = false

theorem ends_cons {c : UInt8} (h : isDigit c = false) (rest : Bytes) : Ends (c :: rest) := by
  intro c' hc'
  cases hc'
  exact h

theorem ends_nil : Ends [] := nofun

theorem quoted_cut {s s' rest rest' : Bytes} (h : quoted s ++ rest = quoted s' ++ rest') :
    s = s' ∧ rest = rest' := by
  have hread : parseJsonString (quoted s ++ rest) = some (s, rest) :=
    parseJsonString_iff.2 ⟨quoted s, stringText_jsonEscape s, rfl⟩
  have hread' : parseJsonString (quoted s' ++ rest') = some (s', rest') :=
    parseJsonString_iff.2 ⟨quoted s', stringText_jsonEscape s', rfl⟩
  rw [h, hread'] at hread
  cases hread
  exact ⟨rfl, rfl⟩

theorem decimalInt_cut {n n' : Int} {rest rest' : Bytes} (hr : Ends rest) (hr' : Ends rest')
    (h : decimalInt n ++ rest = decimalInt n' ++ rest') : n = n' ∧ rest = rest' := by
  have hread := strtolValue_decimalInt n hr
  rw [h, strtolValue_decimalInt n' hr'] at hread
  cases hread
  exact ⟨rfl, List.append_cancel_left h⟩

/-- The kind of a document. -/
def kind : Document → Nat
  | .text _ => 0
  | .number _ => 1
  | .flag _ => 2
  | .array _ => 3
  | .object _ => 4

/-- The kind the first byte of a text belongs to. -/
def kindOf (c : UInt8) : Nat :=
  if c = 34 then 0
  else if c = 45 ∨ isDigit c then 1
  else if c = 116 ∨ c = 102 then 2
  else if c = 91 then 3
  else if c = 123 then 4
  else 5

theorem decimalInt_head (n : Int) : ∃ c rest, decimalInt n = c :: rest ∧ kindOf c = 1 := by
  unfold decimalInt
  split
  · exact ⟨45, _, rfl, by decide⟩
  · cases hd : decimal n.natAbs with
    | nil => exact absurd hd (decimal_ne_nil _)
    | cons c rest =>
        have hdigit := decimal_digits n.natAbs c (by rw [hd]; exact List.mem_cons_self)
        have hquote : c ≠ 34 := by
          rintro rfl
          cases hdigit
        exact ⟨c, rest, rfl, by simp [kindOf, hquote, hdigit]⟩

theorem print_head (d : Document) : ∃ c rest, d.print = c :: rest ∧ kindOf c = d.kind := by
  cases d with
  | text s => exact ⟨34, _, rfl, rfl⟩
  | number n => exact decimalInt_head n
  | flag b =>
      cases b with
      | true => exact ⟨116, _, rfl, by decide⟩
      | false => exact ⟨102, _, rfl, by decide⟩
  | array items => exact ⟨91, _, rfl, rfl⟩
  | object members => exact ⟨123, _, rfl, rfl⟩

/-- Texts that begin alike are of one kind. -/
theorem kind_eq {d d' : Document} {rest rest' : Bytes} (h : d.print ++ rest = d'.print ++ rest') :
    d.kind = d'.kind := by
  obtain ⟨c, more, hd, hk⟩ := print_head d
  obtain ⟨c', more', hd', hk'⟩ := print_head d'
  rw [hd, hd'] at h
  obtain ⟨rfl, -⟩ := List.cons.inj h
  rw [← hk, ← hk']

/-- No text begins with the end of an array. -/
theorem print_ne_end (d : Document) (rest rest' : Bytes) : d.print ++ rest ≠ 93 :: rest' := by
  obtain ⟨c, more, hd, hk⟩ := print_head d
  intro h
  rw [hd] at h
  obtain ⟨rfl, -⟩ := List.cons.inj h
  cases d <;> cases hk

theorem ends_printMore (ds : List Document) (rest : Bytes) : Ends (printMore ds ++ 93 :: rest) := by
  cases ds with
  | nil => exact ends_cons (by decide) _
  | cons d ds => exact ends_cons (by decide) _

theorem ends_printMoreMembers (ms : List (Bytes × Document)) (rest : Bytes) :
    Ends (printMoreMembers ms ++ 125 :: rest) := by
  cases ms with
  | nil => exact ends_cons (by decide) _
  | cons m ms => exact ends_cons (by decide) _

mutual

/-- A text and what follows it come from one document only. -/
theorem print_cut : ∀ (d d' : Document) {rest rest' : Bytes}, Ends rest → Ends rest' →
    d.print ++ rest = d'.print ++ rest' → d = d' ∧ rest = rest'
  | .text s, d', rest, rest', _, _, h => by
      have hkind := kind_eq h
      cases d' with
      | text s' =>
          obtain ⟨rfl, rfl⟩ := quoted_cut h
          exact ⟨rfl, rfl⟩
      | _ => cases hkind
  | .number n, d', rest, rest', hr, hr', h => by
      have hkind := kind_eq h
      cases d' with
      | number n' =>
          obtain ⟨rfl, rfl⟩ := decimalInt_cut hr hr' h
          exact ⟨rfl, rfl⟩
      | _ => cases hkind
  | .flag b, d', rest, rest', _, _, h => by
      have hkind := kind_eq h
      cases d' with
      | flag b' =>
          cases b <;> cases b' <;> simp [print, flagText, Json.litTrue, Json.litFalse] at h ⊢ <;>
            exact h
      | _ => cases hkind
  | .array items, d', rest, rest', _, _, h => by
      have hkind := kind_eq h
      cases d' with
      | array items' =>
          simp only [print, List.cons_append, List.append_assoc, List.nil_append] at h
          obtain ⟨rfl, rfl⟩ := printItems_cut items items' (List.cons.inj h).2
          exact ⟨rfl, rfl⟩
      | _ => cases hkind
  | .object members, d', rest, rest', _, _, h => by
      have hkind := kind_eq h
      cases d' with
      | object members' =>
          simp only [print, List.cons_append, List.append_assoc, List.nil_append] at h
          obtain ⟨rfl, rfl⟩ := printMembers_cut members members' (List.cons.inj h).2
          exact ⟨rfl, rfl⟩
      | _ => cases hkind

theorem printItems_cut : ∀ (ds ds' : List Document) {rest rest' : Bytes},
    printItems ds ++ 93 :: rest = printItems ds' ++ 93 :: rest' → ds = ds' ∧ rest = rest'
  | [], [], rest, rest', h => ⟨rfl, (List.cons.inj h).2⟩
  | [], d' :: ds', rest, rest', h => by
      simp only [printItems, List.append_assoc, List.nil_append] at h
      exact absurd h.symm (print_ne_end d' _ _)
  | d :: ds, [], rest, rest', h => by
      simp only [printItems, List.append_assoc, List.nil_append] at h
      exact absurd h (print_ne_end d _ _)
  | d :: ds, d' :: ds', rest, rest', h => by
      simp only [printItems, List.append_assoc] at h
      obtain ⟨rfl, hmore⟩ := print_cut d d' (ends_printMore ds rest) (ends_printMore ds' rest') h
      obtain ⟨rfl, rfl⟩ := printMore_cut ds ds' hmore
      exact ⟨rfl, rfl⟩

theorem printMore_cut : ∀ (ds ds' : List Document) {rest rest' : Bytes},
    printMore ds ++ 93 :: rest = printMore ds' ++ 93 :: rest' → ds = ds' ∧ rest = rest'
  | [], [], rest, rest', h => ⟨rfl, (List.cons.inj h).2⟩
  | [], d' :: ds', rest, rest', h => by cases h
  | d :: ds, [], rest, rest', h => by cases h
  | d :: ds, d' :: ds', rest, rest', h => by
      simp only [printMore, List.cons_append, List.append_assoc] at h
      obtain ⟨rfl, hmore⟩ := print_cut d d' (ends_printMore ds rest) (ends_printMore ds' rest')
        (List.cons.inj h).2
      obtain ⟨rfl, rfl⟩ := printMore_cut ds ds' hmore
      exact ⟨rfl, rfl⟩

theorem printMembers_cut : ∀ (ms ms' : List (Bytes × Document)) {rest rest' : Bytes},
    printMembers ms ++ 125 :: rest = printMembers ms' ++ 125 :: rest' → ms = ms' ∧ rest = rest'
  | [], [], rest, rest', h => ⟨rfl, (List.cons.inj h).2⟩
  | [], (key', d') :: ms', rest, rest', h => by cases h
  | (key, d) :: ms, [], rest, rest', h => by cases h
  | (key, d) :: ms, (key', d') :: ms', rest, rest', h => by
      simp only [printMembers, List.append_assoc, List.cons_append] at h
      obtain ⟨rfl, hvalue⟩ := quoted_cut h
      obtain ⟨rfl, hmore⟩ := print_cut d d' (ends_printMoreMembers ms rest)
        (ends_printMoreMembers ms' rest') (List.cons.inj hvalue).2
      obtain ⟨rfl, rfl⟩ := printMoreMembers_cut ms ms' hmore
      exact ⟨rfl, rfl⟩

theorem printMoreMembers_cut : ∀ (ms ms' : List (Bytes × Document)) {rest rest' : Bytes},
    printMoreMembers ms ++ 125 :: rest = printMoreMembers ms' ++ 125 :: rest' →
      ms = ms' ∧ rest = rest'
  | [], [], rest, rest', h => ⟨rfl, (List.cons.inj h).2⟩
  | [], (key', d') :: ms', rest, rest', h => by cases h
  | (key, d) :: ms, [], rest, rest', h => by cases h
  | (key, d) :: ms, (key', d') :: ms', rest, rest', h => by
      simp only [printMoreMembers, List.append_assoc, List.cons_append] at h
      obtain ⟨rfl, hvalue⟩ := quoted_cut (List.cons.inj h).2
      obtain ⟨rfl, hmore⟩ := print_cut d d' (ends_printMoreMembers ms rest)
        (ends_printMoreMembers ms' rest') (List.cons.inj hvalue).2
      obtain ⟨rfl, rfl⟩ := printMoreMembers_cut ms ms' hmore
      exact ⟨rfl, rfl⟩

end

theorem print_injective : Function.Injective print := fun d d' h =>
  (print_cut d d' ends_nil ends_nil (by rw [h])).1

/-! ## One line -/

/-- A byte that an escaper leaves as it is. -/
def Visible (text : Bytes) : Prop := ∀ c ∈ text, ¬ c < 32

instance (text : Bytes) : Decidable (Visible text) :=
  inferInstanceAs (Decidable (∀ c ∈ text, ¬ c < 32))

theorem visible_append {a b : Bytes} (ha : Visible a) (hb : Visible b) : Visible (a ++ b) := by
  intro c hc
  rcases List.mem_append.1 hc with hc | hc
  · exact ha c hc
  · exact hb c hc

theorem visible_cons {c : UInt8} {text : Bytes} (hc : ¬ c < 32) (h : Visible text) :
    Visible (c :: text) := by
  intro c' hc'
  rcases List.mem_cons.1 hc' with rfl | hc'
  · exact hc
  · exact h c' hc'

theorem visible_nil : Visible [] := nofun

theorem visible_hexDigit : ∀ n < 16, ¬ hexDigit n < 32 := by decide

theorem visible_escapeByte (c : UInt8) : Visible (escapeByte c) := by
  unfold escapeByte
  split
  · decide +kernel
  split
  · decide +kernel
  split
  · decide +kernel
  split
  · decide +kernel
  split
  · decide +kernel
  split
  · have hhigh := visible_hexDigit (c.toNat / 16) (by have := c.toNat_lt; omega)
    have hlow := visible_hexDigit (c.toNat % 16) (Nat.mod_lt _ (by decide +kernel))
    refine visible_append (by decide +kernel : Visible [92, 117, 48, 48]) ?_
    exact visible_cons hhigh (visible_cons hlow visible_nil)
  · rename_i hplain
    exact visible_cons hplain visible_nil

theorem visible_quoted (s : Bytes) : Visible (quoted s) := by
  refine visible_cons (by decide +kernel) (visible_append ?_ (by decide +kernel))
  intro c hc
  obtain ⟨b, -, hb⟩ := List.mem_flatMap.1 hc
  exact visible_escapeByte b c hb

theorem visible_decimalInt (n : Int) : Visible (decimalInt n) := by
  have hdecimal : Visible (decimal n.natAbs) := by
    intro c hc
    have hlow := (mem_decimal hc).1
    rw [UInt8.lt_iff_toNat_lt]
    exact Nat.not_lt.2 (Nat.le_trans (by decide +kernel) hlow)
  unfold decimalInt
  split
  · exact visible_cons (by decide +kernel) hdecimal
  · exact hdecimal

mutual

/-- A document is written without control bytes. -/
theorem visible_print : ∀ d : Document, Visible d.print
  | .text s => visible_quoted s
  | .number n => visible_decimalInt n
  | .flag true => by decide +kernel
  | .flag false => by decide +kernel
  | .array items =>
      visible_cons (by decide +kernel) (visible_append (visible_printItems items) (by decide +kernel))
  | .object members =>
      visible_cons (by decide +kernel) (visible_append (visible_printMembers members) (by decide +kernel))

theorem visible_printItems : ∀ ds : List Document, Visible (printItems ds)
  | [] => visible_nil
  | d :: ds => visible_append (visible_print d) (visible_printMore ds)

theorem visible_printMore : ∀ ds : List Document, Visible (printMore ds)
  | [] => visible_nil
  | d :: ds => visible_cons (by decide +kernel) (visible_append (visible_print d) (visible_printMore ds))

theorem visible_printMembers : ∀ ms : List (Bytes × Document), Visible (printMembers ms)
  | [] => visible_nil
  | (key, d) :: ms =>
      visible_append (visible_quoted key) (visible_cons (by decide +kernel)
        (visible_append (visible_print d) (visible_printMoreMembers ms)))

theorem visible_printMoreMembers : ∀ ms : List (Bytes × Document), Visible (printMoreMembers ms)
  | [] => visible_nil
  | (key, d) :: ms =>
      visible_cons (by decide +kernel) (visible_append (visible_quoted key) (visible_cons (by decide +kernel)
        (visible_append (visible_print d) (visible_printMoreMembers ms))))

end

end Document
end ControlProtocol
end ContextFS
