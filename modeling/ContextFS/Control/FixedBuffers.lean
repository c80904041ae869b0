import ContextFS.Daemon.BranchTable
import ContextFS.Runtime.Handlers

/-!
# Answers from buffers of fixed size

`branch.list` writes each branch, and `runtime.create` its whole answer, with `snprintf` into a
buffer on the stack, and what does not fit is cut.  The limit on the names of branches keeps every
line of `branch.list` whole; the id of a runtime has no such limit.
-/

namespace ContextFS
namespace ControlProtocol

open Std Lib Document

/-- `snprintf` into a buffer of that size, which has room for a terminator. -/
def snprintf (size : Nat) (text : Bytes) : Bytes := text.take (size - 1)

theorem snprintf_of_fits {size : Nat} {text : Bytes} (h : text.length < size) :
    snprintf size text = text :=
  List.take_of_length_le (by omega)

/-- An object and what follows it, read as any other document. -/
theorem object_cut {members : List (Bytes × Document)} {d : Document} {rest rest' : Bytes}
    (h : print (.object members) ++ rest = d.print ++ rest') : rest = rest' := by
  have hkind := kind_eq h
  cases d with
  | object members' =>
      simp only [print, List.cons_append, List.append_assoc, List.nil_append] at h
      exact (printMembers_cut members members' (List.cons.inj h).2).2
  | _ => cases hkind

/-- What is left of an object is a document only when nothing was cut. -/
theorem snprintf_object_iff (size : Nat) (members : List (Bytes × Document)) :
    (∃ d : Document, snprintf size (print (.object members)) = d.print) ↔
      (print (.object members)).length < size := by
  constructor
  · rintro ⟨d, hd⟩
    generalize htext : print (.object members) = text at hd ⊢
    have hsplit : print (.object members) ++ [] = d.print ++ text.drop (size - 1) := by
      rw [← hd, snprintf, List.take_append_drop, List.append_nil, htext]
    have hnothing := (object_cut hsplit).symm
    have hlength : text.length ≤ size - 1 := List.drop_eq_nil_iff.1 hnothing
    -- the text of a document is never empty, so a buffer without room holds none
    have hsize : size ≠ 0 := by
      rintro rfl
      obtain ⟨c, more, hc, -⟩ := print_head d
      rw [hc] at hd
      cases hd
    omega
  · intro h
    exact ⟨.object members, snprintf_of_fits h⟩

/-! ## `branch.list` -/

/-- What `branch.list` tells of a branch. -/
structure BranchRow where
  name : Bytes
  id : Nat
  commit : Hash

/-- The branches in the order of their ids, with the commits of their refs. -/
def branchRows (d : Daemon) : List BranchRow :=
  d.branches.toList.map fun b => {
    name := b.2.name
    id := b.1
    commit := (d.refs.readRef b.2.name).getD zeroHash }

/-- One line, behind a comma unless it is the first. -/
def rowText (first : Bool) (row : BranchRow) : Bytes :=
  snprintf 256 ((if first then [] else [44]) ++ (ascii "\x7b\"name\":\"" ++ (cString row.name ++
    (ascii "\",\"branch_id\":" ++ (decimal row.id ++ (ascii ",\"commit\":\"" ++
      (hashToHex row.commit ++ ascii "\"\x7d")))))))

/-- All lines. -/
def rowsText : List BranchRow → Bytes
  | [] => []
  | row :: rows => rowText true row ++ rows.flatMap (rowText false)

/-- The answer of `branch.list`. -/
def branchList (d : Daemon) : Bytes :=
  ascii "\x7b\"ok\":true,\"branches\":[" ++ (rowsText (branchRows d) ++ ascii "]\x7d")

/-- A line as a document. -/
def rowDocument (row : BranchRow) : Document :=
  .object [(ascii "name", .text row.name), (ascii "branch_id", .number row.id),
    (ascii "commit", .text (hashToHex row.commit))]

/-- The answer as a document. -/
def branchListDocument (rows : List BranchRow) : Document :=
  .object [(ascii "ok", .flag true), (ascii "branches", .array (rows.map rowDocument))]

/-- A byte that is written as it is. -/
def PlainByte (c : UInt8) : Prop := 45 ≤ c.toNat ∧ c.toNat ≠ 92

theorem PlainByte.of_range {c low high : UInt8} (hlow : low.toNat ≤ c.toNat)
    (hhigh : c.toNat ≤ high.toNat) (h : 45 ≤ low.toNat ∧ (high.toNat < 92 ∨ 92 < low.toNat)) :
    PlainByte c := by
  unfold PlainByte
  omega

theorem PlainByte.ne {c n : UInt8} (h : PlainByte c) (hn : n.toNat < 45 ∨ n.toNat = 92) : c ≠ n := by
  obtain ⟨hlow, hback⟩ := h
  rintro rfl
  omega

theorem PlainByte.escape {c : UInt8} (h : PlainByte c) : escapeByte c = [c] := by
  have hlow : ¬ c < 32 := by
    have hblank : (32 : UInt8).toNat = 32 := rfl
    have hle := h.1
    rw [UInt8.lt_iff_toNat_lt]
    omega
  unfold escapeByte
  rw [if_neg (h.ne (by decide)), if_neg (h.ne (by decide)), if_neg (h.ne (by decide)),
    if_neg (h.ne (by decide)), if_neg (h.ne (by decide)), if_neg hlow]

theorem jsonEscape_of_plain {s : Bytes} (h : ∀ c ∈ s, PlainByte c) : jsonEscape s = s := by
  unfold jsonEscape
  rw [List.flatMap_congr fun c hc => (h c hc).escape, List.flatMap_singleton']

theorem cString_of_plain {s : Bytes} (h : ∀ c ∈ s, PlainByte c) : cString s = s :=
  List.takeWhile_eq_self_iff.2 fun c hc => decide_eq_true ((h c hc).ne (by decide))

theorem plain_of_hexVal {c : UInt8} (h : (hexVal c).isSome = true) : PlainByte c := by
  unfold hexVal at h
  simp only [UInt8.le_iff_toNat_le] at h
  split at h
  · rename_i hc
    exact .of_range hc.1 hc.2 (by decide)
  split at h
  · rename_i hc
    exact .of_range hc.1 hc.2 (by decide)
  split at h
  · rename_i hc
    exact .of_range hc.1 hc.2 (by decide)
  · cases h

theorem jsonEscape_hashToHex (h : Hash) : jsonEscape (hashToHex h) = hashToHex h :=
  jsonEscape_of_plain fun c hc =>
    plain_of_hexVal (List.all_eq_true.1 (all_hexVal_bytesToHex h.bytes) c hc)

theorem plain_of_valid {name : Bytes} (h : isValidBranchName name = true) :
    (∀ c ∈ name, PlainByte c) ∧ name.length ≤ 64 := by
  unfold isValidBranchName at h
  simp only [Bool.and_eq_true, List.all_eq_true, Bool.or_eq_true, decide_eq_true_eq,
    UInt8.le_iff_toNat_le] at h
  refine ⟨fun c hc => ?_, h.1.1.2⟩
  rcases h.1.2 c hc with (((⟨hlow, hhigh⟩ | ⟨hlow, hhigh⟩) | ⟨hlow, hhigh⟩) | rfl) | rfl
  · exact .of_range hlow hhigh (by decide)
  · exact .of_range hlow hhigh (by decide)
  · exact .of_range hlow hhigh (by decide)
  · exact ⟨by decide, by decide⟩
  · exact ⟨by decide, by decide⟩

/-- The name of a branch is written as it is, whole, and is not long. -/
theorem branchName_plain {name : Bytes} (h : BranchName name) :
    (∀ c ∈ name, PlainByte c) ∧ name.length ≤ 64 := by
  rcases h with rfl | h
  · refine ⟨fun c hc => ?_, by decide⟩
    unfold Refs.mainName at hc
    simp only [List.mem_cons, List.not_mem_nil, or_false] at hc
    rcases hc with rfl | rfl | rfl | rfl <;> exact ⟨by decide, by decide⟩
  · exact plain_of_valid h

/-- No line is cut. -/
theorem rowText_eq (first : Bool) {row : BranchRow} (hname : BranchName row.name)
    (hid : row.id < 2 ^ 32) :
    rowText first row = (if first then [] else [44]) ++ (rowDocument row).print := by
  obtain ⟨hplain, hlength⟩ := branchName_plain hname
  have hescape := jsonEscape_of_plain hplain
  have hstring := cString_of_plain hplain
  have hdigits := length_decimal hid
  have hopen : ascii "\x7b\"name\":\"" = 123 :: (quoted (ascii "name") ++ [58, 34]) := by
    decide +kernel
  have hmiddle : ascii "\",\"branch_id\":" = 34 :: 44 :: (quoted (ascii "branch_id") ++ [58]) := by
    decide +kernel
  have hend : ascii ",\"commit\":\"" = 44 :: (quoted (ascii "commit") ++ [58, 34]) := by
    decide +kernel
  have hclose : ascii "\"\x7d" = [34, 125] := by decide +kernel
  have hcomma : (if first then ([] : Bytes) else [44]).length ≤ 1 := by
    cases first <;> decide
  have hfits : ((if first then [] else [44]) ++ (ascii "\x7b\"name\":\"" ++ (cString row.name ++
      (ascii "\",\"branch_id\":" ++ (decimal row.id ++ (ascii ",\"commit\":\"" ++
        (hashToHex row.commit ++ ascii "\"\x7d"))))))).length < 256 := by
    -- at most 1 + 9 + 64 + 14 + 10 + 11 + 64 + 2 bytes
    have hopen' : (ascii "\x7b\"name\":\"").length = 9 := by decide +kernel
    have hmiddle' : (ascii "\",\"branch_id\":").length = 14 := by decide +kernel
    have hend' : (ascii ",\"commit\":\"").length = 11 := by decide +kernel
    have hclose' : (ascii "\"\x7d").length = 2 := by decide +kernel
    rw [hstring]
    simp only [List.length_append, hopen', hmiddle', hend', hclose', length_hashToHex]
    omega
  rw [rowText, snprintf_of_fits hfits, hstring, hopen, hmiddle, hend, hclose]
  simp [rowDocument, print, Document.printMembers, printMoreMembers, quoted, hescape,
    jsonEscape_hashToHex, decimalInt_natCast]

/-- The lines are the items of an array. -/
theorem rowsText_eq {rows : List BranchRow} (h : ∀ row ∈ rows, BranchName row.name ∧ row.id < 2 ^ 32) :
    rowsText rows = printItems (rows.map rowDocument) := by
  have hmore : ∀ rows : List BranchRow, (∀ row ∈ rows, BranchName row.name ∧ row.id < 2 ^ 32) →
      rows.flatMap (rowText false) = printMore (rows.map rowDocument) := by
    intro rows hrows
    induction rows with
    | nil => rfl
    | cons row rows ih =>
        obtain ⟨hname, hid⟩ := hrows row List.mem_cons_self
        rw [List.flatMap_cons, rowText_eq false hname hid,
          ih fun row hrow => hrows row (List.mem_cons_of_mem _ hrow)]
        simp [printMore]
  cases rows with
  | nil => rfl
  | cons row rows =>
      obtain ⟨hname, hid⟩ := h row List.mem_cons_self
      rw [rowsText, rowText_eq true hname hid,
        hmore rows fun row hrow => h row (List.mem_cons_of_mem _ hrow)]
      simp [printItems]

theorem mem_branchRows {d : Daemon} {row : BranchRow} : row ∈ branchRows d ↔
    d.nameOf row.id = some row.name ∧ row.commit = (d.refs.readRef row.name).getD zeroHash := by
  unfold branchRows
  rw [List.mem_map]
  constructor
  · rintro ⟨⟨b, br⟩, hmem, rfl⟩
    exact ⟨Daemon.nameOf_of_branch (ExtTreeMap.mem_toList_iff_getElem?_eq_some.1 hmem), rfl⟩
  · rintro ⟨hname, hcommit⟩
    obtain ⟨br, hbr, hbrname⟩ := Option.map_eq_some_iff.1 hname
    refine ⟨(row.id, br), ExtTreeMap.mem_toList_iff_getElem?_eq_some.2 hbr, ?_⟩
    rw [show br.name = row.name from hbrname, ← hcommit]

theorem branchList_eq {d : Daemon} (h : d.TableOk) (hid : d.nextBranchId ≤ 2 ^ 32) :
    branchList d = (branchListDocument (branchRows d)).print := by
  have hrows : ∀ row ∈ branchRows d, BranchName row.name ∧ row.id < 2 ^ 32 := by
    intro row hrow
    have hname := (mem_branchRows.1 hrow).1
    exact ⟨h.names hname, (h.bounded hname).trans_le hid⟩
  have hopen : ascii "\x7b\"ok\":true,\"branches\":[" =
      123 :: (quoted (ascii "ok") ++ 58 :: (flagText true ++ 44 :: (quoted (ascii "branches") ++
        [58, 91]))) := by decide +kernel
  have hclose : ascii "]\x7d" = [93, 125] := by decide +kernel
  rw [branchList, rowsText_eq hrows, hopen, hclose]
  simp [branchListDocument, print, Document.printMembers, printMoreMembers]

theorem rowDocument_injective : Function.Injective rowDocument := by
  rintro ⟨name, id, commit⟩ ⟨name', id', commit'⟩ h
  simp only [rowDocument, Document.object.injEq, List.cons.injEq, Prod.mk.injEq, true_and, and_true,
    Document.text.injEq, Document.number.injEq, Nat.cast_inj] at h
  obtain ⟨rfl, rfl, hhex⟩ := h
  rw [hashToHex_inj hhex]

theorem branchListDocument_injective : Function.Injective branchListDocument := by
  intro rows rows' h
  simp only [branchListDocument, Document.object.injEq, List.cons.injEq, Prod.mk.injEq, true_and,
    and_true, Document.array.injEq] at h
  exact List.map_injective_iff.2 rowDocument_injective h

/-- No name is told twice. -/
theorem nodup_branchRows {d : Daemon} (h : d.TableOk) : ((branchRows d).map (·.name)).Nodup := by
  unfold branchRows
  rw [List.map_map, List.Nodup, List.pairwise_map]
  refine ExtTreeMap.distinct_keys_toList.imp_of_mem ?_
  intro a b ha hb hne heq
  -- two rows with one name would be one branch
  have hname : ∀ c ∈ d.branches.toList, d.nameOf c.1 = some c.2.name := fun c hc =>
    Daemon.nameOf_of_branch (ExtTreeMap.mem_toList_iff_getElem?_eq_some.1 hc)
  refine hne (Nat.compare_eq_eq.2 (h.distinct (hname a ha) ?_))
  rw [hname b hb]
  exact congrArg some heq.symm

section Tells

variable [Blake3]

/-- Whatever happened to the daemon, what `branch.list` answers is one document, and a client that
reads it knows every branch with its id and its commit: no line is cut, no branch is missing and no
name stands for two. -/
theorem branchList_tells {m : Mount} (h : Reaches Mount.Init (Restrict Mount.Step Mount.NamesChecked) m)
    (hid : m.daemon.nextBranchId ≤ 2 ^ 32) :
    (∀ rows, branchList m.daemon = (branchListDocument rows).print ↔ rows = branchRows m.daemon) ∧
      (∀ b name, m.daemon.nameOf b = some name ↔ ∃ commit, ⟨name, b, commit⟩ ∈ branchRows m.daemon) ∧
      ((branchRows m.daemon).map (·.name)).Nodup ∧ m.daemon.nameOf 0 = some Refs.mainName := by
  have hok := Mount.tableOk_of_reaches h
  have htext := branchList_eq hok hid
  refine ⟨fun rows => ⟨fun heq => ?_, ?_⟩, fun b name => ⟨fun hname => ?_, ?_⟩,
    nodup_branchRows hok, hok.main⟩
  · rw [htext] at heq
    exact (branchListDocument_injective (print_injective heq)).symm
  · rintro rfl
    exact htext
  · exact ⟨(m.daemon.refs.readRef name).getD zeroHash, mem_branchRows.2 ⟨hname, rfl⟩⟩
  · rintro ⟨commit, hmem⟩
    exact (mem_branchRows.1 hmem).1

end Tells

section TwoBranches

attribute [local instance] mountDigest

/-- `branch.list` behind a `branch.create`. -/
theorem branchList_tells_twoBranches : ∃ m : Mount, m.daemon.nameOf 1 = some [98] ∧
    ∀ rows, branchList m.daemon = (branchListDocument rows).print ↔ rows = branchRows m.daemon := by
  obtain ⟨m, hm, hinit⟩ := exists_freshMount
  have hmade : (freshMount.map fun m => m.apply (.createBranch [98] Refs.mainName)).any (fun m =>
      decide (m.daemon.nameOf 1 = some [98]) && decide (m.daemon.nextBranchId ≤ 2 ^ 32)) = true := by
    decide +kernel
  rw [hm, Option.map_some, Option.any_some, Bool.and_eq_true, decide_eq_true_eq,
    decide_eq_true_eq] at hmade
  have hvalid : isValidBranchName [98] = true := by decide
  have hstep : Restrict Mount.Step Mount.NamesChecked m (.createBranch [98] Refs.mainName)
      (m.apply (.createBranch [98] Refs.mainName)) := ⟨rfl, hvalid⟩
  exact ⟨_, hmade.1, (branchList_tells (.step (.start hinit) hstep) hmade.2).1⟩

end TwoBranches

/-! ## `runtime.create` -/

/-- The answer of `runtime.create`. -/
def createdText (rid : Bytes) : Bytes := snprintf 160 (Handler.createdDocument rid).print

/-- The answer of `runtime.create` is a document only for an id of at most 117 bytes, escaped. -/
theorem createdText_whole_iff (rid : Bytes) :
    (∃ d : Document, createdText rid = d.print) ↔ (jsonEscape rid).length ≤ 117 := by
  have hlength : (Handler.createdDocument rid).print.length = 42 + (jsonEscape rid).length := by
    have hok : (quoted (ascii "ok")).length = 4 := by decide +kernel
    have hid : (quoted (ascii "runtime_id")).length = 12 := by decide +kernel
    have hgeneration : (quoted (ascii "generation")).length = 12 := by decide +kernel
    have hflag : (flagText true).length = 4 := by decide +kernel
    have hone : (decimalInt 1).length = 1 := by decide +kernel
    have hrid : (quoted rid).length = (jsonEscape rid).length + 2 := by simp [quoted]
    simp only [Handler.createdDocument, Handler.okDocument, List.map_cons, List.map_nil, print,
      Document.printMembers, printMoreMembers, List.length_cons, List.length_append,
      List.length_nil, hok, hid, hgeneration, hflag, hone, hrid]
    omega
  unfold createdText Handler.createdDocument Handler.okDocument at *
  rw [snprintf_object_iff, hlength]
  omega

end ControlProtocol
end ContextFS
