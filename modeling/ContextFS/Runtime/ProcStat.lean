import ContextFS.Control.Strtol

/-!
# The parent of a process

The daemon learns the parent of a process from `/proc/<pid>/stat`.  The line has the name of the
process in parentheses and the parent behind them, and the name can be any bytes, parentheses,
blanks and newlines among them.
-/

namespace ContextFS

/-- The greatest `pid_t`. -/
def pidMax : Int := 2147483647

/-- What the kernel knows of a process.  `name` is what the process calls itself. -/
structure Process where
  name : Bytes
  state : UInt8
  parent : Int
  group : Int
  fields : List Int
  name_length : name.length ≤ 64
  name_text : 0 ∉ name
  state_letter : 65 ≤ state.toNat
  parent_range : 0 ≤ parent ∧ parent ≤ pidMax
  group_range : 0 ≤ group ∧ group ≤ pidMax

namespace Process

/-- The process under another name. -/
def rename (p : Process) (name : Bytes) (hlength : name.length ≤ 64) (htext : 0 ∉ name) : Process :=
  { p with
    name := name
    name_length := hlength
    name_text := htext }

/-- What stands behind the parent. -/
def moreFields (p : Process) : Bytes := p.fields.flatMap (fun n => 32 :: decimalInt n) ++ [10]

/-- `/proc/<pid>/stat`: `pid (name) state parent …`. -/
def statText (pid : Int) (p : Process) : Bytes :=
  decimalInt pid ++ [32, 40] ++ p.name ++ 41 :: 32 :: p.state :: 32 :: (decimalInt p.parent ++ p.moreFields)

end Process

/-! ## `parent_for_pid` -/

/-- `fgets` into a buffer of that size: up to the first newline, and one byte less than fits. -/
def fgets (size : Nat) (text : Bytes) : Bytes :=
  let taken := text.take (size - 1)
  taken.takeWhile (· ≠ 10) ++ (taken.dropWhile (· ≠ 10)).take 1

/-- The text up to its terminator. -/
def cString (buf : Bytes) : Bytes := buf.takeWhile (· ≠ 0)

/-- What stands behind the last `c`: `strrchr`. -/
def afterLast (c : UInt8) (text : Bytes) : Option Bytes :=
  if c ∈ text then some (text.reverse.takeWhile (· ≠ c)).reverse else none

/-- The parent that `parent_for_pid` reads in the text of the file. -/
def parentFromStat (text : Bytes) : Option Int :=
  if text = [] then none
  else
    match afterLast 41 (cString (fgets 4096 text)) with
    | none => none
    | some rest =>
        -- `" %c %ld"`
        match rest.dropWhile isSpace with
        | [] => none
        | _ :: more => strtol more

/-! ## What it reads -/

theorem afterLast_append (c : UInt8) (front : Bytes) {back : Bytes} (h : c ∉ back) :
    afterLast c (front ++ c :: back) = some back := by
  have hmem : c ∈ front ++ c :: back := by simp
  have hall : ∀ b ∈ back.reverse, decide (b ≠ c) = true := by
    intro b hb
    simp only [ne_eq, decide_not, Bool.not_eq_true', decide_eq_false_iff_not]
    rintro rfl
    exact h (List.mem_reverse.1 hb)
  unfold afterLast
  rw [if_pos hmem, List.reverse_append, List.reverse_cons, List.append_assoc,
    List.takeWhile_append_of_pos hall]
  simp

theorem mem_of_mem_fgets {size : Nat} {text : Bytes} {c : UInt8} (h : c ∈ fgets size text) :
    c ∈ text := by
  unfold fgets at h
  rcases List.mem_append.1 h with h | h
  · exact List.mem_of_mem_take ((List.takeWhile_sublist _).subset h)
  · exact List.mem_of_mem_take ((List.dropWhile_sublist _).subset (List.mem_of_mem_take h))

/-- What stands in front of the first newline is taken whole, if it fits. -/
theorem fgets_append {size : Nat} {front : Bytes} (back : Bytes) (h : 10 ∉ front)
    (hfits : front.length < size) :
    fgets size (front ++ back) = front ++ fgets (size - front.length) back := by
  have hall : ∀ b ∈ front, decide (b ≠ 10) = true := by
    intro b hb
    simp only [ne_eq, decide_not, Bool.not_eq_true', decide_eq_false_iff_not]
    rintro rfl
    exact h hb
  unfold fgets
  have htake : (front ++ back).take (size - 1) = front ++ back.take (size - front.length - 1) := by
    rw [List.take_append, List.take_of_length_le (by omega)]
    congr 2
    omega
  simp only [htake]
  rw [List.takeWhile_append_of_pos hall, List.dropWhile_append_of_pos hall, List.append_assoc]

theorem fgets_newline (size : Nat) (back : Bytes) : 41 ∉ fgets size (10 :: back) := by
  unfold fgets
  cases size - 1 with
  | zero => simp
  | succ n => simp

/-- A first byte that is no newline and no terminator is kept. -/
theorem head_kept {size : Nat} (hsize : 1 < size) {c : UInt8} (back : Bytes) (hc : c ≠ 0) :
    (cString (fgets size (c :: back))).head? = some c := by
  obtain ⟨n, hn⟩ : ∃ n, size - 1 = n + 1 := ⟨size - 2, by omega⟩
  unfold cString fgets
  rw [hn]
  by_cases hten : c = 10
  · subst hten
    simp
  · simp [hten, hc]

/-- A `)`, blanks, a state letter, blanks and a number: the number is read when no other `)`
follows in the part that is looked at. -/
theorem parentFromStat_of_parts {front blanks blanks' : Bytes} {state c : UInt8} {q : Int}
    {back : Bytes} (hlong : InLong q)
    (hclean : ∀ b ∈ front ++ 41 :: (blanks ++ state :: (blanks' ++ decimalInt q)), b ≠ 10 ∧ b ≠ 0)
    (hblanks : ∀ b ∈ blanks, isSpace b = true) (hblanks' : ∀ b ∈ blanks', isSpace b = true)
    (hstate : isSpace state = false)
    (hlast : ∀ b ∈ blanks ++ state :: (blanks' ++ decimalInt q), b ≠ 41)
    (hfits : (front ++ 41 :: (blanks ++ state :: (blanks' ++ decimalInt q))).length < 4095)
    (hc : c ≠ 0) (hdigit : isDigit c = false)
    (hback : ∀ size, 41 ∉ fgets size (c :: back)) :
    parentFromStat (front ++ 41 :: (blanks ++ state :: (blanks' ++ decimalInt q)) ++ c :: back) =
      some q := by
  set inner := blanks ++ state :: (blanks' ++ decimalInt q) with hinner
  set kept := cString (fgets (4096 - (front ++ 41 :: inner).length) (c :: back)) with hkept
  have hread : cString (fgets 4096 (front ++ 41 :: inner ++ c :: back)) =
      front ++ 41 :: (inner ++ kept) := by
    rw [fgets_append _ (fun h => (hclean 10 h).1 rfl) (by omega)]
    unfold cString
    rw [List.takeWhile_append_of_pos (fun b hb => decide_eq_true (hclean b hb).2)]
    simp [hkept, cString]
  have hlast' : 41 ∉ inner ++ kept := by
    intro h
    rcases List.mem_append.1 h with h | h
    · exact hlast 41 h rfl
    · exact hback _ ((List.takeWhile_sublist _).subset h)
  have hend : ∀ b, kept.head? = some b → isDigit b = false := by
    intro b hb
    rw [hkept, head_kept (by omega) back hc] at hb
    cases hb
    exact hdigit
  have hskip : (inner ++ kept).dropWhile isSpace = state :: (blanks' ++ (decimalInt q ++ kept)) := by
    rw [hinner, List.append_assoc, List.dropWhile_append_of_pos hblanks]
    simp [hstate]
  have hvalue : strtolValue (blanks' ++ (decimalInt q ++ kept)) = some q := by
    rw [← strtolValue_decimalInt q hend]
    unfold strtolValue
    rw [List.dropWhile_append_of_pos hblanks']
  have hne : front ++ 41 :: inner ++ c :: back ≠ [] := by simp
  unfold parentFromStat
  rw [if_neg hne, hread, afterLast_append 41 front hlast']
  simp only [hskip]
  unfold strtol
  rw [hvalue, Option.map_some, min_eq_left hlong.2, max_eq_right hlong.1]

/-! ## The name of the process -/

theorem mem_decimalInt {n : Int} {b : UInt8} (h : b ∈ decimalInt n) :
    b = 45 ∨ isDigit b = true := by
  unfold decimalInt at h
  split at h
  · rcases List.mem_cons.1 h with rfl | h
    · exact Or.inl rfl
    · exact Or.inr (decimal_digits _ b h)
  · exact Or.inr (decimal_digits _ b h)

/-- No byte of a number is a newline, a terminator or a parenthesis. -/
theorem decimalInt_plain {n : Int} {b : UInt8} (h : b ∈ decimalInt n) :
    b ≠ 10 ∧ b ≠ 0 ∧ b ≠ 41 := by
  rcases mem_decimalInt h with rfl | hdigit
  · decide
  · refine ⟨?_, ?_, ?_⟩ <;>
      · rintro rfl
        cases hdigit

theorem length_decimalInt {n : Int} (h : 0 ≤ n ∧ n ≤ pidMax) : (decimalInt n).length ≤ 10 := by
  have hlt : n.natAbs < 2 ^ 32 := by
    have hmax : n ≤ 2147483647 := h.2
    omega
  unfold decimalInt
  rw [if_neg (by omega)]
  exact length_decimal hlt

theorem inLong_of_pid {n : Int} (h : 0 ≤ n ∧ n ≤ pidMax) : InLong n := by
  obtain ⟨hlow, hhigh⟩ := h
  simp only [pidMax] at hhigh
  simp only [InLong, longMin, longMax]
  omega

namespace Process

variable (p : Process)

theorem isSpace_state : isSpace p.state = false := by
  have h := p.state_letter
  simp only [isSpace, Bool.or_eq_false_iff, beq_eq_false_iff_ne, Bool.and_eq_false_iff,
    decide_eq_false_iff_not, UInt8.le_iff_toNat_le, ne_eq]
  refine ⟨?_, Or.inr ?_⟩
  · intro hspace
    rw [hspace] at h
    exact absurd h (by decide)
  · intro hle
    have hnine : (13 : UInt8).toNat = 13 := rfl
    omega

theorem state_plain : p.state ≠ 10 ∧ p.state ≠ 0 ∧ p.state ≠ 41 := by
  have h := p.state_letter
  refine ⟨?_, ?_, ?_⟩ <;>
    · intro heq
      rw [heq] at h
      exact absurd h (by decide)

/-- What follows the parent begins with a blank or the newline, and has no parenthesis. -/
theorem moreFields_spec : ∃ c back, p.moreFields = c :: back ∧ c ≠ 0 ∧ isDigit c = false ∧
    41 ∉ c :: back := by
  have hno : 41 ∉ p.moreFields := by
    intro h
    unfold moreFields at h
    rcases List.mem_append.1 h with h | h
    · obtain ⟨n, -, hn⟩ := List.mem_flatMap.1 h
      rcases List.mem_cons.1 hn with hn | hn
      · cases hn
      · exact (decimalInt_plain hn).2.2 rfl
    · cases List.mem_singleton.1 h
  unfold moreFields at hno ⊢
  cases hfields : p.fields with
  | nil => exact ⟨10, [], rfl, by decide, by decide, by decide⟩
  | cons n ns =>
      rw [hfields] at hno
      exact ⟨32, _, rfl, by decide, by decide, hno⟩

/-- Whatever parentheses and blanks a name has, without a newline it does not mislead. -/
theorem parentFromStat_statText {pid : Int} (hpid : 0 ≤ pid ∧ pid ≤ pidMax) (h : 10 ∉ p.name) :
    parentFromStat (statText pid p) = some p.parent := by
  obtain ⟨c, back, hmore, hc, hdigit, hno⟩ := p.moreFields_spec
  have hshape : statText pid p = (decimalInt pid ++ [32, 40] ++ p.name) ++
      41 :: ([32] ++ p.state :: ([32] ++ decimalInt p.parent)) ++ c :: back := by
    unfold statText
    rw [hmore]
    simp
  have hpidlen := length_decimalInt hpid
  have hparlen := length_decimalInt p.parent_range
  have hnamelen := p.name_length
  obtain ⟨hten, hzero, hpar⟩ := p.state_plain
  rw [hshape]
  refine parentFromStat_of_parts (inLong_of_pid p.parent_range) ?_ (by simp [isSpace])
    (by simp [isSpace]) p.isSpace_state ?_ ?_ hc hdigit (fun _ hm => hno (mem_of_mem_fgets hm))
  · intro b hb
    have hname : b ∈ p.name → b ≠ 10 ∧ b ≠ 0 :=
      fun hm => ⟨fun heq => h (heq ▸ hm), fun heq => p.name_text (heq ▸ hm)⟩
    simp only [List.mem_append, List.mem_cons, List.not_mem_nil, or_false] at hb
    rcases hb with ((hb | rfl | rfl) | hb) | rfl | rfl | rfl | rfl | hb
    · exact ⟨(decimalInt_plain hb).1, (decimalInt_plain hb).2.1⟩
    · decide
    · decide
    · exact hname hb
    · decide
    · decide
    · exact ⟨hten, hzero⟩
    · decide
    · exact ⟨(decimalInt_plain hb).1, (decimalInt_plain hb).2.1⟩
  · intro b hb
    simp only [List.mem_append, List.mem_cons, List.not_mem_nil, or_false] at hb
    rcases hb with rfl | rfl | rfl | hb
    · decide
    · exact hpar
    · decide
    · exact (decimalInt_plain hb).2.2
  · simp only [List.length_append, List.length_cons, List.length_nil]
    omega

/-- A name that reads as the end of a name, a state, a parent and the end of the line. -/
def misleadingName (q : Int) : Bytes := 41 :: 82 :: (decimalInt q ++ [10])

theorem length_misleadingName {q : Int} (hq : 0 ≤ q ∧ q ≤ pidMax) :
    (misleadingName q).length ≤ 15 := by
  have hlen := length_decimalInt hq
  unfold misleadingName
  simp only [List.length_append, List.length_cons, List.length_nil]
  omega

theorem misleadingName_text (q : Int) : 0 ∉ misleadingName q := by
  unfold misleadingName
  simp only [List.mem_cons, List.mem_append, List.not_mem_nil, or_false, not_or]
  exact ⟨by decide, by decide, fun h => (decimalInt_plain h).2.1 rfl, by decide⟩

theorem parentFromStat_misleading {pid q : Int} (hpid : 0 ≤ pid ∧ pid ≤ pidMax)
    (hq : 0 ≤ q ∧ q ≤ pidMax) (hname : p.name = misleadingName q) :
    parentFromStat (statText pid p) = some q := by
  have hshape : statText pid p = (decimalInt pid ++ [32, 40]) ++
      41 :: ([] ++ 82 :: ([] ++ decimalInt q)) ++
        10 :: (41 :: 32 :: p.state :: 32 :: (decimalInt p.parent ++ p.moreFields)) := by
    unfold statText
    rw [hname, misleadingName]
    simp
  have hpidlen := length_decimalInt hpid
  have hqlen := length_decimalInt hq
  rw [hshape]
  refine parentFromStat_of_parts (inLong_of_pid hq) ?_ (by simp) (by simp) (by decide) ?_ ?_
    (by decide) (by decide) (fun size => fgets_newline size _)
  · intro b hb
    simp only [List.mem_append, List.mem_cons, List.not_mem_nil, or_false, false_or] at hb
    rcases hb with (hb | rfl | rfl) | rfl | rfl | hb
    · exact ⟨(decimalInt_plain hb).1, (decimalInt_plain hb).2.1⟩
    · decide
    · decide
    · decide
    · decide
    · exact ⟨(decimalInt_plain hb).1, (decimalInt_plain hb).2.1⟩
  · intro b hb
    simp only [List.nil_append, List.mem_cons] at hb
    rcases hb with rfl | hb
    · decide
    · exact (decimalInt_plain hb).2.2
  · simp only [List.nil_append, List.length_append, List.length_cons, List.length_nil]
    omega

end Process

/-- The parent is read right for every process whose name has no newline; and a process can choose
a name, short enough for the kernel to keep it, with which it passes for a child of whomever it
likes. -/
theorem parentForPid_of_name {pid : Int} (hpid : 0 ≤ pid ∧ pid ≤ pidMax) (p : Process) :
    (10 ∉ p.name → parentFromStat (Process.statText pid p) = some p.parent) ∧
      ∀ q, 0 ≤ q ∧ q ≤ pidMax → ∃ name hlength htext, name.length ≤ 15 ∧
        parentFromStat (Process.statText pid (p.rename name hlength htext)) = some q := by
  refine ⟨p.parentFromStat_statText hpid, ?_⟩
  intro q hq
  have hlength := Process.length_misleadingName hq
  refine ⟨Process.misleadingName q, hlength.trans (by decide), Process.misleadingName_text q,
    hlength, ?_⟩
  exact Process.parentFromStat_misleading _ hpid hq rfl

/-- A process of the name `) R 1`, which looks like the rest of a line. -/
def bracketedProcess : Process where
  name := [41, 32, 82, 32, 49]
  state := 82
  parent := 7
  group := 8
  fields := [8, 8, 0, -1]
  name_length := by decide
  name_text := by decide
  state_letter := by decide
  parent_range := by decide
  group_range := by decide

theorem parentForPid_of_name_bracketed :
    parentFromStat (Process.statText 9 bracketedProcess) = some 7 ∧
      ∃ name hlength htext, name.length ≤ 15 ∧
        parentFromStat (Process.statText 9 (bracketedProcess.rename name hlength htext)) = some 5 :=
  ⟨(parentForPid_of_name (by decide) bracketedProcess).1 (by decide),
    (parentForPid_of_name (by decide) bracketedProcess).2 5 (by decide)⟩

end ContextFS
