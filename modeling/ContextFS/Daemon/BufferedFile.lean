import ContextFS.Daemon.WriteBuffer
import ContextFS.Lib.PosixFile

/-!
# What a write buffer shows

The extents of a write buffer are in order, with a gap between each two, and end at the effective
size.  So a position is covered by at most one extent, and what a write or a truncate does to the
extents can be said position by position.  A truncate leaves the base alone: base bytes behind
the new size come back when the file grows again.
-/

namespace ContextFS

open Lib

/-- The last extent that covers a position decides. -/
def overlayAt (es : List Extent) (pos : Nat) : Option UInt8 :=
  match es with
  | [] => none
  | e :: rest =>
      (overlayAt rest pos).or
        (if e.1 ≤ pos ∧ pos < extentEnd e then some (byteAt e.2 (pos - e.1)) else none)

/-- No extent is empty, and there is a gap behind every extent. -/
def Spaced (es : List Extent) : Prop :=
  es.Pairwise (fun e e' => extentEnd e < e'.1) ∧ ∀ e ∈ es, e.2 ≠ []

theorem overlayAt_append (es es' : List Extent) (pos : Nat) :
    overlayAt (es ++ es') pos = (overlayAt es' pos).or (overlayAt es pos) := by
  induction es with
  | nil => simp [overlayAt]
  | cons e es ih => rw [List.cons_append, overlayAt, ih, Option.or_assoc, overlayAt]

theorem overlayAt_eq_none {es : List Extent} {pos : Nat}
    (h : ∀ e ∈ es, pos < e.1 ∨ extentEnd e ≤ pos) : overlayAt es pos = none := by
  induction es with
  | nil => rfl
  | cons e es ih =>
      have he := h e List.mem_cons_self
      rw [overlayAt, ih fun e' he' => h e' (List.mem_cons_of_mem _ he'), if_neg (by omega)]
      rfl

theorem overlayAt_singleton (start : Nat) (data : Bytes) (pos : Nat) :
    overlayAt [(start, data)] pos =
      if start ≤ pos ∧ pos < start + data.length then some (byteAt data (pos - start)) else none := by
  simp [overlayAt]

theorem readByte_eq (b : WriteBuffer) (base : Bytes) (pos : Nat) :
    b.readByte base pos = (overlayAt b.overlay pos).getD (byteAt base pos) := by
  unfold WriteBuffer.readByte
  generalize b.overlay = es
  have hfold : ∀ byte : UInt8, es.foldl (fun byte e => if e.1 ≤ pos ∧ pos < extentEnd e
      then e.2.getD (pos - e.1) 0 else byte) byte = (overlayAt es pos).getD byte := by
    induction es with
    | nil => exact fun byte => rfl
    | cons e es ih =>
        intro byte
        rw [List.foldl_cons, ih, overlayAt]
        cases overlayAt es pos with
        | some v => rfl
        | none =>
            simp only [Option.none_or, Option.getD_none]
            split <;> rfl
  exact hfold _

/-! ## Copies into a buffer -/

theorem length_copyInto {buf data : Bytes} {pos : Nat} (h : pos + data.length ≤ buf.length) :
    (copyInto buf pos data).length = buf.length := by
  simp only [copyInto, List.length_append, List.length_take, List.length_drop]
  omega

theorem byteAt_copyInto {buf data : Bytes} {pos : Nat} (h : pos + data.length ≤ buf.length)
    (i : Nat) : byteAt (copyInto buf pos data) i =
      if pos ≤ i ∧ i < pos + data.length then byteAt data (i - pos) else byteAt buf i := by
  simp only [copyInto, byteAt_append, byteAt_take, byteAt_drop, List.length_append,
    List.length_take]
  have hlen : min pos buf.length = pos := by omega
  rw [hlen]
  by_cases hbefore : i < pos
  · rw [if_pos (by omega), if_pos hbefore, if_pos hbefore, if_neg (by omega)]
  · by_cases hin : i < pos + data.length
    · rw [if_pos hin, if_neg hbefore, if_pos ⟨by omega, hin⟩]
    · have hi : pos + data.length + (i - (pos + data.length)) = i := by omega
      rw [if_neg hin, hi, if_neg (by omega)]

/-- Extents copied into a buffer that starts at offset `start` and has room for them. -/
theorem copyExtents_spec (start : Nat) (es : List Extent) (buf : Bytes)
    (h : ∀ e ∈ es, start ≤ e.1 ∧ extentEnd e ≤ start + buf.length) :
    (es.foldl (fun buf e => copyInto buf (e.1 - start) e.2) buf).length = buf.length ∧
      ∀ i, byteAt (es.foldl (fun buf e => copyInto buf (e.1 - start) e.2) buf) i =
        (overlayAt es (start + i)).getD (byteAt buf i) := by
  induction es generalizing buf with
  | nil => exact ⟨rfl, fun i => rfl⟩
  | cons e es ih =>
      obtain ⟨hstart, hend⟩ := h e List.mem_cons_self
      have hroom : e.1 - start + e.2.length ≤ buf.length := by
        change e.1 + e.2.length ≤ start + buf.length at hend
        omega
      have hlen := length_copyInto hroom
      obtain ⟨hlen', hbyte⟩ := ih (copyInto buf (e.1 - start) e.2) fun e' he' => by
        rw [hlen]
        exact h e' (List.mem_cons_of_mem _ he')
      rw [List.foldl_cons]
      refine ⟨hlen'.trans hlen, fun i => ?_⟩
      rw [hbyte, byteAt_copyInto hroom, overlayAt]
      cases overlayAt es (start + i) with
      | some v => rfl
      | none =>
          simp only [Option.none_or, Option.getD_none]
          by_cases hin : e.1 - start ≤ i ∧ i < e.1 - start + e.2.length
          · have hpos : start + i - e.1 = i - (e.1 - start) := by omega
            rw [if_pos hin, if_pos ⟨by omega, show start + i < e.1 + e.2.length by omega⟩,
              Option.getD_some, hpos]
          · rw [if_neg hin, if_neg (fun hc : e.1 ≤ start + i ∧ start + i < e.1 + e.2.length =>
              hin ⟨by omega, by omega⟩), Option.getD_none]

/-! ## The extents a write touches -/

theorem collectTouching_spec {es : List Extent} (h : Spaced es) (mergeEnd : Nat) :
    let r := WriteBuffer.collectTouching mergeEnd es
    es = r.1 ++ r.2.1 ∧ mergeEnd ≤ r.2.2 ∧ (∀ e ∈ r.1, extentEnd e ≤ r.2.2) ∧
      (∀ e ∈ r.2.1, r.2.2 < e.1) ∧
      (∀ pos, mergeEnd ≤ pos → pos < r.2.2 → ∃ e ∈ r.1, e.1 ≤ pos ∧ pos < extentEnd e) ∧
      (r.2.2 = mergeEnd ∨ ∃ e ∈ r.1, r.2.2 = extentEnd e) := by
  induction es generalizing mergeEnd with
  | nil =>
      refine ⟨rfl, Nat.le_refl _, fun _ h => (by cases h), fun _ h => (by cases h), ?_, Or.inl rfl⟩
      intro pos hle hlt
      exact absurd hlt (by change ¬ pos < mergeEnd; omega)
  | cons e es ih =>
      have hes : Spaced es := ⟨(List.pairwise_cons.1 h.1).2, fun e' he' => h.2 e' (by simp [he'])⟩
      have hgap := (List.pairwise_cons.1 h.1).1
      unfold WriteBuffer.collectTouching
      by_cases hlt : mergeEnd < e.1
      · rw [if_pos hlt]
        refine ⟨rfl, Nat.le_refl _, fun _ h => (by cases h), ?_, ?_, Or.inl rfl⟩
        · intro e' he'
          show mergeEnd < e'.1
          rcases List.mem_cons.1 he' with rfl | he'
          · exact hlt
          · have := hgap e' he'
            change e.1 + e.2.length < e'.1 at this
            omega
        · intro pos hle hlt
          exact absurd hlt (by change ¬ pos < mergeEnd; omega)
      · rw [if_neg hlt]
        obtain ⟨heq, hle, hends, hrest, hcov, hend⟩ := ih hes (max mergeEnd (extentEnd e))
        generalize WriteBuffer.collectTouching (max mergeEnd (extentEnd e)) es = r at *
        refine ⟨by rw [heq]; rfl, by change mergeEnd ≤ r.2.2; omega, ?_, hrest, ?_, ?_⟩
        · intro e' he'
          show extentEnd e' ≤ r.2.2
          rcases List.mem_cons.1 he' with rfl | he'
          · omega
          · exact hends e' he'
        · intro pos hle' hlt'
          by_cases hin : pos < extentEnd e
          · exact ⟨e, List.mem_cons_self, by omega, hin⟩
          · obtain ⟨e', he', hcov'⟩ := hcov pos (by omega) hlt'
            exact ⟨e', List.mem_cons_of_mem _ he', hcov'⟩
        · show r.2.2 = mergeEnd ∨ ∃ e' ∈ e :: r.1, r.2.2 = extentEnd e'
          rcases hend with hend | ⟨e', he', hend⟩
          · by_cases hmax : mergeEnd ≤ extentEnd e
            · exact Or.inr ⟨e, List.mem_cons_self, by omega⟩
            · exact Or.inl (by omega)
          · exact Or.inr ⟨e', List.mem_cons_of_mem _ he', hend⟩

/-- The extents before a write, split at what the write touches. -/
structure TouchSplit (es : List Extent) (offset newEnd : Nat) (before touched rest : List Extent)
    (start mergeEnd : Nat) : Prop where
  overlay : es = before ++ (touched ++ rest)
  before_lt : ∀ e ∈ before, extentEnd e < start
  start_le : start ≤ offset
  end_le : newEnd ≤ mergeEnd
  touched_in : ∀ e ∈ touched, start ≤ e.1 ∧ extentEnd e ≤ mergeEnd
  rest_gt : ∀ e ∈ rest, mergeEnd < e.1
  covered : ∀ pos, start ≤ pos → pos < mergeEnd → pos < offset ∨ newEnd ≤ pos →
    ∃ e ∈ touched, e.1 ≤ pos ∧ pos < extentEnd e
  end_eq : mergeEnd = newEnd ∨ ∃ e ∈ touched, mergeEnd = extentEnd e

/-- Starts increase, so behind the first extent that starts too far all do. -/
theorem not_of_mem_dropWhile {P : Nat → Prop} [DecidablePred P] (hP : ∀ m n, m ≤ n → P n → P m)
    {es : List Extent} (h : Spaced es) : ∀ e ∈ es.dropWhile fun e => decide (P e.1), ¬ P e.1 := by
  have hhead := List.head?_dropWhile_not (fun e : Extent => decide (P e.1)) es
  have hpair : (es.dropWhile fun e => decide (P e.1)).Pairwise fun e e' => extentEnd e < e'.1 :=
    h.1.sublist (List.dropWhile_sublist _)
  generalize es.dropWhile (fun e => decide (P e.1)) = behind at hhead hpair
  cases behind with
  | nil => exact fun _ h => (by cases h)
  | cons e rest =>
      have he : ¬ P e.1 := by simpa using hhead
      intro e' he'
      rcases List.mem_cons.1 he' with rfl | he'
      · exact he
      · have hlt := (List.pairwise_cons.1 hpair).1 e' he'
        have hle : e.1 ≤ e'.1 := by
          change e.1 + e.2.length < e'.1 at hlt
          omega
        exact fun hP' => he (hP _ _ hle hP')

theorem splitAt_spec {es : List Extent} (h : Spaced es) (offset : Nat) :
    let r := WriteBuffer.splitAt es offset
    es = r.1 ++ r.2 ∧ (∀ e ∈ r.1, extentEnd e < offset) ∧ ∀ e ∈ r.2, offset ≤ extentEnd e := by
  have hsplit := List.takeWhile_append_dropWhile (p := fun e : Extent => decide (e.1 ≤ offset))
    (l := es)
  have hbefore : ∀ e ∈ es.takeWhile fun e => decide (e.1 ≤ offset), e.1 ≤ offset := by
    intro e he
    simpa using List.mem_takeWhile_imp he
  have hpair := h.1
  rw [← hsplit] at hpair
  have hbehind : ∀ e ∈ es.dropWhile fun e => decide (e.1 ≤ offset), offset ≤ extentEnd e := by
    intro e he
    have hlt := not_of_mem_dropWhile (P := fun n => n ≤ offset) (fun _ _ => Nat.le_trans) h e he
    show offset ≤ e.1 + e.2.length
    omega
  have hbefore' := (List.pairwise_append.1 hpair).1
  unfold WriteBuffer.splitAt
  simp only
  generalize es.takeWhile (fun e => decide (e.1 ≤ offset)) = before at *
  generalize es.dropWhile (fun e => decide (e.1 ≤ offset)) = behind at *
  rcases List.eq_nil_or_concat before with rfl | ⟨init, prev, rfl⟩
  · exact ⟨hsplit.symm, fun _ h => (by cases h), hbehind⟩
  · rw [List.concat_eq_append] at *
    have hinit : ∀ e ∈ init, extentEnd e < offset := by
      intro e he
      have hlt := (List.pairwise_append.1 hbefore').2.2 e he prev (by simp)
      have hle := hbefore prev (by simp)
      omega
    simp only [List.getLast?_append, List.getLast?_singleton, Option.some_or]
    split
    · rename_i hend
      refine ⟨hsplit.symm, fun e he => ?_, hbehind⟩
      rcases List.mem_append.1 he with he | he
      · exact hinit e he
      · rw [List.mem_singleton.1 he]
        exact hend
    · rename_i hend
      rw [List.dropLast_concat]
      refine ⟨by rw [← hsplit]; simp, hinit, fun e he => ?_⟩
      rcases List.mem_cons.1 he with rfl | he
      · omega
      · exact hbehind e he

/-- How `write` splits the extents. -/
theorem touchSplit_of_spaced {es : List Extent} (h : Spaced es) {offset newEnd : Nat}
    (hlt : offset < newEnd) {split : List Extent × List Extent}
    (hsplit : WriteBuffer.splitAt es offset = split) {r : List Extent × List Extent × Nat}
    (hr : WriteBuffer.collectTouching newEnd split.2 = r) :
    TouchSplit es offset newEnd split.1 r.1 r.2.1 (WriteBuffer.mergeStart offset split.2) r.2.2 := by
  obtain ⟨heq, hbefore, hbehind⟩ := hsplit ▸ splitAt_spec h offset
  have hpair := h.1
  rw [heq] at hpair
  obtain ⟨-, hsorted, hcross⟩ := List.pairwise_append.1 hpair
  have hspaced : Spaced split.2 := ⟨hsorted, fun e he => h.2 e (by rw [heq]; simp [he])⟩
  -- the merge starts at the first extent behind, if that begins before the offset
  have hstart : ∀ e ∈ split.2, WriteBuffer.mergeStart offset split.2 ≤ e.1 := by
    cases hs : split.2 with
    | nil => exact fun _ h => (by cases h)
    | cons first rest =>
        intro e he
        show min offset first.1 ≤ e.1
        rcases List.mem_cons.1 he with rfl | he
        · omega
        · have hgap := (List.pairwise_cons.1 (hs ▸ hsorted)).1 e he
          change first.1 + first.2.length < e.1 at hgap
          omega
  obtain ⟨hrest, hle, hends, hgt, hcov, hend⟩ := hr ▸ collectTouching_spec hspaced newEnd
  exact {
    overlay := heq.trans (by rw [← hrest])
    before_lt := by
      intro e he
      have hoff := hbefore e he
      cases hs : split.2 with
      | nil => exact hoff
      | cons first rest =>
          have hfirst := hcross e he first (by rw [hs]; simp)
          show extentEnd e < min offset first.1
          omega
    start_le := by
      cases split.2 with
      | nil => exact Nat.le_refl _
      | cons first rest => exact Nat.min_le_left _ _
    end_le := hle
    touched_in := fun e he => ⟨hstart e (by rw [hrest]; simp [he]), hends e he⟩
    rest_gt := hgt
    covered := by
      intro pos hs he hout
      rcases hout with hlow | hhigh
      · -- below the offset it is the first extent that reaches it
        cases hsplit : split.2 with
        | nil =>
            rw [hsplit] at hs
            exact absurd hs (by change ¬ offset ≤ pos; omega)
        | cons first rest =>
            rw [hsplit] at hs
            change min offset first.1 ≤ pos at hs
            have hreach := hbehind first (by rw [hsplit]; simp)
            have hmem : first ∈ r.1 := by
              rw [← hr, hsplit, WriteBuffer.collectTouching, if_neg (by omega)]
              exact List.mem_cons_self
            exact ⟨first, hmem, by omega, by omega⟩
      · exact hcov pos hhigh he
    end_eq := hend }

section Merged

variable {es before touched rest : List Extent} {offset start mergeEnd : Nat} {data : Bytes}

theorem mergedExtent_spec
    (h : TouchSplit es offset (offset + data.length) before touched rest start mergeEnd) :
    (WriteBuffer.mergedExtent offset data start mergeEnd touched).length = mergeEnd - start ∧
      ∀ pos, start ≤ pos → byteAt (WriteBuffer.mergedExtent offset data start mergeEnd touched)
        (pos - start) = if offset ≤ pos ∧ pos < offset + data.length then byteAt data (pos - offset)
          else (overlayAt touched pos).getD 0 := by
  have hstart := h.start_le
  have hend := h.end_le
  obtain ⟨hlen, hbyte⟩ := copyExtents_spec start touched
    (List.replicate (mergeEnd - start) 0) fun e he => by
      have hin := h.touched_in e he
      rw [List.length_replicate]
      exact ⟨hin.1, by omega⟩
  rw [List.length_replicate] at hlen
  have hroom : offset - start + data.length ≤ (touched.foldl
      (fun buf e => copyInto buf (e.1 - start) e.2) (List.replicate (mergeEnd - start) 0)).length := by
    omega
  refine ⟨(length_copyInto hroom).trans hlen, fun pos hpos => ?_⟩
  have hsum : start + (pos - start) = pos := by omega
  rw [WriteBuffer.mergedExtent, byteAt_copyInto hroom, hbyte, byteAt_replicate, hsum]
  by_cases hin : offset ≤ pos ∧ pos < offset + data.length
  · have hsub : pos - start - (offset - start) = pos - offset := by omega
    rw [if_pos hin, if_pos ⟨by omega, by omega⟩, hsub]
  · rw [if_neg hin, if_neg fun hc => hin ⟨by omega, by omega⟩]

theorem overlayAt_isSome {pos : Nat} (h : ∃ e ∈ es, e.1 ≤ pos ∧ pos < extentEnd e) :
    overlayAt es pos ≠ none := by
  induction es with
  | nil =>
      obtain ⟨e, he, -⟩ := h
      cases he
  | cons e' es ih =>
      obtain ⟨e, he, hcov⟩ := h
      rw [overlayAt]
      rcases List.mem_cons.1 he with rfl | he
      · rw [if_pos hcov]
        simp
      · have hrest := ih ⟨e, he, hcov⟩
        cases hv : overlayAt es pos with
        | none => exact absurd hv hrest
        | some v => simp

/-- After a write its data shows, and what showed elsewhere. -/
theorem overlayAt_merged
    (h : TouchSplit es offset (offset + data.length) before touched rest start mergeEnd)
    (pos : Nat) : overlayAt (before ++ (start,
      WriteBuffer.mergedExtent offset data start mergeEnd touched) :: rest) pos =
      if offset ≤ pos ∧ pos < offset + data.length then some (byteAt data (pos - offset))
      else overlayAt es pos := by
  obtain ⟨hlen, hbyte⟩ := mergedExtent_spec h
  have hstart := h.start_le
  have hend := h.end_le
  have hcons : (start, WriteBuffer.mergedExtent offset data start mergeEnd touched) :: rest =
      [(start, WriteBuffer.mergedExtent offset data start mergeEnd touched)] ++ rest := rfl
  rw [hcons, overlayAt_append, overlayAt_append, overlayAt_singleton, hlen, h.overlay,
    overlayAt_append, overlayAt_append]
  by_cases hin : start ≤ pos ∧ pos < mergeEnd
  · have hrest : overlayAt rest pos = none := overlayAt_eq_none fun e he => by
      have := h.rest_gt e he
      omega
    have hbefore : overlayAt before pos = none := overlayAt_eq_none fun e he => by
      have := h.before_lt e he
      omega
    rw [hrest, hbefore, if_pos ⟨hin.1, by omega⟩, hbyte pos hin.1]
    by_cases hdata : offset ≤ pos ∧ pos < offset + data.length
    · rw [if_pos hdata, if_pos hdata]
      rfl
    · -- the merged range has no gaps: what the data does not cover, a touched extent does
      have hcov := overlayAt_isSome (h.covered pos hin.1 hin.2 (by omega))
      rw [if_neg hdata, if_neg hdata]
      cases hv : overlayAt touched pos with
      | none => exact absurd hv hcov
      | some v => rfl
  · have htouched : overlayAt touched pos = none := overlayAt_eq_none fun e he => by
      have := h.touched_in e he
      omega
    rw [htouched, if_neg fun hc => hin ⟨hc.1, by omega⟩, if_neg fun hc => hin ⟨by omega, by omega⟩,
      Option.or_none]

theorem extentEnd_merged
    (h : TouchSplit es offset (offset + data.length) before touched rest start mergeEnd) :
    extentEnd (start, WriteBuffer.mergedExtent offset data start mergeEnd touched) = mergeEnd := by
  have hstart := h.start_le
  have hend := h.end_le
  rw [extentEnd, (mergedExtent_spec h).1]
  omega

theorem spaced_merged (hes : Spaced es) (hdata : 0 < data.length)
    (h : TouchSplit es offset (offset + data.length) before touched rest start mergeEnd) :
    Spaced (before ++ (start, WriteBuffer.mergedExtent offset data start mergeEnd touched) ::
      rest) := by
  have hlen := (mergedExtent_spec h).1
  have hstart := h.start_le
  have hend := h.end_le
  have hpair := hes.1
  rw [h.overlay] at hpair
  obtain ⟨hbefore, hbehind, hcross⟩ := List.pairwise_append.1 hpair
  refine ⟨List.pairwise_append.2 ⟨hbefore, List.pairwise_cons.2 ⟨fun e he => ?_,
    (List.pairwise_append.1 hbehind).2.1⟩, fun e he e' he' => ?_⟩, fun e he => ?_⟩
  · rw [extentEnd_merged h]
    exact h.rest_gt e he
  · rcases List.mem_cons.1 he' with rfl | he'
    · exact h.before_lt e he
    · exact hcross e he e' (by simp [he'])
  · rcases List.mem_append.1 he with he | he
    · exact hes.2 e (by rw [h.overlay]; simp [he])
    rcases List.mem_cons.1 he with rfl | he
    · refine List.ne_nil_of_length_pos ?_
      show 0 < (WriteBuffer.mergedExtent offset data start mergeEnd touched).length
      omega
    · exact hes.2 e (by rw [h.overlay]; simp [he])

theorem ends_merged
    (h : TouchSplit es offset (offset + data.length) before touched rest start mergeEnd) (n : Nat) :
    (∀ e ∈ before ++ (start, WriteBuffer.mergedExtent offset data start mergeEnd touched) :: rest,
      extentEnd e ≤ n) ↔ offset + data.length ≤ n ∧ ∀ e ∈ es, extentEnd e ≤ n := by
  have hend := h.end_le
  simp only [h.overlay, List.forall_mem_append, List.forall_mem_cons, extentEnd_merged h]
  constructor
  · rintro ⟨hbefore, hle, hrest⟩
    exact ⟨by omega, hbefore, fun e he => (h.touched_in e he).2.trans hle, hrest⟩
  · rintro ⟨hle, hbefore, htouched, hrest⟩
    refine ⟨hbefore, ?_, hrest⟩
    rcases h.end_eq with heq | ⟨e, he, heq⟩
    · omega
    · rw [heq]
      exact htouched e he

end Merged

theorem overlaySize_le {es : List Extent} (h : Spaced es) (base n : Nat) :
    WriteBuffer.overlaySize es base ≤ n ↔ base ≤ n ∧ ∀ e ∈ es, extentEnd e ≤ n := by
  unfold WriteBuffer.overlaySize
  rcases List.eq_nil_or_concat es with rfl | ⟨init, last, rfl⟩
  · simp
  · rw [List.concat_eq_append] at *
    have hinit : ∀ e ∈ init, extentEnd e ≤ extentEnd last := by
      intro e he
      have hlt := (List.pairwise_append.1 h.1).2.2 e he last (by simp)
      exact hlt.le.trans (Nat.le_add_right _ _)
    simp only [List.getLast?_append, List.getLast?_singleton, Option.some_or,
      List.forall_mem_append, List.forall_mem_singleton]
    constructor
    · intro hle
      exact ⟨by omega, fun e he => (hinit e he).trans (by omega), by omega⟩
    · rintro ⟨hbase, -, hlast⟩
      omega

namespace WriteBuffer

/-! ## Writes and truncates -/

/-- The extents are spaced and end at the explicit size. -/
structure Sound (b : WriteBuffer) : Prop where
  spaced : Spaced b.overlay
  bounded : ∀ n, b.sizeOverride = some n → ∀ e ∈ b.overlay, extentEnd e ≤ n

variable {b : WriteBuffer}

theorem Sound.end_le (h : b.Sound) (baseSize : Nat) :
    ∀ e ∈ b.overlay, extentEnd e ≤ b.effectiveSize baseSize := by
  unfold effectiveSize
  cases hs : b.sizeOverride with
  | none => exact ((overlaySize_le h.spaced baseSize _).1 (Nat.le_refl _)).2
  | some n => exact h.bounded n hs

/-- The size before an explicit one is set by the write. -/
theorem effectiveSize_written (h : b.Sound) {overlay : List Extent} (hspaced : Spaced overlay)
    {newEnd : Nat} (hends : ∀ n, (∀ e ∈ overlay, extentEnd e ≤ n) ↔
      newEnd ≤ n ∧ ∀ e ∈ b.overlay, extentEnd e ≤ n) (dirtyBytes : Nat) :
    max (effectiveSize { b with overlay := overlay, dirtyBytes := dirtyBytes } b.baseSize) newEnd =
      max (b.effectiveSize b.baseSize) newEnd := by
  unfold effectiveSize
  cases b.sizeOverride with
  | some n => rfl
  | none =>
      simp only [Option.getD_none]
      refine eq_of_forall_ge_iff fun n => ?_
      rw [Nat.max_le, Nat.max_le, overlaySize_le hspaced, overlaySize_le h.spaced, hends]
      tauto

/-- What a write does, position by position. -/
theorem write_spec (h : b.Sound) (offset : Nat) (data : Bytes) :
    (b.write offset data).Sound ∧ (b.write offset data).baseSize = b.baseSize ∧
      (b.write offset data).effectiveSize b.baseSize =
        (if data.length = 0 then b.effectiveSize b.baseSize
          else max (b.effectiveSize b.baseSize) (offset + data.length)) ∧
      ∀ pos, overlayAt (b.write offset data).overlay pos =
        if offset ≤ pos ∧ pos < offset + data.length then some (byteAt data (pos - offset))
        else overlayAt b.overlay pos := by
  unfold write
  split
  · rename_i hlen
    refine ⟨h, rfl, rfl, fun pos => ?_⟩
    rw [if_neg (by omega)]
  rename_i hlen
  simp only
  have hsplit := touchSplit_of_spaced h.spaced
    (show offset < offset + data.length by omega) rfl rfl
  have hspaced := spaced_merged h.spaced (by omega) hsplit
  have hends := ends_merged hsplit
  have hover := overlayAt_merged hsplit
  generalize (splitAt b.overlay offset).1 ++ _ :: _ = overlay at *
  generalize b.dirtyBytes - extentBytes _ + _ = dirtyBytes
  have hsize := effectiveSize_written h hspaced hends dirtyBytes
  split
  · rename_i hlt
    have hmax : offset + data.length = max (b.effectiveSize b.baseSize) (offset + data.length) := by
      omega
    refine ⟨⟨hspaced, fun n hn => ?_⟩, rfl, hmax, hover⟩
    obtain rfl : offset + data.length = n := Option.some.inj hn
    refine (hends _).2 ⟨Nat.le_refl _, fun e he => ?_⟩
    have hend := h.end_le b.baseSize e he
    omega
  · rename_i hge
    refine ⟨⟨hspaced, fun n hn => ?_⟩, rfl, by omega, hover⟩
    have hn' : b.sizeOverride = some n := hn
    refine (hends n).2 ⟨?_, h.bounded n hn'⟩
    simp only [effectiveSize, hn', Option.getD_some] at hge
    omega

/-- Extents that show what was there below the new size, and nothing behind it. -/
theorem truncated (newSize : Nat) {overlay : List Extent} (hspaced : Spaced overlay)
    (hends : ∀ e ∈ overlay, extentEnd e ≤ newSize)
    (hbelow : ∀ pos, pos < newSize → overlayAt b.overlay pos = overlayAt overlay pos)
    (dirtyBytes : Nat) :
    Sound { b with overlay := overlay, sizeOverride := some newSize, dirtyBytes := dirtyBytes } ∧
      ∀ pos, overlayAt overlay pos = if pos < newSize then overlayAt b.overlay pos else none := by
  refine ⟨⟨hspaced, fun n hn => Option.some.inj hn ▸ hends⟩, fun pos => ?_⟩
  split
  · rename_i hpos
    exact (hbelow pos hpos).symm
  · rename_i hpos
    exact overlayAt_eq_none fun e he => Or.inr ((hends e he).trans (Nat.le_of_not_lt hpos))

/-- A truncate leaves the bytes below the new size. -/
theorem truncate_spec (h : b.Sound) (newSize : Nat) :
    (b.truncate newSize).Sound ∧ (b.truncate newSize).baseSize = b.baseSize ∧
      (b.truncate newSize).sizeOverride = some newSize ∧
      ∀ pos, overlayAt (b.truncate newSize).overlay pos =
        if pos < newSize then overlayAt b.overlay pos else none := by
  have hsplit := List.takeWhile_append_dropWhile (p := fun e : Extent => decide (e.1 < newSize))
    (l := b.overlay)
  have hkept : ∀ e ∈ b.overlay.takeWhile fun e => decide (e.1 < newSize), e.1 < newSize := by
    intro e he
    simpa using List.mem_takeWhile_imp he
  have herased := not_of_mem_dropWhile (P := fun n => n < newSize)
    (fun _ _ => Nat.lt_of_le_of_lt) h.spaced
  have hspaced : Spaced (b.overlay.takeWhile fun e => decide (e.1 < newSize)) :=
    ⟨h.spaced.1.sublist (List.takeWhile_sublist _),
      fun e he => h.spaced.2 e ((List.takeWhile_sublist _).subset he)⟩
  -- below the new size only the kept extents count
  have hbelow : ∀ pos, pos < newSize → overlayAt b.overlay pos =
      overlayAt (b.overlay.takeWhile fun e => decide (e.1 < newSize)) pos := by
    intro pos hpos
    conv_lhs => rw [← hsplit]
    rw [overlayAt_append, overlayAt_eq_none fun e he => Or.inl (by have := herased e he; omega),
      Option.none_or]
  unfold truncate
  simp only
  generalize b.overlay.takeWhile (fun e => decide (e.1 < newSize)) = kept at *
  generalize b.overlay.dropWhile (fun e => decide (e.1 < newSize)) = erased at *
  -- only the last kept extent may reach past the new size
  rcases List.eq_nil_or_concat kept with rfl | ⟨init, last, rfl⟩
  · obtain ⟨hsound, hover⟩ := truncated newSize hspaced (fun _ he => (by cases he)) hbelow
      (b.dirtyBytes - extentBytes erased)
    exact ⟨hsound, rfl, rfl, hover⟩
  rw [List.concat_eq_append] at *
  obtain ⟨hinit, -, hcross⟩ := List.pairwise_append.1 hspaced.1
  have hlast := hkept last (by simp)
  have hends : ∀ e ∈ init, extentEnd e ≤ newSize := by
    intro e he
    have hlt := hcross e he last (by simp)
    omega
  simp only [List.getLast?_append, List.getLast?_singleton, Option.some_or, List.dropLast_concat]
  split
  · rename_i hcut
    change newSize < last.1 + last.2.length at hcut
    have hlen : (last.2.take (newSize - last.1)).length = newSize - last.1 := by
      rw [List.length_take]
      omega
    -- the cut extent shows the same below the new size
    have hsame : ∀ pos, pos < newSize → overlayAt [last] pos =
        overlayAt [(last.1, last.2.take (newSize - last.1))] pos := by
      intro pos hpos
      rw [overlayAt_singleton, overlayAt_singleton, hlen, byteAt_take]
      by_cases hin : last.1 ≤ pos
      · rw [if_pos ⟨hin, by omega⟩, if_pos ⟨hin, by omega⟩, if_pos (by omega)]
      · rw [if_neg fun hc => hin hc.1, if_neg fun hc => hin hc.1]
    have hspaced' : Spaced (init ++ [(last.1, last.2.take (newSize - last.1))]) := by
      refine ⟨List.pairwise_append.2 ⟨hinit, List.pairwise_singleton _ _, ?_⟩, ?_⟩
      · intro e he e' he'
        rw [List.mem_singleton.1 he']
        exact hcross e he last (by simp)
      · intro e he
        rcases List.mem_append.1 he with he | he
        · exact hspaced.2 e (by simp [he])
        · rw [List.mem_singleton.1 he]
          exact List.ne_nil_of_length_pos (by rw [hlen]; omega)
    have hends' : ∀ e ∈ init ++ [(last.1, last.2.take (newSize - last.1))],
        extentEnd e ≤ newSize := by
      intro e he
      rcases List.mem_append.1 he with he | he
      · exact hends e he
      · rw [List.mem_singleton.1 he, extentEnd, hlen]
        omega
    obtain ⟨hsound, hover⟩ := truncated newSize hspaced' hends' (fun pos hpos => by
      rw [hbelow pos hpos, overlayAt_append, hsame pos hpos, overlayAt_append])
      (b.dirtyBytes - extentBytes erased - last.2.length +
        (last.2.take (newSize - last.1)).length)
    exact ⟨hsound, rfl, rfl, hover⟩
  -- it ends below it
  · rename_i hfits
    have hends' : ∀ e ∈ init ++ [last], extentEnd e ≤ newSize := by
      intro e he
      rcases List.mem_append.1 he with he | he
      · exact hends e he
      · rw [List.mem_singleton.1 he]
        omega
    obtain ⟨hsound, hover⟩ := truncated newSize hspaced hends' hbelow
      (b.dirtyBytes - extentBytes erased)
    exact ⟨hsound, rfl, rfl, hover⟩

/-! ## The three readers -/

/-- Extents copied into a buffer of `eff` bytes, cut off at its end. -/
theorem copyClipped_spec {eff : Nat} (es : List Extent) (buf : Bytes) (hlen : buf.length = eff) :
    (es.foldl (fun buf e => copyInto buf e.1 (e.2.take (eff - e.1))) buf).length = eff ∧
      ∀ pos < eff, byteAt (es.foldl (fun buf e => copyInto buf e.1 (e.2.take (eff - e.1))) buf) pos =
        (overlayAt es pos).getD (byteAt buf pos) := by
  induction es generalizing buf with
  | nil => exact ⟨hlen, fun _ _ => rfl⟩
  | cons e es ih =>
      have hclip : (e.2.take (eff - e.1)).length = min (eff - e.1) e.2.length := List.length_take
      have hstep : (copyInto buf e.1 (e.2.take (eff - e.1))).length = eff ∧ ∀ pos < eff,
          byteAt (copyInto buf e.1 (e.2.take (eff - e.1))) pos =
            if e.1 ≤ pos ∧ pos < extentEnd e then byteAt e.2 (pos - e.1) else byteAt buf pos := by
        by_cases hin : e.1 ≤ eff
        · have hroom : e.1 + (e.2.take (eff - e.1)).length ≤ buf.length := by omega
          refine ⟨(length_copyInto hroom).trans hlen, fun pos hpos => ?_⟩
          rw [byteAt_copyInto hroom, byteAt_take, hclip]
          by_cases hcover : e.1 ≤ pos ∧ pos < e.1 + e.2.length
          · rw [if_pos (by omega), if_pos (by omega), if_pos hcover]
          · rw [if_neg (by omega), if_neg hcover]
        · -- the extent lies behind the end
          have hsame : copyInto buf e.1 (e.2.take (eff - e.1)) = buf := by
            rw [show eff - e.1 = 0 by omega, List.take_zero]
            simp [copyInto]
          rw [hsame]
          exact ⟨hlen, fun pos hpos => (if_neg (by omega)).symm⟩
      obtain ⟨hlen', hbyte⟩ := ih _ hstep.1
      refine ⟨hlen', fun pos hpos => ?_⟩
      rw [List.foldl_cons, hbyte pos hpos, hstep.2 pos hpos, overlayAt]
      cases overlayAt es pos with
      | some v => rfl
      | none =>
          simp only [Option.none_or, Option.getD_none]
          split <;> rfl

theorem materialize_spec (b : WriteBuffer) (base : Bytes) :
    (b.materialize base).length = b.effectiveSize base.length ∧
      ∀ pos < b.effectiveSize base.length,
        byteAt (b.materialize base) pos = b.readByte base pos := by
  unfold materialize
  simp only
  generalize b.effectiveSize base.length = eff
  show (b.overlay.foldl _ (resize base eff)).length = eff ∧
    ∀ pos < eff, byteAt (b.overlay.foldl _ (resize base eff)) pos = _
  obtain ⟨hlen, hbyte⟩ := copyClipped_spec b.overlay (resize base eff) (length_resize base eff)
  refine ⟨hlen, fun pos hpos => ?_⟩
  rw [hbyte pos hpos, byteAt_resize, if_pos hpos, readByte_eq]

/-- Two bases show the same through the buffer: they give the same size, and they have the same
bytes wherever no extent covers them. -/
def SameThrough (b : WriteBuffer) (base base' : Bytes) : Prop :=
  b.effectiveSize base.length = b.effectiveSize base'.length ∧
    ∀ pos < b.effectiveSize base.length, overlayAt b.overlay pos = none →
      byteAt base pos = byteAt base' pos

theorem materialize_eq_iff (b : WriteBuffer) (base base' : Bytes) :
    b.materialize base = b.materialize base' ↔ b.SameThrough base base' := by
  obtain ⟨hlen, hbyte⟩ := b.materialize_spec base
  obtain ⟨hlen', hbyte'⟩ := b.materialize_spec base'
  constructor
  · intro h
    have hsize : b.effectiveSize base.length = b.effectiveSize base'.length := by
      rw [← hlen, ← hlen', h]
    refine ⟨hsize, fun pos hpos hnone => ?_⟩
    have hat := hbyte pos hpos
    rw [h, hbyte' pos (hsize ▸ hpos), readByte_eq, readByte_eq, hnone] at hat
    exact hat.symm
  · rintro ⟨hsize, hsame⟩
    refine ext_byteAt (by rw [hlen, hlen', hsize]) fun pos hpos => ?_
    rw [hlen] at hpos
    rw [hbyte pos hpos, hbyte' pos (hsize ▸ hpos), readByte_eq, readByte_eq]
    cases hat : overlayAt b.overlay pos with
    | some v => rfl
    | none => exact hsame pos hpos hat

theorem read_spec (b : WriteBuffer) (base : Bytes) (offset size : Nat) :
    (b.read offset size base).length = min size (b.effectiveSize base.length - offset) ∧
      ∀ pos < min size (b.effectiveSize base.length - offset),
        byteAt (b.read offset size base) pos = b.readByte base (offset + pos) := by
  unfold read
  simp only
  split
  · rename_i hle
    have hzero : b.effectiveSize base.length - offset = 0 := by omega
    rw [hzero, Nat.min_zero]
    exact ⟨rfl, fun pos hpos => absurd hpos (Nat.not_lt_zero pos)⟩
  · refine ⟨by simp, fun pos hpos => ?_⟩
    rw [byteAt_of_lt (by simpa using hpos)]
    simp

/-! ## The refinement -/

/-- An operation on the buffer. -/
def onBuffer (b : WriteBuffer) : FileOp UInt8 → WriteBuffer
  | .write offset data => b.write offset data
  | .truncate size => b.truncate size

/-- A buffer over `base` after some operations. -/
def bufferAfter (ops : List (FileOp UInt8)) (base : Bytes) : WriteBuffer :=
  ops.foldl onBuffer { baseSize := base.length }

/-- The buffer has the size of the array and, apart from base bytes that a truncate has cut off,
its bytes. -/
structure Tracks (base : Bytes) (b : WriteBuffer) (f : Bytes) (cut : Nat → Bool) : Prop where
  sound : b.Sound
  baseSize : b.baseSize = base.length
  size : b.effectiveSize base.length = f.length
  bytes : ∀ pos, byteAt f pos =
    (overlayAt b.overlay pos).getD (if cut pos then 0 else byteAt base pos)
  uncovered : ∀ pos, cut pos = true → overlayAt b.overlay pos = none

theorem Tracks.step {base f : Bytes} {cut : Nat → Bool} (h : Tracks base b f cut)
    (op : FileOp UInt8) :
    Tracks base (b.onBuffer op) (op.onFile f) fun pos => op.cuts pos (cut pos) := by
  cases op with
  | write offset data =>
      obtain ⟨hsound, hbase, hsize, hover⟩ := write_spec h.sound offset data
      rw [h.baseSize] at hbase hsize
      refine ⟨hsound, hbase, ?_, fun pos => ?_, fun pos hcut => ?_⟩
      · show (b.write offset data).effectiveSize _ = (writeAt f offset data).length
        rw [hsize, length_writeAt, h.size]
      · show byteAt (writeAt f offset data) pos =
          (overlayAt (b.write offset data).overlay pos).getD _
        rw [byteAt_writeAt, hover]
        split
        · rfl
        · rename_i hout
          rw [h.bytes pos]
          simp only [FileOp.cuts_write, hout, not_false_eq_true, and_true]
      · obtain ⟨hcut, hout⟩ := FileOp.cuts_write.1 hcut
        show overlayAt (b.write offset data).overlay pos = none
        rw [hover, if_neg hout, h.uncovered pos hcut]
  | truncate size =>
      obtain ⟨hsound, hbase, hsize, hover⟩ := truncate_spec h.sound size
      refine ⟨hsound, hbase.trans h.baseSize, ?_, fun pos => ?_, fun pos hcut => ?_⟩
      · show (b.truncate size).effectiveSize _ = (resize f size).length
        rw [effectiveSize, hsize, length_resize, Option.getD_some]
      · show byteAt (resize f size) pos = (overlayAt (b.truncate size).overlay pos).getD _
        rw [byteAt_resize, hover]
        simp only [FileOp.cuts_truncate]
        split
        · rename_i hlt
          simp only [h.bytes pos, Nat.not_le.2 hlt, or_false]
        · rename_i hge
          rw [if_pos (Or.inr (Nat.le_of_not_lt hge)), Option.getD_none]
      · show overlayAt (b.truncate size).overlay pos = none
        rw [hover]
        split
        · rename_i hlt
          exact h.uncovered pos ((FileOp.cuts_truncate.1 hcut).resolve_right (Nat.not_le.2 hlt))
        · rfl

theorem Tracks.steps {base : Bytes} (ops : List (FileOp UInt8)) {b : WriteBuffer} {f : Bytes}
    {cut : Nat → Bool} (h : Tracks base b f cut) :
    Tracks base (ops.foldl onBuffer b) (fileAfter ops f)
      fun pos => ops.foldl (FileOp.cuts pos) (cut pos) := by
  induction ops generalizing b f cut with
  | nil => exact h
  | cons op ops ih => exact ih (h.step op)

theorem tracks_bufferAfter (ops : List (FileOp UInt8)) (base : Bytes) :
    Tracks base (bufferAfter ops base) (fileAfter ops base) (cutAt ops) :=
  .steps ops {
    sound := ⟨⟨List.Pairwise.nil, fun _ he => (by cases he)⟩, fun _ hn => (by cases hn)⟩
    baseSize := rfl
    size := rfl
    bytes := fun _ => rfl
    uncovered := fun _ _ => rfl }

/-- The buffer is the file it stands for: all three readers agree with the array. -/
structure Refines (b : WriteBuffer) (base f : Bytes) : Prop where
  materialize : b.materialize base = f
  size : b.effectiveSize base.length = f.length
  read : ∀ offset size, b.read offset size base = readAt f offset size

/-- A buffer is the file it stands for exactly when no base byte that a truncate has cut off, and
nothing has overwritten since, lies below the size again, zero bytes apart. -/
theorem refines_iff (ops : List (FileOp UInt8)) (base : Bytes) :
    (bufferAfter ops base).Refines base (fileAfter ops base) ↔
      ∀ pos < (fileAfter ops base).length, cutAt ops pos = true → byteAt base pos = 0 := by
  have h := tracks_bufferAfter ops base
  generalize bufferAfter ops base = b at *
  generalize fileAfter ops base = f at *
  generalize cutAt ops = cut at *
  obtain ⟨hlen, hbyte⟩ := b.materialize_spec base
  constructor
  · intro href pos hpos hcut
    have hread : byteAt f pos = b.readByte base pos := by
      rw [← hbyte pos (by rw [h.size]; exact hpos), href.materialize]
    rw [h.bytes, readByte_eq, h.uncovered pos hcut, if_pos hcut] at hread
    exact hread.symm
  · intro hzero
    have hread : ∀ pos < f.length, b.readByte base pos = byteAt f pos := by
      intro pos hpos
      rw [h.bytes, readByte_eq]
      cases hcut : cut pos with
      | false => rfl
      | true => rw [hzero pos hpos hcut, if_pos rfl]
    refine ⟨ext_byteAt (hlen.trans h.size) fun pos hpos => ?_, h.size, fun offset size => ?_⟩
    · rw [hlen] at hpos
      rw [hbyte pos hpos, hread pos (by rw [← h.size]; exact hpos)]
    · obtain ⟨hrlen, hrbyte⟩ := read_spec b base offset size
      rw [h.size] at hrlen hrbyte
      refine ext_byteAt (hrlen.trans (length_readAt f offset size).symm) fun pos hpos => ?_
      rw [hrlen] at hpos
      rw [hrbyte pos hpos, hread _ (by omega), byteAt_readAt, if_pos (by omega)]

/-- Cut to one byte and extended by a write, a file shows two of its old bytes. -/
theorem not_refines_cut : ¬ (bufferAfter [.truncate 1, .write 3 [9]] [1, 2, 3, 4]).Refines
    [1, 2, 3, 4] (fileAfter [.truncate 1, .write 3 [9]] [1, 2, 3, 4]) := by
  intro h
  exact absurd h.materialize (by decide)

end WriteBuffer
end ContextFS
