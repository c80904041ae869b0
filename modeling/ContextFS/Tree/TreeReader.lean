import ContextFS.Store.CommitReader
import ContextFS.Tree.TreeObject

/-!
# Which bytes the tree decoder reads

`deserialize_tree_entries` with the log of its copies and its positions in `size_t`.  No record
moves the position by more than `2 ^ 17`, so the sums never wrap and every copy is behind a
check that covers it.  With the commit decoder next to it, this is where both codecs are stated:
what the decoders read of arbitrary bytes, and that encoder and decoder undo each other.
-/

namespace ContextFS

open Std Lib Traced

/-- The loop of `deserialize_tree_entries`, copy by copy. -/
def deserializeEntriesTraced (body : Bytes) : Nat → Nat → Decoder (List DirEntry)
  | 0, _ => pure []
  | count + 1, pos => do
      if body.length < addSize pos 2 then
        stop .rejected
      else
        let nameLen := decodeLe (← loadBlock body pos 2)
        let pos := addSize pos 2
        if body.length < addSize (addSize (addSize (addSize pos nameLen) 4) 1) 32 then
          stop .rejected
        else
          let name ← loadBlock body pos nameLen
          let pos := addSize pos nameLen
          let mode ← loadBlock body pos 4
          let pos := addSize pos 4
          let kind ← loadBlock body pos 1
          let pos := addSize pos 1
          let hash ← loadBlock body pos 32
          let pos := addSize pos 32
          let rest ← deserializeEntriesTraced body count pos
          pure ((name, ⟨EntryKind.ofByte (kind.headD 0), Hash.ofBytes hash,
            UInt32.ofNat (decodeLe mode)⟩) :: rest)

/-- `deserialize_tree_entries`, copy by copy. -/
def deserializeTreeEntriesTraced (body : Bytes) : Decoder (List DirEntry) := do
  if body.length < 4 then
    stop .rejected
  else
    let count := decodeLe (← loadBlock body 0 4)
    deserializeEntriesTraced body count 4

/-- How the tree decoder ends, as the outcome of a logged run. -/
def treeOutcome : Option (List DirEntry) → Except DecodeError (List DirEntry)
  | none => .error .rejected
  | some es => .ok es

/-- A record is at most `2 ^ 17` bytes long, so `count` of them stay far from the width of
`size_t`. -/
def Roomy (pos count : Nat) : Prop := pos + 2 ^ 17 * count < 2 ^ 64

theorem result_deserializeEntriesTraced {body : Bytes} {count pos : Nat} (h : Roomy pos count) :
    (deserializeEntriesTraced body count pos).result =
      treeOutcome (deserializeEntries body count pos) := by
  induction count generalizing pos with
  | zero => rfl
  | succ count ih =>
      rw [Roomy] at h
      have hpos2 : addSize pos 2 = pos + 2 := addSize_of_lt (by omega)
      rw [deserializeEntriesTraced, deserializeEntries, hpos2]
      by_cases hlen : body.length < pos + 2
      · rw [if_pos hlen, if_pos hlen]
        rfl
      have hwidth : decodeLe (slice body pos 2) < 256 ^ 2 :=
        decodeLe_lt_of_length (length_slice (Nat.not_lt.1 hlen))
      rw [if_neg hlen, if_neg hlen, result_bind, result_loadBlock,
        copyOut_of_le (Nat.not_lt.1 hlen), ok_bind]
      generalize decodeLe (slice body pos 2) = n at hwidth
      have hposN : addSize (pos + 2) n = pos + 2 + n := addSize_of_lt (by omega)
      have hpos4 : addSize (pos + 2 + n) 4 = pos + 2 + n + 4 := addSize_of_lt (by omega)
      have hpos1 : addSize (pos + 2 + n + 4) 1 = pos + 2 + n + 4 + 1 := addSize_of_lt (by omega)
      have hpos32 : addSize (pos + 2 + n + 4 + 1) 32 = pos + 2 + n + 4 + 1 + 32 :=
        addSize_of_lt (by omega)
      simp only [hposN, hpos4, hpos1, hpos32]
      by_cases hrec : body.length < pos + 2 + n + 4 + 1 + 32
      · rw [if_pos hrec, if_pos hrec]
        rfl
      rw [if_neg hrec, if_neg hrec]
      have hroomy : Roomy (pos + 2 + n + 4 + 1 + 32) count := by
        rw [Roomy]
        omega
      have hrest := ih hroomy
      simp only [result_bind, result_loadBlock, hrest, result_pure,
        copyOut_of_le (show pos + 2 + n ≤ body.length by omega),
        copyOut_of_le (show pos + 2 + n + 4 ≤ body.length by omega),
        copyOut_of_le (show pos + 2 + n + 4 + 1 ≤ body.length by omega),
        copyOut_of_le (show pos + 2 + n + 4 + 1 + 32 ≤ body.length by omega), ok_bind]
      cases deserializeEntries body count (pos + 2 + n + 4 + 1 + 32) with
      | none => rfl
      | some rest => rfl

theorem roomy_of_word {pc : Nat} (h : pc < 256 ^ 4) : Roomy 4 pc := by
  rw [Roomy]
  omega

theorem result_deserializeTreeEntriesTraced (body : Bytes) :
    (deserializeTreeEntriesTraced body).result = treeOutcome (deserializeTreeEntries body) := by
  rw [deserializeTreeEntriesTraced, deserializeTreeEntries]
  by_cases hsize : body.length < 4
  · rw [if_pos hsize, if_pos hsize]
    rfl
  have hle : 0 + 4 ≤ body.length := by omega
  have hcount : decodeLe (slice body 0 4) < 256 ^ 4 := decodeLe_lt_of_length (length_slice hle)
  rw [if_neg hsize, if_neg hsize, result_bind, result_loadBlock, copyOut_of_le hle, ok_bind]
  exact result_deserializeEntriesTraced (roomy_of_word hcount)

/-! ## A read outside the string is the fault -/

theorem watched_deserializeEntriesTraced {body : Bytes} {count pos : Nat} (h : Roomy pos count) :
    Watched .outOfBounds body.length (deserializeEntriesTraced body count pos) := by
  induction count generalizing pos with
  | zero => exact watched_pure _
  | succ count ih =>
      rw [Roomy] at h
      rw [deserializeEntriesTraced]
      by_cases hlen : body.length < addSize pos 2
      · rw [if_pos hlen]
        exact watched_rejected _
      rw [if_neg hlen]
      refine watched_bind (watched_loadBlock_succ body pos 1) fun width hwidth => ?_
      have hn : decodeLe width < 256 ^ 2 := decodeLe_lt_of_copyOut hwidth
      generalize decodeLe width = n at hn
      by_cases hrec : body.length < addSize (addSize (addSize (addSize (addSize pos 2) n) 4) 1) 32
      · rw [if_pos hrec]
        exact watched_rejected _
      rw [if_neg hrec]
      have hname : addSize pos 2 ≤ body.length := Nat.not_lt.1 hlen
      have hend : addSize (addSize (addSize (addSize (addSize pos 2) n) 4) 1) 32 =
          pos + 2 + n + 37 := by
        simp only [addSize]
        omega
      have hroomy : Roomy (pos + 2 + n + 37) count := by
        rw [Roomy]
        omega
      have hrest := ih hroomy
      refine watched_bind (watched_loadBlock fun _ => hname) fun name _ => ?_
      refine watched_bind (watched_loadBlock_succ body _ 3) fun mode _ => ?_
      refine watched_bind (watched_loadBlock_succ body _ 0) fun kind _ => ?_
      refine watched_bind (watched_loadBlock_succ body _ 31) fun hash _ => ?_
      rw [hend]
      exact watched_bind hrest fun _ _ => watched_pure _

theorem watched_deserializeTreeEntriesTraced (body : Bytes) :
    Watched .outOfBounds body.length (deserializeTreeEntriesTraced body) := by
  rw [deserializeTreeEntriesTraced]
  by_cases hsize : body.length < 4
  · rw [if_pos hsize]
    exact watched_rejected _
  rw [if_neg hsize]
  refine watched_bind (watched_loadBlock_succ body 0 3) fun count hcount => ?_
  exact watched_deserializeEntriesTraced (roomy_of_word (decodeLe_lt_of_copyOut hcount))

/-! ## The bytes of accepted entries -/

theorem toByte_ofByte (b : UInt8) : (EntryKind.ofByte b).toByte = b := by
  have hlt := b.toNat_lt
  apply UInt8.toNat_inj.1
  rw [EntryKind.ofByte]
  by_cases h0 : b.toNat = 0
  · rw [if_pos h0, h0]
    rfl
  by_cases h1 : b.toNat = 1
  · rw [if_neg h0, if_pos h1, h1]
    rfl
  by_cases h2 : b.toNat = 2
  · rw [if_neg h0, if_neg h1, if_pos h2, h2]
    rfl
  by_cases h3 : b.toNat = 3
  · rw [if_neg h0, if_neg h1, if_neg h2, if_pos h3, h3]
    rfl
  rw [if_neg h0, if_neg h1, if_neg h2, if_neg h3]
  show (UInt8.ofNat ((b.toNat - 4) % 252 + 4)).toNat = b.toNat
  rw [UInt8.toNat_ofNat']
  omega

/-- An entry is written back as it was read. -/
theorem serializeEntry_of_blocks {width name mode kind hash : Bytes} (hwidth : width.length = 2)
    (hname : name.length = decodeLe width) (hmode : mode.length = 4) (hkind : kind.length = 1)
    (hhash : hash.length = 32) :
    serializeEntry (name, ⟨EntryKind.ofByte (kind.headD 0), Hash.ofBytes hash,
      UInt32.ofNat (decodeLe mode)⟩) = width ++ (name ++ (mode ++ (kind ++ hash))) := by
  have hwidth' : decodeLe width < 2 ^ 16 := decodeLe_lt_of_length hwidth
  have hmode' : decodeLe mode < 2 ^ 32 := decodeLe_lt_of_length hmode
  have e1 : encodeLe 2 (decodeLe width) = width := encodeLe_decodeLe_of_length hwidth
  have e2 : encodeLe 4 (UInt32.ofNat (decodeLe mode)).toNat = mode := by
    rw [UInt32.toNat_ofNat_of_lt' hmode']
    exact encodeLe_decodeLe_of_length hmode
  have e3 : [kind.headD 0] = kind := by
    obtain ⟨b, rfl⟩ := List.length_eq_one_iff.1 hkind
    rfl
  have htake : name.take (decodeLe width % 2 ^ 16) = name := by
    rw [Nat.mod_eq_of_lt hwidth', ← hname, List.take_length]
  simp only [serializeEntry, hname, htake, e1, e2, toByte_ofByte, e3, bytes_ofBytes hhash]

theorem consumes_deserializeEntriesTraced {body : Bytes} {count pos : Nat}
    (hpos : pos ≤ body.length) (h : Roomy pos count) :
    Consumes body (deserializeEntriesTraced body count pos) pos fun es bytes =>
      bytes = es.flatMap serializeEntry ∧ es.length = count := by
  induction count generalizing pos with
  | zero => exact consumes_pure hpos ⟨rfl, rfl⟩
  | succ count ih =>
      rw [Roomy] at h
      have hpos2 : addSize pos 2 = pos + 2 := addSize_of_lt (by omega)
      rw [deserializeEntriesTraced]
      by_cases hlen : body.length < addSize pos 2
      · rw [if_pos hlen]
        exact consumes_stop _
      rw [if_neg hlen]
      refine consumes_load_bind rfl fun width hwidth _ => ?_
      have hn : decodeLe width < 256 ^ 2 := decodeLe_lt_of_length hwidth
      have hposN : addSize (addSize pos 2) (decodeLe width) = pos + 2 + decodeLe width := by
        rw [hpos2]
        exact addSize_of_lt (by omega)
      have hpos4 : addSize (addSize (addSize pos 2) (decodeLe width)) 4 =
          pos + 2 + decodeLe width + 4 := by
        rw [hposN]
        exact addSize_of_lt (by omega)
      have hpos1 : addSize (addSize (addSize (addSize pos 2) (decodeLe width)) 4) 1 =
          pos + 2 + decodeLe width + 4 + 1 := by
        rw [hpos4]
        exact addSize_of_lt (by omega)
      have hend : addSize (addSize (addSize (addSize (addSize pos 2) (decodeLe width)) 4) 1) 32 =
          pos + 2 + decodeLe width + 4 + 1 + 32 := by
        rw [hpos1]
        exact addSize_of_lt (by omega)
      by_cases hrec : body.length <
          addSize (addSize (addSize (addSize (addSize pos 2) (decodeLe width)) 4) 1) 32
      · rw [if_pos hrec]
        exact consumes_stop _
      rw [if_neg hrec]
      refine consumes_load_bind hpos2 fun name hname _ => ?_
      refine consumes_load_bind hposN fun mode hmode _ => ?_
      refine consumes_load_bind hpos4 fun kind hkind _ => ?_
      refine consumes_load_bind hpos1 fun hash hhash hle => ?_
      rw [hend]
      refine consumes_bind (ih hle (by rw [Roomy]; omega)) fun es bytes hbytes hle' => ?_
      obtain ⟨rfl, hcount⟩ := hbytes
      refine consumes_pure hle' ⟨?_, ?_⟩
      · rw [List.flatMap_cons, serializeEntry_of_blocks hwidth hname hmode hkind hhash]
        simp only [List.append_assoc, List.append_nil]
      · rw [List.length_cons, hcount]

/-- Entries in the order given, behind their count: what is written once they are sorted. -/
def serializeSorted (sorted : List DirEntry) : Bytes :=
  encodeLe 4 sorted.length ++ sorted.flatMap serializeEntry

/-- Whatever entries are accepted, the decoder has gone through exactly their bytes. -/
theorem consumes_deserializeTreeEntriesTraced (body : Bytes) :
    Consumes body (deserializeTreeEntriesTraced body) 0 fun es bytes =>
      bytes = serializeSorted es := by
  rw [deserializeTreeEntriesTraced]
  by_cases hsize : body.length < 4
  · rw [if_pos hsize]
    exact consumes_stop _
  rw [if_neg hsize]
  refine consumes_load_bind rfl fun count hcount hle => ?_
  have hroom : Roomy (0 + 4) (decodeLe count) := roomy_of_word (decodeLe_lt_of_length hcount)
  intro es hes
  obtain ⟨bytes, rest, hat, hrun, rfl, hlen⟩ := consumes_deserializeEntriesTraced hle hroom es hes
  refine ⟨_, rest, hat, hrun, ?_⟩
  show count ++ es.flatMap serializeEntry = serializeSorted es
  rw [serializeSorted, hlen, encodeLe_decodeLe_of_length hcount]

/-! ## What the entries declare against what the string holds -/

/-- `count` records from `pos` on, each of the name length it declares, end inside the string. -/
def RecordsFit (body : Bytes) : Nat → Nat → Prop
  | 0, pos => pos ≤ body.length
  | count + 1, pos =>
      pos + 2 ≤ body.length ∧
        RecordsFit body count (pos + 2 + decodeLe (slice body pos 2) + 4 + 1 + 32)

/-- The string is long enough for the count and the name lengths it declares. -/
def TreeFits (body : Bytes) : Prop :=
  4 ≤ body.length ∧ RecordsFit body (decodeLe (slice body 0 4)) 4

theorem recordsFit_of_deserializeEntries {body : Bytes} {count pos : Nat} {es : List DirEntry}
    (hpos : pos ≤ body.length) (h : deserializeEntries body count pos = some es) :
    RecordsFit body count pos := by
  induction count generalizing pos es with
  | zero => exact hpos
  | succ count ih =>
      rw [deserializeEntries] at h
      by_cases hlen : body.length < pos + 2
      · rw [if_pos hlen] at h
        cases h
      rw [if_neg hlen] at h
      refine ⟨Nat.not_lt.1 hlen, ?_⟩
      generalize decodeLe (slice body pos 2) = n at h
      by_cases hrec : body.length < pos + 2 + n + 4 + 1 + 32
      · simp only [if_pos hrec] at h
        cases h
      simp only [if_neg hrec] at h
      cases hrest : deserializeEntries body count (pos + 2 + n + 4 + 1 + 32) with
      | none =>
          rw [hrest] at h
          cases h
      | some rest => exact ih (Nat.not_lt.1 hrec) hrest

theorem deserializeTreeEntries_of_not_fits {body : Bytes} (h : ¬ TreeFits body) :
    deserializeTreeEntries body = none := by
  by_contra hsome
  obtain ⟨es, hes⟩ := Option.ne_none_iff_exists'.1 hsome
  rw [deserializeTreeEntries] at hes
  by_cases hsize : body.length < 4
  · rw [if_pos hsize] at hes
    cases hes
  · rw [if_neg hsize] at hes
    have hle : 4 ≤ body.length := Nat.not_lt.1 hsize
    exact h ⟨hle, recordsFit_of_deserializeEntries hle hes⟩

/-- The tree decoder reads inside every string. -/
theorem deserializeTreeEntriesTraced_inBounds (body : Bytes) :
    (deserializeTreeEntriesTraced body).InBounds body.length := by
  apply (watched_deserializeTreeEntriesTraced body).2
  rw [result_deserializeTreeEntriesTraced]
  cases deserializeTreeEntries body with
  | none => exact fun h => by cases h
  | some es => exact fun h => by cases h

/-- Both decoders read inside every string and reject every string too short for what it
declares, except where the commit decoder is misled by the wrapped product of its parent
count: there it reads past the end. -/
theorem decoders_inBounds_iff (body : Bytes) :
    ((deserializeCommitTraced body).InBounds body.length ∧
      (¬ CommitFits body → (deserializeCommitTraced body).result = .error .rejected) ∧
      (deserializeTreeEntriesTraced body).InBounds body.length ∧
      (¬ TreeFits body → (deserializeTreeEntriesTraced body).result = .error .rejected)) ↔
    ¬ ProductMisleads body := by
  have htree := deserializeTreeEntriesTraced_inBounds body
  have hshort : ¬ TreeFits body →
      (deserializeTreeEntriesTraced body).result = .error .rejected := by
    intro h
    rw [result_deserializeTreeEntriesTraced, deserializeTreeEntries_of_not_fits h]
    rfl
  have hlog := watched_deserializeCommitTraced body
  rw [Watched, result_deserializeCommitTraced] at hlog
  rw [hlog, result_deserializeCommitTraced]
  obtain ⟨hfits, c, hc⟩ | ⟨hmis, hout⟩ | ⟨hnot, hmis, hrej⟩ := deserializeCommit_cases body
  · have hclear : ¬ ProductMisleads body := by
      intro hmis
      have hlt := hmis.2.2
      have hle := hfits.2.1
      omega
    refine iff_of_true ⟨?_, fun h => absurd hfits h, htree, hshort⟩ hclear
    rw [hc]
    exact fun h => by cases h
  · refine iff_of_false ?_ fun h => h hmis
    rintro ⟨hin, -⟩
    exact hin hout
  · refine iff_of_true ⟨?_, fun _ => hrej, htree, hshort⟩ hmis
    rw [hrej]
    exact fun h => by cases h

/-- 58 bytes with a parent count of `2 ^ 27`. -/
def wrappedCommit : Bytes :=
  List.replicate 35 0 ++ 8 :: List.replicate 22 0

/-- The product of the count wraps to zero, the check passes and the first parent is copied from
behind the end. -/
theorem wrappedCommit_read_outOfBounds :
    ¬ ((deserializeCommitTraced wrappedCommit).InBounds wrappedCommit.length ∧
      (¬ CommitFits wrappedCommit →
        (deserializeCommitTraced wrappedCommit).result = .error .rejected)) := by
  have hmis : ProductMisleads wrappedCommit := by decide
  have hnot : ¬ CommitFits wrappedCommit := by decide
  rintro ⟨-, hrej⟩
  have hresult := hrej hnot
  rw [result_deserializeCommitTraced] at hresult
  obtain ⟨hfits, -⟩ | ⟨-, hout⟩ | ⟨-, hclear, -⟩ := deserializeCommit_cases wrappedCommit
  · exact hnot hfits
  · rw [hout] at hresult
    cases hresult
  · exact hclear hmis

/-! ## Encoder and decoder undo each other -/

/-- What `std::sort` by name promises of its result: entries of one name may come in either
order. -/
def IsSortOf (sorted children : List DirEntry) : Prop :=
  sorted.Perm children ∧ sorted.Pairwise fun a b => compare a.1 b.1 ≠ .gt

instance total_name : Std.Total fun a b : DirEntry => compare a.1 b.1 ≠ .gt where
  total a b := by
    by_cases hab : compare a.1 b.1 = .gt
    · right
      rw [OrientedCmp.gt_iff_lt.1 hab]
      decide
    · exact Or.inl hab

instance trans_name : IsTrans DirEntry fun a b => compare a.1 b.1 ≠ .gt where
  trans a b c hab hbc := by
    have hac : (compare a.1 c.1).isLE :=
      TransCmp.isLE_trans (Ordering.isLE_iff_ne_gt.2 hab) (Ordering.isLE_iff_ne_gt.2 hbc)
    exact Ordering.isLE_iff_ne_gt.1 hac

theorem isSortOf_sortByName (children : List DirEntry) :
    IsSortOf (sortByName children) children := by
  refine ⟨List.perm_insertionSort _ _, ?_⟩
  exact List.pairwise_insertionSort _ _

theorem serializeTreeEntries_eq (children : List DirEntry) :
    serializeTreeEntries children = serializeSorted (sortByName children) := by
  rw [serializeTreeEntries, serializeSorted, (isSortOf_sortByName children).1.length_eq]

theorem sortByName_of_strict {es : List DirEntry}
    (h : es.Pairwise fun a b => compare a.1 b.1 = .lt) : sortByName es = es := by
  apply List.Pairwise.insertionSort_eq
  exact h.imp fun hab => by simp [hab]

/-- Entries with short names and a count that fits are read back in the order written. -/
theorem deserializeTreeEntries_serializeSorted {sorted : List DirEntry}
    (hname : ∀ e ∈ sorted, e.1.length < 2 ^ 16) (hcount : sorted.length < 2 ^ 32) :
    deserializeTreeEntries (serializeSorted sorted) = some sorted := by
  have a0 : At (serializeSorted sorted) 0
      (encodeLe 4 sorted.length ++ sorted.flatMap serializeEntry) := at_zero _
  have a1 := a0.next (length_encodeLe _ _)
  have hword : decodeLe (encodeLe 4 sorted.length) = sorted.length :=
    decodeLe_encodeLe_of_lt hcount
  have hlen : ¬ (serializeSorted sorted).length < 4 := by
    simp [serializeSorted]
  have hnarrow : sorted.map narrowName = sorted := by
    refine (List.map_congr_left fun e he => ?_).trans sorted.map_id
    exact narrowName_of_lt (hname e he)
  have hread := deserializeEntries_of_at (Nat.le_refl _) [] (by simpa using a1)
  rw [deserializeTreeEntries, if_neg hlen, a0.slice_eq (length_encodeLe _ _), hword]
  simpa [hnarrow] using hread

/-- The codecs round trip in both directions.  Forwards, every record within the widths of its
length fields and every list of entries, in whatever order its sort leaves them; backwards, the
bytes an accepting decoder has gone through are the encoding of what it returns. -/
theorem codecs_roundTrip :
    (∀ c : CommitData, c.parents.length < 2 ^ 27 → c.label.length < 2 ^ 16 →
      deserializeCommit (serializeCommit c) = .ok c) ∧
    (∀ es : List DirEntry, es.length < 2 ^ 32 → (∀ e ∈ es, e.1.length < 2 ^ 16) →
      IsSortOf (sortByName es) es ∧
      deserializeTreeEntries (serializeTreeEntries es) = some (sortByName es) ∧
      ∀ sorted, IsSortOf sorted es →
        deserializeTreeEntries (serializeSorted sorted) = some sorted) ∧
    (∀ (body : Bytes) (c : CommitData), deserializeCommit body = .ok c →
      c.parents.length < 2 ^ 27 →
      serializeCommit c = body.take (deserializeCommitTraced body).consumed) ∧
    (∀ (body : Bytes) (es : List DirEntry), deserializeTreeEntries body = some es →
      (es.Pairwise fun a b => compare a.1 b.1 = .lt) →
      serializeTreeEntries es = body.take (deserializeTreeEntriesTraced body).consumed) := by
  refine ⟨?_, ?_, ?_, ?_⟩
  · intro c hparents hlabel
    rw [deserializeCommit_serializeCommit c hparents, CommitData.narrowLabel_of_lt hlabel]
  · intro es hcount hname
    have hsort : ∀ sorted, IsSortOf sorted es →
        deserializeTreeEntries (serializeSorted sorted) = some sorted := by
      intro sorted ⟨hperm, _⟩
      refine deserializeTreeEntries_serializeSorted (fun e he => ?_) ?_
      · exact hname e (hperm.mem_iff.1 he)
      · rwa [hperm.length_eq]
    refine ⟨isSortOf_sortByName es, ?_, hsort⟩
    rw [serializeTreeEntries_eq]
    exact hsort _ (isSortOf_sortByName es)
  · intro body c hc _
    have hrun : (deserializeCommitTraced body).result = .ok c := by
      rw [result_deserializeCommitTraced, hc]
    exact ((consumes_deserializeCommitTraced body).take_consumed hrun).symm
  · intro body es hes hstrict
    have hrun : (deserializeTreeEntriesTraced body).result = .ok es := by
      rw [result_deserializeTreeEntriesTraced, hes]
      rfl
    rw [serializeTreeEntries_eq, sortByName_of_strict hstrict]
    exact ((consumes_deserializeTreeEntriesTraced body).take_consumed hrun).symm

/-- A merge commit, two children of one directory, and what their encodings are read back as. -/
theorem codecs_roundTrip_mergeCommit :
    let c : CommitData := ⟨zeroHash, [zeroHash, zeroHash], 1, 2, [109], 3⟩
    let es : List DirEntry := [([98], ⟨.tree, zeroHash, 0⟩), ([97], ⟨.blob, zeroHash, 420⟩)]
    deserializeCommit (serializeCommit c) = .ok c ∧
    deserializeTreeEntries (serializeTreeEntries es) = some (sortByName es) ∧
    serializeCommit c =
      (serializeCommit c).take (deserializeCommitTraced (serializeCommit c)).consumed ∧
    serializeTreeEntries (sortByName es) =
      (serializeTreeEntries es).take
        (deserializeTreeEntriesTraced (serializeTreeEntries es)).consumed := by
  intro c es
  have hparents : c.parents.length < 2 ^ 27 := by decide
  have hcommit := codecs_roundTrip.1 c hparents (by decide)
  have htree := (codecs_roundTrip.2.1 es (by decide) (by decide)).2.1
  refine ⟨hcommit, htree, ?_, ?_⟩
  · exact codecs_roundTrip.2.2.1 _ c hcommit hparents
  · exact codecs_roundTrip.2.2.2 _ _ htree (by decide)

end ContextFS
