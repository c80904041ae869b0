import ContextFS.Lib.ByteReader
import ContextFS.Store.Commit

/-!
# Which bytes the commit decoder reads

`deserialize_commit` again, with a log of its copies and with every sum and product at the
width the source computes it in: positions are `size_t`, the product of the parent count with
32 is a `uint32_t`.  The run ends as `deserializeCommit` ends.
-/

namespace ContextFS

open Lib Traced

/-- `size_t` addition. -/
def addSize (a b : Nat) : Nat := (a + b) % 2 ^ 64

/-- `uint32_t` multiplication. -/
def mulUint32 (a b : Nat) : Nat := a * b % 2 ^ 32

theorem addSize_of_lt {a b : Nat} (h : a + b < 2 ^ 64) : addSize a b = a + b :=
  Nat.mod_eq_of_lt h

/-- A decoder with the log of what it reads. -/
abbrev Decoder := Traced DecodeError

/-- `memcpy` of `n` bytes from offset `pos`, logged. -/
def loadBlock (body : Bytes) (pos n : Nat) : Decoder Bytes :=
  load .outOfBounds body pos n

@[simp] theorem result_loadBlock (body : Bytes) (pos n : Nat) :
    (loadBlock body pos n).result = copyOut body pos n := rfl

/-- The loop over the parents; it also returns the position it has come to. -/
def copyParentsTraced (body : Bytes) : Nat → Nat → Decoder (List Hash × Nat)
  | 0, pos => pure ([], pos)
  | count + 1, pos => do
      let p ← loadBlock body pos 32
      let (ps, stop) ← copyParentsTraced body count (addSize pos 32)
      pure (Hash.ofBytes p :: ps, stop)

/-- `deserialize_commit`, copy by copy. -/
def deserializeCommitTraced (body : Bytes) : Decoder CommitData := do
  if body.length < 32 + 4 then
    stop .rejected
  else
    let treeHash ← loadBlock body 0 32
    let pos := addSize 0 32
    let pc := decodeLe (← loadBlock body pos 4)
    let pos := addSize pos 4
    if body.length < addSize (addSize (addSize (addSize (addSize pos (mulUint32 pc 32)) 8) 8) 2) 4 then
      stop .rejected
    else
      let (parents, pos) ← copyParentsTraced body pc pos
      let sessionId ← loadBlock body pos 8
      let pos := addSize pos 8
      let timestampNs ← loadBlock body pos 8
      let pos := addSize pos 8
      let ll := decodeLe (← loadBlock body pos 2)
      let pos := addSize pos 2
      if body.length < addSize (addSize pos ll) 4 then
        stop .rejected
      else
        let label ← loadBlock body pos ll
        let pos := addSize pos ll
        let policyVersion ← loadBlock body pos 4
        pure {
          treeHash := Hash.ofBytes treeHash
          parents := parents
          sessionId := UInt64.ofNat (decodeLe sessionId)
          timestampNs := UInt64.ofNat (decodeLe timestampNs)
          label := label
          policyVersion := UInt32.ofNat (decodeLe policyVersion) }

/-! ## The run ends as the decoder ends -/

theorem length_of_copyOut {body bytes : Bytes} {pos n : Nat} (h : copyOut body pos n = .ok bytes) :
    pos + n ≤ body.length ∧ bytes = slice body pos n ∧ bytes.length = n := by
  by_cases hle : pos + n ≤ body.length
  · rw [copyOut, if_pos hle] at h
    cases h
    exact ⟨hle, rfl, length_slice hle⟩
  · rw [copyOut, if_neg hle] at h
    cases h

theorem result_copyParentsTraced {body : Bytes} {count pos : Nat}
    (h : pos + 32 * count < 2 ^ 64) :
    (copyParentsTraced body count pos).result =
      (fun ps => (ps, pos + 32 * count)) <$> copyParents body count pos := by
  induction count generalizing pos with
  | zero => rfl
  | succ count ih =>
      have hnext : addSize pos 32 = pos + 32 := addSize_of_lt (by omega)
      have hrest := ih (show pos + 32 + 32 * count < 2 ^ 64 by omega)
      have hend : pos + 32 + 32 * count = pos + 32 * (count + 1) := by omega
      simp only [copyParentsTraced, copyParents, result_bind, result_loadBlock, hnext, hrest, hend,
        result_pure]
      cases copyOut body pos 32 with
      | error e => rfl
      | ok p =>
          cases copyParents body count (pos + 32) with
          | error e => rfl
          | ok ps => rfl

/-- A word of `n` bytes copied out of the string. -/
theorem decodeLe_lt_of_copyOut {body bytes : Bytes} {pos n : Nat}
    (h : copyOut body pos n = .ok bytes) : decodeLe bytes < 256 ^ n := by
  obtain ⟨-, -, hlen⟩ := length_of_copyOut h
  exact decodeLe_lt_of_length hlen

theorem result_deserializeCommitTraced (body : Bytes) :
    (deserializeCommitTraced body).result = deserializeCommit body := by
  by_cases hsize : body.length < 32 + 4
  · simp only [deserializeCommitTraced, deserializeCommit, if_pos hsize, result_stop]
  have hpos0 : addSize 0 32 = 32 := rfl
  have hpos1 : addSize 32 4 = 36 := rfl
  simp only [deserializeCommitTraced, deserializeCommit, if_neg hsize, result_bind,
    result_loadBlock, hpos0, hpos1]
  refine bind_congr fun treeHash => ?_
  cases hcount : copyOut body 32 4 with
  | error e => rfl
  | ok count =>
      have hpc : decodeLe count < 256 ^ 4 := decodeLe_lt_of_copyOut hcount
      show Traced.result _ = ite _ _ _
      generalize decodeLe count = pc at hpc
      have hcheck : addSize (addSize (addSize (addSize (addSize 36 (mulUint32 pc 32)) 8) 8) 2) 4 =
          36 + pc * 32 % 2 ^ 32 + 8 + 8 + 2 + 4 := by
        simp only [addSize, mulUint32]
        omega
      rw [hcheck]
      by_cases hbody : body.length < 36 + pc * 32 % 2 ^ 32 + 8 + 8 + 2 + 4
      · rw [if_pos hbody, if_pos hbody, result_stop]
      have hend : 36 + 32 * pc < 2 ^ 38 := by omega
      rw [if_neg hbody, if_neg hbody, result_bind, result_copyParentsTraced (by omega)]
      generalize 36 + 32 * pc = pos at hend
      have hpos8 : addSize pos 8 = pos + 8 := addSize_of_lt (by omega)
      have hpos16 : addSize (pos + 8) 8 = pos + 16 := addSize_of_lt (by omega)
      have hpos18 : addSize (pos + 16) 2 = pos + 18 := addSize_of_lt (by omega)
      simp only [bind_map_left, result_bind, result_loadBlock, hpos8, hpos16, hpos18]
      refine bind_congr fun parents => bind_congr fun sessionId => bind_congr fun timestampNs => ?_
      cases hlabel : copyOut body (pos + 16) 2 with
      | error e => rfl
      | ok width =>
          have hll : decodeLe width < 256 ^ 2 := decodeLe_lt_of_copyOut hlabel
          show Traced.result _ = ite _ _ _
          generalize decodeLe width = ll at hll
          have hpos : addSize (pos + 18) ll = pos + 18 + ll := addSize_of_lt (by omega)
          have hpos' : addSize (pos + 18 + ll) 4 = pos + 18 + ll + 4 := addSize_of_lt (by omega)
          rw [hpos, hpos']
          by_cases hfit : body.length < pos + 18 + ll + 4
          · rw [if_pos hfit, if_pos hfit, result_stop]
          · rw [if_neg hfit, if_neg hfit]
            simp only [result_bind, result_loadBlock, result_pure]

/-! ## A read outside the string is the fault -/

theorem watched_loadBlock {body : Bytes} {pos n : Nat} (hn : n = 0 → pos ≤ body.length) :
    Watched .outOfBounds body.length (loadBlock body pos n) :=
  watched_load hn

theorem watched_loadBlock_succ (body : Bytes) (pos n : Nat) :
    Watched .outOfBounds body.length (loadBlock body pos (n + 1)) :=
  watched_load fun h => absurd h (Nat.succ_ne_zero n)

theorem watched_rejected {α : Type} (size : Nat) :
    Watched .outOfBounds size (stop .rejected : Decoder α) :=
  watched_stop (by decide)

theorem watched_copyParentsTraced (body : Bytes) (count pos : Nat) :
    Watched .outOfBounds body.length (copyParentsTraced body count pos) := by
  induction count generalizing pos with
  | zero => exact watched_pure _
  | succ count ih =>
      refine watched_bind (watched_loadBlock_succ body pos 31) fun p _ => ?_
      exact watched_bind (ih _) fun _ _ => watched_pure _

/-- Where the loop over the parents has come to. -/
theorem copyParentsTraced_snd {body : Bytes} {count pos : Nat} {a : List Hash × Nat}
    (h : pos + 32 * count < 2 ^ 64) (ha : (copyParentsTraced body count pos).result = .ok a) :
    a.2 = pos + 32 * count := by
  rw [result_copyParentsTraced h] at ha
  cases hps : copyParents body count pos with
  | error e =>
      rw [hps] at ha
      cases ha
  | ok ps =>
      rw [hps] at ha
      cases ha
      rfl

theorem watched_deserializeCommitTraced (body : Bytes) :
    Watched .outOfBounds body.length (deserializeCommitTraced body) := by
  rw [deserializeCommitTraced]
  by_cases hsize : body.length < 32 + 4
  · rw [if_pos hsize]
    exact watched_rejected _
  rw [if_neg hsize]
  refine watched_bind (watched_loadBlock_succ body 0 31) fun treeHash _ => ?_
  refine watched_bind (watched_loadBlock_succ body 32 3) fun count hcount => ?_
  have hpc : decodeLe count < 256 ^ 4 := decodeLe_lt_of_copyOut hcount
  by_cases hbody : body.length < addSize (addSize (addSize (addSize (addSize (addSize (addSize 0 32) 4)
      (mulUint32 (decodeLe count) 32)) 8) 8) 2) 4
  · rw [if_pos hbody]
    exact watched_rejected _
  rw [if_neg hbody]
  refine watched_bind (watched_copyParentsTraced body _ _) fun a ha => ?_
  have hstart : addSize (addSize 0 32) 4 = 36 := rfl
  have hstop : a.2 = 36 + 32 * decodeLe count := by
    rw [hstart] at ha
    exact copyParentsTraced_snd (by omega) ha
  refine watched_bind (watched_loadBlock_succ body _ 7) fun sessionId _ => ?_
  refine watched_bind (watched_loadBlock_succ body _ 7) fun timestampNs _ => ?_
  refine watched_bind (watched_loadBlock_succ body _ 1) fun width hwidth => ?_
  have hll : decodeLe width < 256 ^ 2 := decodeLe_lt_of_copyOut hwidth
  by_cases hfit : body.length <
      addSize (addSize (addSize (addSize (addSize a.2 8) 8) 2) (decodeLe width)) 4
  · rw [if_pos hfit]
    exact watched_rejected _
  rw [if_neg hfit]
  have hlabel : addSize (addSize (addSize a.2 8) 8) 2 ≤ body.length := by
    simp only [addSize] at hfit ⊢
    omega
  refine watched_bind (watched_loadBlock fun _ => hlabel) fun label _ => ?_
  exact watched_bind (watched_loadBlock_succ body _ 3) fun _ _ => watched_pure _

/-! ## The bytes of an accepted record -/

theorem bytes_ofBytes {b : Bytes} (h : b.length = 32) : (Hash.ofBytes b).bytes = b := by
  rw [Hash.ofBytes, dif_pos h]

theorem consumes_copyParentsTraced {body : Bytes} {count pos : Nat} (hpos : pos ≤ body.length)
    (h : pos + 32 * count < 2 ^ 64) :
    Consumes body (copyParentsTraced body count pos) pos fun a bytes =>
      bytes = hashesBytes a.1 ∧ a.1.length = count ∧ a.2 = pos + 32 * count := by
  induction count generalizing pos with
  | zero => exact consumes_pure hpos ⟨rfl, rfl, rfl⟩
  | succ count ih =>
      have hnext : addSize pos 32 = pos + 32 := addSize_of_lt (by omega)
      rw [copyParentsTraced, hnext]
      refine consumes_load_bind rfl fun p hp hle => ?_
      refine consumes_bind (ih hle (by omega)) fun a bytes hbytes hle' => ?_
      obtain ⟨rfl, hlen, hstop⟩ := hbytes
      refine consumes_pure hle' ⟨?_, ?_, ?_⟩
      · show p ++ (hashesBytes a.1 ++ []) = hashesBytes (Hash.ofBytes p :: a.1)
        rw [List.append_nil, hashesBytes, hashesBytes, List.flatMap_cons, bytes_ofBytes hp]
      · show (Hash.ofBytes p :: a.1).length = count + 1
        rw [List.length_cons, hlen]
      · show a.2 = pos + 32 * (count + 1)
        omega

/-- A record is written back as it was read. -/
theorem serializeCommit_of_blocks {th pc sid ts ll label pv : Bytes} {parents : List Hash}
    (hth : th.length = 32) (hpc : pc.length = 4) (hparents : parents.length = decodeLe pc)
    (hsid : sid.length = 8) (hts : ts.length = 8) (hll : ll.length = 2)
    (hlabel : label.length = decodeLe ll) (hpv : pv.length = 4) :
    serializeCommit ⟨Hash.ofBytes th, parents, UInt64.ofNat (decodeLe sid),
      UInt64.ofNat (decodeLe ts), label, UInt32.ofNat (decodeLe pv)⟩ =
      th ++ (pc ++ (hashesBytes parents ++ (sid ++ (ts ++ (ll ++ (label ++ pv)))))) := by
  have hsid' : decodeLe sid < 2 ^ 64 := decodeLe_lt_of_length hsid
  have hts' : decodeLe ts < 2 ^ 64 := decodeLe_lt_of_length hts
  have hpv' : decodeLe pv < 2 ^ 32 := decodeLe_lt_of_length hpv
  have hll' : decodeLe ll < 2 ^ 16 := decodeLe_lt_of_length hll
  have e1 : encodeLe 4 (decodeLe pc) = pc := encodeLe_decodeLe_of_length hpc
  have e2 : encodeLe 8 (UInt64.ofNat (decodeLe sid)).toNat = sid := by
    rw [UInt64.toNat_ofNat_of_lt' hsid']
    exact encodeLe_decodeLe_of_length hsid
  have e3 : encodeLe 8 (UInt64.ofNat (decodeLe ts)).toNat = ts := by
    rw [UInt64.toNat_ofNat_of_lt' hts']
    exact encodeLe_decodeLe_of_length hts
  have e4 : encodeLe 2 (decodeLe ll) = ll := encodeLe_decodeLe_of_length hll
  have e5 : encodeLe 4 (UInt32.ofNat (decodeLe pv)).toNat = pv := by
    rw [UInt32.toNat_ofNat_of_lt' hpv']
    exact encodeLe_decodeLe_of_length hpv
  have hmod : decodeLe ll % 2 ^ 16 = decodeLe ll := Nat.mod_eq_of_lt hll'
  have htake : label.take (decodeLe ll) = label := by
    rw [← hlabel, List.take_length]
  simp only [serializeCommit, hparents, hlabel, hmod, htake, e1, e2, e3, e4, e5,
    bytes_ofBytes hth, Nat.sub_self, List.replicate_zero, List.append_nil]

/-- Whatever record is accepted, the decoder has gone through exactly its encoding. -/
theorem consumes_deserializeCommitTraced (body : Bytes) :
    Consumes body (deserializeCommitTraced body) 0 fun c bytes => bytes = serializeCommit c := by
  rw [deserializeCommitTraced]
  by_cases hsize : body.length < 32 + 4
  · rw [if_pos hsize]
    exact consumes_stop _
  rw [if_neg hsize]
  refine consumes_load_bind rfl fun th hth _ => ?_
  refine consumes_load_bind rfl fun pc hpc hle => ?_
  have hcount : decodeLe pc < 2 ^ 32 := decodeLe_lt_of_length hpc
  by_cases hbody : body.length < addSize (addSize (addSize (addSize (addSize (addSize (addSize 0 32) 4)
      (mulUint32 (decodeLe pc) 32)) 8) 8) 2) 4
  · rw [if_pos hbody]
    exact consumes_stop _
  rw [if_neg hbody]
  have hparents : Consumes body (copyParentsTraced body (decodeLe pc) 36) 36 _ :=
    consumes_copyParentsTraced hle (by omega)
  refine consumes_bind hparents fun a bytes hbytes _ => ?_
  obtain ⟨rfl, hlen, hstop⟩ := hbytes
  have hwidth : (hashesBytes a.1).length = 32 * decodeLe pc := by
    rw [length_hashesBytes, hlen]
  rw [hwidth]
  refine consumes_load_bind (by omega) fun sid hsid _ => ?_
  have hpos8 : addSize a.2 8 = 36 + 32 * decodeLe pc + 8 := by
    rw [hstop]
    exact addSize_of_lt (by omega)
  refine consumes_load_bind (by omega) fun ts hts _ => ?_
  have hpos16 : addSize (addSize a.2 8) 8 = 36 + 32 * decodeLe pc + 8 + 8 := by
    rw [hpos8]
    exact addSize_of_lt (by omega)
  refine consumes_load_bind (by omega) fun ll hll _ => ?_
  have hlabel : decodeLe ll < 2 ^ 16 := decodeLe_lt_of_length hll
  have hpos18 : addSize (addSize (addSize a.2 8) 8) 2 = 36 + 32 * decodeLe pc + 8 + 8 + 2 := by
    rw [hpos16]
    exact addSize_of_lt (by omega)
  by_cases hfit : body.length <
      addSize (addSize (addSize (addSize (addSize a.2 8) 8) 2) (decodeLe ll)) 4
  · rw [if_pos hfit]
    exact consumes_stop _
  rw [if_neg hfit]
  refine consumes_load_bind (by omega) fun label hlen' _ => ?_
  have hpos : addSize (addSize (addSize (addSize a.2 8) 8) 2) (decodeLe ll) =
      36 + 32 * decodeLe pc + 8 + 8 + 2 + decodeLe ll := by
    rw [hpos18]
    exact addSize_of_lt (by omega)
  refine consumes_load_bind (by omega) fun pv hpv hle' => consumes_pure hle' ?_
  rw [serializeCommit_of_blocks hth hpc hlen hsid hts hll hlen' hpv, List.append_nil]

/-! ## What the record declares against what the string holds -/

/-- The parent count of a record, as the string declares it. -/
def declaredParents (body : Bytes) : Nat := decodeLe (slice body 32 4)

/-- The label length behind the declared parents. -/
def declaredLabel (body : Bytes) : Nat :=
  decodeLe (slice body (36 + 32 * declaredParents body + 16) 2)

/-- The string is long enough for the count and the length it declares. -/
def CommitFits (body : Bytes) : Prop :=
  36 ≤ body.length ∧ 58 + 32 * declaredParents body ≤ body.length ∧
    58 + 32 * declaredParents body + declaredLabel body ≤ body.length

/-- The size check passes on the wrapped product although the declared parents and the fields
up to the label length do not fit. -/
def ProductMisleads (body : Bytes) : Prop :=
  36 ≤ body.length ∧ 58 + mulUint32 (declaredParents body) 32 ≤ body.length ∧
    body.length < 54 + 32 * declaredParents body

instance (body : Bytes) : Decidable (CommitFits body) :=
  inferInstanceAs (Decidable (_ ∧ _ ∧ _))

instance (body : Bytes) : Decidable (ProductMisleads body) :=
  inferInstanceAs (Decidable (_ ∧ _ ∧ _))

theorem ok_bind {α β : Type} (a : α) (f : α → Except DecodeError β) :
    (Except.ok a >>= f) = f a := rfl

theorem error_bind {α β : Type} (e : DecodeError) (f : α → Except DecodeError β) :
    ((Except.error e : Except DecodeError α) >>= f) = .error e := rfl

theorem copyOut_of_le {body : Bytes} {pos n : Nat} (h : pos + n ≤ body.length) :
    copyOut body pos n = .ok (slice body pos n) := if_pos h

theorem copyOut_of_lt {body : Bytes} {pos n : Nat} (h : body.length < pos + n) :
    copyOut body pos n = .error .outOfBounds := if_neg (Nat.not_le.2 h)

theorem copyParents_of_le {body : Bytes} {count pos : Nat} (h : pos + 32 * count ≤ body.length) :
    ∃ ps, copyParents body count pos = .ok ps := by
  induction count generalizing pos with
  | zero => exact ⟨[], rfl⟩
  | succ count ih =>
      obtain ⟨ps, hps⟩ := ih (show pos + 32 + 32 * count ≤ body.length by omega)
      refine ⟨Hash.ofBytes (slice body pos 32) :: ps, ?_⟩
      rw [copyParents, copyOut_of_le (by omega), hps]
      rfl

theorem copyParents_of_lt {body : Bytes} {count pos : Nat} (hpos : pos ≤ body.length)
    (h : body.length < pos + 32 * count) :
    copyParents body count pos = .error .outOfBounds := by
  induction count generalizing pos with
  | zero => omega
  | succ count ih =>
      by_cases hle : pos + 32 ≤ body.length
      · have hrest := ih hle (by omega)
        rw [copyParents, copyOut_of_le hle, hrest]
        rfl
      · rw [copyParents, copyOut_of_lt (by omega)]
        rfl

/-- The decoder accepts what fits, leaves the string where the product misleads it, and rejects
everything else. -/
theorem deserializeCommit_cases (body : Bytes) :
    (CommitFits body ∧ ∃ c, deserializeCommit body = .ok c) ∨
    (ProductMisleads body ∧ deserializeCommit body = .error .outOfBounds) ∨
    (¬ CommitFits body ∧ ¬ ProductMisleads body ∧
      deserializeCommit body = .error .rejected) := by
  -- the checks in their order, each with what it lets through
  by_cases hsize : body.length < 36
  · refine Or.inr (Or.inr ⟨fun h => ?_, fun h => ?_, ?_⟩)
    · exact absurd h.1 (by omega)
    · exact absurd h.1 (by omega)
    · rw [deserializeCommit, if_pos hsize]
  have h0 := copyOut_of_le (show 0 + 32 ≤ body.length by omega)
  have h1 := copyOut_of_le (show 32 + 4 ≤ body.length by omega)
  have hpc : decodeLe (slice body 32 4) = declaredParents body := rfl
  have hll : decodeLe (slice body (36 + 32 * declaredParents body + 16) 2) =
    declaredLabel body := rfl
  simp only [deserializeCommit, if_neg hsize, h0, h1, ok_bind, hpc, CommitFits, ProductMisleads,
    mulUint32]
  generalize declaredParents body = pc at hll ⊢
  by_cases hbody : body.length < 36 + pc * 32 % 2 ^ 32 + 8 + 8 + 2 + 4
  · -- the check sees the string too short, wrapped or not
    refine Or.inr (Or.inr ⟨fun h => ?_, fun h => ?_, ?_⟩)
    · have := Nat.mod_le (pc * 32) (2 ^ 32)
      omega
    · omega
    · rw [if_pos hbody]
  rw [if_neg hbody]
  by_cases hfields : body.length < 54 + 32 * pc
  · -- the loop or one of the fixed fields behind it leaves the string
    refine Or.inr (Or.inl ⟨⟨by omega, by omega, hfields⟩, ?_⟩)
    by_cases hparents : body.length < 36 + 32 * pc
    · rw [copyParents_of_lt (by omega) hparents, error_bind]
    obtain ⟨ps, hps⟩ := copyParents_of_le (show 36 + 32 * pc ≤ body.length by omega)
    rw [hps, ok_bind]
    by_cases hsid : body.length < 36 + 32 * pc + 8
    · rw [copyOut_of_lt hsid, error_bind]
    rw [copyOut_of_le (Nat.not_lt.1 hsid), ok_bind]
    by_cases hts : body.length < 36 + 32 * pc + 8 + 8
    · rw [copyOut_of_lt hts, error_bind]
    rw [copyOut_of_le (Nat.not_lt.1 hts), ok_bind,
      copyOut_of_lt (show body.length < 36 + 32 * pc + 16 + 2 by omega), error_bind]
  obtain ⟨ps, hps⟩ := copyParents_of_le (show 36 + 32 * pc ≤ body.length by omega)
  rw [hps, ok_bind, copyOut_of_le (show 36 + 32 * pc + 8 ≤ body.length by omega), ok_bind,
    copyOut_of_le (show 36 + 32 * pc + 8 + 8 ≤ body.length by omega), ok_bind,
    copyOut_of_le (show 36 + 32 * pc + 16 + 2 ≤ body.length by omega), ok_bind, hll]
  generalize declaredLabel body = ll
  by_cases hlabel : body.length < 36 + 32 * pc + 18 + ll + 4
  · refine Or.inr (Or.inr ⟨fun h => ?_, fun h => ?_, ?_⟩)
    · omega
    · omega
    · rw [if_pos hlabel]
  · refine Or.inl ⟨⟨by omega, by omega, by omega⟩, ?_⟩
    rw [if_neg hlabel, copyOut_of_le (show 36 + 32 * pc + 18 + ll ≤ body.length by omega), ok_bind,
      copyOut_of_le (show 36 + 32 * pc + 18 + ll + 4 ≤ body.length by omega), ok_bind]
    exact ⟨_, rfl⟩

end ContextFS
