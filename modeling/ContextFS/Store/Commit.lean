import ContextFS.Store.Hash

/-!
# Commit records

The wire form of a commit and its decoder.  Lengths are narrowed on the way out (`uint32_t`
for the parent count, `uint16_t` for the label), and the decoder's size check multiplies the
parent count by 32 in 32 bits.  A copy that leaves the buffer is an outcome of its own,
`DecodeError.outOfBounds`: the source has no behaviour there.
-/

namespace ContextFS

open Lib

/-- How a decoder stops: it refuses the bytes, or it reads past them. -/
inductive DecodeError
  | rejected
  | outOfBounds
deriving DecidableEq, Repr

/-- `memcpy` of `n` bytes from offset `pos`. -/
def copyOut (body : Bytes) (pos n : Nat) : Except DecodeError Bytes :=
  if pos + n ≤ body.length then .ok (slice body pos n) else .error .outOfBounds

theorem Lib.At.copyOut_eq {body mid rest : Bytes} {pos n : Nat} (h : At body pos (mid ++ rest))
    (hn : mid.length = n) : copyOut body pos n = .ok mid := by
  have hle : pos + n ≤ body.length := hn ▸ h.add_length_le
  rw [copyOut, if_pos hle, h.slice_eq hn]

/-- `CommitData`. -/
structure CommitData where
  treeHash : Hash
  parents : List Hash
  sessionId : UInt64
  timestampNs : UInt64
  label : Bytes
  policyVersion : UInt32
deriving DecidableEq

/-- The bytes of a list of hashes. -/
def hashesBytes (hs : List Hash) : Bytes := hs.flatMap Hash.bytes

@[simp] theorem length_hashesBytes (hs : List Hash) : (hashesBytes hs).length = 32 * hs.length := by
  induction hs with
  | nil => rfl
  | cons h hs ih =>
      simp only [hashesBytes, List.flatMap_cons, List.length_append, h.length_eq] at ih ⊢
      simp only [ih, List.length_cons]
      omega

/-- `serialize_commit`: the buffer is sized by the full label, so a label that does not fit
its `uint16_t` length leaves zero bytes after the record. -/
def serializeCommit (c : CommitData) : Bytes :=
  c.treeHash.bytes ++ (encodeLe 4 c.parents.length ++ (hashesBytes c.parents ++
    (encodeLe 8 c.sessionId.toNat ++ (encodeLe 8 c.timestampNs.toNat ++
      (encodeLe 2 c.label.length ++ (c.label.take (c.label.length % 2 ^ 16) ++
        (encodeLe 4 c.policyVersion.toNat ++
          List.replicate (c.label.length - c.label.length % 2 ^ 16) 0)))))))

/-- The loop that copies `count` parents out, starting at `pos`. -/
def copyParents (body : Bytes) : Nat → Nat → Except DecodeError (List Hash)
  | 0, _ => .ok []
  | count + 1, pos => do
      let p ← copyOut body pos 32
      let ps ← copyParents body count (pos + 32)
      .ok (Hash.ofBytes p :: ps)

/-- `deserialize_commit`. -/
def deserializeCommit (body : Bytes) : Except DecodeError CommitData := do
  if body.length < 32 + 4 then
    .error .rejected
  else
    let treeHash ← copyOut body 0 32
    let pc := decodeLe (← copyOut body 32 4)
    -- `pc * HASH_SIZE` is computed in 32 bits
    if body.length < 36 + pc * 32 % 2 ^ 32 + 8 + 8 + 2 + 4 then
      .error .rejected
    else
      let parents ← copyParents body pc 36
      let pos := 36 + 32 * pc
      let sessionId ← copyOut body pos 8
      let timestampNs ← copyOut body (pos + 8) 8
      let ll := decodeLe (← copyOut body (pos + 16) 2)
      if body.length < pos + 18 + ll + 4 then
        .error .rejected
      else
        let label ← copyOut body (pos + 18) ll
        let policyVersion ← copyOut body (pos + 18 + ll) 4
        .ok {
          treeHash := Hash.ofBytes treeHash
          parents := parents
          sessionId := UInt64.ofNat (decodeLe sessionId)
          timestampNs := UInt64.ofNat (decodeLe timestampNs)
          label := label
          policyVersion := UInt32.ofNat (decodeLe policyVersion) }

theorem copyParents_of_at {body rest : Bytes} {hs : List Hash} {pos : Nat}
    (h : At body pos (hashesBytes hs ++ rest)) : copyParents body hs.length pos = .ok hs := by
  induction hs generalizing pos with
  | nil => rfl
  | cons p hs ih =>
      have hp : At body pos (p.bytes ++ (hashesBytes hs ++ rest)) := by
        simpa [hashesBytes] using h
      simp [copyParents, hp.copyOut_eq p.length_eq, ih (hp.next p.length_eq), bind, Except.bind]

/-- The label as the record keeps it: its length is narrowed to 16 bits. -/
def CommitData.narrowLabel (c : CommitData) : CommitData :=
  { c with label := c.label.take (c.label.length % 2 ^ 16) }

theorem CommitData.narrowLabel_of_lt {c : CommitData} (h : c.label.length < 2 ^ 16) :
    c.narrowLabel = c := by
  rw [narrowLabel, Nat.mod_eq_of_lt h, List.take_length]

@[simp] theorem CommitData.narrowLabel_treeHash (c : CommitData) :
    c.narrowLabel.treeHash = c.treeHash := rfl

@[simp] theorem CommitData.narrowLabel_parents (c : CommitData) :
    c.narrowLabel.parents = c.parents := rfl

theorem decodeLe_uint64 (n : UInt64) : UInt64.ofNat (decodeLe (encodeLe 8 n.toNat)) = n := by
  have hlt : n.toNat < 256 ^ 8 := n.toNat_lt
  rw [decodeLe_encodeLe_of_lt hlt, UInt64.ofNat_toNat]

theorem decodeLe_uint32 (n : UInt32) : UInt32.ofNat (decodeLe (encodeLe 4 n.toNat)) = n := by
  have hlt : n.toNat < 256 ^ 4 := n.toNat_lt
  rw [decodeLe_encodeLe_of_lt hlt, UInt32.ofNat_toNat]

/-- A record whose parent count stays clear of the 32-bit product decodes to the record
with its label narrowed. -/
theorem deserializeCommit_serializeCommit (c : CommitData) (h : c.parents.length < 2 ^ 27) :
    deserializeCommit (serializeCommit c) = .ok c.narrowLabel := by
  have hll : c.label.length % 2 ^ 16 ≤ c.label.length := Nat.mod_le _ _
  have htake : (c.label.take (c.label.length % 2 ^ 16)).length = c.label.length % 2 ^ 16 :=
    List.length_take_of_le hll
  have hpc : decodeLe (encodeLe 4 c.parents.length) = c.parents.length :=
    decodeLe_encodeLe_of_lt (by omega)
  have hlabel : decodeLe (encodeLe 2 c.label.length) = c.label.length % 2 ^ 16 :=
    decodeLe_encodeLe 2 _
  have hmul : c.parents.length * 32 % 2 ^ 32 = c.parents.length * 32 :=
    Nat.mod_eq_of_lt (by omega)
  set body := serializeCommit c with hbody
  -- one `At` for each field, in wire order
  have a0 : At body 0 (c.treeHash.bytes ++ _) := at_zero body
  have a1 := a0.next c.treeHash.length_eq
  have a2 := a1.next (length_encodeLe _ _)
  have a3 := a2.next (length_hashesBytes _)
  have a4 := a3.next (length_encodeLe _ _)
  have a5 := a4.next (length_encodeLe _ _)
  have a6 := a5.next (length_encodeLe _ _)
  have a7 := a6.next htake
  have hlen := a6.length_eq
  simp only [List.length_append, htake, length_encodeLe, List.length_replicate] at hlen
  have hsize1 : ¬ body.length < 32 + 4 := by omega
  have hsize2 : ¬ body.length < 36 + c.parents.length * 32 % 2 ^ 32 + 8 + 8 + 2 + 4 := by
    rw [hmul]
    omega
  have hsize3 : ¬ body.length < 36 + 32 * c.parents.length + 18 + c.label.length % 2 ^ 16 + 4 := by
    omega
  have h0 := a0.copyOut_eq c.treeHash.length_eq
  have h1 := a1.copyOut_eq (length_encodeLe _ _)
  have h2 := copyParents_of_at a2
  have h3 := a3.copyOut_eq (length_encodeLe _ _)
  have h4 := a4.copyOut_eq (length_encodeLe _ _)
  have h5 := a5.copyOut_eq (length_encodeLe _ _)
  have h6 := a6.copyOut_eq htake
  have h7 := a7.copyOut_eq (length_encodeLe _ _)
  simp only [Nat.zero_add, Nat.reduceAdd, Nat.add_assoc] at h0 h1 h2 h3 h4 h5 h6 h7 hsize1 hsize2 hsize3
  simp only [deserializeCommit, Nat.add_assoc, Nat.reduceAdd, if_neg hsize1, h0, h1, hpc, if_neg hsize2,
    h2, h3, h4, h5, hlabel, if_neg hsize3, h6, h7, bind, Except.bind, Hash.ofBytes_bytes,
    decodeLe_uint64, decodeLe_uint32]
  rfl

end ContextFS
