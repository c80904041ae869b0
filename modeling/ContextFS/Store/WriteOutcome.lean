import ContextFS.Store.ObjectStore

/-!
# How a blob write ends

Whether `write_blob` fails, and which file lies under the hash it returns, is settled before it
runs: by the coming disk operation, by the digest of the content and by the file that earlier
writes and other threads have left under that digest.
-/

namespace ContextFS

open Std Lib ObjectStore

namespace ObjectStore

/-- The file of a blob with this content. -/
def blobRaw (data : Bytes) : Bytes := ObjectTag.blob.bytes ++ blobBody data

theorem blobRaw_injective {data data' : Bytes} (h : blobRaw data = blobRaw data') :
    data = data' := by
  have hbody : blobBody data = blobBody data' := List.append_cancel_left h
  have hlen : (encodeLe 8 data.length).length = (encodeLe 8 data'.length).length := by simp
  exact (List.append_inj hbody hlen).2

/-- The object exists and its file is that of a blob with this content. -/
def HoldsBlob (s : ObjectStore) (h : Hash) (data : Bytes) : Prop :=
  ∃ f, s.objects[h]? = some f ∧ f.raw = blobRaw data

theorem HoldsBlob.mono {s s' : ObjectStore} (he : Extends s s') {h : Hash} {data : Bytes}
    (hd : HoldsBlob s h data) : HoldsBlob s' h data := by
  obtain ⟨f, hf, hraw⟩ := hd
  obtain ⟨f', hf', hraw'⟩ := he.raw_eq hf
  exact ⟨f', hf', hraw'.trans hraw⟩

section Outcome

variable [Blake3]

/-- The store when the write has its turn: the disk operation is done, and other threads have
published what they publish until then. -/
def atTurn (s : ObjectStore) : ObjectStore := s.startWrite.2.interleave.interleave

/-- `write_blob` returns the null hash: the disk refuses, or the digest is the null hash. -/
def WriteFails (s : ObjectStore) (written : Bytes) : Prop :=
  s.startWrite.1 ≠ none ∨ objectHash .blob (blobBody written) = zeroHash

/-- Writing `written` leaves a file with the content `data` under its hash: nothing is there yet
and the contents are the same, or the file that is there has that content. -/
def LeavesBlob (s : ObjectStore) (written data : Bytes) : Prop :=
  match s.atTurn.objects[objectHash .blob (blobBody written)]? with
  | none => written = data
  | some f => f.raw = blobRaw data

theorem writeBlob_of_fault {s : ObjectStore} {err : String} (h : s.startWrite.1 = some err)
    (written : Bytes) : (s.writeBlob written).2 = zeroHash := by
  unfold writeBlob writeObject
  generalize hs : s.startWrite = start at h ⊢
  obtain ⟨fault, s₀⟩ := start
  change fault = some err at h
  subst h
  rfl

theorem writeBlob_of_disk {s : ObjectStore} (h : s.startWrite.1 = none) (written : Bytes) :
    (s.writeBlob written).2 = objectHash .blob (blobBody written) := by
  unfold writeBlob writeObject
  generalize hs : s.startWrite = start at h ⊢
  obtain ⟨fault, s₀⟩ := start
  change fault = none at h
  subst h
  simp only
  split <;> rfl

theorem writeBlob_eq_zeroHash_iff (s : ObjectStore) (written : Bytes) :
    (s.writeBlob written).2 = zeroHash ↔ s.WriteFails written := by
  unfold WriteFails
  cases hs : s.startWrite.1 with
  | none => simp [writeBlob_of_disk hs]
  | some err => simp [writeBlob_of_fault hs]

/-- The file under the hash of a write that the disk takes. -/
theorem getElem?_writeBlob {s : ObjectStore} (h : s.startWrite.1 = none) (written : Bytes) :
    ∃ f, (s.writeBlob written).1.objects[objectHash .blob (blobBody written)]? = some f ∧
      f.raw =
        match s.atTurn.objects[objectHash .blob (blobBody written)]? with
        | none => blobRaw written
        | some f => f.raw := by
  have hturn : s.atTurn = s.startWrite.2.interleave.interleave := rfl
  unfold writeBlob writeObject
  generalize hs : s.startWrite = start at h hturn ⊢
  obtain ⟨fault, s₀⟩ := start
  change fault = none at h
  subst h
  change s.atTurn = s₀.interleave.interleave at hturn
  rw [hturn]
  simp only
  generalize hh : objectHash .blob (blobBody written) = k
  cases ha : s₀.interleave.adopt k (ObjectTag.blob.bytes ++ blobBody written) with
  | some s' =>
      obtain ⟨f, hf, rfl⟩ := adopt_eq_some ha
      -- the file was there before the second batch, which keeps it
      obtain ⟨f', hf', hraw⟩ := (published_interleave s₀.interleave).extends_.raw_eq hf
      refine ⟨{ f with mtime := s₀.interleave.now }, by simp, ?_⟩
      rw [hf']
      exact hraw.symm
  | none =>
      cases hf : s₀.interleave.interleave.objects[k]? with
      | none =>
          refine ⟨⟨blobRaw written, s₀.interleave.interleave.now⟩, ?_, rfl⟩
          simp [publish_of_getElem?_eq_none _ hf, blobRaw]
      | some f =>
          refine ⟨{ f with mtime := s₀.interleave.interleave.now }, ?_, rfl⟩
          simp [publish, adopt, hf]

theorem holdsBlob_writeBlob_iff {s : ObjectStore} {written : Bytes}
    (h : ¬ s.WriteFails written) (data : Bytes) :
    HoldsBlob (s.writeBlob written).1 (s.writeBlob written).2 data ↔
      s.LeavesBlob written data := by
  have hdisk : s.startWrite.1 = none := by
    by_contra hne
    exact h (Or.inl hne)
  obtain ⟨f, hf, hraw⟩ := getElem?_writeBlob hdisk written
  unfold HoldsBlob LeavesBlob
  rw [writeBlob_of_disk hdisk, hf]
  cases hturn : s.atTurn.objects[objectHash .blob (blobBody written)]? with
  | none =>
      rw [hturn] at hraw
      constructor
      · rintro ⟨f', hf', hraw'⟩
        cases hf'
        exact blobRaw_injective (hraw.symm.trans hraw')
      · rintro rfl
        exact ⟨f, rfl, hraw⟩
  | some g =>
      rw [hturn] at hraw
      constructor
      · rintro ⟨f', hf', hraw'⟩
        cases hf'
        exact hraw.symm.trans hraw'
      · intro hg
        exact ⟨f, rfl, hraw.trans hg⟩

/-- A write that meets no file of other content under its digest leaves its own. -/
theorem holdsBlob_writeBlob {s : ObjectStore} {data : Bytes} (hne : (s.writeBlob data).2 ≠ zeroHash)
    (hc : (s.writeBlob data).1.collided = false) :
    HoldsBlob (s.writeBlob data).1 (s.writeBlob data).2 data := by
  unfold writeBlob at hne hc ⊢
  rcases writeObject_cases s .blob (blobBody data) with ⟨s₀, err, -, heq⟩ | ⟨s₀, -, heq⟩
  · rw [heq] at hne
    exact (hne rfl).elim
  · rw [heq] at hc ⊢
    obtain ⟨f, hf, hraw⟩ := exists_raw_publish s₀ (objectHash .blob (blobBody data))
      (ObjectTag.blob.bytes ++ blobBody data)
    exact ⟨f, hf, hraw hc⟩

end Outcome

end ObjectStore
end ContextFS
