import ContextFS.Store.ObjectStore
import ContextFS.Tree.WorkingTree

/-!
# Tree objects

The body of a tree object is a count followed by the entries of one directory in the order of
their names.  The count is a `uint32_t` and each name length a `uint16_t`; what does not fit is
cut off when the object is written, so the decoder sees a prefix of the sorted entries with
every name narrowed.
-/

namespace ContextFS

open Lib

/-- One child of a directory: its name and its entry. -/
abbrev DirEntry := Name × WorkingTreeEntry

/-- One record of a tree object. -/
def serializeEntry (child : DirEntry) : Bytes :=
  encodeLe 2 child.1.length ++ (child.1.take (child.1.length % 2 ^ 16) ++
    (encodeLe 4 child.2.mode.toNat ++ ([child.2.kind.toByte] ++ child.2.hash.bytes)))

/-- The order `std::sort` puts the children in. -/
def sortByName (children : List DirEntry) : List DirEntry :=
  children.insertionSort fun a b => compare a.1 b.1 ≠ .gt

/-- `serialize_tree_entries`. -/
def serializeTreeEntries (children : List DirEntry) : Bytes :=
  encodeLe 4 children.length ++ (sortByName children).flatMap serializeEntry

/-- The loop of `deserialize_tree_entries`: `count` records from `pos` on. -/
def deserializeEntries (body : Bytes) : Nat → Nat → Option (List DirEntry)
  | 0, _ => some []
  | count + 1, pos =>
      if body.length < pos + 2 then none
      else
        let nameLen := decodeLe (slice body pos 2)
        if body.length < pos + 2 + nameLen + 4 + 1 + 32 then none
        else
          let name := slice body (pos + 2) nameLen
          let mode := UInt32.ofNat (decodeLe (slice body (pos + 2 + nameLen) 4))
          let kind := EntryKind.ofByte ((slice body (pos + 2 + nameLen + 4) 1).headD 0)
          let hash := Hash.ofBytes (slice body (pos + 2 + nameLen + 4 + 1) 32)
          match deserializeEntries body count (pos + 2 + nameLen + 4 + 1 + 32) with
          | none => none
          | some rest => some ((name, ⟨kind, hash, mode⟩) :: rest)

/-- `deserialize_tree_entries`. -/
def deserializeTreeEntries (body : Bytes) : Option (List DirEntry) :=
  if body.length < 4 then none else deserializeEntries body (decodeLe (slice body 0 4)) 4

/-! ## What is read back -/

/-- A child under the name its record keeps. -/
def narrowName (child : DirEntry) : DirEntry :=
  (child.1.take (child.1.length % 2 ^ 16), child.2)

theorem narrowName_of_lt {child : DirEntry} (h : child.1.length < 2 ^ 16) :
    narrowName child = child := by
  rw [narrowName, Nat.mod_eq_of_lt h, List.take_length]

theorem deserializeEntries_of_at {body : Bytes} {children : List DirEntry} {pos count : Nat}
    (hcount : count ≤ children.length) (rest : Bytes)
    (h : At body pos (children.flatMap serializeEntry ++ rest)) :
    deserializeEntries body count pos = some ((children.take count).map narrowName) := by
  induction count generalizing children pos with
  | zero => simp [deserializeEntries]
  | succ count ih =>
      cases children with
      | nil => simp at hcount
      | cons child children =>
          have hll : child.1.length % 2 ^ 16 ≤ child.1.length := Nat.mod_le _ _
          have htake : (child.1.take (child.1.length % 2 ^ 16)).length = child.1.length % 2 ^ 16 :=
            List.length_take_of_le hll
          have hlen : decodeLe (encodeLe 2 child.1.length) = child.1.length % 2 ^ 16 :=
            decodeLe_encodeLe 2 _
          -- one `At` for each field, in wire order
          have a0 : At body pos (encodeLe 2 child.1.length ++
              (child.1.take (child.1.length % 2 ^ 16) ++ (encodeLe 4 child.2.mode.toNat ++
                ([child.2.kind.toByte] ++ (child.2.hash.bytes ++
                  (children.flatMap serializeEntry ++ rest)))))) := by
            simpa [serializeEntry] using h
          have a1 := a0.next (length_encodeLe _ _)
          have a2 := a1.next htake
          have a3 := a2.next (length_encodeLe _ _)
          have a4 := a3.next (List.length_singleton)
          have a5 := a4.next child.2.hash.length_eq
          have hle := a4.add_length_le
          rw [child.2.hash.length_eq] at hle
          have hsize1 : ¬ body.length < pos + 2 := by omega
          have hsize2 : ¬ body.length < pos + 2 + child.1.length % 2 ^ 16 + 4 + 1 + 32 := by omega
          have hrest := ih (by simpa using hcount) a5
          simp only [deserializeEntries, if_neg hsize1, a0.slice_eq (length_encodeLe _ _), hlen,
            if_neg hsize2, a1.slice_eq htake, a2.slice_eq (length_encodeLe _ _),
            a3.slice_eq (List.length_singleton), a4.slice_eq child.2.hash.length_eq, hrest,
            List.headD_cons, EntryKind.ofByte_toByte, Hash.ofBytes_bytes, decodeLe_uint32,
            List.take_succ_cons, List.map_cons]
          rfl

/-- A tree object holds the children in name order, cut to the count and with their names
narrowed. -/
theorem deserializeTreeEntries_serializeTreeEntries (children : List DirEntry) :
    deserializeTreeEntries (serializeTreeEntries children) =
      some (((sortByName children).take (children.length % 2 ^ 32)).map narrowName) := by
  have a0 : At (serializeTreeEntries children) 0
      (encodeLe 4 children.length ++ (sortByName children).flatMap serializeEntry) := at_zero _
  have a1 := a0.next (length_encodeLe _ _)
  have hcount : decodeLe (encodeLe 4 children.length) = children.length % 2 ^ 32 :=
    decodeLe_encodeLe 4 _
  have hlen : ¬ (serializeTreeEntries children).length < 4 := by
    simp [serializeTreeEntries]
  have hle : children.length % 2 ^ 32 ≤ (sortByName children).length := by
    rw [sortByName, List.length_insertionSort]
    exact Nat.mod_le _ _
  rw [deserializeTreeEntries, if_neg hlen, a0.slice_eq (length_encodeLe _ _), hcount]
  exact deserializeEntries_of_at hle [] (by simpa using a1)

/-- With short names and a count that fits, exactly the children come back. -/
theorem mem_deserializeTreeEntries {children es : List DirEntry}
    (hname : ∀ c ∈ children, c.1.length < 2 ^ 16) (hcount : children.length < 2 ^ 32)
    (h : deserializeTreeEntries (serializeTreeEntries children) = some es) (c : DirEntry) :
    c ∈ es ↔ c ∈ children := by
  have hperm : (sortByName children).Perm children := List.perm_insertionSort _ _
  rw [deserializeTreeEntries_serializeTreeEntries, Nat.mod_eq_of_lt hcount,
    Option.some.injEq, ← hperm.length_eq, List.take_length] at h
  rw [← h, List.mem_map]
  constructor
  · rintro ⟨d, hd, rfl⟩
    have hdc := hperm.mem_iff.1 hd
    rwa [narrowName_of_lt (hname d hdc)]
  · intro hc
    exact ⟨c, hperm.mem_iff.2 hc, narrowName_of_lt (hname c hc)⟩

/-- In any case an entry that comes back is the entry of some child. -/
theorem exists_of_mem_deserializeTreeEntries {children es : List DirEntry}
    (h : deserializeTreeEntries (serializeTreeEntries children) = some es) {c : DirEntry}
    (hc : c ∈ es) : ∃ d ∈ children, d.2 = c.2 := by
  have hperm : (sortByName children).Perm children := List.perm_insertionSort _ _
  rw [deserializeTreeEntries_serializeTreeEntries, Option.some.injEq] at h
  rw [← h, List.mem_map] at hc
  obtain ⟨d, hd, rfl⟩ := hc
  exact ⟨d, hperm.mem_iff.1 (List.mem_of_mem_take hd), rfl⟩

end ContextFS
