import ContextFS.Store.Commit

/-!
# The content-addressed object store

An object file holds a type tag and a body in one string and lies at the path named by the
hash of that string.  The store remembers which of its objects are *pending*: renamed into
place, but not yet made durable by an fsync of the file and of its shard directory.

`adopt` and `publish` are the two critical sections of `write_object`, each one atomic step
under `pending_mu_`; everything the writer does between them touches only its own temporary
file.  Other threads write too: `others` lists, for each coming critical section of this
thread, what they publish before it.  `faults` lists how the coming disk operations end and
`durable` is the state of the disk behind the page cache.  `collided` is set when a write
finds other content under its hash; no function reads it.
-/

namespace ContextFS

open Std Lib

/-- The type tag an object file starts with. -/
inductive ObjectTag
  | blob
  | tree
  | commit
deriving DecidableEq

/-- `"blob"`, `"tree"` and `"commit"`. -/
def ObjectTag.bytes : ObjectTag → Bytes
  | .blob => [98, 108, 111, 98]
  | .tree => [116, 114, 101, 101]
  | .commit => [99, 111, 109, 109, 105, 116]

/-- An object file: its content and its modification time in seconds. -/
structure ObjectFile where
  raw : Bytes
  mtime : Int
deriving DecidableEq

/-- A set of object hashes. -/
abbrev HashSet := ExtTreeSet Hash

structure ObjectStore where
  objects : ExtTreeMap Hash ObjectFile := ∅
  pending : HashSet := ∅
  durable : HashSet := ∅
  now : Int := 0
  faults : List (Option String) := []
  others : List (List (ObjectTag × Bytes)) := []
  lastError : String := ""
  collided : Bool := false

namespace ObjectStore

/-- How the next disk operation ends: `none` is success. -/
def nextFault (s : ObjectStore) : Option String × ObjectStore :=
  match s.faults with
  | [] => (none, s)
  | f :: fs => (f, { s with faults := fs })

/-- `write_object` clears the error text before it touches the disk. -/
def startWrite (s : ObjectStore) : Option String × ObjectStore :=
  { s with lastError := "" }.nextFault

/-- First critical section of `write_object`: an object already at its path is adopted by
refreshing its modification time. -/
def adopt (s : ObjectStore) (h : Hash) (raw : Bytes) : Option ObjectStore :=
  match s.objects[h]? with
  | none => none
  | some f => some {
      s with
      objects := s.objects.insert h { f with mtime := s.now }
      collided := s.collided || f.raw != raw }

/-- Second critical section: adopt what another writer published meanwhile, or rename the
temporary file into place and record it as pending. -/
def publish (s : ObjectStore) (h : Hash) (raw : Bytes) : ObjectStore :=
  match s.adopt h raw with
  | some s' => s'
  | none => {
      s with
      objects := s.objects.insert h ⟨raw, s.now⟩
      pending := s.pending.insert h }

/-- The hash `write_object` computes. -/
def objectHash [Blake3] (tag : ObjectTag) (body : Bytes) : Hash :=
  digest (tag.bytes ++ body)

/-- What the other threads publish before the next critical section. -/
def interleave [Blake3] (s : ObjectStore) : ObjectStore :=
  match s.others with
  | [] => s
  | batch :: rest =>
      batch.foldl (fun s w => s.publish (objectHash w.1 w.2) (w.1.bytes ++ w.2))
        { s with others := rest }

/-- `write_object`. -/
def writeObject [Blake3] (s : ObjectStore) (tag : ObjectTag) (body : Bytes) : ObjectStore × Hash :=
  let raw := tag.bytes ++ body
  let h := objectHash tag body
  match s.startWrite with
  | (some err, s) => ({ s with lastError := err }, zeroHash)
  | (none, s) =>
      match s.interleave.adopt h raw with
      | some s' => (s', h)
      | none => (s.interleave.interleave.publish h raw, h)

/-- The body `write_blob` hashes: the size in 64 bits, then the content. -/
def blobBody (data : Bytes) : Bytes := encodeLe 8 data.length ++ data

def writeBlob [Blake3] (s : ObjectStore) (data : Bytes) : ObjectStore × Hash :=
  s.writeObject .blob (blobBody data)

def writeTree [Blake3] (s : ObjectStore) (serialized : Bytes) : ObjectStore × Hash :=
  s.writeObject .tree serialized

def writeCommit [Blake3] (s : ObjectStore) (serialized : Bytes) : ObjectStore × Hash :=
  s.writeObject .commit serialized

/-- `read_object`: the file must start with the expected tag. -/
def readObject (s : ObjectStore) (h : Hash) (expectedTag : ObjectTag) : Option Bytes :=
  match s.objects[h]? with
  | none => none
  | some f =>
      if expectedTag.bytes.isPrefixOf f.raw then some (f.raw.drop expectedTag.bytes.length)
      else none

/-- `read_blob`: the recorded size must be the size of what follows it. -/
def readBlob (s : ObjectStore) (h : Hash) : Option Bytes :=
  match s.readObject h .blob with
  | none => none
  | some body =>
      if body.length < 8 then none
      else if body.length - 8 ≠ decodeLe (slice body 0 8) then none
      else some (body.drop 8)

def readTree (s : ObjectStore) (h : Hash) : Option Bytes := s.readObject h .tree

/-- `read_commit` followed by `deserialize_commit`, as every caller pairs them. -/
def readCommit (s : ObjectStore) (h : Hash) : Option CommitData :=
  match s.readObject h .commit with
  | none => none
  | some body => (deserializeCommit body).toOption

def objectExists (s : ObjectStore) (h : Hash) : Bool := s.objects.contains h

/-- `drain_pending`. -/
def drainPending [Blake3] (s : ObjectStore) : List Hash × ObjectStore :=
  (s.interleave.pending.toList, { s.interleave with pending := ∅ })

/-- `restore_pending`. -/
def restorePending (s : ObjectStore) (hashes : List Hash) : ObjectStore :=
  { s with pending := s.pending.insertMany hashes }

/-- `fsync_objects`: every file must open. -/
def fsyncObjects [Blake3] (s : ObjectStore) (hashes : List Hash) : Bool × ObjectStore :=
  match s.interleave.nextFault with
  | (some _, s) => (false, s)
  | (none, s) => (hashes.all fun h => s.objects.contains h, s)

/-- `fsync_shard_dirs`, called after `fsync_objects` on the same hashes: from here on the
files survive a crash. -/
def fsyncShardDirs [Blake3] (s : ObjectStore) (hashes : List Hash) : Bool × ObjectStore :=
  match s.interleave.nextFault with
  | (some _, s) => (false, s)
  | (none, s) => (true, { s with durable := s.durable.insertMany hashes })

/-- `fsync_pending`: only the requested objects leave the pending set. -/
def fsyncPending [Blake3] (s : ObjectStore) (hashes : List Hash) : Option String × ObjectStore :=
  match s.fsyncObjects hashes with
  | (false, s) => (some "failed to fsync pending objects", s)
  | (true, s) =>
      match s.fsyncShardDirs hashes with
      | (false, s) => (some "failed to fsync pending object shard dirs", s)
      | (true, s) => (none, { s with pending := s.pending.eraseMany hashes })

/-- `for_each_object`: hash, file size and modification time of every object. -/
def objectList (s : ObjectStore) : List (Hash × Nat × Int) :=
  s.objects.toList.map fun (h, f) => (h, f.raw.length, f.mtime)

inductive RemoveResult
  | removed
  | skipped
  | error
deriving DecidableEq

/-- `remove_object_if_older_than`: a pending object, a missing one and one touched at or
after the fence stay. -/
def removeObjectIfOlderThan (s : ObjectStore) (h : Hash) (fence : Int) :
    RemoveResult × ObjectStore :=
  if s.pending.contains h then (.skipped, s)
  else
    match s.nextFault with
    | (some err, s) => (.error, { s with lastError := err })
    | (none, s) =>
        match s.objects[h]? with
        | none => (.skipped, s)
        | some f =>
            if fence ≤ f.mtime then (.skipped, s)
            else (.removed, { s with objects := s.objects.erase h })

/-! ## What a write can do -/

@[simp] theorem nextFault_objects (s : ObjectStore) : s.nextFault.2.objects = s.objects := by
  unfold nextFault
  split <;> rfl

@[simp] theorem nextFault_pending (s : ObjectStore) : s.nextFault.2.pending = s.pending := by
  unfold nextFault
  split <;> rfl

@[simp] theorem nextFault_durable (s : ObjectStore) : s.nextFault.2.durable = s.durable := by
  unfold nextFault
  split <;> rfl

@[simp] theorem nextFault_now (s : ObjectStore) : s.nextFault.2.now = s.now := by
  unfold nextFault
  split <;> rfl

@[simp] theorem nextFault_collided (s : ObjectStore) : s.nextFault.2.collided = s.collided := by
  unfold nextFault
  split <;> rfl

@[simp] theorem startWrite_objects (s : ObjectStore) : s.startWrite.2.objects = s.objects := by
  simp [startWrite]

@[simp] theorem startWrite_pending (s : ObjectStore) : s.startWrite.2.pending = s.pending := by
  simp [startWrite]

@[simp] theorem startWrite_durable (s : ObjectStore) : s.startWrite.2.durable = s.durable := by
  simp [startWrite]

@[simp] theorem startWrite_now (s : ObjectStore) : s.startWrite.2.now = s.now := by
  simp [startWrite]

@[simp] theorem startWrite_collided (s : ObjectStore) : s.startWrite.2.collided = s.collided := by
  simp [startWrite]

/-- `s'` still holds every object of `s`, content unchanged. -/
structure Extends (s s' : ObjectStore) : Prop where
  raw_eq : ∀ {h : Hash} {f : ObjectFile}, s.objects[h]? = some f →
    ∃ f', s'.objects[h]? = some f' ∧ f'.raw = f.raw
  collided_eq : s'.collided = false → s.collided = false

@[refl] theorem Extends.refl (s : ObjectStore) : Extends s s :=
  ⟨fun hf => ⟨_, hf, rfl⟩, id⟩

theorem Extends.trans {s₁ s₂ s₃ : ObjectStore} (h₁₂ : Extends s₁ s₂) (h₂₃ : Extends s₂ s₃) :
    Extends s₁ s₃ := by
  refine ⟨fun hf => ?_, fun hc => h₁₂.collided_eq (h₂₃.collided_eq hc)⟩
  obtain ⟨f₂, hf₂, hraw₂⟩ := h₁₂.raw_eq hf
  obtain ⟨f₃, hf₃, hraw₃⟩ := h₂₃.raw_eq hf₂
  exact ⟨f₃, hf₃, hraw₃.trans hraw₂⟩

theorem Extends.of_objects_eq {s s' : ObjectStore} (hobj : s'.objects = s.objects)
    (hcol : s'.collided = s.collided) : Extends s s' :=
  ⟨fun hf => ⟨_, hobj ▸ hf, rfl⟩, fun hc => hcol ▸ hc⟩

theorem Extends.readObject {s s' : ObjectStore} (he : Extends s s') {h : Hash} {tag : ObjectTag}
    {body : Bytes} (hr : s.readObject h tag = some body) : s'.readObject h tag = some body := by
  unfold ObjectStore.readObject at hr ⊢
  cases hf : s.objects[h]? with
  | none => simp [hf] at hr
  | some f =>
      obtain ⟨f', hf', hraw⟩ := he.raw_eq hf
      simpa [hf, hf', hraw] using hr

theorem Extends.readTree {s s' : ObjectStore} (he : Extends s s') {h : Hash} {body : Bytes}
    (hr : s.readTree h = some body) : s'.readTree h = some body :=
  he.readObject hr

theorem Extends.readCommit {s s' : ObjectStore} (he : Extends s s') {h : Hash} {c : CommitData}
    (hr : s.readCommit h = some c) : s'.readCommit h = some c := by
  unfold ObjectStore.readCommit at hr ⊢
  cases hb : s.readObject h .commit with
  | none => simp [hb] at hr
  | some body =>
      rw [he.readObject hb]
      simpa [hb] using hr

theorem Extends.readBlob {s s' : ObjectStore} (he : Extends s s') {h : Hash} {data : Bytes}
    (hr : s.readBlob h = some data) : s'.readBlob h = some data := by
  unfold ObjectStore.readBlob at hr ⊢
  cases hb : s.readObject h .blob with
  | none => simp [hb] at hr
  | some body =>
      rw [he.readObject hb]
      simpa [hb] using hr

theorem adopt_eq_some {s s' : ObjectStore} {h : Hash} {raw : Bytes} (ha : s.adopt h raw = some s') :
    ∃ f, s.objects[h]? = some f ∧ s' = {
      s with
      objects := s.objects.insert h { f with mtime := s.now }
      collided := s.collided || f.raw != raw } := by
  unfold adopt at ha
  cases hf : s.objects[h]? with
  | none => simp [hf] at ha
  | some f =>
      simp only [hf, Option.some.injEq] at ha
      exact ⟨f, rfl, ha.symm⟩

theorem adopt_eq_none {s : ObjectStore} {h : Hash} {raw : Bytes} :
    s.adopt h raw = none ↔ s.objects[h]? = none := by
  unfold adopt
  cases s.objects[h]? <;> simp

theorem extends_adopt {s s' : ObjectStore} {h : Hash} {raw : Bytes} (ha : s.adopt h raw = some s') :
    Extends s s' := by
  obtain ⟨f, hf, rfl⟩ := adopt_eq_some ha
  refine ⟨fun {k g} hg => ?_, fun hc => ?_⟩
  · by_cases hk : h = k
    · subst hk
      rw [hf, Option.some.injEq] at hg
      exact ⟨{ f with mtime := s.now }, by simp, by simp [hg]⟩
    · exact ⟨g, by simp [ExtTreeMap.getElem?_insert, hk, hg], rfl⟩
  · simp only [Bool.or_eq_false_iff] at hc
    exact hc.1

theorem publish_of_getElem?_eq_none {s : ObjectStore} {h : Hash} (raw : Bytes)
    (hn : s.objects[h]? = none) :
    s.publish h raw = {
      s with
      objects := s.objects.insert h ⟨raw, s.now⟩
      pending := s.pending.insert h } := by
  simp [publish, adopt, hn]

theorem extends_publish (s : ObjectStore) (h : Hash) (raw : Bytes) : Extends s (s.publish h raw) := by
  cases ha : s.adopt h raw with
  | some s' => simpa [publish, ha] using extends_adopt ha
  | none =>
      have hn := adopt_eq_none.1 ha
      rw [publish_of_getElem?_eq_none raw hn]
      refine ⟨fun {k g} hg => ?_, id⟩
      have hk : h ≠ k := by
        rintro rfl
        simp [hn] at hg
      exact ⟨g, by simp [ExtTreeMap.getElem?_insert, hk, hg], rfl⟩

/-- After its critical section the object is in place; without a collision it holds the
writer's content. -/
theorem exists_raw_publish (s : ObjectStore) (h : Hash) (raw : Bytes) :
    ∃ f, (s.publish h raw).objects[h]? = some f ∧
      ((s.publish h raw).collided = false → f.raw = raw) := by
  cases ha : s.adopt h raw with
  | some s' =>
      obtain ⟨f, -, rfl⟩ := adopt_eq_some ha
      refine ⟨{ f with mtime := s.now }, by simp [publish, ha], fun hc => ?_⟩
      simp only [publish, ha, Bool.or_eq_false_iff] at hc
      simpa using hc.2
  | none =>
      rw [publish_of_getElem?_eq_none raw (adopt_eq_none.1 ha)]
      exact ⟨⟨raw, s.now⟩, by simp, fun _ => rfl⟩

section Write

variable [Blake3]

/-- `s'` is `s` after any number of publications: objects, pending and durable only grow, and
what was published is pending unless it was there before. -/
structure Published (s s' : ObjectStore) : Prop where
  extends_ : Extends s s'
  durable_eq : s'.durable = s.durable
  pending_of_pending : ∀ {h : Hash}, h ∈ s.pending → h ∈ s'.pending
  pending_of_new : ∀ {h : Hash}, h ∈ s'.objects → h ∉ s.objects → h ∈ s'.pending
  new_of_pending : ∀ {h : Hash}, h ∈ s'.pending → h ∉ s.pending → h ∈ s'.objects ∧ h ∉ s.objects

omit [Blake3] in
@[refl] theorem Published.refl (s : ObjectStore) : Published s s :=
  ⟨.refl s, rfl, id, fun h hn => absurd h hn, fun h hn => absurd h hn⟩

omit [Blake3] in
theorem Extends.mem {s s' : ObjectStore} (he : Extends s s') {h : Hash} (hm : h ∈ s.objects) :
    h ∈ s'.objects := by
  rw [ExtTreeMap.mem_iff_isSome_getElem?] at hm ⊢
  obtain ⟨f, hf⟩ := Option.isSome_iff_exists.1 hm
  obtain ⟨f', hf', -⟩ := he.raw_eq hf
  simp [hf']

omit [Blake3] in
theorem Published.trans {s₁ s₂ s₃ : ObjectStore} (h₁₂ : Published s₁ s₂)
    (h₂₃ : Published s₂ s₃) : Published s₁ s₃ where
  extends_ := h₁₂.extends_.trans h₂₃.extends_
  durable_eq := h₂₃.durable_eq.trans h₁₂.durable_eq
  pending_of_pending := fun h => h₂₃.pending_of_pending (h₁₂.pending_of_pending h)
  pending_of_new := by
    intro h hm hn
    by_cases h₂ : h ∈ s₂.objects
    · exact h₂₃.pending_of_pending (h₁₂.pending_of_new h₂ hn)
    · exact h₂₃.pending_of_new hm h₂
  new_of_pending := by
    intro h hp hn
    by_cases h₂ : h ∈ s₂.pending
    · obtain ⟨hm, hnew⟩ := h₁₂.new_of_pending h₂ hn
      exact ⟨h₂₃.extends_.mem hm, hnew⟩
    · obtain ⟨hm, hnew⟩ := h₂₃.new_of_pending hp h₂
      exact ⟨hm, fun hm₁ => hnew (h₁₂.extends_.mem hm₁)⟩

omit [Blake3] in
/-- A step that leaves objects, pending, durable and the collision bit alone. -/
theorem Published.of_eq {s s' : ObjectStore} (hobj : s'.objects = s.objects)
    (hpend : s'.pending = s.pending) (hdur : s'.durable = s.durable)
    (hcol : s'.collided = s.collided) : Published s s' where
  extends_ := .of_objects_eq hobj hcol
  durable_eq := hdur
  pending_of_pending := fun h => hpend ▸ h
  pending_of_new := fun h hn => absurd (hobj ▸ h) hn
  new_of_pending := fun h hn => absurd (hpend ▸ h) hn

omit [Blake3] in
theorem published_publish (s : ObjectStore) (h : Hash) (raw : Bytes) :
    Published s (s.publish h raw) := by
  cases ha : s.adopt h raw with
  | some s' =>
      have hs : s.publish h raw = s' := by simp [publish, ha]
      obtain ⟨f, hf, rfl⟩ := adopt_eq_some ha
      rw [hs]
      have hkey : h ∈ s.objects := by
        rw [ExtTreeMap.mem_iff_isSome_getElem?, hf]
        rfl
      refine ⟨extends_adopt ha, rfl, id, fun {k} hk hn => ?_, fun hk hn => absurd hk hn⟩
      rcases (ExtTreeMap.mem_insert.1 hk) with hcmp | hk
      · exact absurd (LawfulEqCmp.eq_of_compare hcmp ▸ hkey) hn
      · exact absurd hk hn
  | none =>
      have hs := publish_of_getElem?_eq_none raw (adopt_eq_none.1 ha)
      refine ⟨extends_publish s h raw, by rw [hs], fun {k} hk => ?_, fun {k} hk hn => ?_,
        fun {k} hk hn => ?_⟩
      · rw [hs]
        exact ExtTreeSet.mem_insert.2 (Or.inr hk)
      · rw [hs] at hk ⊢
        rcases (ExtTreeMap.mem_insert.1 hk) with hcmp | hk
        · exact ExtTreeSet.mem_insert.2 (Or.inl hcmp)
        · exact absurd hk hn
      · rw [hs] at hk ⊢
        rcases (ExtTreeSet.mem_insert.1 hk) with hcmp | hk
        · refine ⟨ExtTreeMap.mem_insert.2 (Or.inl hcmp), ?_⟩
          rw [← LawfulEqCmp.eq_of_compare hcmp, ExtTreeMap.mem_iff_isSome_getElem?,
            adopt_eq_none.1 ha]
          simp
        · exact absurd hk hn

theorem published_foldl_publish (batch : List (ObjectTag × Bytes)) (s : ObjectStore) :
    Published s (batch.foldl
      (fun s w => s.publish (objectHash w.1 w.2) (w.1.bytes ++ w.2)) s) := by
  induction batch generalizing s with
  | nil => exact .refl s
  | cons w batch ih =>
      rw [List.foldl_cons]
      exact (published_publish s _ _).trans (ih _)

theorem published_interleave (s : ObjectStore) : Published s s.interleave := by
  unfold interleave
  split
  · exact .refl s
  · rename_i batch rest _
    have hstart : Published s { s with others := rest } := .of_eq rfl rfl rfl rfl
    exact hstart.trans (published_foldl_publish batch _)

/-- A write fails and publishes nothing of its own, or it publishes its content under its
hash; other threads publish in between. -/
theorem writeObject_cases (s : ObjectStore) (tag : ObjectTag) (body : Bytes) :
    (∃ s₀ err, Published s s₀ ∧ s.writeObject tag body = ({ s₀ with lastError := err }, zeroHash)) ∨
      ∃ s₀, Published s s₀ ∧
        s.writeObject tag body =
          (s₀.publish (objectHash tag body) (tag.bytes ++ body), objectHash tag body) := by
  have hstart : Published s s.startWrite.2 := .of_eq (by simp) (by simp) (by simp) (by simp)
  unfold writeObject
  generalize s.startWrite = start at hstart ⊢
  rcases start with ⟨_ | err, s₀⟩
  · right
    cases ha : s₀.interleave.adopt (objectHash tag body) (tag.bytes ++ body) with
    | some s' =>
        exact ⟨s₀.interleave, hstart.trans (published_interleave _), by simp [publish, ha]⟩
    | none =>
        exact ⟨s₀.interleave.interleave,
          hstart.trans ((published_interleave _).trans (published_interleave _)), by simp [ha]⟩
  · left
    exact ⟨s₀, err, hstart, rfl⟩

theorem published_writeObject (s : ObjectStore) (tag : ObjectTag) (body : Bytes) :
    Published s (s.writeObject tag body).1 := by
  rcases writeObject_cases s tag body with ⟨s₀, err, hs, heq⟩ | ⟨s₀, hs, heq⟩
  · rw [heq]
    exact hs.trans (.of_eq rfl rfl rfl rfl)
  · rw [heq]
    exact hs.trans (published_publish _ _ _)

theorem extends_writeObject (s : ObjectStore) (tag : ObjectTag) (body : Bytes) :
    Extends s (s.writeObject tag body).1 :=
  (published_writeObject s tag body).extends_

theorem writeObject_hash {s : ObjectStore} {tag : ObjectTag} {body : Bytes}
    (hne : (s.writeObject tag body).2 ≠ zeroHash) :
    (s.writeObject tag body).2 = objectHash tag body := by
  rcases writeObject_cases s tag body with ⟨s₀, err, -, heq⟩ | ⟨s₀, -, heq⟩
  · simp [heq] at hne
  · simp [heq]

theorem mem_objects_writeObject {s : ObjectStore} {tag : ObjectTag} {body : Bytes}
    (hne : (s.writeObject tag body).2 ≠ zeroHash) :
    (s.writeObject tag body).2 ∈ (s.writeObject tag body).1.objects := by
  rcases writeObject_cases s tag body with ⟨s₀, err, -, heq⟩ | ⟨s₀, -, heq⟩
  · simp [heq] at hne
  · rw [heq]
    obtain ⟨f, hf, -⟩ := exists_raw_publish s₀ (objectHash tag body) (tag.bytes ++ body)
    rw [ExtTreeMap.mem_iff_isSome_getElem?, hf]
    rfl

/-- What a successful write stored can be read back. -/
theorem readObject_writeObject (s : ObjectStore) (tag : ObjectTag) (body : Bytes)
    (hne : (s.writeObject tag body).2 ≠ zeroHash)
    (hc : (s.writeObject tag body).1.collided = false) :
    (s.writeObject tag body).1.readObject (s.writeObject tag body).2 tag = some body := by
  rcases writeObject_cases s tag body with ⟨s₀, err, -, heq⟩ | ⟨s₀, -, heq⟩
  · simp [heq] at hne
  · rw [heq] at hc ⊢
    obtain ⟨f, hf, hraw⟩ := exists_raw_publish s₀ (objectHash tag body) (tag.bytes ++ body)
    simp [readObject, hf, hraw hc]

theorem readBlob_writeBlob {s : ObjectStore} {data : Bytes} (hlen : data.length < 2 ^ 64)
    (hne : (s.writeBlob data).2 ≠ zeroHash) (hc : (s.writeBlob data).1.collided = false) :
    (s.writeBlob data).1.readBlob (s.writeBlob data).2 = some data := by
  have hr := readObject_writeObject s .blob (blobBody data) hne hc
  have hsize : decodeLe (slice (blobBody data) 0 8) = data.length := by
    have hat : At (blobBody data) 0 (encodeLe 8 data.length ++ data) := at_zero _
    rw [hat.slice_eq (length_encodeLe _ _), decodeLe_encodeLe_of_lt (by simpa using hlen)]
  have hdrop : (blobBody data).drop 8 = data := by
    have hat : At (blobBody data) 0 (encodeLe 8 data.length ++ data) := at_zero _
    exact (hat.next (length_encodeLe _ _)).2
  have hblen : (blobBody data).length = 8 + data.length := by simp [blobBody]
  unfold readBlob writeBlob
  rw [hr]
  simp [hblen, hsize, hdrop]

/-! ## What all files of a store have in common -/

/-- Every object file has the property, and so has every file that another thread is about to
publish. -/
structure Contents (P : Bytes → Prop) (s : ObjectStore) : Prop where
  stored : ∀ {h : Hash} {f : ObjectFile}, s.objects[h]? = some f → P f.raw
  coming : ∀ batch ∈ s.others, ∀ w ∈ batch, P (w.1.bytes ++ w.2)

variable {P : Bytes → Prop}

omit [Blake3] in
theorem Contents.of_eq {s s' : ObjectStore} (hs : Contents P s) (hobj : s'.objects = s.objects)
    (hothers : s'.others = s.others) : Contents P s' where
  stored := fun hf => hs.stored (hobj ▸ hf)
  coming := hothers ▸ hs.coming

omit [Blake3] in
@[simp] theorem nextFault_others (s : ObjectStore) : s.nextFault.2.others = s.others := by
  unfold nextFault
  split <;> rfl

omit [Blake3] in
theorem Contents.adopt {s s' : ObjectStore} (hs : Contents P s) {h : Hash} {raw : Bytes}
    (ha : s.adopt h raw = some s') : Contents P s' := by
  obtain ⟨f, hf, rfl⟩ := adopt_eq_some ha
  refine ⟨fun {k g} hg => ?_, hs.coming⟩
  simp only [ExtTreeMap.getElem?_insert] at hg
  split at hg
  · cases hg
    show P f.raw
    exact hs.stored hf
  · exact hs.stored hg

omit [Blake3] in
theorem Contents.publish {s : ObjectStore} (hs : Contents P s) (h : Hash) {raw : Bytes}
    (hraw : P raw) : Contents P (s.publish h raw) := by
  unfold ObjectStore.publish
  cases ha : s.adopt h raw with
  | some s' => exact hs.adopt ha
  | none =>
      refine ⟨fun {k g} hg => ?_, hs.coming⟩
      simp only [ExtTreeMap.getElem?_insert] at hg
      split at hg
      · cases hg
        exact hraw
      · exact hs.stored hg

theorem Contents.interleave {s : ObjectStore} (hs : Contents P s) :
    Contents P s.interleave := by
  have hfold : ∀ (batch : List (ObjectTag × Bytes)) (s : ObjectStore), Contents P s →
      (∀ w ∈ batch, P (w.1.bytes ++ w.2)) → Contents P
        (batch.foldl (fun s w => s.publish (objectHash w.1 w.2) (w.1.bytes ++ w.2)) s) := by
    intro batch
    induction batch with
    | nil => exact fun _ hs _ => hs
    | cons w batch ih =>
        intro s hs hb
        exact ih _ (hs.publish _ (hb w List.mem_cons_self))
          fun x hx => hb x (List.mem_cons_of_mem w hx)
  unfold ObjectStore.interleave
  cases hothers : s.others with
  | nil => exact hs
  | cons batch rest =>
      have hcoming := hs.coming
      rw [hothers] at hcoming
      exact hfold batch _ ⟨hs.stored, fun b hb => hcoming b (List.mem_cons_of_mem batch hb)⟩
        (hcoming batch List.mem_cons_self)

/-- A write keeps the property when its own file has it. -/
theorem Contents.writeObject {s : ObjectStore} (hs : Contents P s) {tag : ObjectTag}
    {body : Bytes} (hraw : P (tag.bytes ++ body)) : Contents P (s.writeObject tag body).1 := by
  have hstart : Contents P s.startWrite.2 := hs.of_eq (by simp) (by simp [startWrite])
  unfold ObjectStore.writeObject
  generalize s.startWrite = start at hstart ⊢
  rcases start with ⟨_ | err, s₀⟩
  · simp only
    cases ha : s₀.interleave.adopt (objectHash tag body) (tag.bytes ++ body) with
    | some s' => exact hstart.interleave.adopt ha
    | none => exact hstart.interleave.interleave.publish _ hraw
  · exact hstart.of_eq rfl rfl

end Write

end ObjectStore
end ContextFS
