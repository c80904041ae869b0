import ContextFS.Lib.LittleEndian

/-!
# Readers that log what they read

A decoder that copies blocks out of a byte string is run with a log of the blocks it asks for.
A block that leaves the string ends the run with the reader's own fault, so the log says which
indices the decoder reads and the result says how it stops.  Two kinds of rules go with the
combinators: `Watched` relates the log to the fault, and `Consumes` says which bytes an
accepting run has gone through, one block after the other.
-/

namespace ContextFS.Lib

/-- A copied block of `n` bytes is a word of that width. -/
theorem decodeLe_lt_of_length {bs : Bytes} {n : Nat} (h : bs.length = n) :
    decodeLe bs < 256 ^ n :=
  h ▸ decodeLe_lt bs

theorem encodeLe_decodeLe_of_length {bs : Bytes} {n : Nat} (h : bs.length = n) :
    encodeLe n (decodeLe bs) = bs :=
  h ▸ encodeLe_decodeLe bs

/-- One copy: `n` bytes at offset `pos`. -/
structure Block where
  pos : Nat
  n : Nat
deriving DecidableEq, Repr

/-- Every byte index of the block is smaller than `size`. -/
def Block.InBounds (size : Nat) (b : Block) : Prop :=
  ∀ i < b.n, b.pos + i < size

theorem Block.inBounds_iff {size : Nat} {b : Block} :
    b.InBounds size ↔ b.n = 0 ∨ b.pos + b.n ≤ size := by
  constructor
  · intro h
    rcases Nat.eq_zero_or_pos b.n with hn | hn
    · exact Or.inl hn
    · have hlast := h (b.n - 1) (by omega)
      exact Or.inr (by omega)
  · intro h i hi
    rcases h with hn | hle
    · omega
    · omega

/-- The blocks a run asks for, in order, and what it comes to. -/
structure Traced (ε α : Type) where
  reads : List Block
  result : Except ε α

namespace Traced

variable {ε α β : Type}

instance : Monad (Traced ε) where
  pure a := ⟨[], .ok a⟩
  bind t f :=
    match t.result with
    | .error e => ⟨t.reads, .error e⟩
    | .ok a => ⟨t.reads ++ (f a).reads, (f a).result⟩

/-- Stop without reading further. -/
def stop (e : ε) : Traced ε α := ⟨[], .error e⟩

/-- Copy `n` bytes at `pos` out of `body`. -/
def load (fault : ε) (body : Bytes) (pos n : Nat) : Traced ε Bytes :=
  ⟨[⟨pos, n⟩], if pos + n ≤ body.length then .ok (slice body pos n) else .error fault⟩

@[simp] theorem reads_pure (a : α) : (pure a : Traced ε α).reads = [] := rfl

@[simp] theorem result_pure (a : α) : (pure a : Traced ε α).result = .ok a := rfl

@[simp] theorem reads_stop (e : ε) : (stop e : Traced ε α).reads = [] := rfl

@[simp] theorem result_stop (e : ε) : (stop e : Traced ε α).result = .error e := rfl

/-- Running is a homomorphism into `Except`. -/
@[simp] theorem result_bind (t : Traced ε α) (f : α → Traced ε β) :
    (t >>= f).result = t.result >>= fun a => (f a).result := by
  cases h : t.result with
  | error e =>
      show (match t.result with
        | .error e => (⟨t.reads, .error e⟩ : Traced ε β)
        | .ok a => ⟨t.reads ++ (f a).reads, (f a).result⟩).result = _
      rw [h]
      rfl
  | ok a =>
      show (match t.result with
        | .error e => (⟨t.reads, .error e⟩ : Traced ε β)
        | .ok a => ⟨t.reads ++ (f a).reads, (f a).result⟩).result = _
      rw [h]
      rfl

theorem bind_of_error {t : Traced ε α} {e : ε} (h : t.result = .error e) (f : α → Traced ε β) :
    t >>= f = ⟨t.reads, .error e⟩ := by
  show (match t.result with
    | .error e => (⟨t.reads, .error e⟩ : Traced ε β)
    | .ok a => ⟨t.reads ++ (f a).reads, (f a).result⟩) = _
  rw [h]

theorem bind_of_ok {t : Traced ε α} {a : α} (h : t.result = .ok a) (f : α → Traced ε β) :
    t >>= f = ⟨t.reads ++ (f a).reads, (f a).result⟩ := by
  show (match t.result with
    | .error e => (⟨t.reads, .error e⟩ : Traced ε β)
    | .ok a => ⟨t.reads ++ (f a).reads, (f a).result⟩) = _
  rw [h]

/-! ## The log and the fault -/

/-- All the indices read are inside a string of `size` bytes. -/
def InBounds (size : Nat) (t : Traced ε α) : Prop :=
  ∀ b ∈ t.reads, b.InBounds size

/-- The fault is reported exactly when some index read is outside the string. -/
def Watched (fault : ε) (size : Nat) (t : Traced ε α) : Prop :=
  t.InBounds size ↔ t.result ≠ .error fault

section Watched

variable {fault : ε} {body : Bytes} {size : Nat}

theorem watched_pure (a : α) : Watched fault size (pure a : Traced ε α) := by
  constructor
  · intro _ h
    cases h
  · intro _ b hb
    cases hb

theorem watched_stop {e : ε} (he : e ≠ fault) : Watched fault size (stop e : Traced ε α) := by
  constructor
  · intro _ h
    exact he (Except.error.inj h)
  · intro _ b hb
    cases hb

/-- An empty block reads nothing, so it may only be asked for inside the string. -/
theorem watched_load {pos n : Nat} (hn : n = 0 → pos ≤ body.length) :
    Watched fault body.length (load fault body pos n) := by
  have hlog : (load fault body pos n).InBounds body.length ↔ n = 0 ∨ pos + n ≤ body.length := by
    simp [InBounds, load, Block.inBounds_iff]
  rw [Watched, hlog]
  by_cases hle : pos + n ≤ body.length
  · simp [load, hle]
  · have hpos : n ≠ 0 := by
      intro h0
      have := hn h0
      omega
    simp [load, hle, hpos]

theorem watched_bind {t : Traced ε α} {f : α → Traced ε β} (ht : Watched fault size t)
    (hf : ∀ a, t.result = .ok a → Watched fault size (f a)) : Watched fault size (t >>= f) := by
  cases h : t.result with
  | error e =>
      rw [bind_of_error h]
      have hkeep := ht
      rw [Watched, h] at hkeep
      show (∀ b ∈ t.reads, b.InBounds size) ↔ Except.error e ≠ Except.error fault
      constructor
      · intro hb he
        exact hkeep.1 hb (by rw [Except.error.inj he])
      · intro he
        exact hkeep.2 fun heq => he (by rw [Except.error.inj heq])
  | ok a =>
      rw [bind_of_ok h]
      have hhead : t.InBounds size := ht.2 (by rw [h]; intro hc; cases hc)
      show (∀ b ∈ t.reads ++ (f a).reads, b.InBounds size) ↔ (f a).result ≠ .error fault
      refine Iff.trans ?_ (hf a h)
      constructor
      · intro hall b hb
        exact hall b (List.mem_append_right _ hb)
      · intro htail b hb
        rcases List.mem_append.1 hb with hb | hb
        · exact hhead b hb
        · exact htail b hb

end Watched

/-! ## The bytes an accepting run goes through -/

/-- The offset after the last byte read. -/
def consumed (t : Traced ε α) : Nat :=
  (t.reads.map fun b => b.pos + b.n).foldr max 0

/-- The blocks of `reads` follow each other from `start` to `stop`. -/
inductive Consecutive : List Block → Nat → Nat → Prop
  | nil (start : Nat) : Consecutive [] start start
  | cons {reads : List Block} {start n stop : Nat} (h : Consecutive reads (start + n) stop) :
      Consecutive (⟨start, n⟩ :: reads) start stop

theorem Consecutive.append {r₁ r₂ : List Block} {start mid stop : Nat}
    (h₁ : Consecutive r₁ start mid) (h₂ : Consecutive r₂ mid stop) :
    Consecutive (r₁ ++ r₂) start stop := by
  induction h₁ with
  | nil => exact h₂
  | cons _ ih => exact .cons (ih h₂)

theorem Consecutive.le {reads : List Block} {start stop : Nat}
    (h : Consecutive reads start stop) : start ≤ stop := by
  induction h with
  | nil => exact Nat.le_refl _
  | cons _ ih => omega

theorem Consecutive.foldr_max {reads : List Block} {start stop : Nat}
    (h : Consecutive reads start stop) :
    (reads.map fun b => b.pos + b.n).foldr max start = stop := by
  induction h with
  | nil => rfl
  | @cons reads start n stop h ih =>
      have hle := h.le
      have hstart : ∀ l : List Nat, max (start + n) (l.foldr max start) =
          l.foldr max (start + n) := by
        intro l
        induction l with
        | nil => simp
        | cons a l ihl => rw [List.foldr_cons, List.foldr_cons, ← ihl]; omega
      rw [List.map_cons, List.foldr_cons, hstart, ih]

/-- If the run accepts, it has read the bytes from `pos` on block by block, and `Q` holds of
the value and these bytes. -/
def Consumes (body : Bytes) (t : Traced ε α) (pos : Nat) (Q : α → Bytes → Prop) : Prop :=
  ∀ a, t.result = .ok a → ∃ bytes rest, At body pos (bytes ++ rest) ∧
    Consecutive t.reads pos (pos + bytes.length) ∧ Q a bytes

section Consumes

variable {fault : ε} {body : Bytes} {pos : Nat}

theorem consumes_stop (e : ε) {Q : α → Bytes → Prop} :
    Consumes body (stop e : Traced ε α) pos Q := by
  intro a h
  cases h

theorem consumes_pure {a : α} {Q : α → Bytes → Prop} (hpos : pos ≤ body.length) (h : Q a []) :
    Consumes body (pure a : Traced ε α) pos Q := by
  intro b hb
  cases hb
  exact ⟨[], body.drop pos, ⟨hpos, rfl⟩, .nil pos, h⟩

theorem consumes_bind {t : Traced ε α} {f : α → Traced ε β} {P : α → Bytes → Prop}
    {Q : β → Bytes → Prop} (ht : Consumes body t pos P)
    (hf : ∀ a bytes, P a bytes → pos + bytes.length ≤ body.length →
      Consumes body (f a) (pos + bytes.length) fun b rest => Q b (bytes ++ rest)) :
    Consumes body (t >>= f) pos Q := by
  intro b hb
  cases h : t.result with
  | error e =>
      rw [bind_of_error h] at hb
      cases hb
  | ok a =>
      rw [bind_of_ok h] at hb ⊢
      obtain ⟨b₁, rest₁, hat₁, hrun₁, hP⟩ := ht a h
      obtain ⟨b₂, rest₂, hat₂, hrun₂, hQ⟩ := hf a b₁ hP hat₁.add_length_le b hb
      have hrest : rest₁ = b₂ ++ rest₂ := (hat₁.next rfl).2.symm.trans hat₂.2
      refine ⟨b₁ ++ b₂, rest₂, ?_, ?_, hQ⟩
      · rw [List.append_assoc, ← hrest]
        exact hat₁
      · rw [List.length_append, ← Nat.add_assoc]
        exact hrun₁.append hrun₂

/-- A copy at the place the run has come to. -/
theorem consumes_load {n : Nat} :
    Consumes body (load fault body pos n) pos fun a bytes => a = bytes ∧ bytes.length = n := by
  intro a ha
  by_cases hle : pos + n ≤ body.length
  · simp only [load, if_pos hle] at ha
    cases ha
    have hlen := length_slice hle
    refine ⟨slice body pos n, body.drop (pos + n), ⟨by omega, ?_⟩, ?_, rfl, hlen⟩
    · rw [slice, ← List.drop_drop, List.take_append_drop]
    · rw [hlen]
      exact .cons (.nil _)
  · simp only [load, if_neg hle] at ha
    cases ha

/-- The rule for a program that goes on with the block it copies. -/
theorem consumes_load_bind {n p : Nat} {f : Bytes → Traced ε β} {Q : β → Bytes → Prop}
    (hp : p = pos) (hf : ∀ bytes : Bytes, bytes.length = n → pos + n ≤ body.length →
      Consumes body (f bytes) (pos + n) fun b rest => Q b (bytes ++ rest)) :
    Consumes body (load fault body p n >>= f) pos Q := by
  subst hp
  refine consumes_bind consumes_load fun a bytes hbytes hle => ?_
  obtain ⟨rfl, hlen⟩ := hbytes
  have hnext := hf a hlen (by omega)
  rwa [hlen]

/-- A program that starts at the front has consumed the bytes it has gone through. -/
theorem Consumes.take_consumed {t : Traced ε α} {a : α} {Q : α → Bytes → Prop}
    (h : Consumes body t 0 Q) (ha : t.result = .ok a) : Q a (body.take t.consumed) := by
  obtain ⟨bytes, rest, hat, hrun, hQ⟩ := h a ha
  have hbody : body = bytes ++ rest := hat.2
  have hend : t.consumed = bytes.length := by
    rw [consumed, hrun.foldr_max, Nat.zero_add]
  rw [hend, hbody, List.take_left]
  exact hQ

end Consumes
end Traced
end ContextFS.Lib
