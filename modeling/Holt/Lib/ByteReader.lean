import Holt.Lib.LittleEndian

/-!
# Readers of byte strings

A reader takes a value off the front of a byte string and leaves the rest, or fails.  Readers
are a monad, and a decoder is written in it field by field.

`Reads r bs a` says that `bs` is an encoding of `a` for the reader `r`: whatever follows `bs`,
the reader returns `a` and leaves exactly what follows.  Since the rest is arbitrary, the
encodings of the parts of a record compose to one of the record (`Reads.bind`), and those of
the elements of a list to one of the list (`Reads.times`).  `Inverts r P encode` is the converse:
the reader accepts nothing but encodings of values with `P`.
-/

namespace ByteReader

open List LittleEndian

variable {ε α β γ : Type}

abbrev Reader (ε α : Type) := StateT (List UInt8) (Except ε) α

/-- `bs` is an encoding of `a`. -/
def Reads (r : Reader ε α) (bs : List UInt8) (a : α) : Prop :=
  ∀ rest, r.run (bs ++ rest) = .ok (a, rest)

variable {r : Reader ε α} {f : α → Reader ε β} {g : α → β} {bs cs : List UInt8} {a : α} {b : β}

lemma reads_pure (a : α) : Reads (pure a : Reader ε α) [] a := fun _ => rfl

lemma Reads.bind (hr : Reads r bs a) (hf : Reads (f a) cs b) : Reads (r >>= f) (bs ++ cs) b := by
  intro rest
  rw [append_assoc, StateT.run_bind, hr]
  exact hf rest

lemma Reads.run_bind (hr : Reads r bs a) (rest : List UInt8) :
    (r >>= f).run (bs ++ rest) = (f a).run rest := by
  rw [StateT.run_bind, hr]
  rfl

lemma Reads.bind_pure (hr : Reads r bs a) : Reads (r >>= fun a => pure (g a)) bs (g a) := by
  simpa using Reads.bind (f := fun a => pure (g a)) hr (reads_pure (g a))

lemma Reads.map (hr : Reads r bs a) : Reads (g <$> r) bs (g a) := by
  intro rest
  rw [StateT.run_map, hr]
  rfl

/-! ## Fields -/

/-- The next `n` bytes; `short` is the error where there are fewer. -/
def take (short : ε) (n : ℕ) : Reader ε (List UInt8) := fun buf =>
  if buf.length < n then .error short else .ok (buf.take n, buf.drop n)

variable {n : ℕ}

lemma reads_take (short : ε) (hn : bs.length = n) : Reads (take short n) bs bs := by
  intro rest
  have hlen : ¬ (bs ++ rest).length < n := by
    rw [length_append]
    omega
  change (if (bs ++ rest).length < n then _ else _) = _
  rw [if_neg hlen, take_left' hn, drop_left' hn]

/-- The next `w` bytes as a number. -/
def number (short : ε) (w : ℕ) : Reader ε ℕ := value <$> take short w

variable {w : ℕ}

lemma reads_number (short : ε) (hn : n < 256 ^ w) : Reads (number short w) (bytes w n) n := by
  have hread : Reads (number short w) (bytes w n) (value (bytes w n)) :=
    (reads_take short (length_bytes w n)).map
  rwa [value_bytes_of_lt hn] at hread

/-- A byte string behind its length in `w` bytes. -/
def sized (w : ℕ) (bs : List UInt8) : List UInt8 := bytes w bs.length ++ bs

/-- Read a byte string behind its length. -/
def blob (short : ε) (w : ℕ) : Reader ε (List UInt8) := do
  let n ← number short w
  take short n

lemma reads_blob (short : ε) (hn : bs.length < 256 ^ w) : Reads (blob short w) (sized w bs) bs :=
  (reads_number short hn).bind (reads_take short rfl)

@[simp] lemma length_sized (w : ℕ) (bs : List UInt8) : (sized w bs).length = w + bs.length := by
  simp [sized]

/-! ## Lists -/

/-- Read `n` values. -/
def times (r : Reader ε α) : ℕ → Reader ε (List α)
  | 0 => pure []
  | n + 1 => do
    let a ← r
    let as ← times r n
    pure (a :: as)

lemma Reads.times {encode : α → List UInt8} {as : List α} (hr : ∀ a ∈ as, Reads r (encode a) a) :
    Reads (ByteReader.times r as.length) (as.flatMap encode) as := by
  induction as with
  | nil => exact reads_pure []
  | cons a as ih =>
    have hrest := ih (forall_mem_cons.mp hr).2
    rw [flatMap_cons]
    exact (hr a mem_cons_self).bind hrest.bind_pure

/-! ## Readers that accept only what is written -/

/-- Whatever the reader takes off a byte string is the encoding of what it returns, which has
the property `P`. -/
def Inverts (r : Reader ε α) (P : α → Prop) (encode : α → List UInt8) : Prop :=
  ∀ buf a rest, r.run buf = .ok (a, rest) → P a ∧ buf = encode a ++ rest

variable {buf rest : List UInt8}

/-- A reader that went through ran its parts one after the other. -/
lemma run_bind_inv (h : (r >>= f).run buf = .ok (b, rest)) :
    ∃ a mid, r.run buf = .ok (a, mid) ∧ (f a).run mid = .ok (b, rest) := by
  rw [StateT.run_bind] at h
  cases hr : r.run buf with
  | error e =>
    rw [hr] at h
    cases h
  | ok p =>
    rw [hr] at h
    exact ⟨p.1, p.2, rfl, h⟩

lemma run_pure_inv {a' : α} (h : (pure a : Reader ε α).run buf = .ok (a', rest)) :
    a = a' ∧ buf = rest := by
  change Except.ok (a, buf) = Except.ok (a', rest) at h
  simpa using h

lemma take_inv {short : ε} {bs : List UInt8} (h : (take short n).run buf = .ok (bs, rest)) :
    bs.length = n ∧ buf = bs ++ rest := by
  change (if buf.length < n then _ else _) = _ at h
  by_cases hlen : buf.length < n
  · rw [if_pos hlen] at h
    cases h
  · rw [if_neg hlen] at h
    obtain ⟨rfl, rfl⟩ : buf.take n = bs ∧ buf.drop n = rest := by simpa using h
    exact ⟨by rw [length_take]; omega, (take_append_drop n buf).symm⟩

lemma number_inv {short : ε} (h : (number short w).run buf = .ok (n, rest)) :
    n < 256 ^ w ∧ buf = bytes w n ++ rest := by
  rw [number, StateT.run_map] at h
  cases hr : (take short w).run buf with
  | error e =>
    rw [hr] at h
    cases h
  | ok p =>
    rw [hr] at h
    obtain ⟨rfl, rfl⟩ : value p.1 = n ∧ p.2 = rest := by simpa [Functor.map, Except.map] using h
    obtain ⟨hlen, hbuf⟩ := take_inv hr
    constructor
    · rw [← hlen]
      exact value_lt p.1
    · rw [hbuf, ← hlen, bytes_value]

lemma Inverts.times {P : α → Prop} {encode : α → List UInt8} (hr : Inverts r P encode) {as : List α}
    (h : (ByteReader.times r n).run buf = .ok (as, rest)) :
    as.length = n ∧ (∀ a ∈ as, P a) ∧ buf = as.flatMap encode ++ rest := by
  induction n generalizing buf as with
  | zero =>
    obtain ⟨rfl, rfl⟩ := run_pure_inv h
    exact ⟨rfl, by simp, rfl⟩
  | succ n ih =>
    obtain ⟨a, mid, hfirst, hmore⟩ := run_bind_inv h
    obtain ⟨as', mid', hrest, hpure⟩ := run_bind_inv hmore
    obtain ⟨rfl, rfl⟩ := run_pure_inv hpure
    obtain ⟨hlen, hall, hmid⟩ := ih hrest
    obtain ⟨ha, hbuf⟩ := hr buf a mid hfirst
    refine ⟨by rw [length_cons, hlen], forall_mem_cons.mpr ⟨ha, hall⟩, ?_⟩
    rw [hbuf, hmid, flatMap_cons, append_assoc]

end ByteReader
