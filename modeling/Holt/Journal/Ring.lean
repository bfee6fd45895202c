import Holt.Lib.Circular
import Holt.Lib.Layout

/-!
# The shared WAL ring

Writers append encoded records to one byte ring (`journal/ring.rs`).  A writer reserves a
byte range with one `fetch_add` on `tail`, copies its record into that range, and publishes
the range; publishing folds the contiguous run of published ranges into `committedAddr` and
counts the folded records in `committedRecords`.  The flusher copies
`[flushCursor, committedAddr)` out.

The capacity is a power of two, so the source's `start & mask` is `start % capacity`
(`and_mask_eq_mod`).  The `BTreeMap` of published but not yet folded ranges is the list
`pending` of its entries.  All counters are the source's `u64` counters read as natural
numbers; they count bytes and records of one process and do not wrap.

`foldPublished_spec` is the one fact about the fold that later modules use: it moves the
committed prefix over published records only, and leaves exactly the published records past
it in `pending`.
-/

namespace Holt

/-- A byte of a key, a value or an encoded record. -/
abbrev Byte := UInt8

namespace Journal

/-- A reserved byte range `[start, stop)` of the ring's logical address space. -/
structure ReserveTicket where
  start : ℕ
  stop : ℕ
deriving DecidableEq

/-- Byte ring with `2 ^ bits` cells and its four cursors. -/
structure WalRing where
  bits : ℕ
  buf : ℕ → Byte
  /-- Next free logical address. -/
  tail : ℕ
  /-- Every range below this address is filled and published. -/
  committedAddr : ℕ
  /-- Records in the committed prefix, as the flusher reads it. -/
  committedRecords : ℕ
  /-- Bytes below this address have been copied out. -/
  flushCursor : ℕ
  /-- Published ranges not yet folded, by start address. -/
  pending : List (ℕ × ℕ)
  /-- Records folded so far, as kept under the `advance` lock. -/
  committedCount : ℕ

namespace WalRing

/-- Number of physical cells. -/
def capacity (ring : WalRing) : ℕ := 2 ^ ring.bits

lemma capacity_pos (ring : WalRing) : 0 < ring.capacity := Nat.two_pow_pos _

/-- An empty ring. -/
def withCapacity (bits : ℕ) : WalRing where
  bits := bits
  buf := fun _ => 0
  tail := 0
  committedAddr := 0
  committedRecords := 0
  flushCursor := 0
  pending := []
  committedCount := 0

/-- Reserve `totalLen` bytes: the range starts where the previous one ended. -/
def reserve (ring : WalRing) (totalLen : ℕ) : ReserveTicket × WalRing :=
  (⟨ring.tail, ring.tail + totalLen⟩, { ring with tail := ring.tail + totalLen })

/-- Whether the flusher has freed the cells of the ticket's range. -/
def reserveSpaceReady (ring : WalRing) (ticket : ReserveTicket) : Bool :=
  ticket.stop ≤ ring.flushCursor + ring.capacity

/-- Copy the record into its range, split where the range wraps. -/
def fill (ring : WalRing) (ticket : ReserveTicket) (bytes : List Byte) : WalRing :=
  { ring with buf := Circular.write ring.capacity ring.buf ticket.start bytes }

/-- `while let Some(end) = pending.remove(&addr)`: fold the published ranges that continue
the committed prefix at `addr`.  Every turn removes an entry, so `pending.length` turns are
enough. -/
def foldPublished : ℕ → List (ℕ × ℕ) → ℕ → ℕ → List (ℕ × ℕ) × ℕ × ℕ
  | 0, pending, addr, folded => (pending, addr, folded)
  | fuel + 1, pending, addr, folded =>
    match pending.find? (fun q => q.1 == addr) with
    | none => (pending, addr, folded)
    | some q => foldPublished fuel (pending.filter (fun q => q.1 != addr)) q.2 (folded + 1)

/-- Record the ticket's range as published and fold the contiguous published prefix. -/
def publish (ring : WalRing) (ticket : ReserveTicket) : WalRing :=
  let pending := (ticket.start, ticket.stop) ::
    ring.pending.filter (fun q => q.1 != ticket.start)
  let (pending', addr, folded) := foldPublished pending.length pending ring.committedAddr 0
  if addr ≠ ring.committedAddr then
    { ring with
      pending := pending'
      committedAddr := addr
      committedRecords := ring.committedCount + folded
      committedCount := ring.committedCount + folded }
  else
    { ring with pending := pending' }

/-- Copy the committed bytes not yet copied out, and move the flush cursor over them. -/
def copyCommittedPrefix (ring : WalRing) : List Byte × WalRing :=
  if ring.committedAddr ≤ ring.flushCursor then ([], ring)
  else
    (Circular.read ring.capacity ring.buf ring.flushCursor (ring.committedAddr - ring.flushCursor),
      { ring with flushCursor := ring.committedAddr })

end WalRing

/-! ## What the fold does -/

open Layout

/-- The ranges of the published records from record `c` on: record `i` of `blocks` occupies
`[offset blocks i, offset blocks (i + 1))`. -/
def PendingFrom (blocks : List (List Byte)) (published : ℕ → Prop) (c : ℕ)
    (pending : List (ℕ × ℕ)) : Prop :=
  ∀ q, q ∈ pending ↔ ∃ i, c ≤ i ∧ i < blocks.length ∧ published i ∧
    q = (offset blocks i, offset blocks (i + 1))

variable {blocks : List (List Byte)} {published : ℕ → Prop}

/-- Records are never empty, so a start address names one record. -/
lemma offset_inj (hne : ∀ b ∈ blocks, 0 < b.length) {i j : ℕ} (hi : i ≤ blocks.length)
    (hj : j ≤ blocks.length) (h : offset blocks i = offset blocks j) : i = j := by
  rcases lt_trichotomy i j with hlt | heq | hgt
  · exact absurd h (offset_lt_of_lt blocks hne hlt hj).ne
  · exact heq
  · exact absurd h (offset_lt_of_lt blocks hne hgt hi).ne'

/-- Taking the entry that starts at record `c` out of the map leaves the entries past it. -/
lemma PendingFrom.erase (hne : ∀ b ∈ blocks, 0 < b.length) {c : ℕ} {pending : List (ℕ × ℕ)}
    (hp : PendingFrom blocks published c pending) (hc : c < blocks.length) :
    PendingFrom blocks published (c + 1)
      (pending.filter (fun q => q.1 != offset blocks c)) := by
  intro q
  simp only [List.mem_filter, bne_iff_ne, ne_eq, hp q]
  constructor
  · rintro ⟨⟨i, hci, hi, hpub, rfl⟩, hneq⟩
    have : i ≠ c := fun h => hneq (by rw [h])
    exact ⟨i, by omega, hi, hpub, rfl⟩
  · rintro ⟨i, hci, hi, hpub, rfl⟩
    refine ⟨⟨i, by omega, hi, hpub, rfl⟩, fun h => ?_⟩
    have := offset_inj hne hi.le hc.le h
    omega

/-- The fold carries the committed prefix from record `c` over published records to some
record `c'`, counts them, and keeps the published records past `c'` pending. -/
theorem foldPublished_spec (hne : ∀ b ∈ blocks, 0 < b.length) (fuel : ℕ) :
    ∀ (c folded : ℕ) (pending : List (ℕ × ℕ)), c ≤ blocks.length →
      PendingFrom blocks published c pending →
      ∃ c', c ≤ c' ∧ c' ≤ blocks.length ∧ (∀ i, c ≤ i → i < c' → published i) ∧
        (WalRing.foldPublished fuel pending (offset blocks c) folded).2 =
          (offset blocks c', folded + (c' - c)) ∧
        PendingFrom blocks published c'
          (WalRing.foldPublished fuel pending (offset blocks c) folded).1 := by
  induction fuel with
  | zero =>
    intro c folded pending hc hp
    exact ⟨c, le_rfl, hc, fun i h1 h2 => absurd h1 (by omega),
      by simp [WalRing.foldPublished], hp⟩
  | succ fuel ih =>
    intro c folded pending hc hp
    cases hfind : pending.find? (fun q => q.1 == offset blocks c) with
    | none =>
      exact ⟨c, le_rfl, hc, fun i h1 h2 => absurd h1 (by omega),
        by simp [WalRing.foldPublished, hfind], by simpa [WalRing.foldPublished, hfind] using hp⟩
    | some q =>
      -- the entry found at the committed address is the range of record `c`
      have hq1 : q.1 = offset blocks c := by simpa using List.find?_some hfind
      obtain ⟨i, hci, hi, hpub, hqi⟩ := (hp q).mp (List.mem_of_find?_eq_some hfind)
      have hic : i = c := offset_inj hne hi.le hc (by rw [← hq1, hqi])
      subst hic
      have hq2 : q.2 = offset blocks (i + 1) := by rw [hqi]
      obtain ⟨c', hcc', hc', hpubs, hres, hpend⟩ :=
        ih (i + 1) (folded + 1) _ hi (hp.erase hne hi)
      have hunfold : WalRing.foldPublished (fuel + 1) pending (offset blocks i) folded =
          WalRing.foldPublished fuel (pending.filter (fun q => q.1 != offset blocks i))
            (offset blocks (i + 1)) (folded + 1) := by
        simp only [WalRing.foldPublished, hfind, hq2]
      refine ⟨c', by omega, hc', fun k h1 h2 => ?_, ?_, by rw [hunfold]; exact hpend⟩
      · rcases Nat.lt_or_ge i k with hk | hk
        · exact hpubs k hk h2
        · obtain rfl : k = i := by omega
          exact hpub
      · rw [hunfold, hres]
        congr 1
        omega

end Journal
end Holt
