import Holt.Journal.GroupCommit
import Holt.Lib.Table

/-!
# What the ring and the WAL file hold

`RingInv` ties the ring, the submissions and the WAL file together: tickets tile the
address space in reservation order, the committed prefix and the pending map hold exactly
the published records, the file is the concatenation of the records copied out so far, and
every filled record still to be copied is intact in the physical buffer although the buffer
is reused circularly.  Each ring operation has one lemma here; the other steps only move a
published record to a later phase (`RingInv.rephase`).
-/

namespace Holt
namespace Journal

open List Layout Table

/-- The records in ring order. -/
def blocks (recs : List Submission) : List (List Byte) := recs.map Submission.bytes

/-- Record `i` is published. -/
def Published (recs : List Submission) (i : ℕ) : Prop :=
  ∃ r, recs[i]? = some r ∧ r.phase.isPublished = true

/-- The ring, the submissions and the file agree. -/
structure RingInv (ring : WalRing) (recs : List Submission) (file : List Byte) : Prop where
  sized : ∀ r ∈ recs, 0 < r.bytes.length ∧ r.bytes.length ≤ ring.capacity
  ticket : ∀ (i : ℕ) (r : Submission), recs[i]? = some r →
    r.ticket = ⟨offset (blocks recs) i, offset (blocks recs) (i + 1)⟩
  tail : ring.tail = offset (blocks recs) recs.length
  count : ring.committedCount = ring.committedRecords
  bound : ring.committedRecords ≤ recs.length
  addr : ring.committedAddr = offset (blocks recs) ring.committedRecords
  committed : ∀ i < ring.committedRecords, Published recs i
  pending : PendingFrom (blocks recs) (Published recs) ring.committedRecords ring.pending
  drained : ∃ f ≤ ring.committedRecords, ring.flushCursor = offset (blocks recs) f ∧
    file = ((blocks recs).take f).flatten
  window : ∀ (i : ℕ) (r : Submission), recs[i]? = some r → r.phase.isFilled = true →
    r.ticket.stop ≤ ring.flushCursor + ring.capacity
  buffer : ∀ (i : ℕ) (r : Submission), recs[i]? = some r → r.phase.isFilled = true →
    ∀ j (hj : j < r.bytes.length), ring.flushCursor ≤ r.ticket.start + j →
      ring.buf ((r.ticket.start + j) % ring.capacity) = r.bytes[j]

@[simp] lemma length_blocks (recs : List Submission) : (blocks recs).length = recs.length := by
  simp [blocks]

lemma Phase.isFilled_of_isPublished {p : Phase} (h : p.isPublished = true) :
    p.isFilled = true := by
  cases p <;> simp_all [Phase.isPublished, Phase.isFilled]

variable {recs : List Submission}

/-- Moving a submission to another phase keeps the records. -/
lemma blocks_set {i : ℕ} {r : Submission} (hr : recs[i]? = some r) (phase : Phase) :
    blocks (recs.set i { r with phase := phase }) = blocks recs :=
  map_set_of_eq hr rfl

lemma sized_blocks {ring : WalRing} {file : List Byte} (inv : RingInv ring recs file) :
    ∀ b ∈ blocks recs, 0 < b.length := by
  intro b hb
  obtain ⟨r, hr, rfl⟩ := List.mem_map.mp hb
  exact (inv.sized r hr).1

lemma ringInv_start (ring : WalRing) (htail : ring.tail = 0) (haddr : ring.committedAddr = 0)
    (hcursor : ring.flushCursor = 0) (hpending : ring.pending = [])
    (hcount : ring.committedCount = 0) (hrecords : ring.committedRecords = 0) :
    RingInv ring [] [] where
  sized := by simp
  ticket := by simp
  tail := by simp [htail, blocks]
  count := by rw [hcount, hrecords]
  bound := hrecords.le
  addr := by simp [haddr, hrecords]
  committed := by simp [hrecords]
  pending := by
    intro q
    simp [hpending, blocks]
  drained := ⟨0, by omega, by simp [hcursor], by simp⟩
  window := by simp
  buffer := by simp

section Operations

variable {ring : WalRing} {recs : List Submission} {file : List Byte}

variable {i : ℕ} {r : Submission}

variable (inv : RingInv ring recs file)
include inv

lemma RingInv.stop_eq (hr : recs[i]? = some r) :
    r.ticket.stop = r.ticket.start + r.bytes.length := by
  obtain ⟨hi, hri⟩ := List.getElem?_eq_some_iff.mp hr
  rw [inv.ticket i r hr, offset_succ (blocks recs) (by simpa using hi)]
  simp [blocks, hri]

lemma RingInv.sized_set (hr : recs[i]? = some r) (phase : Phase) :
    ∀ q ∈ recs.set i { r with phase := phase },
      0 < q.bytes.length ∧ q.bytes.length ≤ ring.capacity :=
  forall_mem_set inv.sized (inv.sized r (mem_of_getElem? hr))

lemma RingInv.length_file :
    file.length = ring.flushCursor := by
  obtain ⟨f, -, hcur, rfl⟩ := inv.drained
  rw [hcur, length_flatten_take]

lemma RingInv.cursor_le :
    ring.flushCursor ≤ ring.committedAddr := by
  obtain ⟨f, hf, hcur, -⟩ := inv.drained
  rw [hcur, inv.addr]
  exact offset_mono _ hf

/-- A record below the end of the file stands in the file at its address. -/
lemma RingInv.in_file (hr : recs[i]? = some r) (hstop : r.ticket.stop ≤ file.length) :
    (file.drop r.ticket.start).take r.bytes.length = r.bytes := by
  obtain ⟨hi, hri⟩ := List.getElem?_eq_some_iff.mp hr
  have hib : i < (blocks recs).length := by simpa using hi
  have hbi : (blocks recs)[i] = r.bytes := by simp [blocks, hri]
  obtain ⟨f, hf, hcur, hfile⟩ := inv.drained
  have hlt : i < f := by
    by_contra hge
    have hle := offset_mono (blocks recs) (show f ≤ i by omega)
    have hpos := (inv.sized r (mem_of_getElem? hr)).1
    have hlen := inv.length_file
    have hstart : r.ticket.start = offset (blocks recs) i := by rw [inv.ticket i r hr]
    rw [inv.stop_eq hr] at hstop
    omega
  have hslice := slice_flatten_take (blocks recs) hlt hib
  rw [hbi] at hslice
  rw [inv.ticket i r hr, hfile]
  exact hslice

/-- Moving a published record to a later phase changes nothing in the ring or the file. -/
lemma RingInv.rephase (hr : recs[i]? = some r) (hpub : r.phase.isPublished = true) {phase : Phase}
    (hphase : phase.isPublished = true) :
    RingInv ring (recs.set i { r with phase := phase }) file := by
  obtain ⟨hi, hri⟩ := List.getElem?_eq_some_iff.mp hr
  have hblocks := blocks_set hr phase
  -- every record of the new list is a record of the old one up to a filled phase
  have hold : ∀ (k : ℕ) (q : Submission), (recs.set i { r with phase := phase })[k]? = some q →
      ∃ q', recs[k]? = some q' ∧ q'.ticket = q.ticket ∧ q'.bytes = q.bytes ∧
        (q'.phase.isFilled = q.phase.isFilled) ∧ (q'.phase.isPublished = q.phase.isPublished) := by
    intro k q hq
    rcases getElem?_set_cases hq with ⟨rfl, rfl⟩ | ⟨-, hq⟩
    · exact ⟨r, hr, rfl, rfl, by rw [Phase.isFilled_of_isPublished hpub,
        Phase.isFilled_of_isPublished hphase], by rw [hpub, hphase]⟩
    · exact ⟨q, hq, rfl, rfl, rfl, rfl⟩
  have hpubs : ∀ k, Published (recs.set i { r with phase := phase }) k ↔ Published recs k := by
    intro k
    rcases eq_or_ne i k with rfl | hk
    · simp [Published, hi, hri, hpub, hphase]
    · simp [Published, getElem?_set_ne hk]
  refine ⟨inv.sized_set hr phase, ?_, ?_, inv.count, by simpa using inv.bound,
    by rw [hblocks]; exact inv.addr, fun k hk => (hpubs k).mpr (inv.committed k hk), ?_,
    by rw [hblocks]; exact inv.drained, ?_, ?_⟩
  · intro k q hq
    obtain ⟨q', hq', ht, -⟩ := hold k q hq
    rw [← ht, hblocks]
    exact inv.ticket k q' hq'
  · rw [hblocks, length_set]
    exact inv.tail
  · intro q
    rw [hblocks, inv.pending q]
    simp only [hpubs]
  · intro k q hq hfill
    obtain ⟨q', hq', ht, -, hf, -⟩ := hold k q hq
    rw [← ht]
    exact inv.window k q' hq' (by rw [hf]; exact hfill)
  · intro k q hq hfill j hj hcur
    obtain ⟨q', hq', ht, hb, hf, -⟩ := hold k q hq
    have := inv.buffer k q' hq' (by rw [hf]; exact hfill) j (by rw [hb]; exact hj)
      (by rw [ht]; exact hcur)
    rw [ht] at this
    simpa [hb] using this

/-- A reservation appends a record whose range starts at the old tail. -/
lemma RingInv.reserve {bytes : List Byte} (sync : Bool) (hpos : 0 < bytes.length)
    (hcap : bytes.length ≤ ring.capacity) :
    RingInv { ring with tail := ring.tail + bytes.length }
      (recs ++ [⟨bytes, sync, ⟨ring.tail, ring.tail + bytes.length⟩, .reserved⟩]) file := by
  have hblocks : blocks (recs ++ [⟨bytes, sync, ⟨ring.tail, ring.tail + bytes.length⟩,
      .reserved⟩]) = blocks recs ++ [bytes] := by
    simp [blocks]
  have hoff : ∀ i ≤ recs.length, offset (blocks recs ++ [bytes]) i = offset (blocks recs) i :=
    fun i hi => offset_append _ _ (by simpa using hi)
  have hlast : offset (blocks recs ++ [bytes]) (recs.length + 1) =
      offset (blocks recs) recs.length + bytes.length := by
    have h := offset_succ (blocks recs ++ [bytes]) (i := recs.length) (by simp)
    rw [h, hoff _ le_rfl]
    simp [getElem_append_right]
  have hpubs : ∀ k, Published (recs ++ [⟨bytes, sync, ⟨ring.tail, ring.tail + bytes.length⟩,
      .reserved⟩]) k ↔ Published recs k := by
    intro k
    constructor
    · rintro ⟨q, hq, hp⟩
      rcases getElem?_append_cases hq with h | ⟨-, rfl⟩
      · exact ⟨q, h, hp⟩
      · simp [Phase.isPublished] at hp
    · rintro ⟨q, hq, hp⟩
      exact ⟨q, by rw [getElem?_append_left (List.getElem?_eq_some_iff.mp hq).1, hq], hp⟩
  refine ⟨forall_mem_concat inv.sized ⟨hpos, hcap⟩, ?_, ?_, inv.count,
    by simpa using Nat.le_succ_of_le inv.bound, ?_, fun k hk => (hpubs k).mpr (inv.committed k hk),
    ?_, ?_, ?_, ?_⟩
  · intro k q hq
    rw [hblocks]
    rcases getElem?_append_cases hq with h | ⟨rfl, rfl⟩
    · have hk : k < recs.length := (List.getElem?_eq_some_iff.mp h).1
      rw [hoff k hk.le, hoff (k + 1) hk]
      exact inv.ticket k q h
    · rw [hlast, hoff _ le_rfl, inv.tail]
  · rw [hblocks, length_append, length_singleton, hlast, inv.tail]
  · rw [hblocks, hoff _ inv.bound]
    exact inv.addr
  · intro q
    rw [hblocks, inv.pending q]
    constructor
    · rintro ⟨k, hck, hk, hp, rfl⟩
      rw [length_blocks] at hk
      exact ⟨k, hck, by simp; omega, (hpubs k).mpr hp, by rw [hoff k hk.le, hoff (k + 1) hk]⟩
    · rintro ⟨k, hck, -, hp, rfl⟩
      have hp' := (hpubs k).mp hp
      have hk : k < recs.length := (List.getElem?_eq_some_iff.mp hp'.choose_spec.1).1
      exact ⟨k, hck, by simpa using hk, hp', by rw [hoff k hk.le, hoff (k + 1) hk]⟩
  · obtain ⟨f, hf, hcur, hfile⟩ := inv.drained
    have hfle : f ≤ recs.length := hf.trans inv.bound
    refine ⟨f, hf, by rw [hblocks, hoff f hfle]; exact hcur, ?_⟩
    rw [hblocks, take_append_of_le_length (by simpa using hfle)]
    exact hfile
  · intro k q hq hfill
    rcases getElem?_append_cases hq with h | ⟨rfl, rfl⟩
    · exact inv.window k q h hfill
    · simp [Phase.isFilled] at hfill
  · intro k q hq hfill
    rcases getElem?_append_cases hq with h | ⟨rfl, rfl⟩
    · exact inv.buffer k q h hfill
    · simp [Phase.isFilled] at hfill

lemma RingInv.disjoint {k : ℕ} {q : Submission} (hr : recs[i]? = some r) (hq : recs[k]? = some q)
    (hik : i ≠ k) :
    r.ticket.stop ≤ q.ticket.start ∨ q.ticket.stop ≤ r.ticket.start := by
  rw [inv.ticket i r hr, inv.ticket k q hq]
  rcases Nat.lt_or_gt_of_ne hik with h | h
  · exact .inl (offset_mono _ h)
  · exact .inr (offset_mono _ h)

/-- A record that is not published lies past the committed prefix. -/
lemma RingInv.cursor_le_start (hr : recs[i]? = some r) (hunp : r.phase.isPublished = false) :
    ring.committedRecords ≤ i ∧ ring.flushCursor ≤ r.ticket.start := by
  have hci : ring.committedRecords ≤ i := by
    by_contra hlt
    obtain ⟨q, hq, hpub⟩ := inv.committed i (by omega)
    rw [hr, Option.some.injEq] at hq
    subst hq
    rw [hunp] at hpub
    exact Bool.false_ne_true hpub
  refine ⟨hci, inv.cursor_le.trans ?_⟩
  rw [inv.addr, inv.ticket i r hr]
  exact offset_mono _ hci

omit inv in
/-- Two bytes of the window `[flushCursor, flushCursor + capacity)` at different addresses
live in different cells. -/
lemma cell_ne_of_window {cap cur a b : ℕ} (ha : cur ≤ a) (ha' : a < cur + cap) (hb : cur ≤ b)
    (hb' : b < cur + cap) (hab : a ≠ b) : a % cap ≠ b % cap := by
  intro h
  rcases Nat.le_total a b with hle | hle
  · exact hab (Circular.eq_of_cell_eq h hle (by omega))
  · exact hab (Circular.eq_of_cell_eq h.symm hle (by omega)).symm

/-- Copying a record into its freed cells leaves the other records of the window intact. -/
lemma RingInv.fill (hr : recs[i]? = some r) (hphase : r.phase = .reserved)
    (hspace : r.ticket.stop ≤ ring.flushCursor + ring.capacity) :
    RingInv (ring.fill r.ticket r.bytes) (recs.set i { r with phase := .filled }) file := by
  obtain ⟨hi, hri⟩ := List.getElem?_eq_some_iff.mp hr
  have hunp : r.phase.isPublished = false := by rw [hphase]; rfl
  have hblocks := blocks_set hr .filled
  have hlen := (inv.sized r (mem_of_getElem? hr)).2
  have hstop := inv.stop_eq hr
  obtain ⟨-, hcur⟩ := inv.cursor_le_start hr hunp
  have hpubs : ∀ k, Published (recs.set i { r with phase := .filled }) k ↔ Published recs k := by
    intro k
    rcases eq_or_ne i k with rfl | hk
    · simp [Published, hi, hri, hphase, Phase.isPublished]
    · simp [Published, getElem?_set_ne hk]
  refine ⟨inv.sized_set hr _, ?_, by rw [hblocks, length_set]; exact inv.tail, inv.count,
    by simpa [WalRing.fill] using inv.bound, by rw [hblocks]; exact inv.addr,
    fun k hk => (hpubs k).mpr (inv.committed k hk), ?_, by rw [hblocks]; exact inv.drained,
    ?_, ?_⟩
  · intro k q hq
    rw [hblocks]
    rcases getElem?_set_cases hq with ⟨rfl, rfl⟩ | ⟨-, hq⟩
    · exact inv.ticket k r hr
    · exact inv.ticket k q hq
  · intro q
    rw [hblocks]
    simp only [hpubs]
    exact inv.pending q
  · intro k q hq hfill
    rcases getElem?_set_cases hq with ⟨rfl, rfl⟩ | ⟨-, hq⟩
    · exact hspace
    · exact inv.window k q hq hfill
  · intro k q hq hfill j hj hge
    change ring.flushCursor ≤ _ at hge
    rcases getElem?_set_cases hq with ⟨rfl, rfl⟩ | ⟨hki, hq⟩
    · exact Circular.write_hit ring.capacity_pos ring.buf r.ticket.start r.bytes hlen hj
    · -- the other record's byte is at another address of the window
      have hwin := inv.window k q hq hfill
      have hqstop := inv.stop_eq hq
      have hdisj := inv.disjoint hr hq (Ne.symm hki)
      have hmiss : ∀ l < r.bytes.length,
          (q.ticket.start + j) % ring.capacity ≠ (r.ticket.start + l) % ring.capacity := by
        intro l hl
        exact cell_ne_of_window hge (by omega) (hcur.trans (by omega)) (by omega) (by omega)
      rw [WalRing.fill]
      exact (Circular.write_miss ring.capacity_pos ring.buf _ _ hlen hmiss).trans
        (inv.buffer k q hq hfill j hj hge)

/-- Publishing a filled record moves the committed prefix over published records only. -/
lemma RingInv.publish (hr : recs[i]? = some r) (hphase : r.phase = .filled) :
    RingInv (ring.publish r.ticket) (recs.set i { r with phase := .published }) file ∧
      ring.committedRecords ≤ (ring.publish r.ticket).committedRecords := by
  have hi : i < recs.length := (List.getElem?_eq_some_iff.mp hr).1
  have hunp : r.phase.isPublished = false := by rw [hphase]; rfl
  have hblocks := blocks_set hr .published
  obtain ⟨hci, -⟩ := inv.cursor_le_start hr hunp
  have hticket := inv.ticket i r hr
  have hne := sized_blocks inv
  set recs' := recs.set i { r with phase := .published } with hrecs'
  have hpubs : ∀ k, Published recs' k ↔ Published recs k ∨ k = i := by
    intro k
    rcases eq_or_ne i k with rfl | hk
    · simp [Published, hrecs', hi, Phase.isPublished]
    · simp [Published, hrecs', getElem?_set_ne hk, hk.symm]
  -- the map after the insertion holds the published records, record `i` included
  have hpend : PendingFrom (blocks recs) (Published recs') ring.committedRecords
      ((r.ticket.start, r.ticket.stop) ::
        ring.pending.filter (fun q => q.1 != r.ticket.start)) := by
    intro q
    simp only [mem_cons, mem_filter, bne_iff_ne, ne_eq, inv.pending q, hpubs]
    constructor
    · rintro (rfl | ⟨⟨k, hck, hk, hp, rfl⟩, -⟩)
      · exact ⟨i, hci, by simpa using hi, .inr rfl, by rw [hticket]⟩
      · exact ⟨k, hck, hk, .inl hp, rfl⟩
    · rintro ⟨k, hck, hk, hp, rfl⟩
      rcases eq_or_ne k i with rfl | hki
      · left
        rw [hticket]
      · refine .inr ⟨⟨k, hck, hk, hp.resolve_right hki, rfl⟩, fun h => hki ?_⟩
        refine offset_inj hne hk.le (by simpa using hi.le) ?_
        rw [hticket] at h
        exact h
  obtain ⟨c, hcc, hcn, hcpub, hres, hpend'⟩ := foldPublished_spec hne
    ((r.ticket.start, r.ticket.stop) ::
      ring.pending.filter (fun q => q.1 != r.ticket.start)).length
    ring.committedRecords 0 _ (by simpa using inv.bound) hpend
  rw [← inv.addr] at hres hpend'
  -- in both branches the ring ends up with `c` committed records
  have hring : (ring.publish r.ticket).committedRecords = c ∧
      (ring.publish r.ticket).committedCount = c ∧
      (ring.publish r.ticket).committedAddr = offset (blocks recs) c ∧
      PendingFrom (blocks recs) (Published recs') c (ring.publish r.ticket).pending ∧
      (ring.publish r.ticket).tail = ring.tail ∧ (ring.publish r.ticket).bits = ring.bits ∧
      (ring.publish r.ticket).buf = ring.buf ∧
      (ring.publish r.ticket).flushCursor = ring.flushCursor := by
    have h1 := congrArg Prod.fst hres
    have h2 := congrArg Prod.snd hres
    unfold WalRing.publish
    dsimp only at h1 h2 ⊢
    split_ifs with hmoved
    · refine ⟨?_, ?_, h1, hpend', rfl, rfl, rfl, rfl⟩ <;>
        simp only [h2, inv.count] <;> omega
    · have hsame : c = ring.committedRecords := by
        refine offset_inj hne hcn (by simpa using inv.bound) ?_
        rw [← inv.addr, ← h1]
        exact not_not.mp hmoved
      subst hsame
      exact ⟨rfl, inv.count, inv.addr, hpend', rfl, rfl, rfl, rfl⟩
  obtain ⟨hrec, hcount, haddr, hp, htail, hbits, hbuf, hfc⟩ := hring
  have hcapacity : (ring.publish r.ticket).capacity = ring.capacity := by
    simp [WalRing.capacity, hbits]
  refine ⟨⟨?_, ?_, by rw [hblocks, htail, length_set]; exact inv.tail,
    by rw [hcount, hrec], by rw [hrec, hrecs', length_set]; simpa using hcn,
    by rw [haddr, hrec, hblocks], ?_, by rw [hrec, hblocks]; exact hp, ?_, ?_, ?_⟩,
    by rw [hrec]; exact hcc⟩
  · rw [hcapacity]
    exact inv.sized_set hr _
  · intro k q hq
    rw [hblocks]
    rcases getElem?_set_cases hq with ⟨rfl, rfl⟩ | ⟨-, hq⟩
    · exact hticket
    · exact inv.ticket k q hq
  · intro k hk
    rw [hrec] at hk
    rcases Nat.lt_or_ge k ring.committedRecords with h | h
    · exact (hpubs k).mpr (.inl (inv.committed k h))
    · exact hcpub k h hk
  · obtain ⟨f, hf, hcur, hfile⟩ := inv.drained
    exact ⟨f, by rw [hrec]; omega, by rw [hfc, hblocks]; exact hcur, by rw [hblocks]; exact hfile⟩
  · intro k q hq hfill
    rw [hfc, hcapacity]
    rcases getElem?_set_cases hq with ⟨rfl, rfl⟩ | ⟨-, hq⟩
    · exact inv.window k r hr (by rw [hphase]; rfl)
    · exact inv.window k q hq hfill
  · intro k q hq hfill j hj hge
    rw [hbuf, hcapacity]
    rw [hfc] at hge
    rcases getElem?_set_cases hq with ⟨rfl, rfl⟩ | ⟨-, hq⟩
    · exact inv.buffer k r hr (by rw [hphase]; rfl) j hj hge
    · exact inv.buffer k q hq hfill j hj hge

/-- The bytes between the flush cursor and the committed address are the committed records
not yet copied, read through the wrap of the buffer. -/
lemma RingInv.read_committed :
    Circular.read ring.capacity ring.buf ring.flushCursor
        (ring.committedAddr - ring.flushCursor) =
      (((blocks recs).take ring.committedRecords).flatten).drop ring.flushCursor := by
  have hcn : ring.committedRecords ≤ (blocks recs).length := by simpa using inv.bound
  -- the last committed record was filled inside the window
  have hwin : ring.committedAddr ≤ ring.flushCursor + ring.capacity := by
    rcases Nat.eq_zero_or_pos ring.committedRecords with h0 | hpos
    · rw [inv.addr, h0, offset_zero]
      exact Nat.zero_le _
    · obtain ⟨q, hq, hpub⟩ := inv.committed (ring.committedRecords - 1) (by omega)
      have := inv.window _ q hq (Phase.isFilled_of_isPublished hpub)
      rw [inv.ticket _ q hq, show ring.committedRecords - 1 + 1 = ring.committedRecords by omega,
        ← inv.addr] at this
      exact this
  rw [Circular.read_eq ring.capacity_pos ring.buf ring.flushCursor (by omega)]
  apply ext_getElem?
  intro k
  rw [getElem?_drop]
  rcases Nat.lt_or_ge k (ring.committedAddr - ring.flushCursor) with hk | hk
  · have ha : ring.flushCursor + k < offset (blocks recs) ring.committedRecords := by
      rw [← inv.addr]
      omega
    obtain ⟨i, hi, hic, j, hj, haddr⟩ := exists_block (blocks recs) hcn ha
    have hi' : i < recs.length := by simpa using hi
    have hr : recs[i]? = some recs[i] := getElem?_eq_getElem hi'
    obtain ⟨q, hq, hpub⟩ := inv.committed i hic
    rw [hr, Option.some.injEq] at hq
    subst hq
    have hstart : recs[i].ticket.start = offset (blocks recs) i := by rw [inv.ticket i _ hr]
    have hb : (blocks recs)[i] = recs[i].bytes := by simp [blocks]
    have hjr : j < recs[i].bytes.length := by rw [← hb]; exact hj
    have hcell := inv.buffer i _ hr (Phase.isFilled_of_isPublished hpub) j hjr
      (by rw [hstart, ← haddr]; omega)
    rw [hstart, ← haddr] at hcell
    rw [haddr, getElem?_flatten_take (blocks recs) hic hi hj]
    simp only [getElem?_map, getElem?_range hk, Option.map_some, hcell, hb]
  · rw [getElem?_eq_none (by simpa using hk), getElem?_eq_none]
    rw [length_flatten_take, ← inv.addr]
    omega

/-- Copying the committed prefix extends the file by whole records, and the freed cells are
those of records already in the file. -/
lemma RingInv.copy :
    RingInv ring.copyCommittedPrefix.2 recs (file ++ ring.copyCommittedPrefix.1) ∧
      offset (blocks recs) ring.committedRecords ≤
        (file ++ ring.copyCommittedPrefix.1).length ∧
      ring.copyCommittedPrefix.2.committedRecords = ring.committedRecords := by
  unfold WalRing.copyCommittedPrefix
  have hle := inv.cursor_le
  split_ifs with hnone
  · refine ⟨by simpa using inv, ?_, rfl⟩
    rw [append_nil, inv.length_file, ← inv.addr]
    exact hnone
  · have hread := inv.read_committed
    obtain ⟨f, hf, hcur, hfile⟩ := inv.drained
    have hall : file ++ Circular.read ring.capacity ring.buf ring.flushCursor
        (ring.committedAddr - ring.flushCursor) =
        ((blocks recs).take ring.committedRecords).flatten := by
      rw [hread, hfile, hcur, ← take_offset_flatten (blocks recs) hf, take_append_drop]
    refine ⟨{ inv with
      drained := ⟨ring.committedRecords, le_rfl, inv.addr, hall⟩
      window := ?_
      buffer := ?_ }, ?_, rfl⟩
    · intro k q hq hfill
      exact (inv.window k q hq hfill).trans (Nat.add_le_add_right hle _)
    · intro k q hq hfill j hj hge
      exact inv.buffer k q hq hfill j hj (hle.trans hge)
    · rw [hall, length_flatten_take]

end Operations

end Journal
end Holt
