import Holt.Journal.RingInvariant

/-!
# The byte stream of the ring

The ring as a log of its own, without the counters of group commit: any number of writers
reserve, fill and publish, the flusher copies the committed prefix into a sink, and once all is
published and drained a checkpoint may reset the cursors to zero (`reset_after_drain`).  A reset
starts the addresses anew and keeps the count of records, so the records reserved before it are
kept apart (`earlier`) from those the cursors speak about (`recs`).

`ring_stream` says what the sink has seen at any moment of any run: whole published records in
the order of their reservations, none of them damaged by a later record in the same cells.  The
invariant is the one of `RingInvariant` for the records since the last reset, with the ring's
counters read from there on (`WalRing.since`).
-/

namespace Holt
namespace Journal

open List Transition Layout

/-! ## The transition system -/

/-- `reset_after_drain`: the byte cursors go back to zero, the record count does not. -/
def WalRing.resetAfterDrain (ring : WalRing) : WalRing :=
  { ring with flushCursor := 0, committedAddr := 0, tail := 0 }

/-- What `reset_after_drain` asserts: everything is published and drained. -/
def WalRing.Drained (ring : WalRing) : Prop :=
  ring.pending = [] ∧ ring.tail = ring.committedAddr ∧ ring.flushCursor = ring.committedAddr

instance (ring : WalRing) : Decidable ring.Drained := inferInstanceAs (Decidable (_ ∧ _))

/-- The ring, the records of the writers and the bytes handed to the sink. -/
structure RingLog where
  ring : WalRing
  /-- Records reserved before the last reset. -/
  earlier : List (List Byte)
  /-- Records reserved since, in the order of their reservations. -/
  recs : List Submission
  sink : List Byte

/-- A new ring. -/
def RingLog.created (bits : ℕ) : RingLog := ⟨WalRing.withCapacity bits, [], [], []⟩

inductive RingAction
  | reserve (bytes : List Byte)
  | fill (i : ℕ)
  | publish (i : ℕ)
  | copy
  | reset
deriving DecidableEq

namespace RingLog

variable (s : RingLog)

def setPhase (i : ℕ) (r : Submission) (phase : Phase) : RingLog :=
  { s with recs := s.recs.set i { r with phase := phase } }

/-- All records, in the order of their reservations. -/
def records : List (List Byte) := s.earlier ++ blocks s.recs

/-- Record `i` of `records` is published. -/
def Published (i : ℕ) : Prop :=
  i < s.earlier.length ∨ Journal.Published s.recs (i - s.earlier.length)

end RingLog

/-- One step of a writer or of the flusher, or a reset. -/
def ringStep (s : RingLog) : RingAction → Option RingLog
  | .reserve bytes =>
    if 0 < bytes.length ∧ bytes.length ≤ s.ring.capacity then
      let (ticket, ring) := s.ring.reserve bytes.length
      some { s with ring := ring, recs := s.recs ++ [⟨bytes, false, ticket, .reserved⟩] }
    else none
  | .fill i =>
    match s.recs[i]? with
    | none => none
    | some r =>
      if r.phase = .reserved ∧ s.ring.reserveSpaceReady r.ticket then
        some { s.setPhase i r .filled with ring := s.ring.fill r.ticket r.bytes }
      else none
  | .publish i =>
    match s.recs[i]? with
    | none => none
    | some r =>
      if r.phase = .filled then
        some { s.setPhase i r .published with ring := s.ring.publish r.ticket }
      else none
  | .copy =>
    let (bytes, ring) := s.ring.copyCommittedPrefix
    some { s with ring := ring, sink := s.sink ++ bytes }
  | .reset =>
    if s.ring.Drained then
      some { s with ring := s.ring.resetAfterDrain, earlier := s.records, recs := [] }
    else none

/-! ## The ring since a reset -/

/-- The ring with its record counts taken from `base` on. -/
def WalRing.since (ring : WalRing) (base : ℕ) : WalRing :=
  { ring with
    committedRecords := ring.committedRecords - base
    committedCount := ring.committedCount - base }

/-- Publishing adds to both counts, so where they start does not matter to it. -/
lemma WalRing.since_publish {ring : WalRing} {base : ℕ} (hcount : base ≤ ring.committedCount)
    (ticket : ReserveTicket) :
    (ring.publish ticket).since base = (ring.since base).publish ticket := by
  have hsub : ∀ folded, ring.committedCount + folded - base =
      ring.committedCount - base + folded := fun folded => by omega
  unfold WalRing.publish WalRing.since
  dsimp only
  split_ifs
  · simp only [hsub]
  · rfl

lemma WalRing.committedCount_le_publish (ring : WalRing) (ticket : ReserveTicket) :
    ring.committedCount ≤ (ring.publish ticket).committedCount := by
  unfold WalRing.publish
  dsimp only
  split_ifs
  · exact Nat.le_add_right _ _
  · exact le_rfl

/-- The fold of `publish` stops only where no published range continues the prefix. -/
lemma foldPublished_exhausts (fuel : ℕ) :
    ∀ (pending : List (ℕ × ℕ)) (addr folded : ℕ), pending.length ≤ fuel →
      ∀ q ∈ (WalRing.foldPublished fuel pending addr folded).1,
        q.1 ≠ (WalRing.foldPublished fuel pending addr folded).2.1 := by
  induction fuel with
  | zero =>
    intro pending addr folded hlen q hq
    have : pending = [] := by simpa using hlen
    subst this
    simp [WalRing.foldPublished] at hq
  | succ fuel ih =>
    intro pending addr folded hlen
    cases hfind : pending.find? (fun q => q.1 == addr) with
    | none =>
      intro q hq
      simp only [WalRing.foldPublished, hfind] at hq ⊢
      simpa using find?_eq_none.mp hfind q hq
    | some p =>
      have hp : p.1 = addr := by simpa using find?_some hfind
      have hlt : (pending.filter (fun q => q.1 != addr)).length < pending.length :=
        length_filter_lt_length_iff_exists.mpr
          ⟨p, mem_of_find?_eq_some hfind, by simp [hp]⟩
      simp only [WalRing.foldPublished, hfind]
      exact ih _ _ _ (by omega)

lemma WalRing.publish_folded (ring : WalRing) (ticket : ReserveTicket) :
    ∀ q ∈ (ring.publish ticket).pending, q.1 ≠ (ring.publish ticket).committedAddr := by
  have hend := foldPublished_exhausts _ ((ticket.start, ticket.stop) ::
    ring.pending.filter (fun q => q.1 != ticket.start)) ring.committedAddr 0 le_rfl
  unfold WalRing.publish
  dsimp only
  split_ifs with hmoved
  · exact hend
  · rw [not_ne_iff.mp hmoved] at hend
    exact hend

lemma WalRing.since_copyCommittedPrefix (ring : WalRing) (base : ℕ) :
    (ring.since base).copyCommittedPrefix =
      (ring.copyCommittedPrefix.1, ring.copyCommittedPrefix.2.since base) := by
  unfold WalRing.copyCommittedPrefix
  by_cases hnone : ring.committedAddr ≤ ring.flushCursor
  · have hsince : (ring.since base).committedAddr ≤ (ring.since base).flushCursor := hnone
    rw [if_pos hnone, if_pos hsince]
  · have hsince : ¬(ring.since base).committedAddr ≤ (ring.since base).flushCursor := hnone
    rw [if_neg hnone, if_neg hsince]
    rfl

/-- A copy moves the flush cursor only. -/
lemma WalRing.copyCommittedPrefix_frame (ring : WalRing) :
    ∃ cursor, ring.copyCommittedPrefix.2 = { ring with flushCursor := cursor } := by
  unfold WalRing.copyCommittedPrefix
  split_ifs
  · exact ⟨ring.flushCursor, rfl⟩
  · exact ⟨_, rfl⟩

/-! ## The invariant -/

/-- Since the last reset the ring, the records and the sink agree, and everything before it has
been handed out. -/
structure StreamInv (s : RingLog) : Prop where
  ring : ∃ file, s.sink = s.earlier.flatten ++ file ∧
    RingInv (s.ring.since s.earlier.length) s.recs file
  count : s.ring.committedCount = s.ring.committedRecords
  base : s.earlier.length ≤ s.ring.committedRecords
  /-- No published range continues the committed prefix. -/
  folded : ∀ q ∈ s.ring.pending, q.1 ≠ s.ring.committedAddr

lemma streamInv_created (bits : ℕ) : StreamInv (RingLog.created bits) where
  ring := ⟨[], rfl, ringInv_start _ rfl rfl rfl rfl rfl rfl⟩
  count := rfl
  base := le_rfl
  folded := by simp [RingLog.created, WalRing.withCapacity]

section Steps

variable {s s' : RingLog}

variable {ring : WalRing} {recs : List Submission} {file : List Byte}

/-- With an empty map of pending ranges and no bytes past the committed prefix, every record is
in the sink. -/
lemma RingInv.sink_of_drained (inv : RingInv ring recs file)
    (htail : ring.tail = ring.committedAddr) (hcursor : ring.flushCursor = ring.committedAddr) :
    file = (blocks recs).flatten ∧ ring.committedRecords = recs.length := by
  have hne := sized_blocks inv
  have hall : ring.committedRecords = recs.length := by
    refine offset_inj hne (by simpa using inv.bound) (by simp) ?_
    rw [← inv.addr, ← inv.tail, htail]
  obtain ⟨f, hf, hcur, hfile⟩ := inv.drained
  have hfall : f = recs.length := by
    refine offset_inj hne (by simpa using hf.trans inv.bound) (by simp) ?_
    rw [← hcur, hcursor, inv.addr, hall]
  refine ⟨?_, hall⟩
  rw [hfile, hfall, ← length_blocks, take_length]

/-- The step lemma: each operation of the ring keeps the invariant, a reset by starting it over. -/
theorem StreamInv.step (inv : StreamInv s) {a : RingAction} (hstep : ringStep s a = some s') :
    StreamInv s' := by
  obtain ⟨file, hsink, hring⟩ := inv.ring
  have hbase : s.earlier.length ≤ s.ring.committedCount := inv.count ▸ inv.base
  cases a with
  | reserve bytes =>
    obtain ⟨⟨hpos, hcap⟩, rfl⟩ := guard_eq_some.mp hstep
    exact { inv with ring := ⟨file, hsink, hring.reserve false hpos hcap⟩ }
  | fill i =>
    simp only [ringStep] at hstep
    split at hstep <;> try contradiction
    next r hr =>
      obtain ⟨⟨hphase, hready⟩, rfl⟩ := guard_eq_some.mp hstep
      exact { inv with ring := ⟨file, hsink, hring.fill hr hphase (of_decide_eq_true hready)⟩ }
  | publish i =>
    simp only [ringStep] at hstep
    split at hstep <;> try contradiction
    next r hr =>
      obtain ⟨hphase, rfl⟩ := guard_eq_some.mp hstep
      have hpublish := (hring.publish hr hphase).1
      rw [← WalRing.since_publish hbase] at hpublish
      have hle := s.ring.committedCount_le_publish r.ticket
      -- both counts have moved past `base`, so they agree since they do from `base` on
      have hcount : (s.ring.publish r.ticket).committedCount =
          (s.ring.publish r.ticket).committedRecords := by
        have hsince := hpublish.count
        simp only [WalRing.since] at hsince
        unfold WalRing.publish at hle hsince ⊢
        dsimp only at hle hsince ⊢
        split_ifs at hle hsince ⊢
        · rfl
        · exact inv.count
      exact {
        ring := ⟨file, hsink, hpublish⟩
        count := hcount
        base := (hbase.trans hle).trans hcount.le
        folded := s.ring.publish_folded r.ticket }
  | copy =>
    simp only [ringStep, Option.some.injEq] at hstep
    subst hstep
    have hcopy := hring.copy.1
    rw [WalRing.since_copyCommittedPrefix] at hcopy
    obtain ⟨cursor, hframe⟩ := s.ring.copyCommittedPrefix_frame
    rw [hframe] at hcopy ⊢
    exact { inv with ring := ⟨_, by rw [hsink, append_assoc], hcopy⟩ }
  | reset =>
    obtain ⟨⟨hpending, htail, hcursor⟩, rfl⟩ := guard_eq_some.mp hstep
    obtain ⟨hfile, hall⟩ := hring.sink_of_drained htail hcursor
    have hrecords : s.ring.committedRecords = s.records.length := by
      have : s.ring.committedRecords - s.earlier.length = s.recs.length := hall
      have hle := inv.base
      simp only [RingLog.records, length_append, length_blocks]
      omega
    have hcount : s.ring.committedCount = s.records.length := inv.count.trans hrecords
    refine { ring := ⟨[], ?_, ?_⟩, count := inv.count, base := hrecords.ge, folded := ?_ }
    · rw [hsink, hfile]
      simp [RingLog.records]
    · refine ringInv_start _ rfl rfl rfl hpending ?_ ?_
      · simp [WalRing.since, WalRing.resetAfterDrain, hcount]
      · simp [WalRing.since, WalRing.resetAfterDrain, hrecords]
    · simp [WalRing.resetAfterDrain, hpending]

/-! ## What the sink has seen -/

lemma StreamInv.sink_eq (inv : StreamInv s) :
    ∃ n, s.sink = (s.records.take n).flatten ∧ ∀ i < n, s.Published i := by
  obtain ⟨file, hsink, hring⟩ := inv.ring
  obtain ⟨f, hf, -, hfile⟩ := hring.drained
  refine ⟨s.earlier.length + f, ?_, fun i hi => ?_⟩
  · rw [hsink, hfile, RingLog.records, take_length_add_append, flatten_append]
  · by_cases hearlier : i < s.earlier.length
    · exact .inl hearlier
    · exact .inr (hring.committed _ (by omega))

/-- Of the records since the last reset, the committed ones are those that end below the
committed address. -/
lemma RingInv.countP_committed (inv : RingInv ring recs file) :
    recs.countP (fun r => r.ticket.stop ≤ ring.committedAddr) = ring.committedRecords := by
  have hne := sized_blocks inv
  have hiff : ∀ (i : ℕ) (r : Submission), recs[i]? = some r →
      (r.ticket.stop ≤ ring.committedAddr ↔ i < ring.committedRecords) := by
    intro i r hr
    have hi : i < recs.length := (List.getElem?_eq_some_iff.mp hr).1
    rw [inv.ticket i r hr, inv.addr]
    constructor
    · intro hle
      by_contra hge
      have hlt := offset_lt_of_lt (blocks recs) hne (show ring.committedRecords < i + 1 by omega)
        (by simpa using hi)
      exact absurd hle (not_le.mpr hlt)
    · intro hlt
      exact offset_mono (blocks recs) hlt
  rw [← take_append_drop ring.committedRecords recs, countP_append]
  have hfst : (recs.take ring.committedRecords).countP
      (fun r => r.ticket.stop ≤ ring.committedAddr) = ring.committedRecords := by
    rw [countP_eq_length.mpr, length_take, min_eq_left inv.bound]
    intro r hr
    obtain ⟨i, hi⟩ := mem_iff_getElem?.mp hr
    rw [getElem?_take, Option.ite_none_right_eq_some] at hi
    simpa using (hiff i r hi.2).mpr hi.1
  have hsnd : (recs.drop ring.committedRecords).countP
      (fun r => r.ticket.stop ≤ ring.committedAddr) = 0 := by
    rw [countP_eq_zero]
    intro r hr
    obtain ⟨i, hi⟩ := mem_iff_getElem?.mp hr
    rw [getElem?_drop] at hi
    have := (hiff _ r hi).not.mpr (by omega)
    simpa using this
  rw [hfst, hsnd, Nat.add_zero]

/-- A committed prefix that no published record continues covers all records once all are
published. -/
lemma RingInv.committed_all (inv : RingInv ring recs file)
    (hfolded : ∀ q ∈ ring.pending, q.1 ≠ ring.committedAddr)
    (hall : ∀ r ∈ recs, r.phase.isPublished = true) : ring.committedRecords = recs.length := by
  by_contra hne
  have hlt : ring.committedRecords < recs.length := by
    have := inv.bound
    omega
  have hpub : Journal.Published recs ring.committedRecords :=
    ⟨recs[ring.committedRecords], getElem?_eq_getElem hlt, hall _ (getElem_mem hlt)⟩
  have hmem := (inv.pending _).mpr ⟨ring.committedRecords, le_rfl, by simpa using hlt, hpub, rfl⟩
  exact hfolded _ hmem inv.addr.symm

/-- Once all records are published, one copy hands out the rest. -/
lemma StreamInv.copy_all (inv : StreamInv s) (hall : ∀ r ∈ s.recs, r.phase.isPublished = true)
    (hstep : ringStep s .copy = some s') : s'.sink = s.records.flatten := by
  obtain ⟨file, hsink, hring⟩ := inv.ring
  have hcommitted := hring.committed_all inv.folded hall
  obtain ⟨hcopy, hlen, -⟩ := hring.copy
  obtain ⟨f, hf, -, hfile⟩ := hcopy.drained
  have hbound := hf.trans hcopy.bound
  -- the copy reaches the end of the last record, so it hands out all of them
  have hfall : f = s.recs.length := by
    by_contra hne
    have hlt := offset_lt_of_lt (blocks s.recs) (sized_blocks hring)
      (show f < s.recs.length by omega) (by simp)
    rw [hcommitted, hfile, length_flatten_take] at hlen
    omega
  rw [WalRing.since_copyCommittedPrefix, hfall, ← length_blocks, take_length] at hfile
  simp only [ringStep, Option.some.injEq] at hstep
  subst hstep
  simp only [RingLog.records, flatten_append, ← hfile, hsink, append_assoc]

end Steps

/-- In every run of writers, flusher and resets, from a ring of any capacity:
* the sink has seen the first records in reservation order, whole and published;
* a byte written into the ring and not yet handed out still stands in its cell;
* `committed_records` counts the records below `committed_addr`, those of earlier epochs
  included;
* when everything reserved is published, one more copy hands out all of it. -/
theorem ring_stream (bits : ℕ) {s : RingLog} {as : List RingAction}
    (hrun : FreePath ringStep (RingLog.created bits) as s) :
    (∃ n, s.sink = (s.records.take n).flatten ∧ ∀ i < n, s.Published i) ∧
    (∀ r ∈ s.recs, r.phase.isFilled = true → ∀ j (hj : j < r.bytes.length),
      s.ring.flushCursor ≤ r.ticket.start + j →
        s.ring.buf ((r.ticket.start + j) % s.ring.capacity) = r.bytes[j]) ∧
    s.ring.committedRecords = s.earlier.length +
      s.recs.countP (fun r => r.ticket.stop ≤ s.ring.committedAddr) ∧
    ((∀ r ∈ s.recs, r.phase.isPublished = true) →
      (ringStep s .copy).map RingLog.sink = some s.records.flatten) := by
  have inv : StreamInv s :=
    hrun.invariant (fun _ _ _ hs _ hstep => hs.step hstep) (streamInv_created bits)
  refine ⟨inv.sink_eq, fun r hr hfill j hj hge => ?_, ?_, fun hall => ?_⟩
  · obtain ⟨file, -, hring⟩ := inv.ring
    obtain ⟨i, hi⟩ := mem_iff_getElem?.mp hr
    exact hring.buffer i r hi hfill j hj hge
  · obtain ⟨file, -, hring⟩ := inv.ring
    have hcount := hring.countP_committed
    have hbase := inv.base
    change _ = s.ring.committedRecords - s.earlier.length at hcount
    change s.recs.countP (fun r => r.ticket.stop ≤ s.ring.committedAddr) = _ at hcount
    omega
  · have hstep : ringStep s .copy = some _ := rfl
    rw [hstep, Option.map_some, inv.copy_all hall hstep]

/-- Two records in four cells, the second across the wrap; after a reset a third. -/
def wrappedRun : List RingAction :=
  [.reserve [1, 2, 3], .fill 0, .publish 0, .copy, .reserve [4, 5, 6], .fill 1, .publish 1,
    .copy, .reset, .reserve [7], .fill 0, .publish 0, .reserve [8, 9]]

theorem ring_stream_wrappedRun :
    ∃ s, FreePath ringStep (RingLog.created 2) wrappedRun s ∧
      s.records = [[1, 2, 3], [4, 5, 6], [7], [8, 9]] ∧
      s.ring.committedRecords = s.earlier.length +
        s.recs.countP (fun r => r.ticket.stop ≤ s.ring.committedAddr) := by
  obtain ⟨s, hexec, hrecords⟩ := exists_of_exec_any
    (show (exec ringStep (RingLog.created 2) wrappedRun).any (fun s =>
      decide (s.records = [[1, 2, 3], [4, 5, 6], [7], [8, 9]])) = true by decide +kernel)
  have hpath := freePath_of_exec hexec
  exact ⟨s, hpath, of_decide_eq_true hrecords, (ring_stream 2 hpath).2.2.1⟩

end Journal
end Holt
